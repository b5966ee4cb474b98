import ProjectDb.Sync
import ProjectDb.Validation
import ProjectDb.Integrity

namespace ProjectDb
open Text ProjectDb.Path
set_option autoImplicit true

/-- The org row at a folded path. -/
def Store.rowAt (s : Store) (key : Str) : Option ProjectRow :=
  s.orgRows.find? fun r => toAsciiLowercase r.path == key

theorem Store.mem_orgRows {s : Store} : r ∈ s.orgRows ↔ r ∈ s.project ∧ r.isOrg = true :=
  List.mem_filter

theorem Store.rowAt_eq_some {s : Store}
    (hk : (s.project.map fun r => toAsciiLowercase r.path).Nodup) :
    s.rowAt key = some r ↔ r ∈ s.project ∧ r.isOrg = true ∧ toAsciiLowercase r.path = key := by
  constructor
  · intro h
    obtain ⟨hm, ho⟩ := mem_orgRows.1 (List.mem_of_find?_eq_some h)
    have hp := List.find?_some h
    exact ⟨hm, ho, beq_iff_eq.1 hp⟩
  · rintro ⟨hm, ho, hp⟩
    cases h : s.rowAt key with
    | none =>
      have hn := List.find?_eq_none.1 h r (mem_orgRows.2 ⟨hm, ho⟩)
      exact absurd (beq_iff_eq.2 hp) hn
    | some r' =>
      unfold rowAt at h
      have hm' := (mem_orgRows.1 (List.mem_of_find?_eq_some h)).1
      have hp' := List.find?_some h
      rw [beq_iff_eq] at hp'
      rw [List.inj_on_of_nodup_map hk hm' hm (hp'.trans hp.symm)]

theorem Store.rowAt_eq_none {s : Store} :
    s.rowAt key = none ↔ ∀ r ∈ s.project, r.isOrg = true → toAsciiLowercase r.path ≠ key := by
  unfold rowAt
  rw [List.find?_eq_none]
  constructor
  · intro h r hm ho he
    exact h r (mem_orgRows.2 ⟨hm, ho⟩) (beq_iff_eq.2 he)
  · intro h r hm he
    obtain ⟨hm, ho⟩ := mem_orgRows.1 hm
    exact h r hm ho (beq_iff_eq.1 he)

namespace Sync
open Grants

/-- The row a declaration is about. -/
def Declared.Names (d : Declared) (r : ProjectRow) : Prop :=
  r.isOrg = true ∧ toAsciiLowercase r.path = d.key

instance (d : Declared) (r : ProjectRow) : Decidable (d.Names r) :=
  inferInstanceAs (Decidable (_ ∧ _))

/-- A stored row that a declaration leaves as it is. -/
def Declared.Agrees (d : Declared) (r : Stored) : Prop :=
  r.displayName = d.displayName ∧ r.sourceRepo = some d.sourceRepo ∧
    r.status = ProjectStatus.active.toI8

instance (d : Declared) (r : Stored) : Decidable (d.Agrees r) :=
  inferInstanceAs (Decidable (_ ∧ _))

theorem agrees_iff (d : Declared) (r : Stored) :
    (!differs r d && !reactivating r) = true ↔ d.Agrees r := by
  simp only [differs, reactivating, Bool.and_eq_true, Bool.not_eq_true', Bool.or_eq_false_iff,
    bne_eq_false_iff_eq, Declared.Agrees, and_assoc]

/-- What validation makes of a declaration, for the planners. -/
structure Sound (declared : List Declared) : Prop where
  keys : (declared.map Declared.key).Nodup
  folded : ∀ d ∈ declared, d.key = toAsciiLowercase d.path
  org : ∀ d ∈ declared, isPrivateClass d.path = false
  path_width : ∀ d ∈ declared, d.path.length ≤ 255
  repo_width : ∀ d ∈ declared, d.sourceRepo.length ≤ 255
  name_width : ∀ d ∈ declared, d.displayName.length ≤ 255
  teams : ∀ d ∈ declared, (d.grants.map Prod.fst).Nodup
  levels : ∀ d ∈ declared, ∀ g ∈ d.grants, g.2 = 1 ∨ g.2 = 2
  team_width : ∀ d ∈ declared, ∀ g ∈ d.grants, g.1.length ≤ 96

theorem isTeamId_length {t : Str} (h : isTeamId t = true) : t.length ≤ 96 := by
  unfold isTeamId at h
  split at h
  · cases h
  · cases h
  · rename_i c chars hp
    have ht := isPrefixOf?_eq_some.1 hp
    simp only [Bool.and_eq_true, decide_eq_true_eq] at h
    have hc : (c :: chars).length ≤ 63 := h.1.2
    have hl : teamPrefix.length = 12 := by decide
    rw [ht, List.length_append, hl]
    omega

theorem validation_sound {req : SyncProjectsRequest} (h : WellFormed req) : Sound (rows req) where
  keys := key_nodup h
  folded := by
    intro d hd
    obtain ⟨d', _, rfl⟩ := List.mem_map.1 hd
    rfl
  org := by
    intro d hd
    obtain ⟨d', hd', rfl⟩ := List.mem_map.1 hd
    exact (h.row hd').org
  path_width := by
    intro d hd
    obtain ⟨d', hd', rfl⟩ := List.mem_map.1 hd
    have hg := (h.row hd').grammar.1
    exact Nat.le_trans (length_le_byteLen _) hg
  repo_width := by
    intro d hd
    obtain ⟨d', hd', rfl⟩ := List.mem_map.1 hd
    exact (h.row hd').repo_width
  name_width := by
    intro d hd
    obtain ⟨d', hd', rfl⟩ := List.mem_map.1 hd
    exact (h.row hd').name_width
  teams := by
    intro d hd
    obtain ⟨d', hd', rfl⟩ := List.mem_map.1 hd
    have ho := (h.row hd').grants.once
    simp only [Declared.of, List.map_map]
    exact ho
  levels := by
    intro d hd g hg
    obtain ⟨d', hd', rfl⟩ := List.mem_map.1 hd
    obtain ⟨g', hg', rfl⟩ := List.mem_map.1 hg
    exact (h.row hd').grants.levels g' hg'
  team_width := by
    intro d hd g hg
    obtain ⟨d', hd', rfl⟩ := List.mem_map.1 hd
    obtain ⟨g', hg', rfl⟩ := List.mem_map.1 hg
    exact isTeamId_length ((h.row hd').grants.teams g' hg')

theorem Sound.tail (h : Sound (d :: ds)) : Sound ds where
  keys := (List.nodup_cons.1 h.keys).2
  folded := fun d' hd' => h.folded d' (List.mem_cons_of_mem _ hd')
  org := fun d' hd' => h.org d' (List.mem_cons_of_mem _ hd')
  path_width := fun d' hd' => h.path_width d' (List.mem_cons_of_mem _ hd')
  repo_width := fun d' hd' => h.repo_width d' (List.mem_cons_of_mem _ hd')
  name_width := fun d' hd' => h.name_width d' (List.mem_cons_of_mem _ hd')
  teams := fun d' hd' => h.teams d' (List.mem_cons_of_mem _ hd')
  levels := fun d' hd' => h.levels d' (List.mem_cons_of_mem _ hd')
  team_width := fun d' hd' => h.team_width d' (List.mem_cons_of_mem _ hd')

/-- What the snapshot map answers is the org row at the key. -/
theorem get_byKey {s : Store} (hk : (s.project.map fun r => toAsciiLowercase r.path).Nodup)
    {stored : List Stored} (hp : stored.Perm (s.orgRows.map Stored.of)) (key : Str) :
    HashMap.get (byKey stored) key = (s.rowAt key).map Stored.of := by
  unfold byKey
  cases h : s.rowAt key with
  | none =>
    rw [Option.map_none, HashMap.get_collect_none]
    intro v hm
    obtain ⟨st, hst, he⟩ := List.mem_map.1 hm
    obtain ⟨r, hr, rfl⟩ := List.mem_map.1 (hp.mem_iff.1 hst)
    obtain ⟨hr, ho⟩ := Store.mem_orgRows.1 hr
    exact Store.rowAt_eq_none.1 h r hr ho (Prod.mk.inj he).1
  | some r =>
    obtain ⟨hr, ho, rfl⟩ := (Store.rowAt_eq_some hk).1 h
    rw [Option.map_some, HashMap.get_collect]
    · exact List.mem_map.2 ⟨Stored.of r,
        hp.mem_iff.2 (List.mem_map_of_mem (Store.mem_orgRows.2 ⟨hr, ho⟩)), rfl⟩
    · have hn : ((s.orgRows.map Stored.of).map fun st => toAsciiLowercase st.path).Nodup := by
        rw [List.map_map]
        exact (List.filter_sublist.map _).nodup hk
      rw [List.map_map]
      exact (hp.map _).nodup_iff.2 hn

/-- The declaration grants the team a level on the row of the key. -/
def Declares (declared : List Declared) (pair : Str × Str) (level : Int) : Prop :=
  ∃ d ∈ declared, d.key = pair.1 ∧ (pair.2, level) ∈ d.grants

/-- The pair of a stored grant that the declaration is compared on. -/
def pairOf (g : StoredGrant) : Str × Str := (toAsciiLowercase g.path, g.teamId)

theorem Declares.level_eq {declared : List Declared} (hd : Sound declared)
    (h : Declares declared pair l) (h' : Declares declared pair l') : l = l' := by
  obtain ⟨d, hm, hk, hg⟩ := h
  obtain ⟨d', hm', hk', hg'⟩ := h'
  have he : d = d' := List.inj_on_of_nodup_map hd.keys hm hm' (hk.trans hk'.symm)
  subst he
  have hg := List.inj_on_of_nodup_map (hd.teams d hm) hg hg' rfl
  exact (Prod.mk.inj hg).2

theorem mem_wantedPairs {declared : List Declared} {pair : Str × Str} {l : Int} :
    (pair, l) ∈ (declared.flatMap fun d => d.grants.map fun g => ((d.key, g.1), g.2)) ↔
      Declares declared pair l := by
  simp only [List.mem_flatMap, List.mem_map, Prod.mk.injEq, Declares]
  constructor
  · rintro ⟨d, hd, g, hg, rfl, rfl⟩
    exact ⟨d, hd, rfl, hg⟩
  · rintro ⟨d, hd, hk, hg⟩
    exact ⟨d, hd, _, hg, Prod.ext hk rfl, rfl⟩

theorem pairs_nodup {declared : List Declared} (hd : Sound declared) :
    (declared.flatMap fun d => d.grants.map fun g => (d.key, g.1)).Nodup := by
  apply List.nodup_flatMap.2
  refine ⟨fun d hm => ?_, ?_⟩
  · have hn := hd.teams d hm
    have he : (fun g : Str × Int => (d.key, g.1)) = (fun t => (d.key, t)) ∘ Prod.fst := rfl
    rw [he, ← List.map_map]
    exact hn.map fun a b h => (Prod.mk.inj h).2
  · apply (List.pairwise_map.1 hd.keys).imp
    intro d d' hne pair hm hm'
    obtain ⟨g, _, rfl⟩ := List.mem_map.1 hm
    obtain ⟨g', _, he⟩ := List.mem_map.1 hm'
    exact hne (Prod.mk.inj he).1.symm

theorem get_wanted {declared : List Declared} (hd : Sound declared) {pair : Str × Str} {l : Int} :
    HashMap.get (wanted declared) pair = some l ↔ Declares declared pair l := by
  unfold wanted
  rw [HashMap.get_collect, mem_wantedPairs]
  simp only [List.map_flatMap, List.map_map]
  exact pairs_nodup hd

theorem get_wanted_none {declared : List Declared} {pair : Str × Str} :
    HashMap.get (wanted declared) pair = none ↔ ∀ l, ¬ Declares declared pair l := by
  unfold wanted
  simp only [HashMap.get_collect_none, mem_wantedPairs]

/-- The stored grants the declaration does not name. -/
def revoked (wanted : HashMap (Str × Str) Int) (stored : List StoredGrant) : List (Str × Str) :=
  (stored.filter fun g => (wanted.get (pairOf g)).isNone).map fun g => (g.projectId, g.teamId)

/-- The stored grants the declaration names at another level. -/
def relevelled (wanted : HashMap (Str × Str) Int) (stored : List StoredGrant) :
    List (Str × Str × Int) :=
  stored.filterMap fun g => (wanted.get (pairOf g)).bind fun level =>
    if level = g.level then none else some (g.projectId, g.teamId, level)

theorem foldl_planStored (wanted : HashMap (Str × Str) Int) (stored : List StoredGrant)
    (p : GrantPlan) :
    stored.foldl (planStored wanted) p =
      ⟨p.inserts, p.updates ++ relevelled wanted stored, p.deletes ++ revoked wanted stored,
        p.unchanged + stored.countP fun g => wanted.get (pairOf g) == some g.level⟩ := by
  induction stored generalizing p with
  | nil => simp [relevelled, revoked]
  | cons g stored ih =>
    rw [List.foldl_cons, ih]
    have hp : (toAsciiLowercase g.path, g.teamId) = pairOf g := rfl
    simp only [planStored, hp]
    cases h : HashMap.get wanted (pairOf g) with
    | none => simp [relevelled, revoked, h]
    | some level =>
      by_cases hl : level = g.level
      · simp [relevelled, revoked, h, hl, Nat.add_assoc, Nat.add_comm]
      · simp [relevelled, revoked, h, hl]

theorem plan_eq (declared : List Declared) (stored : List StoredGrant) :
    Grants.plan declared stored =
      ⟨missing (kept stored) declared, relevelled (wanted declared) stored,
        revoked (wanted declared) stored,
        stored.countP fun g => (wanted declared).get (pairOf g) == some g.level⟩ := by
  unfold Grants.plan
  rw [foldl_planStored]
  simp only [List.nil_append, Nat.zero_add]

end Sync
end ProjectDb
