import ProjectDb.Declaration
import Mathlib.Data.List.Nodup
import Mathlib.Data.List.Perm.Basic

namespace ProjectDb
open Text ProjectDb.Path
set_option autoImplicit true

theorem bind_eq_ok {x : Except ε α} {f : α → Except ε β} :
    (x >>= f) = .ok b ↔ ∃ a, x = .ok a ∧ f a = .ok b := by
  cases x with
  | error e =>
    constructor
    · intro h
      cases h
    · rintro ⟨a, h, _⟩
      cases h
  | ok a =>
    constructor
    · intro h
      exact ⟨a, rfl, h⟩
    · rintro ⟨a', h, h'⟩
      cases h
      exact h'

theorem bind_eq_error {x : Except ε α} {f : α → Except ε β} (h : (x >>= f) = .error e) :
    x = .error e ∨ ∃ a, x = .ok a ∧ f a = .error e := by
  cases x with
  | error e' =>
    cases h
    exact .inl rfl
  | ok a => exact .inr ⟨a, rfl, h⟩

namespace Grants

theorem levelOf_eq_some : levelOf l = some m ↔ m = l ∧ (l = 1 ∨ l = 2) := by
  unfold levelOf GrantLevel.tryFrom
  split
  · rename_i h
    split at h
    · cases h
    · split at h
      · rename_i h₁
        subst h₁
        simp only [GrantLevel.toI8, Option.some.injEq, true_or, and_true]
        exact eq_comm
      · split at h <;> cases h
  · rename_i h
    split at h
    · cases h
    · split at h
      · cases h
      · split at h
        · rename_i h₂
          subst h₂
          simp only [GrantLevel.toI8, Option.some.injEq, or_true, and_true]
          exact eq_comm
        · cases h
  · rename_i h₁ h₂
    simp only [reduceCtorEq, false_iff, not_and, not_or]
    intro _
    constructor
    · rintro rfl
      exact h₁ rfl
    · rintro rfl
      exact h₂ rfl

/-- The grants a row may carry beside teams already seen. -/
structure GrantsOk (gs : List DeclaredGrant) (seen : List Str) : Prop where
  levels : ∀ g ∈ gs, g.level = 1 ∨ g.level = 2
  teams : ∀ g ∈ gs, isTeamId g.teamId = true
  once : (gs.map DeclaredGrant.teamId).Nodup
  unseen : ∀ g ∈ gs, g.teamId ∉ seen

theorem GrantsOk.cons (h : GrantsOk gs (g.teamId :: seen)) (hl : g.level = 1 ∨ g.level = 2)
    (ht : isTeamId g.teamId = true) (hs : g.teamId ∉ seen) : GrantsOk (g :: gs) seen where
  levels := List.forall_mem_cons.2 ⟨hl, h.levels⟩
  teams := List.forall_mem_cons.2 ⟨ht, h.teams⟩
  once := by
    rw [List.map_cons, List.nodup_cons]
    refine ⟨fun hm => ?_, h.once⟩
    obtain ⟨g', hg', he⟩ := List.mem_map.1 hm
    exact h.unseen g' hg' (he ▸ List.mem_cons_self)
  unseen := by
    intro g' hg' hm
    rcases List.mem_cons.1 hg' with rfl | hg'
    · exact hs hm
    · exact h.unseen g' hg' (List.mem_cons_of_mem _ hm)

theorem GrantsOk.tail (h : GrantsOk (g :: gs) seen) : GrantsOk gs (g.teamId :: seen) where
  levels := fun g' hg' => h.levels g' (List.mem_cons_of_mem _ hg')
  teams := fun g' hg' => h.teams g' (List.mem_cons_of_mem _ hg')
  once := (List.nodup_cons.1 h.once).2
  unseen := by
    intro g' hg' hm
    rcases List.mem_cons.1 hm with he | hm
    · apply (List.nodup_cons.1 h.once).1
      rw [← he]
      exact List.mem_map_of_mem hg'
    · exact h.unseen g' (List.mem_cons_of_mem _ hg') hm

theorem validateFrom_ok_iff (path : Str) (gs : List DeclaredGrant) (seen : List Str) :
    validateFrom path gs seen = .ok out ↔
      GrantsOk gs seen ∧ out = gs.map fun g => (g.teamId, g.level) := by
  induction gs generalizing seen out with
  | nil =>
    simp only [validateFrom, Except.ok.injEq, List.map_nil]
    constructor
    · rintro rfl
      refine ⟨⟨?_, ?_, List.nodup_nil, ?_⟩, rfl⟩ <;> exact fun _ h => absurd h List.not_mem_nil
    · rintro ⟨_, rfl⟩
      rfl
  | cons g gs ih =>
    unfold validateFrom
    cases hl : levelOf g.level with
    | none =>
      simp only [reduceCtorEq, false_iff]
      rintro ⟨h, _⟩
      rw [levelOf_eq_some.2 ⟨rfl, h.levels g List.mem_cons_self⟩] at hl
      cases hl
    | some level =>
      obtain ⟨rfl, hlevel⟩ := levelOf_eq_some.1 hl
      simp only
      split
      · rename_i ht
        simp only [reduceCtorEq, false_iff]
        rintro ⟨h, _⟩
        rw [h.teams g List.mem_cons_self] at ht
        cases ht
      · rename_i ht
        have ht' : isTeamId g.teamId = true := by
          simpa only [Bool.not_eq_true', Bool.not_eq_false] using ht
        split
        · rename_i hs
          simp only [reduceCtorEq, false_iff]
          rintro ⟨h, _⟩
          exact h.unseen g List.mem_cons_self (List.contains_iff_mem.1 hs)
        · rename_i hs
          have hs' : g.teamId ∉ seen := fun hm => hs (List.contains_iff_mem.2 hm)
          rw [bind_eq_ok]
          constructor
          · rintro ⟨rest, hrest, h⟩
            cases h
            obtain ⟨hok, rfl⟩ := (ih _).1 hrest
            exact ⟨hok.cons hlevel ht' hs', rfl⟩
          · rintro ⟨hok, rfl⟩
            exact ⟨_, (ih _).2 ⟨hok.tail, rfl⟩, rfl⟩

theorem validateFrom_code {path : Str} {gs : List DeclaredGrant} {seen : List Str}
    (h : validateFrom path gs seen = .error e) : e.code = .invalidArgument := by
  induction gs generalizing seen with
  | nil => cases h
  | cons g gs ih =>
    unfold validateFrom at h
    cases hl : levelOf g.level with
    | none =>
      rw [hl] at h
      cases h
      rfl
    | some level =>
      rw [hl] at h
      simp only at h
      split at h
      · cases h
        rfl
      · split at h
        · cases h
          rfl
        · rcases bind_eq_error h with h | ⟨_, _, h⟩
          · exact ih h
          · cases h

theorem validate_ok_iff (d : DeclaredProject) :
    validate d = .ok out ↔ GrantsOk d.grants [] ∧ out = d.grants.map fun g => (g.teamId, g.level) :=
  validateFrom_ok_iff d.path d.grants []

theorem validate_code {d : DeclaredProject} (h : validate d = .error e) :
    e.code = .invalidArgument :=
  validateFrom_code h

end Grants

namespace Sync
open Grants

/-- What the checks of one declared row ask of it. -/
structure RowOk (d : DeclaredProject) : Prop where
  grammar : Grammatical d.path
  unreserved : ¬ FoldsOnto d.path reservedRoot
  org : isPrivateClass d.path = false
  repo : d.sourceRepo ≠ []
  repo_width : d.sourceRepo.length ≤ maxChars
  name_width : d.displayName.length ≤ maxChars
  grants : GrantsOk d.grants []

def Declared.of (d : DeclaredProject) : Declared where
  key := toAsciiLowercase d.path
  path := d.path
  displayName := d.displayName
  sourceRepo := d.sourceRepo
  grants := d.grants.map fun g => (g.teamId, g.level)

theorem refuseWide_ok_iff (field : String) (value path : Str) :
    refuseWide field value path = .ok () ↔ value.length ≤ maxChars := by
  unfold refuseWide
  split
  · rename_i h
    simp only [reduceCtorEq, false_iff]
    exact Nat.not_le_of_gt h
  · rename_i h
    simp only [true_iff]
    exact Nat.le_of_not_gt h

theorem refuseWide_code {field : String} {value path : Str}
    (h : refuseWide field value path = .error e) : e.code = .invalidArgument := by
  unfold refuseWide at h
  split at h
  · cases h
    rfl
  · cases h

theorem row_ok_iff (what : String) (d : DeclaredProject) :
    row what d = .ok r ↔ RowOk d ∧ r = Declared.of d := by
  unfold row
  simp only [bind_eq_ok]
  constructor
  · rintro ⟨_, hv, _, hr, h⟩
    split at h
    · cases h
    · rename_i hp
      split at h
      · cases h
      · rename_i hrepo
        obtain ⟨_, hw, h⟩ := bind_eq_ok.1 h
        obtain ⟨_, hn, h⟩ := bind_eq_ok.1 h
        obtain ⟨_, hg, h⟩ := bind_eq_ok.1 h
        cases h
        obtain ⟨hok, rfl⟩ := (Grants.validate_ok_iff d).1 hg
        refine ⟨⟨(Path.validate_ok_iff what _).1 hv, (refuseReservedRoot_ok_iff what _).1 hr,
          eq_false_of_ne_true hp, fun he => hrepo (List.isEmpty_iff.2 he),
          (refuseWide_ok_iff _ _ _).1 hw, (refuseWide_ok_iff _ _ _).1 hn, hok⟩, rfl⟩
  · rintro ⟨h, rfl⟩
    refine ⟨(), (Path.validate_ok_iff what _).2 h.grammar, (),
      (refuseReservedRoot_ok_iff what _).2 h.unreserved, ?_⟩
    have hrepo : d.sourceRepo.isEmpty = false := List.isEmpty_eq_false_iff.2 h.repo
    rw [h.org, hrepo, (refuseWide_ok_iff _ _ _).2 h.repo_width,
      (refuseWide_ok_iff _ _ _).2 h.name_width, (Grants.validate_ok_iff d).2 ⟨h.grants, rfl⟩]
    rfl

theorem row_code {what : String} {d : DeclaredProject} (h : row what d = .error e) :
    e.code = .invalidArgument := by
  unfold row at h
  rcases bind_eq_error h with h | ⟨_, _, h⟩
  · exact Path.validate_code h
  · rcases bind_eq_error h with h | ⟨_, _, h⟩
    · exact refuseReservedRoot_code h
    · split at h
      · cases h
        rfl
      · split at h
        · cases h
          rfl
        · rcases bind_eq_error h with h | ⟨_, _, h⟩
          · exact refuseWide_code h
          · rcases bind_eq_error h with h | ⟨_, _, h⟩
            · exact refuseWide_code h
            · rcases bind_eq_error h with h | ⟨_, _, h⟩
              · exact Grants.validate_code h
              · cases h

def RootOk (d : DeclaredProject) : Prop := RowOk d ∧ '/' ∉ d.path

theorem validateRoots_ok_iff (roots : List DeclaredProject) :
    validateRoots roots = .ok out ↔ (∀ d ∈ roots, RootOk d) ∧ out = roots.map Declared.of := by
  induction roots generalizing out with
  | nil =>
    simp only [validateRoots, Except.ok.injEq, List.not_mem_nil, false_imp_iff, implies_true,
      List.map_nil, true_and]
    exact eq_comm
  | cons d roots ih =>
    unfold validateRoots
    simp only [bind_eq_ok, row_ok_iff]
    constructor
    · rintro ⟨_, ⟨hrow, rfl⟩, h⟩
      split at h
      · cases h
      · rename_i hc
        obtain ⟨rest, hrest, h⟩ := bind_eq_ok.1 h
        cases h
        obtain ⟨hall, rfl⟩ := ih.1 hrest
        refine ⟨List.forall_mem_cons.2 ⟨⟨hrow, fun hm => hc ?_⟩, hall⟩, rfl⟩
        exact List.contains_iff_mem.2 hm
    · rintro ⟨hall, rfl⟩
      obtain ⟨⟨hrow, hc⟩, hall⟩ := List.forall_mem_cons.1 hall
      refine ⟨_, ⟨hrow, rfl⟩, ?_⟩
      have hc' : d.path.contains '/' = false := by
        apply eq_false_of_ne_true
        intro h
        exact hc (List.contains_iff_mem.1 h)
      rw [hc', ih.2 ⟨hall, rfl⟩]
      rfl

theorem validateRoots_code {roots : List DeclaredProject} (h : validateRoots roots = .error e) :
    e.code = .invalidArgument := by
  induction roots with
  | nil => cases h
  | cons d roots ih =>
    unfold validateRoots at h
    rcases bind_eq_error h with h | ⟨_, _, h⟩
    · exact row_code h
    · split at h
      · cases h
        rfl
      · rcases bind_eq_error h with h | ⟨_, _, h⟩
        · exact ih h
        · cases h

/-- A project is a valid row strictly beneath one of the roots. -/
def ProjectOk (roots : List Str) (d : DeclaredProject) : Prop :=
  RowOk d ∧ '/' ∈ toAsciiLowercase d.path ∧ (segments (toAsciiLowercase d.path)).headD [] ∈ roots

theorem validateProjects_ok_iff (roots : List Str) (projects : List DeclaredProject) :
    validateProjects roots projects = .ok out ↔
      (∀ d ∈ projects, ProjectOk roots d) ∧ out = projects.map Declared.of := by
  induction projects generalizing out with
  | nil =>
    simp only [validateProjects, Except.ok.injEq, List.not_mem_nil, false_imp_iff, implies_true,
      List.map_nil, true_and]
    exact eq_comm
  | cons d projects ih =>
    unfold validateProjects
    simp only [bind_eq_ok, row_ok_iff]
    constructor
    · rintro ⟨_, ⟨hrow, rfl⟩, h⟩
      split at h
      · cases h
      · rename_i hc
        obtain ⟨rest, hrest, h⟩ := bind_eq_ok.1 h
        cases h
        obtain ⟨hall, rfl⟩ := ih.1 hrest
        simp only [Bool.or_eq_true, Bool.not_eq_true', not_or, Bool.not_eq_false,
          List.contains_iff_mem] at hc
        exact ⟨List.forall_mem_cons.2 ⟨⟨hrow, hc⟩, hall⟩, rfl⟩
    · rintro ⟨hall, rfl⟩
      obtain ⟨⟨hrow, hc⟩, hall⟩ := List.forall_mem_cons.1 hall
      refine ⟨_, ⟨hrow, rfl⟩, ?_⟩
      have h₁ : (Declared.of d).key.contains '/' = true := List.contains_iff_mem.2 hc.1
      have h₂ : roots.contains ((segments (Declared.of d).key).headD []) = true :=
        List.contains_iff_mem.2 hc.2
      rw [h₁, h₂, ih.2 ⟨hall, rfl⟩]
      rfl

theorem validateProjects_code {roots : List Str} {projects : List DeclaredProject}
    (h : validateProjects roots projects = .error e) : e.code = .invalidArgument := by
  induction projects with
  | nil => cases h
  | cons d projects ih =>
    unfold validateProjects at h
    rcases bind_eq_error h with h | ⟨_, _, h⟩
    · exact row_code h
    · simp only at h
      split at h
      · cases h
        rfl
      · rcases bind_eq_error h with h | ⟨_, _, h⟩
        · exact ih h
        · cases h

theorem refuseDuplicates_ok_iff (rows : List Declared) (seen : List Str) :
    refuseDuplicates rows seen = .ok () ↔
      (rows.map Declared.key).Nodup ∧ ∀ d ∈ rows, d.key ∉ seen := by
  induction rows generalizing seen with
  | nil =>
    simp only [refuseDuplicates, List.map_nil, List.nodup_nil, List.not_mem_nil, false_imp_iff,
      implies_true, and_self]
  | cons d rows ih =>
    unfold refuseDuplicates
    split
    · rename_i h
      simp only [reduceCtorEq, false_iff]
      rintro ⟨_, hs⟩
      exact hs d List.mem_cons_self (List.contains_iff_mem.1 h)
    · rename_i h
      have hd : d.key ∉ seen := fun hm => h (List.contains_iff_mem.2 hm)
      rw [ih, List.map_cons, List.nodup_cons]
      constructor
      · rintro ⟨hn, hs⟩
        refine ⟨⟨fun hm => ?_, hn⟩, List.forall_mem_cons.2 ⟨hd, fun d' hd' hm => ?_⟩⟩
        · obtain ⟨d', hd', he⟩ := List.mem_map.1 hm
          exact hs d' hd' (he ▸ List.mem_cons_self)
        · exact hs d' hd' (List.mem_cons_of_mem _ hm)
      · rintro ⟨⟨hnot, hn⟩, hs⟩
        refine ⟨hn, fun d' hd' hm => ?_⟩
        rcases List.mem_cons.1 hm with he | hm
        · exact hnot (he ▸ List.mem_map_of_mem hd')
        · exact hs d' (List.mem_cons_of_mem _ hd') hm

theorem refuseDuplicates_code {rows : List Declared} {seen : List Str}
    (h : refuseDuplicates rows seen = .error e) : e.code = .invalidArgument := by
  induction rows generalizing seen with
  | nil => cases h
  | cons d rows ih =>
    unfold refuseDuplicates at h
    split at h
    · cases h
      rfl
    · exact ih h

/-- The declarations `validate` accepts. -/
structure WellFormed (req : SyncProjectsRequest) : Prop where
  roots_ne : req.roots ≠ []
  roots : ∀ d ∈ req.roots, RootOk d
  projects : ∀ d ∈ req.projects,
    ProjectOk (req.roots.map fun root => toAsciiLowercase root.path) d
  distinct : ((req.roots ++ req.projects).map fun d => toAsciiLowercase d.path).Nodup

/-- The rows of a declaration, roots first. -/
def rows (req : SyncProjectsRequest) : List Declared :=
  (req.roots ++ req.projects).map Declared.of

theorem validate_ok_iff (req : SyncProjectsRequest) :
    validate req = .ok declared ↔ WellFormed req ∧ declared = rows req := by
  have hkeys : ∀ ds : List DeclaredProject, (ds.map Declared.of).map Declared.key =
      ds.map fun d => toAsciiLowercase d.path := fun ds => by
    rw [List.map_map]
    rfl
  unfold validate rows
  split
  · rename_i h
    simp only [reduceCtorEq, false_iff]
    rintro ⟨hw, _⟩
    exact hw.roots_ne (List.isEmpty_iff.1 h)
  · rename_i h
    have hne : req.roots ≠ [] := fun he => h (List.isEmpty_iff.2 he)
    simp only [bind_eq_ok, validateRoots_ok_iff, validateProjects_ok_iff]
    constructor
    · rintro ⟨_, ⟨hroots, rfl⟩, _, ⟨hprojects, rfl⟩, _, hdup, h⟩
      cases h
      rw [hkeys] at hprojects
      rw [← List.map_append] at hdup ⊢
      have hdup' := ((refuseDuplicates_ok_iff _ _).1 hdup).1
      rw [hkeys] at hdup'
      exact ⟨⟨hne, hroots, hprojects, hdup'⟩, rfl⟩
    · rintro ⟨hw, rfl⟩
      refine ⟨_, ⟨hw.roots, rfl⟩, _, ⟨?_, rfl⟩, (), ?_, ?_⟩
      · rw [hkeys]
        exact hw.projects
      · rw [← List.map_append, refuseDuplicates_ok_iff, hkeys]
        exact ⟨hw.distinct, fun _ _ => List.not_mem_nil⟩
      · rw [List.map_append]

theorem validate_code {req : SyncProjectsRequest} (h : validate req = .error e) :
    e.code = .invalidArgument := by
  unfold validate at h
  split at h
  · cases h
    rfl
  · rcases bind_eq_error h with h | ⟨_, _, h⟩
    · exact validateRoots_code h
    · rcases bind_eq_error h with h | ⟨_, _, h⟩
      · exact validateProjects_code h
      · rcases bind_eq_error h with h | ⟨_, _, h⟩
        · exact refuseDuplicates_code h
        · cases h

theorem WellFormed.row (h : WellFormed req) (hd : d ∈ req.roots ++ req.projects) : RowOk d := by
  rcases List.mem_append.1 hd with hd | hd
  · exact (h.roots d hd).1
  · exact (h.projects d hd).1

theorem key_nodup (h : WellFormed req) : ((rows req).map Declared.key).Nodup := by
  have hd := h.distinct
  rwa [rows, List.map_map]

end Sync

namespace Path

theorem length_segments {path : Str} : (segments path).length = 1 ↔ '/' ∉ path := by
  constructor
  · intro h hm
    obtain ⟨a, b, rfl⟩ := List.append_of_mem hm
    rw [segments_append_slash, List.length_append] at h
    have ha := List.length_pos_iff.2 (segments_ne_nil a)
    have hb := List.length_pos_iff.2 (segments_ne_nil b)
    omega
  · intro h
    rw [segments_of_not_mem h, List.length_singleton]

theorem two_le_length_segments {path : Str} : 2 ≤ (segments path).length ↔ '/' ∈ path := by
  have hpos := List.length_pos_iff.2 (segments_ne_nil path)
  rw [← not_iff_not, ← length_segments]
  omega

end Path

/-- The first segment of a path. -/
def firstSegment (path : Str) : Str := (segments path).headD []

theorem firstSegment_of_two {path : Str} {P : Str → Prop} :
    (∃ root next rest, segments path = root :: next :: rest ∧ P root) ↔
      2 ≤ (segments path).length ∧ P (firstSegment path) := by
  unfold firstSegment
  constructor
  · rintro ⟨root, next, rest, hs, h⟩
    rw [hs]
    exact ⟨Nat.le_add_left 2 _, h⟩
  · rintro ⟨hlen, h⟩
    match hs : segments path with
    | [] =>
      rw [hs] at hlen
      cases hlen
    | [_] =>
      rw [hs] at hlen
      exact absurd hlen (Nat.lt_irrefl 1)
    | root :: next :: rest =>
      rw [hs] at h
      exact ⟨root, next, rest, rfl, h⟩

theorem firstSegment_toAsciiLowercase (path : Str) :
    firstSegment (toAsciiLowercase path) = toAsciiLowercase (firstSegment path) := by
  unfold firstSegment
  rw [segments_toAsciiLowercase]
  cases h : segments path with
  | nil => exact absurd h (segments_ne_nil path)
  | cons root rest => rfl

namespace Grants

/-- A lowercase letter, then up to 62 lowercase letters, digits and hyphens. -/
def TeamName (name : Str) : Prop :=
  ∃ c rest, name = c :: rest ∧ isAsciiLowercase c = true ∧ rest.length ≤ 62 ∧
    ∀ x ∈ rest, isAsciiLowercase x = true ∨ isAsciiDigit x = true ∨ x = '-'

theorem isTeamId_iff {team : Str} :
    isTeamId team = true ↔ ∃ name, team = teamPrefix ++ name ∧ TeamName name := by
  unfold isTeamId
  constructor
  · intro h
    split at h
    · cases h
    · cases h
    · rename_i c rest hp
      rw [Bool.and_eq_true, Bool.and_eq_true, decide_eq_true_eq, List.all_eq_true] at h
      obtain ⟨⟨hc, hlen⟩, hall⟩ := h
      refine ⟨c :: rest, isPrefixOf?_eq_some.1 hp, c, rest, rfl, hc, Nat.le_of_succ_le_succ hlen,
        fun x hx => ?_⟩
      have hx := hall x hx
      rwa [Bool.or_eq_true, Bool.or_eq_true, beq_iff_eq, or_assoc] at hx
  · intro ⟨name, hteam, c, rest, hname, hc, hlen, hall⟩
    subst hname
    rw [isPrefixOf?_eq_some.2 hteam]
    simp only
    rw [Bool.and_eq_true, Bool.and_eq_true, decide_eq_true_eq, List.all_eq_true]
    refine ⟨⟨hc, Nat.succ_le_succ hlen⟩, fun x hx => ?_⟩
    rw [Bool.or_eq_true, Bool.or_eq_true, beq_iff_eq, or_assoc]
    exact hall x hx

end Grants

namespace Sync
open Grants

/-- A row that a declaration may carry, its class aside. -/
structure Declarable (d : DeclaredProject) : Prop where
  grammar : Grammatical d.path
  unreserved : ¬ FoldsOnto d.path reservedRoot
  beneath_none : ¬ (2 ≤ (segments d.path).length ∧ FoldsOnto (firstSegment d.path) reservedRoot)
  repo : 1 ≤ d.sourceRepo.length ∧ d.sourceRepo.length ≤ 255
  name : d.displayName.length ≤ 255
  levels : ∀ g ∈ d.grants, g.level = 1 ∨ g.level = 2
  teams : ∀ g ∈ d.grants, ∃ name, g.teamId = "yadgar:team:".toList ++ name ∧ TeamName name
  once : (d.grants.map DeclaredGrant.teamId).Nodup

/-- A declaration as the contract describes it. -/
structure Declaration (req : SyncProjectsRequest) : Prop where
  anchored : req.roots ≠ []
  rows : ∀ d ∈ req.roots ++ req.projects, Declarable d
  roots : ∀ d ∈ req.roots, (segments d.path).length = 1
  projects : ∀ d ∈ req.projects, 2 ≤ (segments d.path).length ∧
    ∃ root ∈ req.roots, FoldsOnto (firstSegment d.path) root.path
  distinct : (req.roots ++ req.projects).Pairwise fun d d' => ¬ FoldsOnto d.path d'.path

theorem grantsOk_iff {gs : List DeclaredGrant} : GrantsOk gs [] ↔
    (∀ g ∈ gs, g.level = 1 ∨ g.level = 2) ∧ (∀ g ∈ gs, isTeamId g.teamId = true) ∧
      (gs.map DeclaredGrant.teamId).Nodup :=
  ⟨fun h => ⟨h.levels, h.teams, h.once⟩, fun h => ⟨h.1, h.2.1, h.2.2, fun _ _ => List.not_mem_nil⟩⟩

theorem rowOk_iff {d : DeclaredProject} : RowOk d ↔ Declarable d := by
  have hrepo : d.sourceRepo ≠ [] ↔ 1 ≤ d.sourceRepo.length := List.length_pos_iff.symm
  have hteams : (∀ g ∈ d.grants, isTeamId g.teamId = true) ↔
      ∀ g ∈ d.grants, ∃ name, g.teamId = "yadgar:team:".toList ++ name ∧ TeamName name :=
    forall₂_congr fun _ _ => isTeamId_iff
  have horg : isPrivateClass d.path = false ↔
      ¬ (2 ≤ (segments d.path).length ∧ FoldsOnto (firstSegment d.path) reservedRoot) := by
    rw [← Bool.not_eq_true, segments_private, firstSegment_of_two]
  constructor
  · intro h
    obtain ⟨hlevels, hids, honce⟩ := grantsOk_iff.1 h.grants
    exact ⟨h.grammar, h.unreserved, horg.1 h.org, ⟨hrepo.1 h.repo, h.repo_width⟩, h.name_width,
      hlevels, hteams.1 hids, honce⟩
  · intro h
    exact ⟨h.grammar, h.unreserved, horg.2 h.beneath_none, hrepo.2 h.repo.1, h.repo.2, h.name,
      grantsOk_iff.2 ⟨h.levels, hteams.2 h.teams, h.once⟩⟩

theorem rootOk_iff {d : DeclaredProject} :
    RootOk d ↔ Declarable d ∧ (segments d.path).length = 1 := by
  unfold RootOk
  rw [rowOk_iff, length_segments]

theorem projectOk_iff {roots : List DeclaredProject} {d : DeclaredProject} :
    ProjectOk (roots.map fun root => toAsciiLowercase root.path) d ↔ Declarable d ∧
      2 ≤ (segments d.path).length ∧ ∃ root ∈ roots, FoldsOnto (firstSegment d.path) root.path := by
  unfold ProjectOk
  change RowOk d ∧ _ ∧ firstSegment (toAsciiLowercase d.path) ∈ _ ↔ _
  rw [rowOk_iff, ← two_le_length_segments, segments_toAsciiLowercase, List.length_map,
    firstSegment_toAsciiLowercase, List.mem_map]
  apply and_congr_right
  intro _
  apply and_congr_right
  intro _
  exact exists_congr fun root => and_congr_right fun _ => eq_comm

theorem wellFormed_iff {req : SyncProjectsRequest} : WellFormed req ↔ Declaration req := by
  have hdistinct : ((req.roots ++ req.projects).map fun d => toAsciiLowercase d.path).Nodup ↔
      (req.roots ++ req.projects).Pairwise fun d d' => ¬ FoldsOnto d.path d'.path :=
    List.pairwise_map
  constructor
  · intro h
    have hroots := fun d hd => rootOk_iff.1 (h.roots d hd)
    have hprojects := fun d hd => projectOk_iff.1 (h.projects d hd)
    refine ⟨h.roots_ne, fun d hd => ?_, fun d hd => (hroots d hd).2,
      fun d hd => (hprojects d hd).2, hdistinct.1 h.distinct⟩
    exact rowOk_iff.1 (h.row hd)
  · intro h
    refine ⟨h.anchored, fun d hd => rootOk_iff.2 ⟨h.rows d ?_, h.roots d hd⟩,
      fun d hd => projectOk_iff.2 ⟨h.rows d ?_, h.projects d hd⟩, hdistinct.2 h.distinct⟩
    · exact List.mem_append_left _ hd
    · exact List.mem_append_right _ hd

/-- `validate` accepts exactly the declarations of the contract, and lists their rows in order
under keys of their own. -/
theorem validate_declarations (req : SyncProjectsRequest) :
    ((∃ declared, validate req = .ok declared) ↔ Declaration req) ∧
    ∀ declared, validate req = .ok declared →
      declared = (req.roots ++ req.projects).map Declared.of ∧
      (declared.map Declared.key).Nodup ∧ ∀ d ∈ declared, d.key = toAsciiLowercase d.path := by
  constructor
  · constructor
    · intro ⟨declared, h⟩
      exact wellFormed_iff.1 ((validate_ok_iff req).1 h).1
    · intro h
      exact ⟨rows req, (validate_ok_iff req).2 ⟨wellFormed_iff.2 h, rfl⟩⟩
  · intro declared h
    obtain ⟨hw, rfl⟩ := (validate_ok_iff req).1 h
    refine ⟨rfl, key_nodup hw, fun d hd => ?_⟩
    obtain ⟨d', _, rfl⟩ := List.mem_map.1 hd
    rfl

end Sync

end ProjectDb
