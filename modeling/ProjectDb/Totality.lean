import Mathlib.Data.Set.Function
import Mathlib.Order.Interval.Set.Basic
import ProjectDb.Converge

namespace ProjectDb
open Text ProjectDb.Path Mvcc
set_option autoImplicit true

/-- Of the uuids minted in a window of ticks no two are equal, and none names a stored row. -/
structure Fresh (env : Nat → Tick) (idPrefix : Str) (n m : Nat) (s : Store) : Prop where
  distinct : Set.InjOn (fun i => (env i).uuid) (Set.Ico n m)
  unused : ∀ i ∈ Set.Ico n m, ∀ r ∈ s.project, r.id ≠ idPrefix ++ (env i).uuid

theorem Fresh.mono (h : Fresh env p n m s) (hn : n ≤ n')
    (hids : ∀ r' ∈ s'.project, ∃ r ∈ s.project, r.id = r'.id) : Fresh env p n' m s' where
  distinct := h.distinct.mono (Set.Ico_subset_Ico_left hn)
  unused := by
    intro i hi r' hr' he
    obtain ⟨r, hr, hid⟩ := hids r' hr'
    exact h.unused i (Set.Ico_subset_Ico_left hn hi) r hr (hid.trans he)

variable [ServerCollation] {env : Nat → Tick}

namespace Txn

/-- The block succeeds from the state. -/
def Succeeds (env : Nat → Tick) (x : Txn α) (w : Store × Nat) : Prop :=
  ∃ a w', x.eval env w = (.ok a, w')

theorem Succeeds.bind {x : Txn α} {f : α → Txn β} (hx : Succeeds env x w)
    (hf : ∀ a w', x.eval env w = (.ok a, w') → Succeeds env (f a) w') :
    Succeeds env (x >>= f) w := by
  obtain ⟨a, w', ha⟩ := hx
  obtain ⟨b, w'', hb⟩ := hf a w' ha
  exact ⟨b, w'', by rw [eval_bind_of_ok ha, hb]⟩

theorem Succeeds.query {q : Stmt} {a : q.Reply} (hf : Faultless env)
    (h : q.exec (env w.2) w.1 = .ok (a, ws)) : Succeeds env (query q) w :=
  ⟨a, _, eval_query_of_ok hf h⟩

theorem Succeeds.pure (a : α) : Succeeds env (Pure.pure a) w := ⟨a, w, rfl⟩

theorem count_of_query {q : Stmt} {a : q.Reply} (h : (Txn.query q).eval env w = (.ok a, w')) :
    w'.2 = w.2 + 1 := by
  obtain ⟨ws, _, rfl⟩ := eval_query_ok h
  rfl

end Txn

namespace Sync

omit [ServerCollation] in
theorem newRow_fits {d : Declared} (hu : Hyphenated uuid) (horg : isPrivateClass d.path = false)
    (hpath : d.path.length ≤ 255) (hname : d.displayName.length ≤ 255)
    (hrepo : d.sourceRepo.length ≤ 255) (hactor : actor.length ≤ 64) (now : Time) :
    ((newRow actor d (projectIdPrefix ++ uuid)).row now).fits = true := by
  have hid : (projectIdPrefix ++ uuid).length ≤ 96 := by
    have hp : projectIdPrefix.length = 15 := by decide
    rw [List.length_append, length_of_hyphenated hu, hp]
    decide
  have hclass : ckProjectClassPath ((newRow actor d (projectIdPrefix ++ uuid)).row now) = true := by
    change (false == likeLocal d.path) = true
    rw [likeLocal_eq, horg]
    rfl
  simp only [ProjectRow.fits, Bool.and_eq_true, decide_eq_true_eq]
  exact ⟨⟨⟨⟨⟨⟨⟨⟨hid, hpath⟩, hname⟩, decide_eq_true hrepo⟩, rfl⟩, hactor⟩, hactor⟩, rfl⟩, hclass⟩

theorem path_free {w : Store} {d : Declared} (hs : w.Schema)
    (hkey : d.key = toAsciiLowercase d.path) (horg : isPrivateClass d.path = false)
    (hnone : w.rowAt d.key = none) : ∀ r ∈ w.project, ¬ FoldsOnto r.path d.path := by
  intro r hr hf
  cases ho : r.isOrg with
  | true => exact Store.rowAt_eq_none.1 hnone r hr ho (Eq.trans hf hkey.symm)
  | false =>
    have hp := (ProjectRow.fits_private (hs.row_fits r hr) ho).2
    rw [isPrivateClass_congr hf, horg] at hp
    cases hp

theorem exec_insertProject_of_free {t : Tick} {n : NewProject} {s : Store}
    (hf : (n.row t.now).fits = true) (hid : ∀ r ∈ s.project, r.id ≠ n.id)
    (hpath : ∀ r ∈ s.project, ¬ FoldsOnto r.path n.path) :
    Stmt.exec t (.insertProject n) s = .ok ((), [.insertProject (n.row t.now)]) := by
  have hany : s.project.any (fun r => r.id == (n.row t.now).id ||
      eqIgnoreAsciiCase r.path (n.row t.now).path) = false := by
    rw [List.any_eq_false]
    intro r hr h
    rw [Bool.or_eq_true, beq_iff_eq, eqIgnoreAsciiCase_iff] at h
    rcases h with h | h
    · exact hid r hr h
    · exact hpath r hr h
  simp only [Stmt.exec, hf, hany, Bool.not_true, Bool.false_eq_true, ↓reduceIte]

theorem insert_succeeds {w : Store × Nat} {d : Declared} (hf : Faultless env) (hs : w.1.Schema)
    (hfresh : Fresh env projectIdPrefix w.2 m w.1) (hlt : w.2 < m) (hd : Sound (d :: ds))
    (hactor : actor.length ≤ 64) (hnone : w.1.rowAt d.key = none) :
    Txn.Succeeds env (insert d actor) w := by
  have hm : d ∈ d :: ds := List.mem_cons_self
  apply Txn.Succeeds.bind ⟨_, _, Txn.eval_nowV7 w⟩
  intro uuid w₁ hu
  rw [Txn.eval_nowV7] at hu
  cases hu
  refine Txn.Succeeds.bind (Txn.Succeeds.query hf (exec_insertProject_of_free ?_ ?_ ?_)) ?_
  · exact newRow_fits (env w.2).uuid_shape (hd.org d hm) (hd.path_width d hm) (hd.name_width d hm)
      (hd.repo_width d hm) hactor _
  · exact hfresh.unused w.2 ⟨Nat.le_refl _, hlt⟩
  · exact path_free hs (hd.folded d hm) (hd.org d hm) hnone
  · intro _ _ _
    exact .pure _

theorem exec_updateDeclared_of_fits (t : Tick) {s : Store} (hs : s.Schema) (b : Int)
    {r : ProjectRow} (hr : r ∈ s.project) (ho : r.isOrg = true) (hn : n.length ≤ 255)
    (hg : g.length ≤ 255)
    (ha : actor.length ≤ 64) :
    ∃ ws, Stmt.exec t (.updateDeclared n g b actor r.id) s = .ok ((), ws) := by
  have hall : (s.project.filter fun x => x.id == r.id).all
      (fun x => (x.declared n g b actor t.now).fits) = true := by
    rw [List.all_eq_true]
    intro x hx
    obtain ⟨hm, he⟩ := List.mem_filter.1 hx
    rw [List.inj_on_of_nodup_map hs.id_key hm hr (beq_iff_eq.1 he)]
    exact ProjectRow.fits_declared (hs.row_fits r hr) ho b t.now hn hg ha
  simp only [Stmt.exec, hall, ↓reduceIte]
  exact ⟨_, rfl⟩

theorem writeOne_succeeds {m : HashMap Str Stored} {w : Store × Nat} {d : Declared}
    (hf : Faultless env) (hs : w.1.Schema) (hfresh : Fresh env projectIdPrefix w.2 n w.1)
    (hlt : w.2 < n) (hd : Sound (d :: ds)) (hactor : actor.length ≤ 64)
    (hm : m.get d.key = (w.1.rowAt d.key).map Stored.of) :
    Txn.Succeeds env (writeOne d (m.get d.key) actor response) w := by
  have hmem : d ∈ d :: ds := List.mem_cons_self
  rw [hm]
  cases hr : w.1.rowAt d.key with
  | none =>
    refine Txn.Succeeds.bind (insert_succeeds hf hs hfresh hlt hd hactor hr) ?_
    intro _ _ _
    exact .pure _
  | some r =>
    obtain ⟨hrm, hn⟩ := (rowAt_names hs).1 hr
    simp only [Option.map_some, writeOne]
    split
    · exact .pure _
    · obtain ⟨ws, hx⟩ := exec_updateDeclared_of_fits (env w.2) hs ProjectStatus.active.toI8
        hrm hn.1 (hd.name_width d hmem) (hd.repo_width d hmem) hactor
      refine Txn.Succeeds.bind (Txn.Succeeds.query hf hx) ?_
      intro _ _ _
      split <;> exact .pure _

theorem insert_count {w : Store × Nat} (h : (insert d actor).eval env w = (.ok i, w')) :
    i = projectIdPrefix ++ (env w.2).uuid ∧ w'.2 = w.2 + 2 := by
  unfold insert at h
  obtain ⟨uuid, w₁, hu, h⟩ := Txn.eval_bind_ok h
  rw [Txn.eval_nowV7] at hu
  cases hu
  obtain ⟨_, w₂, hq, h⟩ := Txn.eval_bind_ok h
  have hc := Txn.count_of_query hq
  cases h
  exact ⟨rfl, hc⟩

theorem writeOne_count {m : HashMap Str Stored} {w : Store × Nat} {d : Declared}
    (h : (writeOne d (m.get d.key) actor response).eval env w = (.ok (i, response'), w')) :
    w.2 ≤ w'.2 ∧ w'.2 ≤ w.2 + 2 := by
  cases hr : m.get d.key with
  | none =>
    rw [hr] at h
    obtain ⟨j, w₁, hi, h⟩ := Txn.eval_bind_ok h
    have hc := (insert_count hi).2
    cases h
    omega
  | some r =>
    rw [hr] at h
    simp only [writeOne] at h
    split at h
    · cases h
      omega
    · obtain ⟨_, w₁, hq, h⟩ := Txn.eval_bind_ok h
      have hc := Txn.count_of_query hq
      split at h
      · cases h
        omega
      · cases h
        omega

/-- A turn of the loop uses up the uuid it mints. -/
theorem writeOne_fresh {m : HashMap Str Stored} {w : Store × Nat} (hs : w.1.Schema)
    (hfresh : Fresh env projectIdPrefix w.2 n w.1)
    (hm : m.get d.key = (w.1.rowAt d.key).map Stored.of)
    (h : (writeOne d (m.get d.key) actor response).eval env w = (.ok (i, response'), w')) :
    Fresh env projectIdPrefix w'.2 n w'.1 := by
  have hcount := (writeOne_count h).1
  cases hr : w.1.rowAt d.key with
  | none =>
    rw [hm, hr, Option.map_none] at h
    obtain ⟨j, w₁, hi, h⟩ := Txn.eval_bind_ok h
    obtain ⟨r, _, hid, hw⟩ := insert_ok hi
    obtain ⟨hj, hlt⟩ := insert_count hi
    cases h
    have hwindow := Set.Ico_subset_Ico_left (b := n) hcount
    refine ⟨hfresh.distinct.mono hwindow, fun k hk r' hr' he => ?_⟩
    rw [hw] at hr'
    rcases List.mem_append.1 hr' with hr' | hr'
    · exact hfresh.unused k (hwindow hk) r' hr' he
    · cases List.mem_singleton.1 hr'
      rw [hid, hj] at he
      have hmint : w.2 ∈ Set.Ico w.2 n := ⟨Nat.le_refl _, Nat.lt_of_le_of_lt (hwindow hk).1 hk.2⟩
      have hk' := hfresh.distinct hmint (hwindow hk) (List.append_cancel_left he)
      have hge := hk.1
      omega
  | some r =>
    obtain ⟨hone, _⟩ := writeOne_ok hm h
    refine hfresh.mono hcount fun r' hr' => ?_
    rcases (hone.grown hs).mem_right hr' with ⟨r₀, hr₀, hw⟩ | ⟨hnone, _⟩
    · exact ⟨r₀, hr₀, hw.id_eq.symm⟩
    · rw [hr] at hnone
      cases hnone

theorem writeAll_succeeds {m : HashMap Str Stored} {w : Store × Nat} (hf : Faultless env)
    (hs : w.1.Schema) (hfresh : Fresh env projectIdPrefix w.2 n w.1)
    (hroom : w.2 + 2 * ds.length ≤ n) (hd : Sound ds) (hactor : actor.length ≤ 64)
    (hm : ∀ d ∈ ds, m.get d.key = (w.1.rowAt d.key).map Stored.of) :
    Txn.Succeeds env (writeAll m actor ds response ids) w := by
  induction ds generalizing response ids w with
  | nil => exact .pure _
  | cons d ds ih =>
    have hm₀ := hm d List.mem_cons_self
    rw [List.length_cons] at hroom
    have hlt : w.2 < n := by omega
    refine Txn.Succeeds.bind (writeOne_succeeds hf hs hfresh hlt hd hactor hm₀) ?_
    rintro ⟨i, response₁⟩ w₁ h₁
    have hcount := (writeOne_count h₁).2
    obtain ⟨hone, _⟩ := writeOne_ok hm₀ h₁
    have hs₁ := schema_of_eval hs h₁
    obtain ⟨hk, _⟩ := List.nodup_cons.1 hd.keys
    have hroom' : w₁.2 + 2 * ds.length ≤ n := by omega
    refine ih hs₁ (writeOne_fresh hs hfresh hm₀ h₁) hroom' hd.tail fun d' hd' => ?_
    rw [hm d' (List.mem_cons_of_mem _ hd')]
    rw [hone.rowAt hs hs₁ (hd.folded d List.mem_cons_self) fun he =>
      hk (he ▸ List.mem_map_of_mem hd')]

theorem archive_succeeds {w : Store × Nat} (hf : Faultless env) (hs : w.1.Schema)
    (hactor : actor.length ≤ 64) (ids : List Str) : Txn.Succeeds env (archive ids actor) w := by
  unfold archive
  cases ids.isEmpty with
  | true => exact .pure _
  | false =>
    have hall : (w.1.project.filter fun r => ids.contains r.id).all (fun r =>
        (r.archived ProjectStatus.archived.toI8 actor (env w.2).now).fits) = true := by
      rw [List.all_eq_true]
      intro r hr
      exact ProjectRow.fits_archived (hs.row_fits r (List.mem_filter.1 hr).1) _ _ hactor
    have hx : ∃ ws,
        Stmt.exec (env w.2) (.updateArchived ProjectStatus.archived.toI8 actor ids) w.1 =
        .ok ((), ws) := by
      simp only [Stmt.exec, hall, ↓reduceIte]
      exact ⟨_, rfl⟩
    obtain ⟨ws, hx⟩ := hx
    exact Txn.Succeeds.query hf hx

end Sync

namespace Grants
open Sync

theorem writeDeletes_succeeds {w : Store × Nat} (hf : Faultless env) (ds : List (Str × Str)) :
    Txn.Succeeds env (writeDeletes ds) w := by
  induction ds generalizing w with
  | nil => exact .pure _
  | cons d ds ih =>
    refine Txn.Succeeds.bind (Txn.Succeeds.query hf rfl) ?_
    intro _ _ _
    exact ih

theorem writeUpdates_succeeds {w : Store × Nat} (hf : Faultless env)
    (h : ∀ u ∈ us, u.2.2 = 1 ∨ u.2.2 = 2) : Txn.Succeeds env (writeUpdates us) w := by
  induction us generalizing w with
  | nil => exact .pure _
  | cons u us ih =>
    have hl : (u.2.2 == 1 || u.2.2 == 2) = true := by
      rw [Bool.or_eq_true, beq_iff_eq, beq_iff_eq]
      exact h u List.mem_cons_self
    have hx : Stmt.exec (env w.2) (.updateGrant u.2.2 u.1 u.2.1) w.1 =
        .ok ((), [.updateGrant u.2.2 u.1 u.2.1]) := by
      simp only [Stmt.exec, hl, ↓reduceIte]
    refine Txn.Succeeds.bind (Txn.Succeeds.query hf hx) ?_
    intro _ _ _
    exact ih fun u' hu' => h u' (List.mem_cons_of_mem _ hu')

theorem exec_insertGrant_of_free {t : Tick} {s : Store} {g : GrantRow} (hg : g.fits = true)
    (hp : ∃ r ∈ s.project, r.id = g.projectId)
    (hk : ∀ h ∈ s.projectGrant, ¬ (h.projectId = g.projectId ∧ h.teamId = g.teamId)) :
    Stmt.exec t (.insertGrant g) s = .ok ((), [.insertGrant g]) := by
  have h₁ : (g.fits && s.project.any fun r => r.id == g.projectId) = true := by
    rw [Bool.and_eq_true, List.any_eq_true]
    obtain ⟨r, hr, he⟩ := hp
    exact ⟨hg, r, hr, beq_iff_eq.2 he⟩
  have h₂ : (s.projectGrant.any fun h =>
      h.projectId == g.projectId && h.teamId == g.teamId) = false := by
    rw [List.any_eq_false]
    intro h hh he
    rw [Bool.and_eq_true, beq_iff_eq, beq_iff_eq] at he
    exact hk h hh he
  simp only [Stmt.exec, h₁, h₂, Bool.not_true, Bool.false_eq_true, ↓reduceIte]

theorem writeInserts_succeeds {w : Store × Nat} (hf : Faultless env)
    (hids : ∀ i ∈ is, (ids.get i.1).isSome = true)
    (hfits : ∀ i ∈ is, (grantOf ids i).fits = true)
    (hrow : ∀ i ∈ is, ∃ r ∈ w.1.project, r.id = (grantOf ids i).projectId)
    (hdistinct : (is.map fun i => ((grantOf ids i).projectId, (grantOf ids i).teamId)).Nodup)
    (hfree : ∀ i ∈ is, ∀ h ∈ w.1.projectGrant,
      ¬ (h.projectId = (grantOf ids i).projectId ∧ h.teamId = (grantOf ids i).teamId)) :
    Txn.Succeeds env (writeInserts ids is) w := by
  induction is generalizing w with
  | nil => exact .pure _
  | cons i is ih =>
    have hm : i ∈ i :: is := List.mem_cons_self
    unfold writeInserts
    cases hi : ids.get i.1 with
    | none =>
      have hsome := hids i hm
      rw [hi] at hsome
      cases hsome
    | some projectId =>
      have hg : grantOf ids i = ⟨projectId, i.2.1, i.2.2⟩ := by
        simp only [grantOf, hi, Option.getD_some]
      have hx : Stmt.exec (env w.2) (.insertGrant ⟨projectId, i.2.1, i.2.2⟩) w.1 =
          .ok ((), [.insertGrant ⟨projectId, i.2.1, i.2.2⟩]) := by
        rw [← hg]
        exact exec_insertGrant_of_free (hfits i hm) (hrow i hm) (hfree i hm)
      refine Txn.Succeeds.bind (Txn.Succeeds.query hf hx) ?_
      intro _ w₁ hw₁
      obtain ⟨ws, hx', rfl⟩ := Txn.eval_query_ok hw₁
      rw [hx] at hx'
      cases hx'
      rw [List.map_cons, List.nodup_cons] at hdistinct
      refine ih (fun j hj => hids j (List.mem_cons_of_mem _ hj))
        (fun j hj => hfits j (List.mem_cons_of_mem _ hj))
        (fun j hj => hrow j (List.mem_cons_of_mem _ hj)) hdistinct.2 ?_
      intro j hj h hh he
      rcases List.mem_append.1 hh with hh | hh
      · exact hfree j (List.mem_cons_of_mem _ hj) h hh he
      · cases List.mem_singleton.1 hh
        apply hdistinct.1
        rw [hg]
        exact List.mem_map.2 ⟨j, hj, Prod.ext he.1.symm he.2.symm⟩

section
variable {declared : List Declared} {stored : List StoredGrant} {s : Store} {ids : HashMap Str Str}

omit [ServerCollation] in
theorem relevelled_level (hd : Sound declared) (hu : u ∈ relevelled (wanted declared) stored) :
    u.2.2 = 1 ∨ u.2.2 = 2 := by
  simp only [relevelled, List.mem_filterMap, Option.bind_eq_some_iff, get_wanted hd,
    Option.ite_none_left_eq_some, Option.some.injEq] at hu
  obtain ⟨_, _, l, ⟨d, hdm, _, hg⟩, _, rfl⟩ := hu
  exact hd.levels d hdm _ hg

theorem missing_distinct (hd : Sound declared) {w : Store} (hw : w.Schema)
    (hnamed : ∀ d ∈ declared, ∃ r ∈ w.project, d.Names r ∧ ids.get d.key = some r.id)
    (kept : List (Str × Str)) :
    ((missing kept declared).map fun i =>
      ((grantOf ids i).projectId, (grantOf ids i).teamId)).Nodup := by
  simp only [missing, List.map_flatMap, List.map_map]
  apply List.nodup_flatMap.2
  constructor
  · intro d hdm
    have hn : ((d.grants.filter fun g => !kept.contains (d.key, g.1)).map Prod.fst).Nodup :=
      (List.filter_sublist.map _).nodup (hd.teams d hdm)
    have hmap := hn.map (f := fun t => ((ids.get d.key).getD [], t)) fun a b h => (Prod.mk.inj h).2
    rwa [List.map_map] at hmap
  · apply (List.pairwise_map.1 hd.keys).imp_of_mem
    intro d d' hdm hdm' hne pair hm hm'
    obtain ⟨g, _, rfl⟩ := List.mem_map.1 hm
    obtain ⟨g', _, he⟩ := List.mem_map.1 hm'
    obtain ⟨r, hr, hn, hid⟩ := hnamed d hdm
    obtain ⟨r', hr', hn', hid'⟩ := hnamed d' hdm'
    have hids := (Prod.mk.inj he).1
    simp only [grantOf, hid, hid', Option.getD_some] at hids
    have hrr := List.inj_on_of_nodup_map hw.id_key hr' hr hids
    subst hrr
    exact hne (hn.2.symm.trans hn'.2)

theorem write_succeeds {w : Store × Nat} (hf : Faultless env) (hd : Sound declared)
    (hs : s.Schema) (hw : w.1.Schema) (hp : stored.Perm (orgGrants s))
    (hkeep : ∀ r ∈ s.project, ∃ r' ∈ w.1.project, r'.id = r.id ∧ r'.path = r.path ∧
      r'.isOrg = r.isOrg)
    (hnamed : ∀ d ∈ declared, ∃ r ∈ w.1.project, d.Names r ∧ ids.get d.key = some r.id)
    (hgrants : w.1.projectGrant = s.projectGrant) :
    Txn.Succeeds env (write (plan declared stored) ids) w := by
  rw [plan_eq]
  refine Txn.Succeeds.bind (writeDeletes_succeeds hf _) fun _ w₁ h₁ => ?_
  refine Txn.Succeeds.bind (writeUpdates_succeeds hf fun u hu => relevelled_level hd hu)
    fun _ w₂ h₂ => ?_
  have hw₁ := writeDeletes_ok h₁
  have hw₂ := writeUpdates_ok h₂
  have hproject : w₂.1.project = w.1.project := by
    rw [hw₂, hw₁]
  apply writeInserts_succeeds hf
  · intro i hi
    obtain ⟨d, hdm, g, _, _, rfl⟩ := mem_missing.1 hi
    obtain ⟨r, _, _, hid⟩ := hnamed d hdm
    rw [hid]
    rfl
  · intro i hi
    obtain ⟨d, hdm, g, hg, _, rfl⟩ := mem_missing.1 hi
    obtain ⟨r, hr, _, hid⟩ := hnamed d hdm
    simp only [grantOf, hid, Option.getD_some, GrantRow.fits, Bool.and_eq_true, Bool.or_eq_true,
      decide_eq_true_eq, beq_iff_eq]
    exact ⟨⟨ProjectRow.id_length (hw.row_fits r hr), hd.team_width d hdm g hg⟩,
      hd.levels d hdm g hg⟩
  · intro i hi
    obtain ⟨d, hdm, g, _, _, rfl⟩ := mem_missing.1 hi
    obtain ⟨r, hr, _, hid⟩ := hnamed d hdm
    rw [hproject]
    refine ⟨r, hr, ?_⟩
    simp only [grantOf, hid, Option.getD_some]
  · exact missing_distinct hd hw hnamed _
  · rintro i hi h hh ⟨hpid, hteam⟩
    obtain ⟨d, hdm, g, _, hk, rfl⟩ := mem_missing.1 hi
    obtain ⟨r, hr, hn, hid⟩ := hnamed d hdm
    simp only [grantOf, hid, Option.getD_some] at hpid hteam
    rw [hw₂, hw₁, hgrants] at hh
    obtain ⟨h₀, hh₀, rfl⟩ := List.mem_map.1 hh
    obtain ⟨hh₀, _⟩ := List.mem_filter.1 hh₀
    obtain ⟨r₀, hr₀, hid₀⟩ := hs.grant_project h₀ hh₀
    obtain ⟨hkeyId, hkeyTeam⟩ := relevel_key (relevelled (wanted declared) stored) h₀
    rw [hkeyId] at hpid
    rw [hkeyTeam] at hteam
    obtain ⟨r', hr', hid', hpath, horg⟩ := hkeep r₀ hr₀
    have hrr : r' = r :=
      List.inj_on_of_nodup_map hw.id_key hr' hr (hid'.trans (hid₀.trans hpid))
    subst hrr
    have hstored := (mem_stored hp).2 ⟨h₀, hh₀, r₀, hr₀, horg.symm.trans hn.1, hid₀, rfl⟩
    apply hk
    refine List.mem_map.2 ⟨_, hstored, Prod.ext ?_ hteam⟩
    simp only
    rw [← hpath, hn.2]

end

end Grants

end ProjectDb
