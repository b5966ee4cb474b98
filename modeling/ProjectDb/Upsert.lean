import ProjectDb.Planning
import ProjectDb.Growth

namespace ProjectDb
open Text ProjectDb.Path
set_option autoImplicit true

theorem updateRows_congr {p q : ProjectRow → Bool} {rows : List ProjectRow}
    (h : ∀ r ∈ rows, p r = q r) (f : ProjectRow → ProjectRow) :
    updateRows p f rows = updateRows q f rows := by
  apply List.map_congr_left
  intro r hr
  rw [h r hr]

theorem updateRows_hits (q : Str → Bool) (f : ProjectRow → ProjectRow) (rows : List ProjectRow) :
    updateRows (fun r => ((rows.filter fun r => q r.id).map ProjectRow.id).contains r.id) f rows =
      updateRows (fun r => q r.id) f rows := by
  apply updateRows_congr
  intro r hr
  rw [Bool.eq_iff_iff, List.contains_iff_mem, List.mem_map]
  constructor
  · rintro ⟨r', hr', he⟩
    rw [← he]
    exact (List.mem_filter.1 hr').2
  · intro h
    exact ⟨r, List.mem_filter.2 ⟨hr, h⟩, rfl⟩

namespace Sync

/-- The row a sync inserts for a declaration. -/
def newRow (actor : Str) (d : Declared) (id : Str) : NewProject :=
  ⟨id, d.path, d.displayName, ProjectStatus.active.toI8, some d.sourceRepo, none,
    Visibility.org.toI8, actor, actor⟩

def Minted (actor : Str) (d : Declared) (r : ProjectRow) : Prop :=
  ∃ uuid now, r = (newRow actor d (projectIdPrefix ++ uuid)).row now

/-- A row a declaration overwrites. -/
def overwrite (actor : Str) (d : Declared) (now : Time) (r : ProjectRow) : ProjectRow :=
  r.declared d.displayName d.sourceRepo ProjectStatus.active.toI8 actor now

/-- What the loop over the declared rows makes of a stored row. -/
inductive Written (ds : List Declared) (actor : Str) (r : ProjectRow) : ProjectRow → Prop
  | other : (∀ d ∈ ds, ¬ d.Names r) → Written ds actor r r
  | kept : d ∈ ds → d.Names r → d.Agrees (.of r) → Written ds actor r r
  | overwritten : d ∈ ds → d.Names r → ¬ d.Agrees (.of r) →
      Written ds actor r (overwrite actor d now r)

/-- What one turn of the loop does to the store, with the id of the declared row. -/
inductive WroteOne (actor : Str) (d : Declared) (w : Store) : Str → Store → Prop
  | minted : w.rowAt d.key = none → Minted actor d r →
      WroteOne actor d w r.id { w with project := w.project ++ [r] }
  | kept : w.rowAt d.key = some r → d.Agrees (.of r) → WroteOne actor d w r.id w
  | overwritten : w.rowAt d.key = some r → ¬ d.Agrees (.of r) →
      WroteOne actor d w r.id
        { w with project := updateRows (fun x => x.id == r.id) (overwrite actor d now) w.project }

/-- The counts of the declared rows, by what the snapshot holds at their keys. -/
def tally (m : HashMap Str Stored) (ds : List Declared) (response : SyncProjectsResponse) :
    SyncProjectsResponse :=
  { response with
    inserted := response.inserted + ds.countP fun d => (m.get d.key).isNone
    updated := response.updated +
      ds.countP fun d => (m.get d.key).any fun r => differs r d && !reactivating r
    reactivated := response.reactivated + ds.countP fun d => (m.get d.key).any reactivating
    unchanged := response.unchanged +
      ds.countP fun d => (m.get d.key).any fun r => !differs r d && !reactivating r }

@[simp] theorem tally_nil (m : HashMap Str Stored) (response : SyncProjectsResponse) :
    tally m [] response = response := rfl

theorem tally_cons (m : HashMap Str Stored) (d : Declared) (ds : List Declared)
    (response : SyncProjectsResponse) :
    tally m (d :: ds) response = tally m ds (tally m [d] response) := by
  simp only [tally, List.countP_cons, List.countP_nil, Nat.zero_add, Nat.add_assoc,
    Nat.add_comm (ds.countP _)]

variable {d d' : Declared}

theorem Written.id_eq (h : Written ds actor r r') : r'.id = r.id := by
  cases h <;> rfl

theorem Written.path_eq (h : Written ds actor r r') : r'.path = r.path := by
  cases h <;> rfl

theorem Written.isOrg_eq (h : Written ds actor r r') : r'.isOrg = r.isOrg := by
  cases h <;> rfl

theorem Written.names (h : Written ds actor r r') (d : Declared) : d.Names r' ↔ d.Names r := by
  unfold Declared.Names
  rw [h.path_eq, h.isOrg_eq]

theorem Written.eq_of_other (h : Written ds actor r r') (hn : ∀ d ∈ ds, ¬ d.Names r) : r' = r := by
  cases h with
  | other _ => rfl
  | kept _ _ _ => rfl
  | overwritten hd hr _ => exact absurd hr (hn _ hd)

theorem Written.cons (hk : d.key ∉ ds.map Declared.key) (h : Written [d] actor a b)
    (h' : Written ds actor b c) : Written (d :: ds) actor a c := by
  have hother : d.Names a → ∀ d' ∈ ds, ¬ d'.Names a := by
    rintro ⟨_, hp⟩ d' hd' ⟨_, hp'⟩
    apply hk
    rw [← hp, hp']
    exact List.mem_map_of_mem hd'
  cases h with
  | other hn =>
    cases h' with
    | other hn' =>
      refine .other fun d' hd' => ?_
      rcases List.mem_cons.1 hd' with rfl | hd'
      · exact hn _ List.mem_cons_self
      · exact hn' d' hd'
    | kept hd hr ha => exact .kept (List.mem_cons_of_mem _ hd) hr ha
    | overwritten hd hr ha => exact .overwritten (List.mem_cons_of_mem _ hd) hr ha
  | kept hd hr ha =>
    cases List.mem_singleton.1 hd
    rw [h'.eq_of_other (hother hr)]
    exact .kept List.mem_cons_self hr ha
  | overwritten hd hr ha =>
    cases List.mem_singleton.1 hd
    rw [h'.eq_of_other fun d' hd' hr' => hother hr d' hd' hr']
    exact .overwritten List.mem_cons_self hr ha

theorem Minted.names (hf : d.key = toAsciiLowercase d.path) (h : Minted actor d r) :
    d.Names r := by
  obtain ⟨uuid, now, rfl⟩ := h
  exact ⟨rfl, hf.symm⟩

theorem WroteOne.frame {w w' : Store} (h : WroteOne actor d w i w') :
    w'.projectGrant = w.projectGrant ∧ w'.projectWrite = w.projectWrite := by
  cases h <;> exact ⟨rfl, rfl⟩

variable [ServerCollation] {env : Nat → Tick}

theorem exec_updateDeclared_ok {t : Tick} {s : Store}
    (h : Stmt.exec t (.updateDeclared n g st actor i) s = .ok (a, ws)) :
    engine.patchAll ws s =
      { s with
        project := updateRows (fun r => r.id == i) (.declared n g st actor t.now) s.project } := by
  simp only [Stmt.exec] at h
  split at h
  · cases h
    simp only [patchAll_singleton, Write.patch]
    rw [updateRows_hits fun j => j == i]
  · cases h

theorem exec_updateArchived_ok {t : Tick} {s : Store}
    (h : Stmt.exec t (.updateArchived st actor ids) s = .ok (a, ws)) :
    engine.patchAll ws s =
      { s with
        project :=
          updateRows (fun r => ids.contains r.id) (.archived st actor t.now) s.project } := by
  simp only [Stmt.exec] at h
  split at h
  · cases h
    simp only [patchAll_singleton, Write.patch]
    rw [updateRows_hits fun j => ids.contains j]
  · cases h

theorem insert_ok {w : Store × Nat} (h : (insert d actor).eval env w = (.ok i, w')) :
    ∃ r, Minted actor d r ∧ r.id = i ∧ w'.1 = { w.1 with project := w.1.project ++ [r] } := by
  unfold insert at h
  obtain ⟨uuid, w₁, hu, h⟩ := Txn.eval_bind_ok h
  rw [Txn.eval_nowV7] at hu
  cases hu
  obtain ⟨_, w₂, hq, h⟩ := Txn.eval_bind_ok h
  obtain ⟨ws, hx, rfl⟩ := Txn.eval_query_ok hq
  obtain ⟨_, _, _, rfl⟩ := exec_insertProject_ok hx
  cases h
  exact ⟨_, ⟨_, _, rfl⟩, rfl, rfl⟩

theorem writeOne_ok {m : HashMap Str Stored} {w : Store × Nat}
    (hm : m.get d.key = (w.1.rowAt d.key).map Stored.of)
    (h : (writeOne d (m.get d.key) actor response).eval env w = (.ok (i, response'), w')) :
    WroteOne actor d w.1 i w'.1 ∧ response' = tally m [d] response := by
  cases hr : w.1.rowAt d.key with
  | none =>
    rw [hr, Option.map_none] at hm
    rw [hm] at h
    obtain ⟨j, w₁, hi, h⟩ := Txn.eval_bind_ok h
    obtain ⟨r, hmint, rfl, hw⟩ := insert_ok hi
    cases h
    rw [hw]
    refine ⟨.minted hr hmint, ?_⟩
    simp only [tally, List.countP_singleton, hm, Option.isNone_none, Option.any_none, ↓reduceIte,
      Bool.false_eq_true, Nat.add_zero]
  | some r =>
    rw [hr, Option.map_some] at hm
    rw [hm] at h
    by_cases ha : d.Agrees (.of r)
    · have hagrees := (agrees_iff d (.of r)).2 ha
      simp only [writeOne, hagrees, ↓reduceIte] at h
      cases h
      refine ⟨.kept hr ha, ?_⟩
      rw [Bool.and_eq_true, Bool.not_eq_true', Bool.not_eq_true'] at hagrees
      simp only [tally, List.countP_singleton, hm, Option.isNone_some, Option.any_some,
        hagrees.1, hagrees.2, Bool.not_false, Bool.and_true, ↓reduceIte, Bool.false_eq_true,
        Nat.add_zero]
    · have hagrees : (!differs (.of r) d && !reactivating (.of r)) = false :=
        eq_false_of_ne_true fun h => ha ((agrees_iff d (.of r)).1 h)
      simp only [writeOne, hagrees, Bool.false_eq_true, ↓reduceIte] at h
      obtain ⟨_, w₁, hq, h⟩ := Txn.eval_bind_ok h
      obtain ⟨ws, hx, rfl⟩ := Txn.eval_query_ok hq
      have hw : engine.patchAll ws w.1 = _ := exec_updateDeclared_ok hx
      rw [hw] at h
      split at h
      · rename_i hre
        cases h
        refine ⟨.overwritten hr ha, ?_⟩
        simp only [tally, List.countP_singleton, hm, Option.isNone_some, Option.any_some, hre,
          Bool.not_true, Bool.and_false, ↓reduceIte, Bool.false_eq_true, Nat.add_zero]
      · rename_i hre
        cases h
        refine ⟨.overwritten hr ha, ?_⟩
        have hre := eq_false_of_ne_true hre
        have hdiff : differs (.of r) d = true := by
          simpa only [hre, Bool.not_false, Bool.and_true, Bool.not_eq_false'] using hagrees
        simp only [tally, List.countP_singleton, hm, Option.isNone_some, Option.any_some, hre,
          hdiff, Bool.not_true, Bool.not_false, Bool.and_true, ↓reduceIte, Bool.false_eq_true,
          Nat.add_zero]

theorem rowAt_names {w : Store} (hs : w.Schema) :
    w.rowAt d.key = some r ↔ r ∈ w.project ∧ d.Names r :=
  Store.rowAt_eq_some hs.path_key

theorem names_inj {w : Store} (hs : w.Schema) (hr : r ∈ w.project) (hr' : r' ∈ w.project)
    (h : d.Names r) (h' : d.Names r') : r = r' :=
  List.inj_on_of_nodup_map hs.path_key hr hr' (h.2.trans h'.2.symm)

theorem WroteOne.grown {w w' : Store} (hs : w.Schema) (h : WroteOne actor d w i w') :
    Grown (Written [d] actor) (fun r => w.rowAt d.key = none ∧ Minted actor d r)
      w.project w'.project := by
  cases h with
  | minted hr hm =>
    refine ⟨w.project, [_], rfl, List.forall₂_same.2 fun r hmem => ?_, fun r hmem => ?_⟩
    · refine .other fun d' hd' hn => ?_
      cases List.mem_singleton.1 hd'
      exact Store.rowAt_eq_none.1 hr r hmem hn.1 hn.2
    · cases List.mem_singleton.1 hmem
      exact ⟨hr, hm⟩
  | kept hr ha =>
    obtain ⟨hmem, hn⟩ := (rowAt_names hs).1 hr
    refine ⟨w.project, [], (List.append_nil _).symm, List.forall₂_same.2 fun r' hmem' => ?_,
      fun _ h => absurd h List.not_mem_nil⟩
    by_cases hn' : d.Names r'
    · rw [names_inj hs hmem' hmem hn' hn]
      exact .kept List.mem_cons_self hn ha
    · exact .other fun d' hd' => List.mem_singleton.1 hd' ▸ hn'
  | @overwritten r now hr ha =>
    obtain ⟨hmem, hn⟩ := (rowAt_names hs).1 hr
    apply Grown.map
    intro r' hmem'
    by_cases hn' : d.Names r'
    · rw [names_inj hs hmem' hmem hn' hn]
      simp only [beq_self_eq_true, ↓reduceIte]
      exact .overwritten List.mem_cons_self hn ha
    · have hne : (r'.id == r.id) = false := by
        rw [beq_eq_false_iff_ne]
        intro he
        exact hn' (List.inj_on_of_nodup_map hs.id_key hmem' hmem he ▸ hn)
      simp only [hne, Bool.false_eq_true, ↓reduceIte]
      exact .other fun d' hd' => List.mem_singleton.1 hd' ▸ hn'

theorem WroteOne.names {w w' : Store} (hs : w.Schema) (hf : d.key = toAsciiLowercase d.path)
    (h : WroteOne actor d w i w') : ∃ r ∈ w'.project, d.Names r ∧ r.id = i := by
  have hg := h.grown hs
  cases h with
  | minted hr hm => exact ⟨_, List.mem_append_right _ (List.mem_singleton.2 rfl), hm.names hf, rfl⟩
  | kept hr ha =>
    obtain ⟨hmem, hn⟩ := (rowAt_names hs).1 hr
    exact ⟨_, hmem, hn, rfl⟩
  | overwritten hr ha =>
    obtain ⟨hmem, hn⟩ := (rowAt_names hs).1 hr
    obtain ⟨r', hmem', hw⟩ := hg.mem_left hmem
    exact ⟨r', hmem', (hw.names d).2 hn, hw.id_eq⟩

/-- A turn for one key leaves the snapshot right about every other key. -/
theorem WroteOne.rowAt {w w' : Store} (hs : w.Schema) (hs' : w'.Schema)
    (hf : d.key = toAsciiLowercase d.path) (h : WroteOne actor d w i w') (hk : d'.key ≠ d.key) :
    w'.rowAt d'.key = w.rowAt d'.key := by
  apply Option.ext
  intro r
  rw [rowAt_names hs, rowAt_names hs']
  have hg := h.grown hs
  have hother : ∀ r, d'.Names r → ∀ e ∈ [d], ¬ e.Names r := by
    intro r hn e he hn'
    cases List.mem_singleton.1 he
    exact hk (hn.2.symm.trans hn'.2)
  constructor
  · rintro ⟨hmem, hn⟩
    rcases hg.mem_right hmem with ⟨r₀, hmem₀, hw⟩ | ⟨_, hm⟩
    · have hn₀ := (hw.names d').1 hn
      rw [hw.eq_of_other (hother r₀ hn₀)] at hn ⊢
      exact ⟨hmem₀, hn⟩
    · exact absurd (hm.names hf) (hother r hn d List.mem_cons_self)
  · rintro ⟨hmem, hn⟩
    obtain ⟨r', hmem', hw⟩ := hg.mem_left hmem
    rw [hw.eq_of_other (hother r hn)] at hmem'
    exact ⟨hmem', hn⟩

/-- What the whole loop over the declared rows leaves. -/
structure Upserted (ds : List Declared) (actor : Str) (w w' : Store) (ids ids' : HashMap Str Str) :
    Prop where
  rows : Grown (Written ds actor) (fun r => ∃ d ∈ ds, w.rowAt d.key = none ∧ Minted actor d r)
    w.project w'.project
  grants : w'.projectGrant = w.projectGrant
  writes : w'.projectWrite = w.projectWrite
  named : ∀ d ∈ ds, ∃ r ∈ w'.project, d.Names r ∧ ids'.get d.key = some r.id
  others : ∀ k, k ∉ ds.map Declared.key → ids'.get k = ids.get k

theorem writeAll_ok {m : HashMap Str Stored} {w : Store × Nat} (hd : Sound ds) (hs : w.1.Schema)
    (hm : ∀ d ∈ ds, m.get d.key = (w.1.rowAt d.key).map Stored.of)
    (h : (writeAll m actor ds response ids).eval env w = (.ok (response', ids'), w')) :
    Upserted ds actor w.1 w'.1 ids ids' ∧ response' = tally m ds response := by
  induction ds generalizing response ids w with
  | nil =>
    cases h
    refine ⟨⟨.refl (fun r => .other fun _ h => absurd h List.not_mem_nil) _, rfl, rfl, ?_, ?_⟩, rfl⟩
    · exact fun _ h => absurd h List.not_mem_nil
    · exact fun _ _ => rfl
  | cons d ds ih =>
    obtain ⟨⟨i, response₁⟩, w₁, h₁, h⟩ := Txn.eval_bind_ok h
    obtain ⟨hone, hresponse⟩ := writeOne_ok (hm d List.mem_cons_self) h₁
    have hs₁ := schema_of_eval hs h₁
    have hf := hd.folded d List.mem_cons_self
    obtain ⟨hk, _⟩ := List.nodup_cons.1 hd.keys
    have hrow : ∀ d' ∈ ds, w₁.1.rowAt d'.key = w.1.rowAt d'.key := by
      intro d' hd'
      apply hone.rowAt hs hs₁ hf
      intro he
      exact hk (he ▸ List.mem_map_of_mem hd')
    obtain ⟨hup, hresponse'⟩ := ih hd.tail hs₁
      (fun d' hd' => by rw [hrow d' hd', hm d' (List.mem_cons_of_mem _ hd')]) h
    refine ⟨⟨?_, ?_, ?_, ?_, ?_⟩, ?_⟩
    · apply (hone.grown hs).comp (fun a b c hab hbc => hab.cons hk hbc) _ _ hup.rows
      · rintro r r' ⟨hnone, hmint⟩ hw
        rw [hw.eq_of_other]
        · exact ⟨d, List.mem_cons_self, hnone, hmint⟩
        · intro d' hd' hn
          apply hk
          rw [← (hmint.names hf).2, hn.2]
          exact List.mem_map_of_mem hd'
      · rintro r ⟨d', hd', hnone, hmint⟩
        rw [hrow d' hd'] at hnone
        exact ⟨d', List.mem_cons_of_mem _ hd', hnone, hmint⟩
    · rw [hup.grants, hone.frame.1]
    · rw [hup.writes, hone.frame.2]
    · intro d' hd'
      rcases List.mem_cons.1 hd' with rfl | hd'
      · obtain ⟨r, hmem, hn, hid⟩ := hone.names hs hf
        obtain ⟨r', hmem', hw⟩ := hup.rows.mem_left hmem
        refine ⟨r', hmem', (hw.names _).2 hn, ?_⟩
        rw [hup.others _ hk, HashMap.get_insert_self, hw.id_eq, hid]
      · exact hup.named d' hd'
    · intro k hnot
      rw [List.map_cons, List.mem_cons, not_or] at hnot
      rw [hup.others k hnot.2, HashMap.get_insert_of_ne _ _ hnot.1]
    · rw [hresponse', hresponse, ← tally_cons]

theorem archive_ok {w : Store × Nat} (h : (archive ids actor).eval env w = (.ok (), w')) :
    ∃ now, w'.1 = { w.1 with
      project := updateRows (fun r => ids.contains r.id)
        (.archived ProjectStatus.archived.toI8 actor now) w.1.project } := by
  unfold archive at h
  cases he : ids.isEmpty with
  | true =>
    rw [he] at h
    cases h
    refine ⟨0, ?_⟩
    rw [List.isEmpty_iff.1 he]
    have hid : updateRows (fun r => ([] : List Str).contains r.id)
        (.archived ProjectStatus.archived.toI8 actor 0) w'.1.project = w'.1.project := by
      simp only [updateRows, List.contains_nil, Bool.false_eq_true, ↓reduceIte, List.map_id']
    rw [hid]
  | false =>
    rw [he] at h
    obtain ⟨ws, hx, rfl⟩ := Txn.eval_query_ok h
    exact ⟨_, exec_updateArchived_ok hx⟩

end Sync

end ProjectDb
