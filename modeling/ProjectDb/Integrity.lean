import ProjectDb.Eval
import Mathlib.Data.List.Nodup

namespace ProjectDb
open Text ProjectDb.Path Mvcc
set_option autoImplicit true

theorem mem_updateRows {p : ProjectRow → Bool} {f : ProjectRow → ProjectRow}
    {rows : List ProjectRow} :
    r' ∈ updateRows p f rows ↔ ∃ r ∈ rows, (if p r then f r else r) = r' :=
  List.mem_map

theorem updateRows_map {g : ProjectRow → β} {f : ProjectRow → ProjectRow}
    (h : ∀ r, g (f r) = g r) (p : ProjectRow → Bool) (rows : List ProjectRow) :
    (updateRows p f rows).map g = rows.map g := by
  unfold updateRows
  rw [List.map_map]
  apply List.map_congr_left
  intro r _
  simp only [Function.comp_apply]
  split
  · exact h r
  · rfl

theorem nodup_snoc {l : List α} (h : l.Nodup) (ha : a ∉ l) : (l ++ [a]).Nodup := by
  apply List.nodup_append.2
  refine ⟨h, List.nodup_singleton a, ?_⟩
  intro b hb c hc he
  rw [List.mem_singleton.1 hc] at he
  exact ha (he ▸ hb)

@[simp] theorem ProjectRow.declared_id (n g : Str) (st : Int) (a : Str) (now : Time)
    (r : ProjectRow) : (r.declared n g st a now).id = r.id := rfl

@[simp] theorem ProjectRow.declared_path (n g : Str) (st : Int) (a : Str) (now : Time)
    (r : ProjectRow) : (r.declared n g st a now).path = r.path := rfl

@[simp] theorem ProjectRow.archived_id (st : Int) (a : Str) (now : Time) (r : ProjectRow) :
    (r.archived st a now).id = r.id := rfl

@[simp] theorem ProjectRow.archived_path (st : Int) (a : Str) (now : Time) (r : ProjectRow) :
    (r.archived st a now).path = r.path := rfl

@[simp] theorem ProjectRow.seen_id (n : Int) (r : ProjectRow) : (r.seen n).id = r.id := rfl

@[simp] theorem ProjectRow.seen_path (n : Int) (r : ProjectRow) : (r.seen n).path = r.path := rfl

theorem ProjectRow.fits_class {r : ProjectRow} (h : r.fits = true) :
    ckProjectClass r = true ∧ ckProjectClassPath r = true := by
  simp only [ProjectRow.fits, Bool.and_eq_true] at h
  exact ⟨h.1.2, h.2⟩

theorem ProjectRow.id_length {r : ProjectRow} (h : r.fits = true) : r.id.length ≤ 96 := by
  simp only [ProjectRow.fits, Bool.and_eq_true, decide_eq_true_eq] at h
  exact h.1.1.1.1.1.1.1.1

theorem ProjectRow.fits_private {r : ProjectRow} (h : r.fits = true) (ho : r.isOrg = false) :
    r.sourceRepo = none ∧ isPrivateClass r.path = true := by
  obtain ⟨h₁, h₂⟩ := fits_class h
  have hs : r.ownerUserId.isSome = true := by
    cases ho' : r.ownerUserId with
    | none =>
      rw [ProjectRow.isOrg, ho'] at ho
      cases ho
    | some o => rfl
  rw [ckProjectClassPath, hs, likeLocal_eq, beq_iff_eq] at h₂
  refine ⟨?_, h₂.symm⟩
  cases hr : r.sourceRepo with
  | none => rfl
  | some g =>
    rw [ckProjectClass, hr, hs] at h₁
    cases h₁

theorem ProjectRow.fits_archived {r : ProjectRow} (h : r.fits = true) (st : Int) (now : Time)
    (ha : a.length ≤ 64) : (r.archived st a now).fits = true := by
  simp only [ProjectRow.fits, Bool.and_eq_true, decide_eq_true_eq] at h ⊢
  obtain ⟨⟨⟨h₁, _⟩, h₃⟩, h₄⟩ := h
  exact ⟨⟨⟨h₁, ha⟩, h₃⟩, h₄⟩

theorem ProjectRow.fits_declared {r : ProjectRow} (h : r.fits = true) (ho : r.isOrg = true)
    (st : Int) (now : Time) (hn : n.length ≤ 255) (hg : g.length ≤ 255) (ha : a.length ≤ 64) :
    (r.declared n g st a now).fits = true := by
  have hown : r.ownerUserId = none := Option.isNone_iff_eq_none.1 ho
  simp only [ProjectRow.fits, Bool.and_eq_true, decide_eq_true_eq] at h ⊢
  obtain ⟨⟨⟨⟨⟨⟨⟨⟨h₁, h₂⟩, _⟩, _⟩, h₅⟩, h₆⟩, _⟩, _⟩, h₉⟩ := h
  refine ⟨⟨⟨⟨⟨⟨⟨⟨h₁, h₂⟩, hn⟩, ?_⟩, h₅⟩, h₆⟩, ha⟩, ?_⟩, h₉⟩
  · simpa only [ProjectRow.declared, Option.all_some, decide_eq_true_eq] using hg
  · simp only [ckProjectClass, ProjectRow.declared, hown, Option.isSome_some, Option.isSome_none]
    rfl

variable [ServerCollation]

@[simp] theorem patch_projectAlias (w : Write) (s : Store) :
    (w.patch s).projectAlias = s.projectAlias := by
  cases w <;> rfl

@[simp] theorem patchAll_nil (s : Store) : engine.patchAll [] s = s := rfl

theorem patchAll_cons (w : Write) (ws : List Write) (s : Store) :
    engine.patchAll (w :: ws) s = engine.patchAll ws (w.patch s) := rfl

@[simp] theorem patchAll_singleton (w : Write) (s : Store) :
    engine.patchAll [w] s = w.patch s := rfl

/-- Nothing this service sends writes `project_alias`. -/
@[simp] theorem patchAll_projectAlias (ws : List Write) (s : Store) :
    (engine.patchAll ws s).projectAlias = s.projectAlias := by
  induction ws generalizing s with
  | nil => rfl
  | cons w ws ih => rw [patchAll_cons, ih, patch_projectAlias]

namespace Store

theorem Schema.insertProject (hs : Schema s) (hr : row.fits = true)
    (hid : ∀ r ∈ s.project, r.id ≠ row.id) (hpath : ∀ r ∈ s.project, ¬ FoldsOnto r.path row.path) :
    Schema { s with project := s.project ++ [row] } where
  id_key := by
    rw [List.map_append]
    apply nodup_snoc hs.id_key
    intro hm
    obtain ⟨r, hr, he⟩ := List.mem_map.1 hm
    exact hid r hr he
  path_key := by
    rw [List.map_append]
    apply nodup_snoc hs.path_key
    intro hm
    obtain ⟨r, hr, he⟩ := List.mem_map.1 hm
    exact hpath r hr he
  row_fits := by
    intro r hm
    rcases List.mem_append.1 hm with hm | hm
    · exact hs.row_fits r hm
    · rw [List.mem_singleton.1 hm]
      exact hr
  alias_key := hs.alias_key
  write_key := hs.write_key
  grant_key := hs.grant_key
  grant_fits := hs.grant_fits
  grant_project := by
    intro g hg
    obtain ⟨r, hr, he⟩ := hs.grant_project g hg
    exact ⟨r, List.mem_append_left _ hr, he⟩

theorem Schema.updateRows {p : ProjectRow → Bool} {f : ProjectRow → ProjectRow} (hs : Schema s)
    (hid : ∀ r, (f r).id = r.id) (hpath : ∀ r, (f r).path = r.path)
    (hfits : ∀ r ∈ s.project, p r = true → (f r).fits = true) :
    Schema { s with project := ProjectDb.updateRows p f s.project } where
  id_key := by
    rw [updateRows_map hid]
    exact hs.id_key
  path_key := by
    rw [updateRows_map (fun r => congrArg toAsciiLowercase (hpath r))]
    exact hs.path_key
  row_fits := by
    intro r' hm
    obtain ⟨r, hr, rfl⟩ := mem_updateRows.1 hm
    split
    · rename_i hp
      exact hfits r hr hp
    · exact hs.row_fits r hr
  alias_key := hs.alias_key
  write_key := hs.write_key
  grant_key := hs.grant_key
  grant_fits := hs.grant_fits
  grant_project := by
    intro g hg
    obtain ⟨r, hr, he⟩ := hs.grant_project g hg
    refine ⟨_, mem_updateRows.2 ⟨r, hr, rfl⟩, ?_⟩
    split
    · rw [hid, he]
    · exact he

theorem Schema.deleteGrant (hs : Schema s) (p : GrantRow → Bool) :
    Schema { s with projectGrant := s.projectGrant.filter p } where
  id_key := hs.id_key
  path_key := hs.path_key
  row_fits := hs.row_fits
  alias_key := hs.alias_key
  write_key := hs.write_key
  grant_key := (List.filter_sublist.map _).nodup hs.grant_key
  grant_fits := fun g hg => hs.grant_fits g (List.mem_filter.1 hg).1
  grant_project := fun g hg => hs.grant_project g (List.mem_filter.1 hg).1

theorem Schema.updateGrant {level : Int} (hs : Schema s) (p : GrantRow → Bool)
    (hl : (level == 1 || level == 2) = true) :
    Schema { s with
      projectGrant :=
        s.projectGrant.map fun g => if p g then { g with level := level } else g } where
  id_key := hs.id_key
  path_key := hs.path_key
  row_fits := hs.row_fits
  alias_key := hs.alias_key
  write_key := hs.write_key
  grant_key := by
    rw [List.map_map]
    have he : ∀ g : GrantRow, ((fun g => (g.projectId, g.teamId)) ∘
        fun g => if p g then { g with level := level } else g) g = (g.projectId, g.teamId) := by
      intro g
      simp only [Function.comp_apply]
      split <;> rfl
    rw [List.map_congr_left fun g _ => he g]
    exact hs.grant_key
  grant_fits := by
    intro g' hm
    obtain ⟨g, hg, rfl⟩ := List.mem_map.1 hm
    have hf := hs.grant_fits g hg
    split
    · simp only [GrantRow.fits, Bool.and_eq_true] at hf ⊢
      exact ⟨hf.1, hl⟩
    · exact hf
  grant_project := by
    intro g' hm
    obtain ⟨g, hg, rfl⟩ := List.mem_map.1 hm
    split
    · exact hs.grant_project g hg
    · exact hs.grant_project g hg

theorem Schema.insertGrant (hs : Schema s) (hg : g.fits = true)
    (hp : ∃ r ∈ s.project, r.id = g.projectId)
    (hk : ∀ h ∈ s.projectGrant, ¬ (h.projectId = g.projectId ∧ h.teamId = g.teamId)) :
    Schema { s with projectGrant := s.projectGrant ++ [g] } where
  id_key := hs.id_key
  path_key := hs.path_key
  row_fits := hs.row_fits
  alias_key := hs.alias_key
  write_key := hs.write_key
  grant_key := by
    rw [List.map_append]
    apply nodup_snoc hs.grant_key
    intro hm
    obtain ⟨h, hh, he⟩ := List.mem_map.1 hm
    exact hk h hh (Prod.mk.inj he)
  grant_fits := by
    intro h hm
    rcases List.mem_append.1 hm with hm | hm
    · exact hs.grant_fits h hm
    · rw [List.mem_singleton.1 hm]
      exact hg
  grant_project := by
    intro h hm
    rcases List.mem_append.1 hm with hm | hm
    · exact hs.grant_project h hm
    · rw [List.mem_singleton.1 hm]
      exact hp

theorem Schema.insertWrite {row : WriteRow} (hs : Schema s) (hk : ¬ s.HasKey row.key) :
    Schema { s with projectWrite := s.projectWrite ++ [row] } := by
  refine ⟨hs.id_key, hs.path_key, hs.row_fits, hs.alias_key, ?_, hs.grant_key, hs.grant_fits,
    hs.grant_project⟩
  rw [List.map_append]
  apply nodup_snoc hs.write_key
  intro hm
  obtain ⟨w, hw, he⟩ := List.mem_map.1 hm
  exact hk ⟨w, hw, he⟩

theorem Schema.updateWrite (hs : Schema s) (p : WriteRow → Bool) (response : Bytes) :
    Schema { s with projectWrite :=
      s.projectWrite.map fun w => if p w then { w with response := response } else w } := by
  refine ⟨hs.id_key, hs.path_key, hs.row_fits, hs.alias_key, ?_, hs.grant_key, hs.grant_fits,
    hs.grant_project⟩
  have hkey : ∀ w : WriteRow, (WriteRow.key ∘ fun w =>
      if p w then { w with response := response } else w) w = w.key := by
    intro w
    simp only [Function.comp_apply]
    split <;> rfl
  rw [List.map_map, List.map_congr_left fun w _ => hkey w]
  exact hs.write_key

end Store

theorem exec_insertProject_ok {t : Tick} {n : NewProject} {s : Store}
    (h : Stmt.exec t (.insertProject n) s = .ok (a, ws)) :
    (n.row t.now).fits = true ∧ (∀ r ∈ s.project, r.id ≠ n.id) ∧
      (∀ r ∈ s.project, ¬ FoldsOnto r.path n.path) ∧ ws = [.insertProject (n.row t.now)] := by
  simp only [Stmt.exec] at h
  split at h
  · cases h
  · rename_i hf
    split at h
    · cases h
    · rename_i hu
      cases h
      refine ⟨?_, ?_, ?_, rfl⟩
      · simpa only [Bool.not_eq_true', Bool.not_eq_false] using hf
      · intro r hr he
        apply hu
        refine List.any_eq_true.2 ⟨r, hr, ?_⟩
        rw [Bool.or_eq_true, beq_iff_eq]
        exact .inl he
      · intro r hr he
        apply hu
        refine List.any_eq_true.2 ⟨r, hr, ?_⟩
        rw [Bool.or_eq_true, eqIgnoreAsciiCase_iff]
        exact .inr he

theorem exec_insertGrant_ok {t : Tick} {g : GrantRow} {s : Store}
    (h : Stmt.exec t (.insertGrant g) s = .ok (a, ws)) :
    g.fits = true ∧ (∃ r ∈ s.project, r.id = g.projectId) ∧
      (∀ h ∈ s.projectGrant, ¬ (h.projectId = g.projectId ∧ h.teamId = g.teamId)) ∧
      ws = [.insertGrant g] := by
  simp only [Stmt.exec] at h
  split at h
  · cases h
  · rename_i hf
    split at h
    · cases h
    · rename_i hu
      cases h
      simp only [Bool.not_eq_true', Bool.not_eq_false, Bool.and_eq_true, List.any_eq_true,
        beq_iff_eq] at hf
      refine ⟨hf.1, hf.2, ?_, rfl⟩
      rintro k hk ⟨h₁, h₂⟩
      apply hu
      refine List.any_eq_true.2 ⟨k, hk, ?_⟩
      rw [Bool.and_eq_true, beq_iff_eq, beq_iff_eq]
      exact ⟨h₁, h₂⟩

theorem exec_insertWrite_ok {t : Tick} {s : Store} {a : Unit}
    (h : Stmt.exec t (.insertWrite projectId userId idemKey rpc fp) s = .ok (a, ws)) :
    (WriteRow.kept ⟨projectId, userId, idemKey, rpc, [], fp⟩).fits = true ∧
      ¬ s.HasKey (ledgerKey projectId userId idemKey) ∧
      ws = [.insertWrite (WriteRow.kept ⟨projectId, userId, idemKey, rpc, [], fp⟩)] := by
  simp only [Stmt.exec] at h
  split_ifs at h with hfits hany
  cases h
  refine ⟨by simpa using hfits, ?_, rfl⟩
  rintro ⟨row, hrow, hk⟩
  refine hany (List.any_eq_true.2 ⟨row, hrow, beq_iff_eq.2 ?_⟩)
  rw [WriteRow.kept_key]
  exact hk

theorem insertWrite_writes {t : Tick} {s : Store} {a : Unit}
    (h : Stmt.exec t (.insertWrite projectId userId idemKey rpc fp) s = .ok (a, ws)) :
    ws = [.insertWrite (WriteRow.kept ⟨projectId, userId, idemKey, rpc, [], fp⟩)] :=
  (exec_insertWrite_ok h).2.2

theorem selectWrite_writes {t : Tick} {s : Store} {a : Str × Bytes × Bytes}
    (h : Stmt.exec t (.selectWriteForUpdate projectId userId idemKey) s = .ok (a, ws)) :
    ws = [] := by
  simp only [Stmt.exec] at h
  split at h
  · cases h
    rfl
  · cases h

theorem updateWrite_writes {t : Tick} {s : Store} {a : Unit}
    (h : Stmt.exec t (.updateWrite response projectId userId idemKey) s = .ok (a, ws)) :
    ws = [.updateWrite response projectId userId idemKey] := by
  simp only [Stmt.exec] at h
  split at h
  · cases h
    rfl
  · cases h

theorem exec_nonlocking {q : Stmt} {a : q.Reply} (hq : q.nonlocking = true)
    (h : q.exec t s = .ok (a, ws)) : ws = [] := by
  cases q with
  | selectOrgProjects | selectAliasIn | selectOrgGrants | selectAliasOwner | countMatching
  | selectAncestors | selectProject | selectPage | selectAliases | selectGrants =>
    cases h
    rfl
  | _ => cases hq

theorem fits_of_hits {s : Store} {p : ProjectRow → Bool} {f : ProjectRow → ProjectRow}
    (hs : s.Schema) (h : (s.project.filter p).all (fun r => (f r).fits) = true)
    (hr : r ∈ s.project) (hc : ((s.project.filter p).map ProjectRow.id).contains r.id = true) :
    (f r).fits = true := by
  obtain ⟨r', hr', he⟩ := List.mem_map.1 (List.contains_iff_mem.1 hc)
  have hm := (List.mem_filter.1 hr').1
  have hrr : r' = r := List.inj_on_of_nodup_map hs.id_key hm hr he
  subst hrr
  exact List.all_eq_true.1 h r' hr'

/-- A statement that succeeds keeps every key and CHECK. -/
theorem exec_schema {t : Tick} {q : Stmt} {s : Store} {a : q.Reply} (hs : s.Schema)
    (h : q.exec t s = .ok (a, ws)) : (engine.patchAll ws s).Schema := by
  cases q with
  | updateDeclared n g st actor id =>
    simp only [Stmt.exec] at h
    split at h
    · rename_i hall
      cases h
      exact hs.updateRows (fun _ => rfl) (fun _ => rfl)
        fun r hr hc => fits_of_hits hs hall hr hc
    · cases h
  | insertProject n =>
    obtain ⟨hf, hid, hpath, rfl⟩ := exec_insertProject_ok h
    exact hs.insertProject hf hid hpath
  | updateArchived st actor ids =>
    simp only [Stmt.exec] at h
    split at h
    · rename_i hall
      cases h
      exact hs.updateRows (fun _ => rfl) (fun _ => rfl)
        fun r hr hc => fits_of_hits hs hall hr hc
    · cases h
  | deleteGrant projectId teamId =>
    cases h
    exact hs.deleteGrant _
  | updateGrant level projectId teamId =>
    simp only [Stmt.exec] at h
    split at h
    · rename_i hl
      cases h
      exact hs.updateGrant _ hl
    · cases h
  | insertGrant g =>
    obtain ⟨hf, hp, hk, rfl⟩ := exec_insertGrant_ok h
    exact hs.insertGrant hf hp hk
  | insertWrite projectId userId idemKey rpc fingerprint =>
    obtain ⟨_, hfree, rfl⟩ := exec_insertWrite_ok h
    exact hs.insertWrite ((WriteRow.kept_key _).symm ▸ hfree)
  | updateWrite response projectId userId idemKey =>
    rw [updateWrite_writes h]
    exact hs.updateWrite _ _
  | updateLastSeen seconds paths =>
    cases h
    exact hs.updateRows (fun _ => rfl) (fun _ => rfl) fun r hr _ => hs.row_fits r hr
  | selectWriteForUpdate projectId userId idemKey =>
    rw [selectWrite_writes h]
    exact hs
  | selectSyncLockForUpdate =>
    cases h
    exact hs
  | selectOrgProjects | selectAliasIn | selectOrgGrants | selectAliasOwner | countMatching
  | selectAncestors | selectProject | selectPage | selectAliases | selectGrants =>
    rw [exec_nonlocking rfl h]
    exact hs

theorem op_exec_schema (t : Tick) (o : Op) {s : Store} (hs : s.Schema) :
    (engine.patchAll (o.exec t s).2 s).Schema := by
  cases o with
  | nowV7 => exact hs
  | sql q =>
    simp only [Op.exec]
    cases t.fault with
    | some f => exact hs
    | none =>
      cases hq : q.exec t s with
      | error e => exact hs
      | ok r => exact exec_schema hs hq

theorem Txn.eval_schema {env : Nat → Tick} (x : Txn α) {s : Store × Nat} (hs : s.1.Schema) :
    (x.eval env s).2.1.Schema :=
  Prog.run_invariant (I := fun s : Store × Nat => s.1.Schema) (serveOp env)
    (fun o s hs => op_exec_schema (env s.2) o hs) x.run hs

theorem schema_of_eval {env : Nat → Tick} {x : Txn α} {w : Store × Nat} (hs : w.1.Schema)
    (h : x.eval env w = (.ok a, w')) : w'.1.Schema := by
  have hinv : (x.eval env w).2.1.Schema := x.eval_schema hs
  rwa [h] at hinv

theorem Txn.eval_projectAlias {env : Nat → Tick} (x : Txn α) (s : Store × Nat) :
    (x.eval env s).2.1.projectAlias = s.1.projectAlias :=
  Prog.run_relates (R := fun a b : Store × Nat => b.1.projectAlias = a.1.projectAlias)
    (serveOp env) (fun _ => rfl) (fun h h' => h'.trans h)
    (fun _ _ => patchAll_projectAlias _ _) x.run s

end ProjectDb
