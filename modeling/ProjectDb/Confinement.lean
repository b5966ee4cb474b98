import ProjectDb.Isolation
import ProjectDb.Simulation

namespace ProjectDb
open Text ProjectDb.Path Mvcc
set_option autoImplicit true

theorem find?_eq_of_key {f : α → κ} {p : α → Bool} {l l' : List α} (hl' : (l'.map f).Nodup)
    (hp : ∀ a, p a = true ↔ f a = k) (h : ∀ a, f a = k → (a ∈ l ↔ a ∈ l')) :
    l.find? p = l'.find? p := by
  cases hf : l.find? p with
  | none =>
    symm
    rw [List.find?_eq_none]
    intro a ha hk
    have hm := (h a ((hp a).1 hk)).2 ha
    exact List.find?_eq_none.1 hf a hm hk
  | some a =>
    have hk := List.find?_some hf
    have hm := (h a ((hp a).1 hk)).1 (List.mem_of_find?_eq_some hf)
    cases hf' : l'.find? p with
    | none => exact absurd hk (List.find?_eq_none.1 hf' a hm)
    | some b =>
      have hkb := List.find?_some hf'
      have he : f a = f b := ((hp a).1 hk).trans ((hp b).1 hkb).symm
      rw [List.inj_on_of_nodup_map hl' hm (List.mem_of_find?_eq_some hf') he]

theorem any_eq_of_mem {p : α → Bool} {l l' : List α}
    (h : ∀ a, p a = true → (a ∈ l ↔ a ∈ l')) : l.any p = l'.any p := by
  rw [Bool.eq_iff_iff, List.any_eq_true, List.any_eq_true]
  apply exists_congr
  intro a
  constructor
  · intro ⟨ha, hp⟩
    exact ⟨(h a hp).1 ha, hp⟩
  · intro ⟨ha, hp⟩
    exact ⟨(h a hp).2 ha, hp⟩

theorem mem_map_congr {f : α → α} {C : α → Prop} {l l' : List α} (hf : ∀ a, C (f a) ↔ C a)
    (h : ∀ a, C a → (a ∈ l ↔ a ∈ l')) (hb : C b) : b ∈ l.map f ↔ b ∈ l'.map f := by
  rw [List.mem_map, List.mem_map]
  apply exists_congr
  intro a
  constructor
  · intro ⟨ha, he⟩
    exact ⟨(h a ((hf a).1 (he ▸ hb))).1 ha, he⟩
  · intro ⟨ha, he⟩
    exact ⟨(h a ((hf a).1 (he ▸ hb))).2 ha, he⟩

/-- No row has an id that will be minted. -/
def Unminted (env : Nat → Tick) (s : Store) : Prop :=
  ∀ r ∈ s.project, ∀ n, r.id ≠ Register.projectIdPrefix ++ (env n).uuid

section
variable [ServerCollation]

/-- A part of the tables, as the engine compares its columns: the rows and aliases at some paths,
and the ledger rows of some users. -/
structure Region where
  holds : Str → Prop
  users : Str → Prop
  holds_congr : ∀ {p q}, FoldsOnto p q → holds p → holds q
  users_congr : ∀ {u v}, ServerCollation.collated u = ServerCollation.collated v → users u → users v

namespace Region

/-- Two stores that hold the same rows of the region. -/
structure Agree (K : Region) (s s' : Store) : Prop where
  rows : ∀ r, K.holds r.path → (r ∈ s.project ↔ r ∈ s'.project)
  aliases : ∀ a, K.holds a.aliasPath → (a ∈ s.projectAlias ↔ a ∈ s'.projectAlias)
  writes : ∀ w, K.users w.userId → (w ∈ s.projectWrite ↔ w ∈ s'.projectWrite)

/-- A row of the region under an id minted for it. -/
def Mints (K : Region) (env : Nat → Tick) (r : ProjectRow) : Prop :=
  K.holds r.path ∧ ∃ n, r.id = Register.projectIdPrefix ++ (env n).uuid

/-- The store is as it was outside the region, and inside it rows were added at most. -/
structure Confines (K : Region) (env : Nat → Tick) (s s' : Store) : Prop where
  rows : Grown Eq (K.Mints env) s.project s'.project
  writes : ∀ w, ¬ K.users w.userId → (w ∈ s.projectWrite ↔ w ∈ s'.projectWrite)
  aliases : s'.projectAlias = s.projectAlias
  grants : s'.projectGrant = s.projectGrant

/-- The ids that will be minted are not those of rows outside the region. -/
structure Admits (K : Region) (env : Nat → Tick) (s : Store) : Prop where
  schema : s.Schema
  unused : ∀ r ∈ s.project, ¬ K.holds r.path →
    ∀ n, r.id ≠ Register.projectIdPrefix ++ (env n).uuid

/-- What two runs of a registration keep of their stores. -/
structure Alike (K : Region) (env : Nat → Tick) (s s' : Store) : Prop where
  agree : K.Agree s s'
  left : K.Admits env s
  right : K.Admits env s'

variable {K : Region} {env : Nat → Tick}

theorem Confines.refl (s : Store) : K.Confines env s s :=
  ⟨.refl (fun _ => rfl) _, fun _ _ => Iff.rfl, rfl, rfl⟩

theorem Admits.of_insert {s : Store} (h : K.Admits env s) (hrow : K.holds row.path)
    (hs : Store.Schema { s with project := s.project ++ [row] }) :
    K.Admits env { s with project := s.project ++ [row] } where
  schema := hs
  unused := by
    intro r hr hout
    rcases List.mem_append.1 hr with hr | hr
    · exact h.unused r hr hout
    · rw [List.mem_singleton.1 hr] at hout
      exact absurd hrow hout

theorem respects_of_exec {t : Tick} {q : Stmt} {s : Store}
    (hexec : ∀ s', K.Alike env s s' → q.exec t s' = q.exec t s)
    (hwrites : ∀ s', K.Alike env s s' → ∀ a ws, q.exec t s = .ok (a, ws) →
      K.Agree (engine.patchAll ws s) (engine.patchAll ws s') ∧
      (∀ s, K.Admits env s → (engine.patchAll ws s).Schema → K.Admits env (engine.patchAll ws s))) :
    q.Respects (K.Alike env) t s := by
  intro s' h
  refine ⟨hexec s' h, fun a ws hx => ?_⟩
  obtain ⟨hag, hadmits⟩ := hwrites s' h a ws hx
  have hx' : q.exec t s' = .ok (a, ws) := (hexec s' h).trans hx
  exact ⟨hag, hadmits s h.left (exec_schema h.left.schema hx),
    hadmits s' h.right (exec_schema h.right.schema hx')⟩

theorem respects_insertWrite (hu : K.users userId) (t : Tick) (s : Store) :
    (Stmt.insertWrite projectId userId idemKey rpc fp).Respects (K.Alike env) t s := by
  apply respects_of_exec
  · intro s' h
    have hany : (s.projectWrite.any fun w => w.key == ledgerKey projectId userId idemKey) =
        s'.projectWrite.any fun w => w.key == ledgerKey projectId userId idemKey := by
      apply any_eq_of_mem
      intro w hw
      obtain ⟨_, hw⟩ := Prod.mk.inj (beq_iff_eq.1 hw)
      exact h.agree.writes w (K.users_congr (Prod.mk.inj hw).1.symm hu)
    have hkey : (WriteRow.kept ⟨projectId, userId, idemKey, rpc, [], fp⟩).key =
        ledgerKey projectId userId idemKey := WriteRow.kept_key _
    simp only [Stmt.exec, hkey, hany]
  · intro s' h a ws hx
    rw [insertWrite_writes hx]
    refine ⟨⟨h.agree.rows, h.agree.aliases, fun w hw => ?_⟩, fun s hs hs' => ⟨hs', hs.unused⟩⟩
    simp only [patchAll_singleton, Write.patch, List.mem_append, h.agree.writes w hw]

theorem respects_selectWrite (hu : K.users userId) (t : Tick) (s : Store) :
    (Stmt.selectWriteForUpdate projectId userId idemKey).Respects (K.Alike env) t s := by
  apply respects_of_exec
  · intro s' h
    have hfind : (s.projectWrite.find? fun w => w.key == ledgerKey projectId userId idemKey) =
        s'.projectWrite.find? fun w => w.key == ledgerKey projectId userId idemKey := by
      apply find?_eq_of_key h.right.schema.write_key fun _ => beq_iff_eq
      intro w hw
      obtain ⟨_, hw⟩ := Prod.mk.inj hw
      exact h.agree.writes w (K.users_congr (Prod.mk.inj hw).1.symm hu)
    simp only [Stmt.exec, hfind]
  · intro s' h a ws hx
    rw [selectWrite_writes hx]
    exact ⟨h.agree, fun s hs _ => hs⟩

theorem respects_updateWrite (t : Tick) (s : Store) :
    (Stmt.updateWrite response projectId userId idemKey).Respects (K.Alike env) t s := by
  apply respects_of_exec
  · intro s' _
    rfl
  · intro s' h a ws hx
    rw [updateWrite_writes hx]
    refine ⟨⟨h.agree.rows, h.agree.aliases, fun w hw => ?_⟩, fun s hs hs' => ⟨hs', hs.unused⟩⟩
    apply mem_map_congr (C := fun w => K.users w.userId)
    · intro w
      split <;> exact Iff.rfl
    · exact h.agree.writes
    · exact hw

theorem respects_selectAliasOwner (hp : K.holds path) (t : Tick) (s : Store) :
    (Stmt.selectAliasOwner path).Respects (K.Alike env) t s := by
  apply respects_of_exec
  · intro s' h
    have hfind : (s.projectAlias.find? fun a => eqIgnoreAsciiCase a.aliasPath path) =
        s'.projectAlias.find? fun a => eqIgnoreAsciiCase a.aliasPath path := by
      apply find?_eq_of_key h.right.schema.alias_key fun _ => eqIgnoreAsciiCase_iff _ _
      intro a ha
      exact h.agree.aliases a (K.holds_congr ha.symm hp)
    simp only [Stmt.exec, hfind]
  · intro s' h a ws hx
    cases hx
    exact ⟨h.agree, fun s hs _ => hs⟩

theorem respects_insertProject {n : NewProject} (hp : K.holds n.path)
    (hid : n.id = Register.projectIdPrefix ++ (env i).uuid) (t : Tick) (s : Store) :
    (Stmt.insertProject n).Respects (K.Alike env) t s := by
  apply respects_of_exec
  · intro s' h
    have hany : (s.project.any fun r => r.id == n.id || eqIgnoreAsciiCase r.path n.path) =
        s'.project.any fun r => r.id == n.id || eqIgnoreAsciiCase r.path n.path := by
      apply any_eq_of_mem
      intro r hr
      rw [Bool.or_eq_true, beq_iff_eq, eqIgnoreAsciiCase_iff] at hr
      by_cases hin : K.holds r.path
      · exact h.agree.rows r hin
      · have hne : r.id = n.id := hr.resolve_right fun hf => hin (K.holds_congr hf.symm hp)
        exact ⟨fun hm => absurd (hne.trans hid) (h.left.unused r hm hin i),
          fun hm => absurd (hne.trans hid) (h.right.unused r hm hin i)⟩
    have hrow : (n.row t.now).id = n.id ∧ (n.row t.now).path = n.path := ⟨rfl, rfl⟩
    simp only [Stmt.exec, hrow, hany]
  · intro s' h a ws hx
    obtain ⟨_, _, _, rfl⟩ := exec_insertProject_ok hx
    refine ⟨⟨fun r hr => ?_, h.agree.aliases, h.agree.writes⟩, fun s hs hs' => hs.of_insert hp hs'⟩
    simp only [patchAll_singleton, Write.patch, List.mem_append, h.agree.rows r hr]

theorem keeps_of_read {I : Store → Prop} {t : Tick} {q : Stmt} {s : Store}
    (hq : ∀ a ws, q.exec t s = .ok (a, ws) → ws = []) : q.Keeps I t s := by
  intro hs a ws hx
  cases hq a ws hx
  exact hs

theorem keeps_insertWrite {s₀ : Store} (hu : K.users userId) (t : Tick) (s : Store) :
    (Stmt.insertWrite projectId userId idemKey rpc fp).Keeps (K.Confines env s₀) t s := by
  intro h a ws hx
  rw [insertWrite_writes hx]
  refine ⟨h.rows, fun w hw => ?_, h.aliases, h.grants⟩
  rw [h.writes w hw, patchAll_singleton]
  simp only [Write.patch, List.mem_append, List.mem_singleton]
  constructor
  · exact .inl
  · rintro (hm | rfl)
    · exact hm
    · exact absurd (K.users_congr (collated_varchar 64 userId).symm hu) hw

theorem keeps_updateWrite {s₀ : Store} (hu : K.users userId) (t : Tick) (s : Store) :
    (Stmt.updateWrite response projectId userId idemKey).Keeps (K.Confines env s₀) t s := by
  intro h a ws hx
  rw [updateWrite_writes hx]
  refine ⟨h.rows, fun w hw => ?_, h.aliases, h.grants⟩
  have hother : ∀ w : WriteRow, ¬ K.users w.userId →
      (w.key == ledgerKey projectId userId idemKey) = false := by
    intro w hw
    rw [beq_eq_false_iff_ne]
    intro he
    obtain ⟨_, he⟩ := Prod.mk.inj he
    exact hw (K.users_congr (Prod.mk.inj he).1.symm hu)
  rw [h.writes w hw, patchAll_singleton]
  simp only [Write.patch, List.mem_map]
  constructor
  · intro hm
    refine ⟨w, hm, ?_⟩
    rw [hother w hw]
    rfl
  · rintro ⟨v, hv, he⟩
    have hv' : ¬ K.users v.userId := by
      intro hin
      apply hw
      rw [← he]
      split <;> exact hin
    rw [hother v hv'] at he
    exact he ▸ hv

theorem keeps_insertProject {s₀ : Store} {n : NewProject} (hp : K.holds n.path)
    (hid : n.id = Register.projectIdPrefix ++ (env i).uuid) (t : Tick) (s : Store) :
    (Stmt.insertProject n).Keeps (K.Confines env s₀) t s := by
  intro h a ws hx
  obtain ⟨_, _, _, rfl⟩ := exec_insertProject_ok hx
  refine ⟨?_, h.writes, h.aliases, h.grants⟩
  have hrow : K.Mints env (n.row t.now) := ⟨hp, i, hid⟩
  have hgrown : Grown Eq (K.Mints env) s.project (s.project ++ [n.row t.now]) :=
    .snoc (fun _ => rfl) hrow _
  exact Grown.trans (R := Eq) (fun _ _ _ => Eq.trans) (fun _ _ hin he => he ▸ hin) h.rows hgrown

section
variable [UuidCrate] [Idem.Sha256] [Message RegisterProjectRequest]
  [Message RegisterProjectResponse]

/-- A registration in the region reads the region and writes in it alone. -/
theorem registerAs_confined {req : RegisterProjectRequest} (caller : Option Str)
    (h : ∀ scope cls, Register.checked req = .ok (scope, cls) →
      K.holds req.path ∧ K.users scope.userId) {s s' : Store} (hs : K.Alike env s s') :
    ((Register.registerAs caller req).serve env s).1 =
        ((Register.registerAs caller req).serve env s').1 ∧
      K.Agree ((Register.registerAs caller req).serve env s).2
        ((Register.registerAs caller req).serve env s').2 := by
  have hsends : (Register.registerAs caller req).Sends (Stmt.Respects (K.Alike env)) env
      ⟨s, none, 0⟩ := by
    apply Register.registerAs_sends
    intro scope cls hchecked
    obtain ⟨hp, hu⟩ := h scope cls hchecked
    exact {
      claim := fun _ _ t s => respects_insertWrite hu t s
      replay := fun _ _ t s => respects_selectWrite hu t s
      former := fun t s => respects_selectAliasOwner hp t s
      insert := fun _ t s => respects_insertProject hp rfl t s
      record := fun _ _ _ t s => respects_updateWrite t s }
  obtain ⟨hanswer, halike⟩ := Rpc.simulates hsends hs
  exact ⟨hanswer, halike.agree⟩

theorem registerAs_confines {req : RegisterProjectRequest} (caller : Option Str)
    (h : ∀ scope cls, Register.checked req = .ok (scope, cls) →
      K.holds req.path ∧ K.users scope.userId) (env : Nat → Tick) (s : Store) :
    K.Confines env s ((Register.registerAs caller req).serve env s).2 := by
  have hsends : (Register.registerAs caller req).Sends (Stmt.Keeps (K.Confines env s)) env
      ⟨s, none, 0⟩ := by
    apply Register.registerAs_sends
    intro scope cls hchecked
    obtain ⟨hp, hu⟩ := h scope cls hchecked
    exact {
      claim := fun _ _ t s => keeps_insertWrite hu t s
      replay := fun _ _ t s => keeps_of_read fun _ _ hx => selectWrite_writes hx
      former := fun t s => keeps_of_read fun _ _ hx => by
        cases hx
        rfl
      insert := fun _ t s => keeps_insertProject hp rfl t s
      record := fun _ _ _ t s => keeps_updateWrite hu t s }
  exact Rpc.keeps hsends (.refl s)

end

end Region

/-- An account's own part: the paths that fold onto its root or beneath it, and the ledger rows of
its user. -/
def Region.own (userId seg : Str) : Region where
  holds path := ∃ q, FoldsOnto path q ∧ Beneath (reservedRoot ++ '/' :: seg) q
  users u := ServerCollation.collated u = ServerCollation.collated userId
  holds_congr := by
    intro p q hpq ⟨own, hfold, hbeneath⟩
    exact ⟨own, hpq.symm.trans hfold, hbeneath⟩
  users_congr := fun huv hu => huv.symm.trans hu

section
variable [UuidCrate]

omit [ServerCollation] in
/-- The byte-exact guard on the account's root. -/
theorem beneath_of_checked {req : RegisterProjectRequest}
    (h : Register.checked req = .ok (scope, cls)) (hseg : accountSegment scope.userId = some seg) :
    Beneath (reservedRoot ++ '/' :: seg) req.path := by
  obtain ⟨_, _, _, _, _, seg', hseg', hroot⟩ := checked_ok h
  cases hseg.symm.trans hseg'
  obtain ⟨rest, hrest⟩ := segments_of_isUnderOwnRoot hroot
  obtain ⟨_, hshape⟩ := accountSegment_eq_some hseg
  apply beneath_of_segments
  rw [segments_append_slash, segments_of_not_mem (slash_not_mem_hyphenated hshape), hrest]
  exact List.prefix_append _ _

omit [ServerCollation] in
theorem checked_scope {req : RegisterProjectRequest}
    (h : Register.checked req = .ok (scope, cls)) : req.scope = some scope := by
  obtain ⟨scope', hs, h⟩ := bind_eq_ok.1 h
  obtain ⟨_, _, h⟩ := bind_eq_ok.1 h
  obtain ⟨_, _, h⟩ := bind_eq_ok.1 h
  split at h
  · cases h
  · obtain ⟨_, _, h⟩ := bind_eq_ok.1 h
    cases h
    unfold scopeOf at hs
    split at hs
    · rename_i hsome
      cases hs
      exact hsome
    · cases hs

variable [Idem.Sha256] [Message RegisterProjectRequest] [Message RegisterProjectResponse]

theorem serve_unchecked_admitted {req : RegisterProjectRequest}
    (ha : Register.admitCaller caller = .ok ()) (h : Register.checked req = .error e)
    (env : Nat → Tick) (s : Store) :
    (Register.registerAs caller req).serve env s = (.error e, s) := by
  unfold Rpc.serve Register.registerAs Register.register
  rw [ha, Rpc.eval_bind_of_ok (Rpc.eval_ofExcept _ _), h,
    Rpc.eval_bind_of_error (Rpc.eval_ofExcept _ _)]

theorem serve_unchecked {req : RegisterProjectRequest} (caller : Option Str)
    (h : Register.checked req = .error e) :
    ∃ e, ∀ env s, (Register.registerAs caller req).serve env s = (.error e, s) := by
  cases ha : Register.admitCaller caller with
  | error e' =>
    refine ⟨e', fun env s => ?_⟩
    unfold Rpc.serve Register.registerAs
    rw [ha, Rpc.eval_bind_of_error (Rpc.eval_ofExcept _ _)]
  | ok _ => exact ⟨e, serve_unchecked_admitted ha h⟩

/-- A registration answers by its account's own part of the store, and writes in it alone. -/
theorem register_no_oracle {req : RegisterProjectRequest} (hscope : req.scope = some scope)
    (hseg : accountSegment scope.userId = some seg) (caller : Option Str) :
    (∀ env s s', (Region.own scope.userId seg).Admits env s →
      (Region.own scope.userId seg).Admits env s' → (Region.own scope.userId seg).Agree s s' →
        ((Register.registerAs caller req).serve env s).1 =
          ((Register.registerAs caller req).serve env s').1 ∧
        (Region.own scope.userId seg).Agree ((Register.registerAs caller req).serve env s).2
          ((Register.registerAs caller req).serve env s').2 ∧
        (Region.own scope.userId seg).Confines env s
          ((Register.registerAs caller req).serve env s).2 ∧
        (Region.own scope.userId seg).Confines env s'
          ((Register.registerAs caller req).serve env s').2) ∧
    (¬ Beneath (reservedRoot ++ '/' :: seg) req.path →
      ∃ e, ∀ env s, (Register.registerAs caller req).serve env s = (.error e, s)) := by
  have hregion : ∀ scope' cls, Register.checked req = .ok (scope', cls) →
      (Region.own scope.userId seg).holds req.path ∧
        (Region.own scope.userId seg).users scope'.userId := by
    intro scope' cls h
    cases hscope.symm.trans (checked_scope h)
    exact ⟨⟨req.path, rfl, beneath_of_checked h hseg⟩, rfl⟩
  constructor
  · intro env s s' hs hs' hagree
    obtain ⟨hanswer, hafter⟩ := Region.registerAs_confined caller hregion ⟨hagree, hs, hs'⟩
    exact ⟨hanswer, hafter, Region.registerAs_confines caller hregion env s,
      Region.registerAs_confines caller hregion env s'⟩
  · intro houtside
    cases h : Register.checked req with
    | error e => exact serve_unchecked caller h
    | ok admitted =>
      obtain ⟨scope', cls⟩ := admitted
      cases hscope.symm.trans (checked_scope h)
      exact absurd (beneath_of_checked h hseg) houtside

end

end

section
open scoped Reference

theorem first_of_own {userId seg path : Str} (h : (Region.own userId seg).holds path) :
    FoldsOnto (firstSegment path) reservedRoot := by
  obtain ⟨q, hfold, hbeneath⟩ := h
  have hprefix := segments_of_beneath hbeneath
  rw [segments_append_slash] at hprefix
  have hroot : segments reservedRoot <+: segments q := (List.prefix_append _ _).trans hprefix
  have hlocal : firstSegment reservedRoot = reservedRoot := rfl
  rw [← hlocal, firstSegment_of_segments hroot]
  exact FoldsOnto.firstSegment hfold

theorem renamed_unminted (env : Nat → Tick) : Unminted env Read.renamed := by
  intro r hr n he
  rw [List.mem_singleton.1 hr] at he
  have hlen := congrArg List.length he
  rw [List.length_append] at hlen
  exact absurd hlen (Nat.ne_of_lt (Nat.lt_add_right _ (by decide)))

theorem register_no_oracle_ada :
    ((Register.registerAs (some Register.registerCaller) adaHome).serve (fun n => .quiet 1 n)
      Store.empty).1 =
    ((Register.registerAs (some Register.registerCaller) adaHome).serve (fun n => .quiet 1 n)
      Read.renamed).1 := by
  have hseg : accountSegment ada = some "01920000-0000-7000-8000-000000000000".toList := by
    decide +kernel
  have hscope : adaHome.scope = some ⟨ada, []⟩ := rfl
  obtain ⟨halike, _⟩ := register_no_oracle hscope hseg (some Register.registerCaller)
  have hempty : (Region.own ada "01920000-0000-7000-8000-000000000000".toList).Admits
      (fun n => .quiet 1 n) Store.empty :=
    ⟨aliasOnly_schema List.nodup_nil, fun r hr => absurd hr List.not_mem_nil⟩
  have hrenamed : (Region.own ada "01920000-0000-7000-8000-000000000000".toList).Admits
      (fun n => .quiet 1 n) Read.renamed :=
    ⟨renamed_schema, fun r hr _ => renamed_unminted _ r hr⟩
  have hagree : (Region.own ada "01920000-0000-7000-8000-000000000000".toList).Agree
      Store.empty Read.renamed := by
    refine ⟨fun r hin => ⟨fun hr => absurd hr List.not_mem_nil, fun hr => ?_⟩,
      fun a hin => ⟨fun ha => absurd ha List.not_mem_nil, fun ha => ?_⟩, fun _ _ => Iff.rfl⟩
    · rw [List.mem_singleton.1 hr] at hin
      exact absurd (first_of_own hin) (by decide)
    · rw [List.mem_singleton.1 ha] at hin
      exact absurd (first_of_own hin) (by decide)
  exact (halike _ _ _ hempty hrenamed hagree).1

end

end ProjectDb
