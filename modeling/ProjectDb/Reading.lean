import ProjectDb.Read
import ProjectDb.Resolution

namespace ProjectDb.Read
open Text ProjectDb.Path Mvcc
set_option autoImplicit true

theorem head_insertionSort {r : α → α → Prop} [DecidableRel r] [Std.Total r] [IsTrans α r]
    {l : List α} (h : (l.insertionSort r).head? = some a) : a ∈ l ∧ ∀ b ∈ l, r a b := by
  have hsorted := List.pairwise_insertionSort r l
  cases hl : l.insertionSort r with
  | nil =>
    rw [hl] at h
    cases h
  | cons x xs =>
    rw [hl] at h hsorted
    cases h
    have hmem : ∀ b, b ∈ l ↔ b ∈ a :: xs := fun b => by rw [← hl, List.mem_insertionSort]
    refine ⟨(hmem a).2 List.mem_cons_self, fun b hb => ?_⟩
    rcases List.mem_cons.1 ((hmem b).1 hb) with rfl | hb
    · exact (total_of r b b).elim id id
    · exact List.rel_of_pairwise_cons hsorted hb

theorem head_insertionSort_none {r : α → α → Prop} [DecidableRel r] {l : List α}
    (h : (l.insertionSort r).head? = none) : l = [] := by
  have hnil := List.head?_eq_none_iff.1 h
  have hlen := List.length_insertionSort r l
  rw [hnil] at hlen
  exact List.eq_nil_of_length_eq_zero hlen.symm

/-- A live path comes before a former one. -/
abbrev LiveFirst (path : Str) (p q : ProjectRow) : Prop :=
  (eqIgnoreAsciiCase p.path path || !eqIgnoreAsciiCase q.path path) = true

instance : Std.Total (LiveFirst path) where
  total p q := by
    cases hp : eqIgnoreAsciiCase p.path path <;> cases hq : eqIgnoreAsciiCase q.path path <;>
      simp [LiveFirst, hp, hq]

instance : IsTrans ProjectRow (LiveFirst path) where
  trans p q r h h' := by
    cases hp : eqIgnoreAsciiCase p.path path <;> cases hq : eqIgnoreAsciiCase q.path path <;>
      simp_all [LiveFirst]

/-- The row a path is looked up to. -/
def selected (t : Tick) (s : Store) (path : Str) : Option ProjectRow :=
  ((t.order (s.project.filter (names s path))).insertionSort (LiveFirst path)).head?

def pageOf (t : Tick) (s : Store) (under : Option (Str × Str)) (status : Option Int)
    (after : Option Str) (limit : Nat) : List ProjectRow :=
  ((t.order (s.project.filter (onPage under status after))).insertionSort fun p q =>
    PathLe p.path q.path).take limit

def aliasesOf (t : Tick) (s : Store) (ids : List Str) : List AliasRow :=
  (t.order (s.projectAlias.filter fun a => ids.contains a.projectId)).insertionSort
    fun a b => PathLe a.aliasPath b.aliasPath

def grantsOf (t : Tick) (s : Store) (ids : List Str) : List GrantRow :=
  (t.order (s.projectGrant.flatMap fun g =>
    (s.orgRows.filter fun p => p.id == g.projectId && ids.contains g.projectId).map
      fun _ => g)).insertionSort fun g h => g.teamId ≤ h.teamId

/-- The row a path denotes: the live row at it, else the row that a former path points at. -/
def Denotes (s : Store) (path : Str) (r : ProjectRow) : Prop :=
  r ∈ s.project ∧ (FoldsOnto r.path path ∨ (∀ r' ∈ s.project, ¬ FoldsOnto r'.path path) ∧
    ∃ a ∈ s.projectAlias, FoldsOnto a.aliasPath path ∧ a.projectId = r.id)

theorem Denotes.unique {s : Store} (hid : (s.project.map ProjectRow.id).Nodup)
    (hpath : (s.project.map fun r => toAsciiLowercase r.path).Nodup)
    (halias : (s.projectAlias.map fun a => toAsciiLowercase a.aliasPath).Nodup)
    (h : Denotes s path r) (h' : Denotes s path r') : r = r' := by
  obtain ⟨hr, hlive | ⟨hno, a, ha, hf, hida⟩⟩ := h
  · obtain ⟨hr', hlive' | ⟨hno', _⟩⟩ := h'
    · exact List.inj_on_of_nodup_map hpath hr hr' (hlive.trans hlive'.symm)
    · exact absurd hlive (hno' r hr)
  · obtain ⟨hr', hlive' | ⟨_, a', ha', hf', hida'⟩⟩ := h'
    · exact absurd hlive' (hno r' hr')
    · have he : a = a' := List.inj_on_of_nodup_map halias ha ha' (hf.trans hf'.symm)
      subst he
      exact List.inj_on_of_nodup_map hid hr hr' (hida.symm.trans hida')

theorem names_iff {s : Store}
    (halias : (s.projectAlias.map fun a => toAsciiLowercase a.aliasPath).Nodup)
    (r : ProjectRow) : names s path r = true ↔
    FoldsOnto r.path path ∨
      ∃ a ∈ s.projectAlias, FoldsOnto a.aliasPath path ∧ a.projectId = r.id := by
  rw [names, Bool.or_eq_true, eqIgnoreAsciiCase_iff]
  apply or_congr_right
  constructor
  · intro h
    obtain ⟨a, hfind, he⟩ := (Option.any_eq_true _ _).1 h
    have hf := List.find?_some hfind
    rw [eqIgnoreAsciiCase_iff] at hf
    exact ⟨a, List.mem_of_find?_eq_some hfind, hf, beq_iff_eq.1 he⟩
  · rintro ⟨a, ha, hf, hida⟩
    cases hfind : s.projectAlias.find? fun a => eqIgnoreAsciiCase a.aliasPath path with
    | none => exact absurd ((eqIgnoreAsciiCase_iff _ _).2 hf) (List.find?_eq_none.1 hfind a ha)
    | some a' =>
      have hf' := List.find?_some hfind
      rw [eqIgnoreAsciiCase_iff] at hf'
      have he : a' = a := List.inj_on_of_nodup_map halias (List.mem_of_find?_eq_some hfind) ha
        (FoldsOnto.trans hf' hf.symm)
      rw [he]
      exact beq_iff_eq.2 hida

theorem selected_iff {s : Store} (hid : (s.project.map ProjectRow.id).Nodup)
    (hpath : (s.project.map fun r => toAsciiLowercase r.path).Nodup)
    (halias : (s.projectAlias.map fun a => toAsciiLowercase a.aliasPath).Nodup) (t : Tick)
    (path : Str) (r : ProjectRow) :
    selected t s path = some r ↔ Denotes s path r := by
  have hhits : ∀ r, r ∈ t.order (s.project.filter (names s path)) ↔
      r ∈ s.project ∧ names s path r = true := fun r => by
    rw [(t.order_perm _).mem_iff, List.mem_filter]
  have hsound : ∀ r, selected t s path = some r → Denotes s path r := by
    intro r h
    obtain ⟨hr, hfirst⟩ := head_insertionSort h
    obtain ⟨hr, hn⟩ := (hhits r).1 hr
    refine ⟨hr, ?_⟩
    by_cases hlive : FoldsOnto r.path path
    · exact .inl hlive
    · refine .inr ⟨fun r' hr' hlive' => ?_, ((names_iff halias r).1 hn).resolve_left hlive⟩
      have hle := hfirst r' ((hhits r').2 ⟨hr', (names_iff halias r').2 (.inl hlive')⟩)
      rw [LiveFirst, (eqIgnoreAsciiCase_iff _ _).2 hlive', Bool.not_true, Bool.or_false,
        eqIgnoreAsciiCase_iff] at hle
      exact hlive hle
  refine ⟨hsound r, fun h => ?_⟩
  have hr : r ∈ t.order (s.project.filter (names s path)) :=
    (hhits r).2 ⟨h.1, (names_iff halias r).2 (h.2.imp_right And.right)⟩
  cases hsel : selected t s path with
  | none =>
    rw [head_insertionSort_none hsel] at hr
    exact absurd hr List.not_mem_nil
  | some r' => rw [(hsound r' hsel).unique hid hpath halias h]

@[simp] theorem fillAliases_path (pairs : List AliasRow) (p : Project) :
    (fillAliases pairs p).path = p.path := by
  unfold fillAliases
  split <;> rfl

@[simp] theorem fillAliases_status (pairs : List AliasRow) (p : Project) :
    (fillAliases pairs p).status = p.status := by
  unfold fillAliases
  split <;> rfl

@[simp] theorem fillAliases_envelope (pairs : List AliasRow) (p : Project) :
    (fillAliases pairs p).envelope = p.envelope := by
  unfold fillAliases
  split <;> rfl

@[simp] theorem fillGrants_path (rows : List GrantRow) (p : Project) :
    (fillGrants rows p).path = p.path := by
  unfold fillGrants
  split <;> rfl

@[simp] theorem fillGrants_status (rows : List GrantRow) (p : Project) :
    (fillGrants rows p).status = p.status := by
  unfold fillGrants
  split <;> rfl

theorem idsOf_fillAliases (pairs : List AliasRow) (ps : List Project) :
    idsOf (ps.map (fillAliases pairs)) = idsOf ps := by
  simp only [idsOf, List.filterMap_map, Function.comp_def, fillAliases_envelope]

theorem idsOf_rows (rows : List ProjectRow) :
    idsOf (rows.map rowToProject) = rows.map ProjectRow.id := by
  simp only [idsOf, List.filterMap_map]
  exact congrFun List.filterMap_eq_map' rows

section
variable [ServerCollation] {env : Nat → Tick}

theorem eval_read {q : Stmt} (hf : (env n).fault = none) {s : Store} {a : q.Reply}
    (h : q.exec (env n) s = .ok (a, [])) :
    (Rpc.read q).eval env ⟨s, none, n⟩ = (.ok a, ⟨s, none, n + 1⟩) := by
  change ((Op.exec (env n) (.sql q) s).1.mapError internal,
    (⟨engine.patchAll (Op.exec (env n) (.sql q) s).2 s, none, n + 1⟩ : Conn Store)) = _
  simp only [Op.exec, hf, h]
  rfl

theorem eval_withAliases (hf : Faultless env) (s : Store) (n : Nat) (rows : List ProjectRow) :
    ∃ m, (withAliases (rows.map rowToProject)).eval env ⟨s, none, n⟩ =
      (.ok ((rows.map rowToProject).map
        (fillAliases (aliasesOf (env n) s (rows.map ProjectRow.id)))), ⟨s, none, m⟩) := by
  unfold withAliases
  cases rows with
  | nil => exact ⟨n, rfl⟩
  | cons r rows =>
    rw [idsOf_rows]
    have hread := eval_read (hf n) (s := s)
      (q := .selectAliases ((r :: rows).map ProjectRow.id)) rfl
    exact ⟨n + 1, Rpc.eval_bind_of_ok hread⟩

theorem eval_withGrants (hf : Faultless env) (s : Store) (n : Nat) {ps : List Project}
    {ids : List Str} (hids : idsOf ps = ids) (hempty : ids = [] → ps = []) :
    ∃ m, (withGrants ps).eval env ⟨s, none, n⟩ =
      (.ok (ps.map (fillGrants (grantsOf (env n) s ids))), ⟨s, none, m⟩) := by
  unfold withGrants
  rw [hids]
  cases ids with
  | nil =>
    rw [hempty rfl]
    exact ⟨n, rfl⟩
  | cons id ids =>
    have hread := eval_read (hf n) (s := s) (q := .selectGrants (id :: ids)) rfl
    exact ⟨n + 1, Rpc.eval_bind_of_ok hread⟩

theorem eval_fill (hf : Faultless env) (s : Store) (n : Nat) (rows : List ProjectRow)
    (k : List Project → Rpc α) :
    ∃ pairs grants m, (do
      let projects ← withAliases (rows.map rowToProject)
      let projects ← withGrants projects
      k projects : Rpc α).eval env ⟨s, none, n⟩ =
        (k (rows.map fun r => fillGrants grants (fillAliases pairs (rowToProject r)))).eval env
          ⟨s, none, m⟩ := by
  obtain ⟨m, hm⟩ := eval_withAliases hf s n rows
  have hempty : rows.map ProjectRow.id = [] → (rows.map rowToProject).map (fillAliases
      (aliasesOf (env n) s (rows.map ProjectRow.id))) = [] := by
    intro h
    rw [List.map_eq_nil_iff.1 h]
    rfl
  obtain ⟨m', hm'⟩ :=
    eval_withGrants hf s m ((idsOf_fillAliases _ _).trans (idsOf_rows rows)) hempty
  refine ⟨aliasesOf (env n) s (rows.map ProjectRow.id), grantsOf (env m) s (rows.map ProjectRow.id),
    m', ?_⟩
  rw [Rpc.eval_bind_of_ok hm, Rpc.eval_bind_of_ok hm', List.map_map, List.map_map]
  rfl

theorem eval_get (hf : Faultless env) (s : Store) {req : GetProjectRequest}
    (hg : Grammatical req.path) : (get req).eval env ⟨s, none, 0⟩ =
      (project req.path (selected (env 1) s req.path)).eval env ⟨s, none, 2⟩ := by
  have hvalid := (validate_ok_iff "path" _).2 hg
  have hread : (Rpc.read (.selectProject req.path)).eval env ⟨s, none, 1⟩ =
      (.ok (selected (env 1) s req.path), ⟨s, none, 2⟩) := eval_read (hf 1) rfl
  unfold get
  rw [hvalid, Rpc.eval_bind_of_ok (Rpc.eval_ofExcept _ _),
    Rpc.eval_bind_of_ok (Rpc.eval_acquire (hf 0)), Rpc.eval_bind_of_ok hread]

theorem serve_get_ok (hf : Faultless env) {s : Store} {req : GetProjectRequest}
    (hg : Grammatical req.path) (h : selected (env 1) s req.path = some r) :
    ∃ pairs grants, (get req).serve env s =
      (.ok ⟨some (fillGrants grants (fillAliases pairs (rowToProject r)))⟩, s) := by
  have heval := eval_get hf s hg
  obtain ⟨pairs, grants, m, hfill⟩ := eval_fill hf s 2 [r] fun ps =>
    (pure ⟨ps.head?⟩ : Rpc GetProjectResponse)
  refine ⟨pairs, grants, ?_⟩
  rw [h] at heval
  rw [Rpc.serve, heval]
  exact congrArg (fun r => (r.1, r.2.store)) hfill

theorem serve_get_notFound (hf : Faultless env) {s : Store} {req : GetProjectRequest}
    (hg : Grammatical req.path) (h : selected (env 1) s req.path = none) :
    ∃ e, (get req).serve env s = (.error e, s) ∧ e.code = .notFound := by
  have heval := eval_get hf s hg
  rw [h] at heval
  rw [Rpc.serve, heval]
  exact ⟨_, rfl, rfl⟩

end

end ProjectDb.Read
