import ProjectDb.Resolve
import ProjectDb.Eval
import Mathlib.Data.List.Nodup

namespace ProjectDb.Read
open Text ProjectDb.Path
set_option autoImplicit true

/-- What a path can name: a live row, or the row a former path still points at. -/
structure Target where
  matched : Str
  row : ProjectRow
  former : Bool
  deriving DecidableEq, Repr

def Target.Of (s : Store) (m : Target) : Prop :=
  m.row ∈ s.project ∧
    if m.former then ⟨m.matched, m.row.id⟩ ∈ s.projectAlias else m.row.path = m.matched

/-- A spelling of a segment-wise prefix of the candidate that is not the reserved segment. -/
def Covers (candidate path : Str) : Prop :=
  ∃ q, segments q <+: segments candidate ∧ ¬ FoldsOnto q reservedRoot ∧ FoldsOnto path q

def Member (s : Store) (candidate : Str) (m : Target) : Prop :=
  m.Of s ∧ Covers candidate m.matched

def depth (path : Str) : Nat := (segments path).length

/-- The deeper of two matches, and a live path before a former one. -/
def Preferred (m m' : Target) : Prop :=
  depth m'.matched < depth m.matched ∨
    depth m'.matched = depth m.matched ∧ m.former = false ∧ m'.former = true

def Target.found (m : Target) : Found :=
  ⟨m.matched, m.row.path, m.row.status, if m.former then 1 else 0, m.row.sourceRepo⟩

/-- The answer a resolution owes a candidate for the target it chose. -/
def Target.answer (candidate : Str) (m : Target) : ResolveProjectResponse where
  resolvedPath := m.row.path
  exact := decide (FoldsOnto m.matched candidate)
  viaAlias := decide (FoldsOnto m.matched candidate) && m.former
  status := m.row.status
  sourceRepo := m.row.sourceRepo.getD []

theorem mem_chain {candidate q : Str} :
    q ∈ chain candidate ↔ segments q <+: segments candidate ∧ ¬ FoldsOnto q reservedRoot := by
  simp only [chain, List.mem_filter, mem_ancestors, Bool.not_eq_true', ← Bool.not_eq_true,
    eqIgnoreAsciiCase_iff]

theorem pathIn_iff {path : Str} {paths : List Str} :
    pathIn path paths = true ↔ ∃ q ∈ paths, FoldsOnto path q := by
  simp only [pathIn, List.any_eq_true, eqIgnoreAsciiCase_iff]

theorem pathIn_chain {candidate path : Str} :
    pathIn path (chain candidate) = true ↔ Covers candidate path := by
  simp only [pathIn_iff, mem_chain, Covers, and_assoc]

theorem chain_ne_nil {candidate : Str} (h : ¬ FoldsOnto candidate reservedRoot) :
    chain candidate ≠ [] :=
  List.ne_nil_of_mem (mem_chain.2 ⟨List.prefix_refl _, h⟩)

theorem depth_eq_of_foldsOnto (h : FoldsOnto a b) : depth a = depth b := by
  have hl := congrArg List.length h.segments
  rwa [List.length_map, List.length_map] at hl

theorem Covers.depth_le {candidate : Str} (h : Covers candidate path) :
    depth path ≤ depth candidate := by
  obtain ⟨q, hq, _, hf⟩ := h
  rw [depth_eq_of_foldsOnto hf]
  exact hq.length_le

theorem Covers.byteLen_lt {candidate : Str} (ha : Covers candidate a) (hb : Covers candidate b)
    (h : depth a < depth b) : byteLen a < byteLen b := by
  obtain ⟨q, hq, _, hqa⟩ := ha
  obtain ⟨r, hr, _, hrb⟩ := hb
  rw [depth_eq_of_foldsOnto hqa, depth_eq_of_foldsOnto hrb] at h
  rw [hqa.byteLen_eq, hrb.byteLen_eq]
  exact byteLen_lt_of_segments (List.prefix_of_prefix_length_le hq hr (Nat.le_of_lt h)) h

theorem Covers.foldsOnto {candidate : Str} (ha : Covers candidate a) (hb : Covers candidate b)
    (h : depth a = depth b) : FoldsOnto a b := by
  obtain ⟨q, hq, _, hqa⟩ := ha
  obtain ⟨r, hr, _, hrb⟩ := hb
  rw [depth_eq_of_foldsOnto hqa, depth_eq_of_foldsOnto hrb] at h
  have hqr := List.prefix_of_prefix_length_le hq hr (Nat.le_of_eq h)
  have he : q = r := segments_inj (hqr.eq_of_length h)
  subst he
  exact hqa.trans hrb.symm

theorem mem_ancestorRows {s : Store} {candidate : Str} {f : Found} :
    f ∈ ancestorRows s (chain candidate) ↔ ∃ m, Member s candidate m ∧ m.found = f := by
  simp only [ancestorRows, List.mem_append, List.mem_map, List.mem_filter, List.mem_flatMap,
    pathIn_chain, beq_iff_eq]
  constructor
  · rintro (⟨p, ⟨hp, hc⟩, rfl⟩ | ⟨a, ⟨ha, hc⟩, p, ⟨hp, hid⟩, rfl⟩)
    · exact ⟨⟨p.path, p, false⟩, ⟨⟨hp, rfl⟩, hc⟩, rfl⟩
    · refine ⟨⟨a.aliasPath, p, true⟩, ⟨⟨hp, ?_⟩, hc⟩, rfl⟩
      rw [hid]
      exact ha
  · rintro ⟨⟨matched, row, former⟩, ⟨⟨hr, ho⟩, hc⟩, rfl⟩
    cases former with
    | false =>
      have ho' : row.path = matched := ho
      subst ho'
      exact .inl ⟨row, ⟨hr, hc⟩, rfl⟩
    | true => exact .inr ⟨⟨matched, row.id⟩, ⟨ho, hc⟩, row, ⟨hr, rfl⟩, rfl⟩

/-- One depth and one kind leave one target, by the keys of the tables. -/
theorem Member.unique {s : Store} {candidate : Str}
    (hid : (s.project.map ProjectRow.id).Nodup)
    (hpath : (s.project.map fun r => toAsciiLowercase r.path).Nodup)
    (halias : (s.projectAlias.map fun a => toAsciiLowercase a.aliasPath).Nodup)
    (h : Member s candidate m) (h' : Member s candidate m')
    (hd : depth m.matched = depth m'.matched) (hf : m.former = m'.former) : m = m' := by
  obtain ⟨matched, row, former⟩ := m
  obtain ⟨matched', row', former'⟩ := m'
  obtain ⟨⟨hr, ho⟩, hc⟩ := h
  obtain ⟨⟨hr', ho'⟩, hc'⟩ := h'
  have hfold : FoldsOnto matched matched' := hc.foldsOnto hc' hd
  cases hf
  cases former with
  | false =>
    have hp : row.path = matched := ho
    have hp' : row'.path = matched' := ho'
    have he : row = row' := List.inj_on_of_nodup_map hpath hr hr' (by rw [hp, hp']; exact hfold)
    subst he
    rw [← hp, ← hp']
  | true =>
    have he := List.inj_on_of_nodup_map halias ho ho' hfold
    have he' : row = row' :=
      List.inj_on_of_nodup_map hid hr hr' (congrArg AliasRow.projectId he)
    have hmatched : matched = matched' := congrArg AliasRow.aliasPath he
    rw [he', hmatched]

theorem rankLe_refl (a : Nat × Int) : rankLe a a = true := by
  simp only [rankLe, beq_self_eq_true, Int.le_refl, decide_true, Bool.and_self, Bool.or_true]

theorem rankLe_iff {a b : Nat × Int} :
    rankLe a b = true ↔ a.1 < b.1 ∨ a.1 = b.1 ∧ a.2 ≤ b.2 := by
  simp only [rankLe, Bool.or_eq_true, Bool.and_eq_true, decide_eq_true_eq, beq_iff_eq]

theorem rankLe_trans {a b c : Nat × Int} (h : rankLe a b = true) (h' : rankLe b c = true) :
    rankLe a c = true := by
  rw [rankLe_iff] at h h' ⊢
  omega

theorem rankLe_total {a b : Nat × Int} (h : ¬ rankLe a b = true) : rankLe b a = true := by
  rw [rankLe_iff] at h ⊢
  omega

theorem best_eq_none {l : List Found} : best l = none ↔ l = [] := by
  cases l with
  | nil => exact ⟨fun _ => rfl, fun _ => rfl⟩
  | cons f rest =>
    simp only [best, reduceCtorEq, iff_false]
    split
    · exact Option.some_ne_none f
    · split
      · exact Option.some_ne_none _
      · exact Option.some_ne_none f

theorem best_eq_some {l : List Found} (h : best l = some f) :
    f ∈ l ∧ ∀ g ∈ l, rankLe (rank g) (rank f) = true := by
  induction l generalizing f with
  | nil => cases h
  | cons x rest ih =>
    unfold best at h
    split at h
    · rename_i hb
      cases h
      rw [best_eq_none.1 hb]
      exact ⟨List.mem_cons_self, fun g hg => List.mem_singleton.1 hg ▸ rankLe_refl _⟩
    · rename_i g hb
      obtain ⟨hg, hle⟩ := ih hb
      split at h
      · rename_i hr
        cases h
        refine ⟨List.mem_cons_of_mem _ hg, fun y hy => ?_⟩
        rcases List.mem_cons.1 hy with rfl | hy
        · exact hr
        · exact hle y hy
      · rename_i hr
        cases h
        refine ⟨List.mem_cons_self, fun y hy => ?_⟩
        rcases List.mem_cons.1 hy with rfl | hy
        · exact rankLe_refl _
        · exact rankLe_trans (hle y hy) (rankLe_total hr)

/-- The rank of the engine's rows is the preference among the targets they are. -/
theorem preferred_of_rankLe {s : Store} {candidate : Str}
    (hid : (s.project.map ProjectRow.id).Nodup)
    (hpath : (s.project.map fun r => toAsciiLowercase r.path).Nodup)
    (halias : (s.projectAlias.map fun a => toAsciiLowercase a.aliasPath).Nodup)
    (h : Member s candidate m) (h' : Member s candidate m') (hne : m' ≠ m)
    (hle : rankLe (rank m'.found) (rank m.found) = true) : Preferred m m' := by
  have hrank := rankLe_iff.1 hle
  rcases Nat.lt_trichotomy (depth m'.matched) (depth m.matched) with hd | hd | hd
  · exact .inl hd
  · refine .inr ⟨hd, ?_⟩
    have hlen : byteLen m'.matched = byteLen m.matched := (h'.2.foldsOnto h.2 hd).byteLen_eq
    have hf : m'.former ≠ m.former := fun hf => hne (h'.unique hid hpath halias h hd hf)
    cases hm : m.former with
    | false =>
      refine ⟨rfl, ?_⟩
      rw [hm] at hf
      exact eq_true_of_ne_false hf
    | true =>
      rw [hm] at hf
      have hm' : m'.former = false := eq_false_of_ne_true hf
      simp only [rank, Target.found, hm, hm', hlen, Nat.lt_irrefl, true_and, false_or,
        Bool.false_eq_true, ↓reduceIte] at hrank
      omega
  · have hlen : byteLen m.matched < byteLen m'.matched := h.2.byteLen_lt h'.2 hd
    simp only [rank, Target.found] at hrank
    omega

theorem answer_found {candidate : Str} {l : List Found} {m : Target}
    (h : best l = some m.found) : answer candidate l = .ok (m.answer candidate) := by
  have hx : eqIgnoreAsciiCase m.matched candidate = decide (FoldsOnto m.matched candidate) := by
    rw [Bool.eq_iff_iff, eqIgnoreAsciiCase_iff, decide_eq_true_iff]
  cases hm : m.former with
  | false => simp [answer, h, Target.answer, Target.found, hm, hx]
  | true => simp [answer, h, Target.answer, Target.found, hm, hx]

theorem answer_nil (candidate : Str) : ∃ e, answer candidate [] = .error e ∧ e.code = .notFound :=
  ⟨_, rfl, rfl⟩

/-- The rows the engine answers a candidate's walk with, in the order it gives them. -/
def walked (env : Nat → Tick) (s : Store) (candidate : Str) : List Found :=
  (env 1).order (ancestorRows s (chain candidate))

theorem mem_walked {env : Nat → Tick} {s : Store} {candidate : Str} {f : Found} :
    f ∈ walked env s candidate ↔ ∃ m, Member s candidate m ∧ m.found = f := by
  rw [← mem_ancestorRows]
  exact ((env 1).order_perm _).mem_iff

variable [ServerCollation]

theorem serve_resolve {env : Nat → Tick} (hf : Faultless env) {s : Store}
    {req : ResolveProjectRequest} (hg : Grammatical req.candidatePath)
    (hr : ¬ FoldsOnto req.candidatePath reservedRoot) :
    (resolve req).serve env s =
      (answer req.candidatePath (walked env s req.candidatePath), s) := by
  have h₁ := (validate_ok_iff "candidate_path" _).2 hg
  have h₂ := (refuseReservedRoot_ok_iff "candidate_path" _).2 hr
  have hread : (Rpc.read (.selectAncestors (chain req.candidatePath))).eval env ⟨s, none, 1⟩ =
      (.ok (walked env s req.candidatePath), ⟨s, none, 2⟩) := by
    change ((Op.exec (env 1) (.sql (.selectAncestors _)) s).1.mapError internal, _) = _
    simp only [Mvcc.Rules.serve, engine, Op.exec, hf 1, Stmt.exec]
    rfl
  have heval : (resolve req).eval env ⟨s, none, 0⟩ =
      (answer req.candidatePath (walked env s req.candidatePath), ⟨s, none, 2⟩) := by
    unfold resolve
    rw [h₁, h₂, Rpc.eval_bind_of_ok (Rpc.eval_ofExcept _ _),
      Rpc.eval_bind_of_ok (Rpc.eval_ofExcept _ _), Rpc.eval_bind_of_ok (Rpc.eval_acquire (hf 0)),
      Rpc.eval_bind_of_ok hread, Rpc.eval_ofExcept]
  rw [Rpc.serve, heval]

theorem serve_resolve_refused {env : Nat → Tick} {s : Store} {req : ResolveProjectRequest}
    (h : ¬ Grammatical req.candidatePath ∨ FoldsOnto req.candidatePath reservedRoot) :
    ∃ e, (resolve req).serve env s = (.error e, s) ∧ e.code = .invalidArgument := by
  cases hv : Path.validate "candidate_path" req.candidatePath with
  | error e =>
    refine ⟨e, ?_, validate_code hv⟩
    have heval : (resolve req).eval env ⟨s, none, 0⟩ = (.error e, ⟨s, none, 0⟩) := by
      unfold resolve
      rw [hv, Rpc.eval_bind_of_error (Rpc.eval_ofExcept _ _)]
    rw [Rpc.serve, heval]
  | ok u =>
    have hg := (validate_ok_iff _ _).1 hv
    cases hr : refuseReservedRoot "candidate_path" req.candidatePath with
    | error e =>
      refine ⟨e, ?_, refuseReservedRoot_code hr⟩
      have heval : (resolve req).eval env ⟨s, none, 0⟩ = (.error e, ⟨s, none, 0⟩) := by
        unfold resolve
        rw [hv, hr, Rpc.eval_bind_of_ok (Rpc.eval_ofExcept _ _),
          Rpc.eval_bind_of_error (Rpc.eval_ofExcept _ _)]
      rw [Rpc.serve, heval]
    | ok u' =>
      have hn := (refuseReservedRoot_ok_iff _ _).1 hr
      rcases h with h | h
      · exact absurd hg h
      · exact absurd h hn

omit [ServerCollation] in
theorem best_walked {env : Nat → Tick} {s : Store} {candidate : Str}
    (hid : (s.project.map ProjectRow.id).Nodup)
    (hpath : (s.project.map fun r => toAsciiLowercase r.path).Nodup)
    (halias : (s.projectAlias.map fun a => toAsciiLowercase a.aliasPath).Nodup)
    (h : best (walked env s candidate) = some f) :
    ∃ m, m.found = f ∧ Member s candidate m ∧
      ∀ m', Member s candidate m' → m' ≠ m → Preferred m m' := by
  obtain ⟨hmem, hle⟩ := best_eq_some h
  obtain ⟨m, hm, rfl⟩ := mem_walked.1 hmem
  refine ⟨m, rfl, hm, fun m' hm' hne => ?_⟩
  have hle' := hle m'.found (mem_walked.2 ⟨m', hm', rfl⟩)
  exact preferred_of_rankLe hid hpath halias hm hm' hne hle'

theorem serve_resolve_ok {env : Nat → Tick} (hf : Faultless env) {s : Store}
    (hid : (s.project.map ProjectRow.id).Nodup)
    (hpath : (s.project.map fun r => toAsciiLowercase r.path).Nodup)
    (halias : (s.projectAlias.map fun a => toAsciiLowercase a.aliasPath).Nodup)
    {req : ResolveProjectRequest} (hg : Grammatical req.candidatePath)
    (hr : ¬ FoldsOnto req.candidatePath reservedRoot) (hm : Member s req.candidatePath m₀) :
    ∃ m, Member s req.candidatePath m ∧
      (∀ m', Member s req.candidatePath m' → m' ≠ m → Preferred m m') ∧
      (resolve req).serve env s = (.ok (m.answer req.candidatePath), s) := by
  have hw : m₀.found ∈ walked env s req.candidatePath := mem_walked.2 ⟨m₀, hm, rfl⟩
  cases hb : best (walked env s req.candidatePath) with
  | none =>
    rw [best_eq_none.1 hb] at hw
    exact absurd hw List.not_mem_nil
  | some f =>
    obtain ⟨m, rfl, hm, hbest⟩ := best_walked hid hpath halias hb
    refine ⟨m, hm, hbest, ?_⟩
    rw [serve_resolve hf hg hr, answer_found hb]

theorem serve_resolve_notFound {env : Nat → Tick} (hf : Faultless env) {s : Store}
    {req : ResolveProjectRequest} (hg : Grammatical req.candidatePath)
    (hr : ¬ FoldsOnto req.candidatePath reservedRoot)
    (h : ∀ m, ¬ Member s req.candidatePath m) :
    ∃ e, (resolve req).serve env s = (.error e, s) ∧ e.code = .notFound := by
  have hw : walked env s req.candidatePath = [] := by
    apply List.eq_nil_iff_forall_not_mem.2
    intro f hmem
    obtain ⟨m, hm, _⟩ := mem_walked.1 hmem
    exact h m hm
  obtain ⟨e, he, hc⟩ := answer_nil req.candidatePath
  exact ⟨e, by rw [serve_resolve hf hg hr, hw, he], hc⟩

/-- `ResolveProject` is the segment-wise walk it documents. -/
theorem resolve_refines (env : Nat → Tick) (s : Store) (req : ResolveProjectRequest)
    (hf : Faultless env) (hid : (s.project.map ProjectRow.id).Nodup)
    (hpath : (s.project.map fun r => toAsciiLowercase r.path).Nodup)
    (halias : (s.projectAlias.map fun a => toAsciiLowercase a.aliasPath).Nodup) :
    (¬ Grammatical req.candidatePath ∨ FoldsOnto req.candidatePath reservedRoot →
      ∃ e, (resolve req).serve env s = (.error e, s) ∧ e.code = .invalidArgument) ∧
    (Grammatical req.candidatePath → ¬ FoldsOnto req.candidatePath reservedRoot →
      chain req.candidatePath ≠ [] ∧
      ((∃ e, (resolve req).serve env s = (.error e, s) ∧ e.code = .notFound) ↔
        ∀ m, ¬ Member s req.candidatePath m) ∧
      ((∃ m, Member s req.candidatePath m) → ∃ m, Member s req.candidatePath m ∧
        (∀ m', Member s req.candidatePath m' → m' ≠ m → Preferred m m') ∧
        (resolve req).serve env s = (.ok (m.answer req.candidatePath), s))) := by
  refine ⟨serve_resolve_refused, fun hg hr => ⟨chain_ne_nil hr, ?_, ?_⟩⟩
  · refine ⟨?_, serve_resolve_notFound hf hg hr⟩
    rintro ⟨e, he, _⟩ m hm
    obtain ⟨m', _, _, hok⟩ := serve_resolve_ok hf hid hpath halias hg hr hm
    rw [hok] at he
    cases he
  · rintro ⟨m, hm⟩
    exact serve_resolve_ok hf hid hpath halias hg hr hm

def acmeRoot : ProjectRow :=
  NewProject.row ⟨"1".toList, "acme".toList, [], 1, some "git".toList, none, 3, "ops".toList,
    "ops".toList⟩ 1

/-- One organisation root, renamed once. -/
def renamed : Store where
  project := [acmeRoot]
  projectAlias := [⟨"old".toList, "1".toList⟩]
  projectWrite := []
  projectGrant := []

omit [ServerCollation] in
theorem resolve_refines_renamed :
    letI := ServerCollation.ascii
    ∃ m, Member renamed "OLD/app".toList m ∧
      (∀ m', Member renamed "OLD/app".toList m' → m' ≠ m → Preferred m m') ∧
      (resolve ⟨"OLD/app".toList⟩).serve (fun _ => .quiet 1 0) renamed =
        (.ok (m.answer "OLD/app".toList), renamed) := by
  let _ := ServerCollation.ascii
  have hg : Grammatical "OLD/app".toList := (validate_ok_iff "" _).1 (by decide)
  have h := resolve_refines (fun _ => .quiet 1 0) renamed ⟨"OLD/app".toList⟩
    (fun _ => rfl) (by decide) (by decide) (by decide)
  have hm : Member renamed "OLD/app".toList ⟨"old".toList, acmeRoot, true⟩ :=
    ⟨⟨by decide, by decide⟩, "OLD".toList, by decide, by decide, by decide⟩
  exact (h.2 hg (by decide)).2.2 ⟨_, hm⟩

end ProjectDb.Read
