import ProjectDb.Stability

namespace ProjectDb
open Text ProjectDb.Path Mvcc Sync Read
set_option autoImplicit true

/-- The second segment of a path, or nothing. -/
def secondSegment (path : Str) : Str := (segments path).getD 1 []

theorem Personal.segments_own [UuidCrate] (h : Personal r) : ∃ seg rest,
    segments r.path = reservedRoot :: seg :: rest ∧
      r.ownerUserId = some (userIdPrefix ++ seg) ∧ toAsciiLowercase seg = seg := by
  obtain ⟨owner, seg, howner, hseg, hbeneath, _⟩ := h
  obtain ⟨rfl, hshape⟩ := accountSegment_eq_some hseg
  have hprefix := segments_of_beneath hbeneath
  rw [segments_append_slash, segments_of_not_mem (slash_not_mem_hyphenated hshape)] at hprefix
  obtain ⟨rest, hrest⟩ := hprefix
  exact ⟨seg, rest, hrest.symm, howner, lowercase_of_hyphenated hshape⟩

theorem firstSegment_of_segments {p q : Str} (h : segments p <+: segments q) :
    firstSegment p = firstSegment q := by
  obtain ⟨ys, hys⟩ := h
  unfold firstSegment
  cases hp : segments p with
  | nil => exact absurd hp (segments_ne_nil p)
  | cons x xs =>
    rw [← hys, hp]
    rfl

theorem FoldsOnto.firstSegment (h : FoldsOnto p q) :
    FoldsOnto (firstSegment p) (firstSegment q) := by
  unfold ProjectDb.firstSegment
  change toAsciiLowercase _ = toAsciiLowercase _
  rw [← headD_segments_toAsciiLowercase, ← headD_segments_toAsciiLowercase, h]

theorem private_of_firstSegment {p : Str} (h : FoldsOnto (firstSegment p) reservedRoot)
    (hp : ¬ FoldsOnto p reservedRoot) :
    ∃ x y rest, segments p = x :: y :: rest ∧ FoldsOnto x reservedRoot := by
  unfold firstSegment at h
  cases hs : segments p with
  | nil => exact absurd hs (segments_ne_nil p)
  | cons x xs =>
    rw [hs] at h
    cases xs with
    | nil =>
      have hx : p = x := segments_inj (hs.trans (segments_of_not_mem (slash_not_mem_segment
        (hs ▸ List.mem_cons_self))).symm)
      exact absurd (hx ▸ h) hp
    | cons y ys => exact ⟨x, y, ys, rfl, h⟩

section
variable [ServerCollation] [UuidCrate] [Idem.Sha256] [Message RegisterProjectRequest]
  [Message RegisterProjectResponse]

/-- The stores that calls lead to from empty tables, where a legacy organisation row and an alias
may have come to sit at the reserved segment, in any case and at any time. -/
inductive ReachesLegacy : Store → Prop
  | start : ReachesLegacy Store.empty
  | call (c : Call) (env : Nat → Tick) : ReachesLegacy s → ReachesLegacy (c.served env s)
  | row : ReachesLegacy s → r.isOrg = true → FoldsOnto r.path reservedRoot →
      Store.Schema { s with project := s.project ++ [r] } →
      ReachesLegacy { s with project := s.project ++ [r] }
  | alias_ : ReachesLegacy s → FoldsOnto a.aliasPath reservedRoot →
      Store.Schema { s with projectAlias := s.projectAlias ++ [a] } →
      ReachesLegacy { s with projectAlias := s.projectAlias ++ [a] }

theorem ReachesLegacy.keeps {s : Store} (h : ReachesLegacy s) : s.Schema ∧ AllPersonal s ∧
    ∀ a ∈ s.projectAlias, FoldsOnto a.aliasPath reservedRoot := by
  induction h with
  | start =>
    refine ⟨aliasOnly_schema List.nodup_nil, ?_, ?_⟩
    · exact fun r hr => absurd hr List.not_mem_nil
    · exact fun a ha => absurd ha List.not_mem_nil
  | call c env _ ih =>
    obtain ⟨hs, hp, ha⟩ := ih
    have he := c.effect env hs
    refine ⟨c.served_schema env hs, he.personal hp, ?_⟩
    rw [he.aliases]
    exact ha
  | row _ ho _ hs ih =>
    refine ⟨hs, fun r hr ho' => ?_, ih.2.2⟩
    rcases List.mem_append.1 hr with hr | hr
    · exact ih.2.1 r hr ho'
    · rw [List.mem_singleton.1 hr] at ho'
      exact absurd (ho.symm.trans ho') Bool.noConfusion
  | alias_ _ hf hs ih =>
    refine ⟨hs, ih.2.1, fun a ha => ?_⟩
    rcases List.mem_append.1 ha with ha | ha
    · exact ih.2.2 a ha
    · rw [List.mem_singleton.1 ha]
      exact hf

/-- A resolution stays with the account and the class that the candidate's segments name. -/
theorem resolve_isolated {env : Nat → Tick} {s : Store} {req : ResolveProjectRequest}
    (h : ReachesLegacy s)
    (ha : ((resolve req).serve env s).1 = .ok a) :
    ∃ m, Chosen s req.candidatePath m ∧ a = m.answer req.candidatePath ∧
      (FoldsOnto (firstSegment req.candidatePath) reservedRoot →
        m.row.isOrg = false ∧
        FoldsOnto (secondSegment m.row.path) (secondSegment req.candidatePath) ∧
        m.row.ownerUserId =
          some (userIdPrefix ++ toAsciiLowercase (secondSegment req.candidatePath))) ∧
      (¬ FoldsOnto (firstSegment req.candidatePath) reservedRoot →
        m.row.isOrg = true ∧
        FoldsOnto (firstSegment m.row.path) (firstSegment req.candidatePath)) := by
  obtain ⟨hs, hpersonal, haliases⟩ := h.keeps
  obtain ⟨m, hm, rfl, _, _⟩ := resolve_chosen hs ha
  obtain ⟨⟨hr, ho⟩, q, hq, hnot, hfold⟩ := hm.1
  have hlive : m.row.path = m.matched := by
    cases hf : m.former with
    | false =>
      rw [hf] at ho
      exact ho
    | true =>
      rw [hf] at ho
      exact absurd (hfold.symm.trans (haliases _ ho)) hnot
  rw [← hlive] at hfold
  obtain ⟨_, howner⟩ := hs.classed hr
  have hfirst : FoldsOnto (firstSegment m.row.path) (firstSegment req.candidatePath) := by
    rw [← firstSegment_of_segments hq]
    exact FoldsOnto.firstSegment hfold
  refine ⟨m, hm, rfl, fun hlocal => ?_, fun hlocal => ⟨?_, hfirst⟩⟩
  · have hq' : FoldsOnto (firstSegment q) reservedRoot := by
      rw [firstSegment_of_segments hq]
      exact hlocal
    obtain ⟨x, y, rest, hsq, hx⟩ := private_of_firstSegment hq' hnot
    have hclass : isPrivateClass m.row.path = true := by
      rw [isPrivateClass_congr hfold, segments_private]
      exact ⟨x, y, rest, hsq, hx⟩
    have horg : m.row.isOrg = false := by
      have hsome := howner.2 hclass
      cases hown : m.row.ownerUserId with
      | none =>
        rw [hown] at hsome
        cases hsome
      | some o => rw [ProjectRow.isOrg, hown]; rfl
    obtain ⟨seg, tail, hseg, hown, hlower⟩ := (hpersonal m.row hr horg).segments_own
    have hmap := FoldsOnto.segments hfold
    rw [hseg, hsq, List.map_cons, List.map_cons, List.map_cons, List.map_cons] at hmap
    have hfolds : FoldsOnto seg y := (List.cons.inj (List.cons.inj hmap).2).1
    have hsecond : secondSegment req.candidatePath = y := by
      obtain ⟨ys, hys⟩ := hq
      rw [hsq] at hys
      unfold secondSegment
      rw [← hys]
      rfl
    have hrow : secondSegment m.row.path = seg := by
      unfold secondSegment
      rw [hseg]
      rfl
    rw [hsecond, hrow]
    refine ⟨horg, hfolds, ?_⟩
    rw [hown, ← hfolds, hlower]
  · cases hown : m.row.ownerUserId with
    | none => rw [ProjectRow.isOrg, hown]; rfl
    | some o =>
      have hclass := howner.1 (by rw [hown]; rfl)
      obtain ⟨x, y, rest, hseg, hx⟩ := segments_private.1 hclass
      have hx' : firstSegment m.row.path = x := by
        unfold firstSegment
        rw [hseg]
        rfl
      rw [hx'] at hfirst
      exact absurd (hfirst.symm.trans hx) hlocal

end

section
open scoped Reference

/-- A legacy row that squats on the reserved segment. -/
def squatter : ProjectRow :=
  NewProject.row ⟨"0".toList, "LOCAL".toList, [], 1, some "git".toList, none, 3, "ops".toList,
    "ops".toList⟩ 1

def squatted : Store := { Store.empty with project := [squatter] }

theorem squatted_schema :
    letI := ServerCollation.ascii
    squatted.Schema := by
  let _ := ServerCollation.ascii
  exact ⟨by decide, by decide, by decide, by decide, by decide, by decide, by decide, by decide⟩

/-- A directory of the account, its path shouted. -/
def adaDeeper : ResolveProjectRequest :=
  ⟨"LOCAL/01920000-0000-7000-8000-000000000000/SRC/app".toList⟩

theorem resolve_isolated_ada :
    letI := ServerCollation.ascii
    ∃ (s : Store) (m : Target), squatter ∈ s.project ∧ Chosen s adaDeeper.candidatePath m ∧
      m.row.isOrg = false ∧ m.row.ownerUserId = some ada := by
  let _ := ServerCollation.ascii
  have hrow : ReachesLegacy squatted := .row .start rfl (by decide) squatted_schema
  have hregister := hrow.call (.register (some Register.registerCaller) adaHome)
    fun n => .quiet 1 n
  have ha : ((resolve adaDeeper).serve (fun n => .quiet 2 n)
      (Call.served (fun n => .quiet 1 n) squatted
        (.register (some Register.registerCaller) adaHome))).1 =
      .ok ⟨adaHome.path, false, false, 1, []⟩ := by
    decide +kernel
  obtain ⟨m, hm, _, hlocal, _⟩ := resolve_isolated hregister ha
  obtain ⟨horg, _, howner⟩ := hlocal (by decide)
  refine ⟨_, m, ?_, hm, horg, howner⟩
  decide +kernel

end

end ProjectDb
