import ProjectDb.Confinement
import ProjectDb.Flush

namespace ProjectDb
open Text ProjectDb.Path Mvcc
set_option autoImplicit true

/-- The row was last seen at the moment or later. -/
def ProjectRow.SeenSince (r : ProjectRow) (t : Time) : Prop := ∃ m, r.lastSeenAt = some m ∧ t ≤ m

theorem ProjectRow.seenSince_of_not_older {r : ProjectRow}
    (h : r.lastSeenAt.all (· < t) = false) : r.SeenSince t := by
  cases hm : r.lastSeenAt with
  | none =>
    rw [hm] at h
    cases h
  | some m =>
    rw [hm] at h
    exact ⟨m, hm, Int.not_lt.1 (of_decide_eq_false h)⟩

/-- The same row, seen at the moment where it is among the ids. -/
structure SeenAt (ids : List Str) (t : Time) (r r' : ProjectRow) : Prop where
  id : r'.id = r.id
  path : r'.path = r.path
  seen : r'.lastSeenAt = if r.id ∈ ids then some t else r.lastSeenAt

/-- The rows are the same ones, those of the ids seen at the moment, beside rows that were added,
which nobody has seen. -/
structure Advances (ids : List Str) (t : Time) (K : Record → Prop) (s s' : Store) : Prop where
  aliases : s'.projectAlias = s.projectAlias
  rows : Grown (SeenAt ids t) (fun r => K (.project r.id) ∧ r.lastSeenAt = none) s.project
    s'.project

/-- The rows are there still, and none of them is back at an earlier moment. -/
structure Forward (s s' : Store) : Prop where
  aliases : s'.projectAlias = s.projectAlias
  rows : ∀ r ∈ s.project, ∃ r' ∈ s'.project, r'.id = r.id ∧ r'.path = r.path ∧
    ∀ m, r.SeenSince m → r'.SeenSince m

theorem Forward.refl (s : Store) : Forward s s := ⟨rfl, fun r hr => ⟨r, hr, rfl, rfl, fun _ h => h⟩⟩

theorem Forward.trans {s s' s'' : Store} (h : Forward s s') (h' : Forward s' s'') :
    Forward s s'' where
  aliases := h'.aliases.trans h.aliases
  rows r hr := by
    obtain ⟨r', hr', hid, hpath, hseen⟩ := h.rows r hr
    obtain ⟨r'', hr'', hid', hpath', hseen'⟩ := h'.rows r' hr'
    exact ⟨r'', hr'', hid'.trans hid, hpath'.trans hpath, fun m hm => hseen' m (hseen m hm)⟩

/-- A write that leaves the last-seen column alone. -/
def Write.Unseeing : Write → Prop
  | .updateLastSeen .. => False
  | .insertProject row => row.lastSeenAt = none
  | _ => True

section
variable [ServerCollation] {K : Record → Prop} {s s' : Store} {t : Time}

omit [ServerCollation] in
theorem SeenAt.refl (t : Time) (r : ProjectRow) : SeenAt [] t r r := ⟨rfl, rfl, rfl⟩

omit [ServerCollation] in
theorem SeenAt.trans (h : SeenAt [] t a b) (h' : SeenAt [] t b c) : SeenAt [] t a c where
  id := h'.id.trans h.id
  path := h'.path.trans h.path
  seen := h'.seen.trans h.seen

namespace Advances

omit [ServerCollation] in
theorem refl (s : Store) : Advances [] t K s s := ⟨rfl, .refl (SeenAt.refl t) _⟩

omit [ServerCollation] in
theorem grow (h : Advances [] t K s s') {rows : List ProjectRow} (hrows : Grown (SeenAt [] t)
    (fun r => K (.project r.id) ∧ r.lastSeenAt = none) s'.project rows) :
    Grown (SeenAt [] t) (fun r => K (.project r.id) ∧ r.lastSeenAt = none) s.project rows := by
  refine h.rows.trans (fun a b c hab hbc => hab.trans hbc) (fun a b ha hab => ?_) hrows
  rw [hab.id, hab.seen]
  exact ha

omit [ServerCollation] in
theorem setRows {p : ProjectRow → Bool} {f : ProjectRow → ProjectRow} (h : Advances [] t K s s')
    (hf : ∀ r, SeenAt [] t r (f r)) :
    Advances [] t K s { s' with project := updateRows p f s'.project } where
  aliases := h.aliases
  rows := by
    have hrow : ∀ r : ProjectRow, SeenAt [] t r (if p r then f r else r) := by
      intro r
      split
      · exact hf r
      · exact .refl t r
    exact h.grow (.map fun r _ => hrow r)

theorem patch (h : Advances [] t K s s') {u : Write} (hu : u.Unseeing)
    (hrecords : ∀ k ∈ u.records, K k) : Advances [] t K s (u.patch s') := by
  cases u with
  | updateLastSeen => exact hu.elim
  | insertProject row =>
    have hadded : K (.project row.id) ∧ row.lastSeenAt = none :=
      ⟨hrecords _ List.mem_cons_self, hu⟩
    exact ⟨h.aliases, h.grow (.snoc (SeenAt.refl t) hadded s'.project)⟩
  | updateDeclared => exact h.setRows fun _ => ⟨rfl, rfl, rfl⟩
  | updateArchived => exact h.setRows fun _ => ⟨rfl, rfl, rfl⟩
  | _ => exact ⟨h.aliases, h.rows⟩

theorem patchAll (h : Advances [] t K s s') {us : List Write} (hus : ∀ u ∈ us, u.Unseeing)
    (hrecords : ∀ k ∈ us.flatMap Write.records, K k) :
    Advances [] t K s (engine.patchAll us s') := by
  induction us generalizing s' with
  | nil => exact h
  | cons u us ih =>
    have hfirst := h.patch (hus u List.mem_cons_self)
      fun k hk => hrecords k (List.mem_flatMap.2 ⟨u, List.mem_cons_self, hk⟩)
    apply ih hfirst fun u' hu' => hus u' (List.mem_cons_of_mem _ hu')
    intro k hk
    obtain ⟨u', hu', hk⟩ := List.mem_flatMap.1 hk
    exact hrecords k (List.mem_flatMap.2 ⟨u', List.mem_cons_of_mem _ hu', hk⟩)

theorem lastSeen (ids : List Str) (t : Time) (K : Record → Prop) (s : Store) :
    Advances ids t K s ((Write.updateLastSeen ids t).patch s) where
  aliases := rfl
  rows := by
    apply Grown.map
    intro r _
    by_cases hr : r.id ∈ ids
    · rw [if_pos (List.contains_iff_mem.2 hr)]
      exact ⟨rfl, rfl, (if_pos hr).symm⟩
    · rw [if_neg fun h => hr (List.contains_iff_mem.1 h)]
      exact ⟨rfl, rfl, (if_neg hr).symm⟩

omit [ServerCollation] in
/-- Where the rows of the ids are older, no row goes back. -/
theorem forward (h : Advances ids t K s s')
    (holder : ∀ r ∈ s.project, r.id ∈ ids → r.lastSeenAt.all (· < t) = true) : Forward s s' where
  aliases := h.aliases
  rows r hr := by
    obtain ⟨r', hr', hseen⟩ := h.rows.mem_left hr
    refine ⟨r', hr', hseen.id, hseen.path, ?_⟩
    rintro m ⟨n, hn, hle⟩
    unfold ProjectRow.SeenSince
    rw [hseen.seen]
    split
    · rename_i hids
      have hlt := holder r hr hids
      rw [hn] at hlt
      exact ⟨t, rfl, Int.le_trans hle (Int.le_of_lt (of_decide_eq_true hlt))⟩
    · exact ⟨n, hn, hle⟩

omit [ServerCollation] in
theorem back (h : Advances ids t K s s') (hr : r' ∈ s'.project) (hm : r'.lastSeenAt = some m) :
    ∃ r ∈ s.project, r'.id = r.id ∧ r'.path = r.path ∧
      (r.lastSeenAt = some m ∨ r.id ∈ ids ∧ m = t) := by
  rcases h.rows.mem_right hr with ⟨r, hr₀, hseen⟩ | ⟨_, hnone⟩
  · refine ⟨r, hr₀, hseen.id, hseen.path, ?_⟩
    rw [hseen.seen] at hm
    split at hm
    · rename_i hids
      exact .inr ⟨hids, (Option.some.inj hm).symm⟩
    · exact .inl hm
  · rw [hnone] at hm
    cases hm

omit [ServerCollation] in
/-- A row whose record was not written was there, and had been seen when it has. -/
theorem untouched (h : Advances ids t K s s') (hids : ∀ id ∈ ids, K (.project id))
    (hr : r' ∈ s'.project) (hfree : ¬ K (.project r'.id)) :
    ∃ r ∈ s.project, r'.id = r.id ∧ r'.path = r.path ∧ r'.lastSeenAt = r.lastSeenAt := by
  rcases h.rows.mem_right hr with ⟨r, hr₀, hseen⟩ | ⟨hadded, _⟩
  · have hout : r.id ∉ ids := by
      intro hmem
      rw [hseen.id] at hfree
      exact hfree (hids _ hmem)
    exact ⟨r, hr₀, hseen.id, hseen.path, hseen.seen.trans (if_neg hout)⟩
  · exact absurd hadded hfree

end Advances

omit [ServerCollation] in
theorem matchesPaths_congr {paths : List Str} (ha : s'.projectAlias = s.projectAlias)
    (hid : r'.id = r.id) (hpath : r'.path = r.path) :
    matchesPaths s' paths r' = matchesPaths s paths r := by
  unfold matchesPaths
  rw [ha, hid, hpath]

theorem exec_unseeing {q : Stmt} {a : q.Reply} {t : Tick}
    (hq : ∀ seconds paths, q ≠ .updateLastSeen seconds paths)
    (h : q.exec t s = .ok (a, us)) (hu : u ∈ us) : u.Unseeing := by
  cases q with
  | updateLastSeen seconds paths => exact absurd rfl (hq seconds paths)
  | updateDeclared =>
    simp only [Stmt.exec] at h
    split at h
    · cases h
      cases List.mem_singleton.1 hu
      trivial
    · cases h
  | updateArchived =>
    simp only [Stmt.exec] at h
    split at h
    · cases h
      cases List.mem_singleton.1 hu
      trivial
    · cases h
  | insertProject n =>
    simp only [Stmt.exec] at h
    split_ifs at h
    cases h
    cases List.mem_singleton.1 hu
    rfl
  | deleteGrant =>
    cases h
    cases List.mem_singleton.1 hu
    trivial
  | updateGrant =>
    simp only [Stmt.exec] at h
    split_ifs at h
    cases h
    cases List.mem_singleton.1 hu
    trivial
  | insertGrant g =>
    simp only [Stmt.exec] at h
    split_ifs at h
    cases h
    cases List.mem_singleton.1 hu
    trivial
  | insertWrite =>
    rw [insertWrite_writes h] at hu
    cases List.mem_singleton.1 hu
    trivial
  | updateWrite =>
    rw [updateWrite_writes h] at hu
    cases List.mem_singleton.1 hu
    trivial
  | selectWriteForUpdate =>
    rw [selectWrite_writes h] at hu
    exact absurd hu List.not_mem_nil
  | _ =>
    cases h
    exact absurd hu List.not_mem_nil

end

end ProjectDb
