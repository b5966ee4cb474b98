import ProjectDb.Coherence
import ProjectDb.Resolution

namespace ProjectDb
open Text ProjectDb.Path Mvcc Sync Read
set_option autoImplicit true

/-- A target no other target of the candidate is preferred to. -/
def Chosen (s : Store) (candidate : Str) (m : Target) : Prop :=
  Member s candidate m ∧ ∀ m', Member s candidate m' → m' ≠ m → Preferred m m'

/-- No live path is a former one. -/
def Unaliased (s : Store) : Prop :=
  ∀ r ∈ s.project, ∀ a ∈ s.projectAlias, ¬ FoldsOnto r.path a.aliasPath

/-- A later target of the same match: the same row, by id and by spelling. -/
structure SameTarget (m m' : Target) : Prop where
  matched : m'.matched = m.matched
  former : m'.former = m.former
  row_id : m'.row.id = m.row.id
  row_path : m'.row.path = m.row.path

section
variable [UuidCrate] {s s' : Store}

theorem Effect.keeps (h : Effect s s') (hr : r ∈ s.project) :
    ∃ r' ∈ s'.project, r'.id = r.id ∧ r'.path = r.path := by
  cases h with
  | nothing => exact ⟨r, hr, rfl, rfl⟩
  | registered _ hreg =>
    obtain ⟨uuid, now, hrow⟩ := hreg.row
    rw [hrow]
    exact ⟨r, List.mem_append_left _ hr, rfl, rfl⟩
  | synced _ hconv _ =>
    obtain ⟨r', hr', hset⟩ := hconv.rows.mem_left hr
    exact ⟨r', hr', hset.id_eq, hset.path_eq⟩
  | touched _ =>
    refine ⟨_, mem_updateRows.2 ⟨r, hr, rfl⟩, ?_, ?_⟩ <;> split <;> rfl

theorem Effect.unaliased (h : Effect s s') (hu : Unaliased s) : Unaliased s' := by
  intro r' hr' a ha
  rw [h.aliases] at ha
  cases h with
  | nothing => exact hu r' hr' a ha
  | registered _ hreg =>
    obtain ⟨uuid, now, hrow⟩ := hreg.row
    rw [hrow] at hr'
    rcases List.mem_append.1 hr' with hr' | hr'
    · exact hu r' hr' a ha
    · cases List.mem_singleton.1 hr'
      exact fun hfold => hreg.unaliased a ha hfold.symm
  | synced _ hconv haccepted =>
    rcases hconv.rows.mem_right hr' with ⟨r, hr, hset⟩ | ⟨d, hd, _, hm⟩
    · rw [hset.path_eq]
      exact hu r hr a ha
    · rw [hm.org_row.2.1]
      exact haccepted.unaliased d hd a ha
  | touched _ =>
    obtain ⟨r, hr, rfl⟩ := mem_updateRows.1 hr'
    split
    · exact hu r hr a ha
    · exact hu r hr a ha

end

section
variable [ServerCollation] [UuidCrate] [Idem.Sha256] [Message RegisterProjectRequest]
  [Message RegisterProjectResponse] {s s' : Store}

/-- After a run the rows are still there and no row has come to be on an alias. -/
theorem Reaches.keeps (h : Reaches s s') (hs : s.Schema) (hu : Unaliased s) :
    s'.Schema ∧ s'.projectAlias = s.projectAlias ∧ Unaliased s' ∧
      ∀ r ∈ s.project, ∃ r' ∈ s'.project, r'.id = r.id ∧ r'.path = r.path := by
  apply h.induct (P := fun s' => s'.projectAlias = s.projectAlias ∧ Unaliased s' ∧
    ∀ r ∈ s.project, ∃ r' ∈ s'.project, r'.id = r.id ∧ r'.path = r.path) hs
  · exact ⟨rfl, hu, fun r hr => ⟨r, hr, rfl, rfl⟩⟩
  · intro t t' _ _ ⟨haliases, hunaliased, hrows⟩ he
    refine ⟨he.aliases.trans haliases, he.unaliased hunaliased, fun r hr => ?_⟩
    obtain ⟨r₁, hr₁, hid₁, hpath₁⟩ := hrows r hr
    obtain ⟨r₂, hr₂, hid₂, hpath₂⟩ := he.keeps hr₁
    exact ⟨r₂, hr₂, hid₂.trans hid₁, hpath₂.trans hpath₁⟩

theorem storeAfter_keeps (run : Run) (hs : s.Schema) (hr : r ∈ s.project) :
    ∃ r' ∈ (storeAfter s run).project, r'.id = r.id ∧ r'.path = r.path := by
  induction run generalizing s r with
  | nil => exact ⟨r, hr, rfl, rfl⟩
  | cons turn run ih =>
    obtain ⟨r₁, hr₁, hid₁, hpath₁⟩ := (turn.1.effect turn.2 hs).keeps hr
    obtain ⟨r₂, hr₂, hid₂, hpath₂⟩ := ih (turn.1.served_schema turn.2 hs) hr₁
    exact ⟨r₂, hr₂, hid₂.trans hid₁, hpath₂.trans hpath₁⟩

theorem Reaches.member (h : Reaches s s') (hs : s.Schema) (hu : Unaliased s)
    (hm : Member s candidate m) : ∃ m', Member s' candidate m' ∧ SameTarget m m' := by
  obtain ⟨_, haliases, _, hrows⟩ := h.keeps hs hu
  obtain ⟨⟨hr, ho⟩, hc⟩ := hm
  obtain ⟨r', hr', hid, hpath⟩ := hrows m.row hr
  refine ⟨⟨m.matched, r', m.former⟩, ⟨⟨hr', ?_⟩, hc⟩, rfl, rfl, hid, hpath⟩
  cases hf : m.former with
  | true =>
    simp only [hf, ↓reduceIte] at ho ⊢
    rw [hid, haliases]
    exact ho
  | false =>
    simp only [hf, Bool.false_eq_true, ↓reduceIte] at ho ⊢
    rw [hpath]
    exact ho

omit [ServerCollation] [UuidCrate] [Idem.Sha256] [Message RegisterProjectRequest]
  [Message RegisterProjectResponse] in
/-- Where no live path is a former one, the deeper of two targets alone is preferred. -/
theorem Read.Preferred.deeper (hu : Unaliased s) (h : Preferred m m') (hm : Member s candidate m)
    (hm' : Member s candidate m') : depth m'.matched < depth m.matched := by
  rcases h with h | ⟨hd, hlive, hformer⟩
  · exact h
  · obtain ⟨⟨hr, ho⟩, hc⟩ := hm
    obtain ⟨⟨_, ho'⟩, hc'⟩ := hm'
    simp only [hlive, hformer, Bool.false_eq_true, ↓reduceIte] at ho ho'
    have hfold : FoldsOnto m.row.path m'.matched := by
      rw [ho]
      exact hc.foldsOnto hc' hd.symm
    exact absurd hfold (hu m.row hr _ ho')

omit [UuidCrate] [Idem.Sha256] [Message RegisterProjectRequest]
  [Message RegisterProjectResponse] in
theorem read_walked {env : Nat → Tick} {found : List Found}
    (h : (Rpc.read (.selectAncestors (chain candidate))).eval env ⟨s, none, 1⟩ = (.ok found, c)) :
    found = walked env s candidate := by
  change ((Op.exec (env 1) (.sql (.selectAncestors (chain candidate))) s).1.mapError internal, _) =
    _ at h
  have hreply := congrArg Prod.fst h
  simp only [Op.exec] at hreply
  cases hf : (env 1).fault with
  | some f =>
    rw [hf] at hreply
    cases hreply
  | none =>
    rw [hf] at hreply
    cases hreply
    rfl

omit [UuidCrate] [Idem.Sha256] [Message RegisterProjectRequest]
  [Message RegisterProjectResponse] in
theorem resolve_answer {env : Nat → Tick} {req : ResolveProjectRequest}
    (h : ((resolve req).serve env s).1 = .ok a) : Grammatical req.candidatePath ∧
      ¬ FoldsOnto req.candidatePath reservedRoot ∧
      answer req.candidatePath (walked env s req.candidatePath) = .ok a := by
  by_cases hgood : Grammatical req.candidatePath ∧ ¬ FoldsOnto req.candidatePath reservedRoot
  · refine ⟨hgood.1, hgood.2, ?_⟩
    unfold Rpc.serve resolve at h
    rw [(validate_ok_iff "candidate_path" _).2 hgood.1,
      (refuseReservedRoot_ok_iff "candidate_path" _).2 hgood.2,
      Rpc.eval_bind_of_ok (Rpc.eval_ofExcept _ _), Rpc.eval_bind_of_ok (Rpc.eval_ofExcept _ _)] at h
    rcases Rpc.eval_bind_cases rfl with ⟨e, c, _, he⟩ | ⟨_, c, hacquire, hk⟩
    · rw [he] at h
      cases h
    · rw [← hk] at h
      have hc := congrArg Prod.snd hacquire
      rw [Rpc.eval_acquire_conn] at hc
      subst hc
      rcases Rpc.eval_bind_cases rfl with ⟨e, c, _, he⟩ | ⟨found, c, hread, hk⟩
      · rw [he] at h
        cases h
      · rw [← hk] at h
        rw [read_walked hread] at h
        exact h
  · have hbad : ¬ Grammatical req.candidatePath ∨ FoldsOnto req.candidatePath reservedRoot := by
      rw [not_and_or, not_not] at hgood
      exact hgood
    obtain ⟨e, he, _⟩ := serve_resolve_refused hbad
    rw [he] at h
    cases h

omit [UuidCrate] [Idem.Sha256] [Message RegisterProjectRequest]
  [Message RegisterProjectResponse] in
theorem resolve_chosen {env : Nat → Tick} {req : ResolveProjectRequest} (hs : s.Schema)
    (h : ((resolve req).serve env s).1 = .ok a) :
    ∃ m, Chosen s req.candidatePath m ∧ a = m.answer req.candidatePath ∧
      Grammatical req.candidatePath ∧ ¬ FoldsOnto req.candidatePath reservedRoot := by
  obtain ⟨hg, hr, h⟩ := resolve_answer h
  cases hb : best (walked env s req.candidatePath) with
  | none =>
    rw [best_eq_none.1 hb] at h
    cases h
  | some f =>
    obtain ⟨m, rfl, hm, hbest⟩ := best_walked hs.id_key hs.path_key hs.alias_key hb
    rw [answer_found hb] at h
    cases h
    exact ⟨m, ⟨hm, hbest⟩, rfl, hg, hr⟩

/-- A candidate that resolves goes on resolving, to the same row or from a deeper prefix. -/
theorem resolve_stable {env env' : Nat → Tick} {s₀ : Store} {req : ResolveProjectRequest}
    (hs₀ : s₀.Schema) (hu : Unaliased s₀) (h₀ : Reaches s₀ s) (h : Reaches s s')
    (hf' : Faultless env') (ha : ((resolve req).serve env s).1 = .ok a) :
    ∃ m m', Chosen s req.candidatePath m ∧ a = m.answer req.candidatePath ∧
      Chosen s' req.candidatePath m' ∧
      (resolve req).serve env' s' = (.ok (m'.answer req.candidatePath), s') ∧
      ((m'.answer req.candidatePath).resolvedPath = a.resolvedPath ∧
          (m'.answer req.candidatePath).exact = a.exact ∧
          (m'.answer req.candidatePath).viaAlias = a.viaAlias ∧ m'.row.id = m.row.id ∨
        depth m.matched < depth m'.matched) ∧
      (a.exact = true → (m'.answer req.candidatePath).exact = true ∧
        (m'.answer req.candidatePath).resolvedPath = a.resolvedPath ∧ m'.row.id = m.row.id) := by
  obtain ⟨hs, _, hus, _⟩ := h₀.keeps hs₀ hu
  obtain ⟨hs', _, hus', _⟩ := h.keeps hs hus
  obtain ⟨m, hm, rfl, hg, hr⟩ := resolve_chosen hs ha
  obtain ⟨m₁, hm₁, hsame⟩ := h.member hs hus hm.1
  obtain ⟨m', hm', hbest, hok⟩ :=
    serve_resolve_ok hf' hs'.id_key hs'.path_key hs'.alias_key hg hr hm₁
  refine ⟨m, m', hm, rfl, ⟨hm', hbest⟩, hok, ?_⟩
  by_cases he : m' = m₁
  · subst he
    have hanswer : (m'.answer req.candidatePath).resolvedPath =
        (m.answer req.candidatePath).resolvedPath ∧ (m'.answer req.candidatePath).exact =
        (m.answer req.candidatePath).exact ∧ (m'.answer req.candidatePath).viaAlias =
        (m.answer req.candidatePath).viaAlias := by
      simp only [Target.answer, hsame.matched, hsame.former, hsame.row_path, and_self]
    obtain ⟨hpath, hexact, hvia⟩ := hanswer
    exact ⟨.inl ⟨hpath, hexact, hvia, hsame.row_id⟩,
      fun h => ⟨hexact.trans h, hpath, hsame.row_id⟩⟩
  · have hdeeper : depth m.matched < depth m'.matched := by
      rw [← hsame.matched]
      exact (hbest m₁ hm₁ (Ne.symm he)).deeper hus' hm' hm₁
    refine ⟨.inr hdeeper, fun hexact => ?_⟩
    have hfold : FoldsOnto m.matched req.candidatePath := of_decide_eq_true hexact
    have hdepth := hm'.2.depth_le
    rw [← depth_eq_of_foldsOnto hfold] at hdepth
    exact absurd hdeeper (Nat.not_lt_of_ge hdepth)

end

section
open scoped Reference

theorem renamed_schema :
    letI := ServerCollation.ascii
    renamed.Schema := by
  let _ := ServerCollation.ascii
  exact ⟨by decide, by decide, by decide, by decide, by decide, by decide, by decide, by decide⟩

theorem resolve_stable_renamed :
    letI := ServerCollation.ascii
    ∃ (s' : Store) (m' : Target),
      ((syncAs (some syncCaller) acmeOnly).serve (fun n => .quiet 1 n) renamed).2 = s' ∧
      (resolve ⟨"OLD".toList⟩).serve (fun n => .quiet 2 n) s' = (.ok (m'.answer "OLD".toList), s') ∧
      (m'.answer "OLD".toList).exact = true ∧
      (m'.answer "OLD".toList).resolvedPath = "acme".toList := by
  let _ := ServerCollation.ascii
  have hu : Unaliased renamed := by
    unfold Unaliased
    decide
  have hstart : Reaches renamed renamed := .start
  have hsync := hstart.call (.sync (some syncCaller) acmeOnly) fun n => .quiet 1 n
  have hf : Faultless fun n => .quiet 2 n := fun _ => rfl
  have ha : ((resolve ⟨"OLD".toList⟩).serve (fun n => .quiet 1 n) renamed).1 =
      .ok ⟨"acme".toList, true, true, 1, "git".toList⟩ := rfl
  obtain ⟨m, m', _, _, _, hok, _, hexact⟩ := resolve_stable renamed_schema hu hstart hsync hf ha
  obtain ⟨he, hp, _⟩ := hexact rfl
  exact ⟨_, m', rfl, hok, he, hp⟩

end

end ProjectDb
