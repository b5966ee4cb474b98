import ProjectDb.Stability

namespace ProjectDb
open Text ProjectDb.Path Mvcc Sync
set_option autoImplicit true

/-- The greatest of a moment that may be absent and of more moments. -/
def latest (seen : Option Time) (moments : List Time) : Option Time :=
  (seen.toList ++ moments).max?

@[simp] theorem latest_nil (seen : Option Time) : latest seen [] = seen := by
  cases seen <;> rfl

theorem latest_eq_some {seen : Option Time} :
    latest seen moments = some m ↔
      (seen = some m ∨ m ∈ moments) ∧ ∀ n, seen = some n ∨ n ∈ moments → n ≤ m := by
  simp only [latest, List.max?_eq_some_iff, List.mem_append, Option.mem_toList]

theorem latest_eq_none {seen : Option Time} : latest seen moments = none ↔
    seen = none ∧ moments = [] := by
  simp only [latest, List.max?_eq_none_iff, List.append_eq_nil_iff, Option.toList_eq_nil_iff]

theorem latest_congr {seen : Option Time} (h : ∀ n, n ∈ as ↔ n ∈ bs) :
    latest seen as = latest seen bs := by
  apply Option.ext
  intro m
  simp only [latest_eq_some, h]

theorem latest_append (seen : Option Time) (as bs : List Time) :
    latest (latest seen as) bs = latest seen (as ++ bs) := by
  cases ha : latest seen as with
  | none =>
    obtain ⟨rfl, rfl⟩ := latest_eq_none.1 ha
    rfl
  | some n =>
    obtain ⟨hn, hle⟩ := latest_eq_some.1 ha
    apply Option.ext
    intro m
    rw [latest_eq_some, latest_eq_some]
    simp only [Option.some.injEq, List.mem_append, ← or_assoc]
    constructor
    · rintro ⟨hm, hmax⟩
      constructor
      · rcases hm with rfl | hm
        · exact .inl hn
        · exact .inr hm
      · rintro k (hk | hk)
        · exact Int.le_trans (hle k hk) (hmax n (.inl rfl))
        · exact hmax k (.inr hk)
    · rintro ⟨hm, hmax⟩
      constructor
      · rcases hm with hm | hm
        · exact .inl (Int.le_antisymm (hmax n (.inl hn)) (hle m hm))
        · exact .inr hm
      · rintro k (rfl | hk)
        · exact hmax _ (.inl hn)
        · exact hmax k (.inr hk)

namespace Touch

/-- What a flush must carry to be accepted. -/
structure Flushable (req : TouchProjectsRequest) : Prop where
  scope : req.scope.isSome = true
  seen : ∃ t, req.seenAt = some t ∧ minTimestampSeconds ≤ t.seconds ∧
    t.seconds ≤ maxTimestampSeconds
  paths : req.paths ≠ []
  size : req.paths.length ≤ maxTouch
  grammar : ∀ p ∈ req.paths, Grammatical p

/-- One of the paths folds onto the row's path or onto an alias of the row. -/
def Named (s : Store) (paths : List Str) (r : ProjectRow) : Prop :=
  ∃ p ∈ paths, FoldsOnto r.path p ∨
    ∃ a ∈ s.projectAlias, a.projectId = r.id ∧ FoldsOnto a.aliasPath p

instance (s : Store) (paths : List Str) (r : ProjectRow) : Decidable (Named s paths r) :=
  inferInstanceAs (Decidable (∃ p ∈ paths, _ ∨ ∃ a ∈ s.projectAlias, _ ∧ _))

theorem mem_of_mem_dedupFrom {same : τ → τ → Bool} {kept : τ} {l : List τ}
    (ha : a ∈ dedupFrom same kept l) : a ∈ l := by
  induction l generalizing kept with
  | nil => exact ha
  | cons b l ih =>
    simp only [dedupFrom] at ha
    split at ha
    · exact List.mem_cons_of_mem _ (ih ha)
    · rcases List.mem_cons.1 ha with rfl | ha
      · exact List.mem_cons_self
      · exact List.mem_cons_of_mem _ (ih ha)

theorem exists_mem_dedupFrom {same : τ → τ → Bool} (hrefl : ∀ a, same a a = true) {kept : τ}
    {l : List τ} (ha : a ∈ l) :
    same a kept = true ∨ ∃ b ∈ dedupFrom same kept l, same a b = true := by
  induction l generalizing kept with
  | nil => cases ha
  | cons b l ih =>
    simp only [dedupFrom]
    cases hb : same b kept with
    | true =>
      rcases List.mem_cons.1 ha with rfl | ha
      · exact .inl hb
      · exact ih ha
    | false =>
      right
      rcases List.mem_cons.1 ha with rfl | ha
      · exact ⟨a, List.mem_cons_self, hrefl a⟩
      · rcases ih ha with h | ⟨c, hc, h⟩
        · exact ⟨b, List.mem_cons_self, h⟩
        · exact ⟨c, List.mem_cons_of_mem _ hc, h⟩

theorem exists_deduplicated {paths : List Str} (q : Str) :
    (∃ p ∈ deduplicated paths, FoldsOnto q p) ↔ ∃ p ∈ paths, FoldsOnto q p := by
  have hmem : ∀ p, p ∈ paths.mergeSort (fun a b => strLe (toAsciiLowercase a)
      (toAsciiLowercase b)) ↔ p ∈ paths := fun p => (List.mergeSort_perm _ _).mem_iff
  unfold deduplicated
  constructor
  · rintro ⟨p, hp, h⟩
    refine ⟨p, (hmem p).1 ?_, h⟩
    revert hp
    cases paths.mergeSort fun a b => strLe (toAsciiLowercase a) (toAsciiLowercase b) with
    | nil => exact fun hp => hp
    | cons a l =>
      intro hp
      rcases List.mem_cons.1 hp with rfl | hp
      · exact List.mem_cons_self
      · exact List.mem_cons_of_mem _ (mem_of_mem_dedupFrom hp)
  · rintro ⟨p, hp, h⟩
    have hp := (hmem p).2 hp
    revert hp
    cases paths.mergeSort fun a b => strLe (toAsciiLowercase a) (toAsciiLowercase b) with
    | nil =>
      intro hp
      cases hp
    | cons a l =>
      intro hp
      have hrefl : ∀ b, eqIgnoreAsciiCase b b = true := fun b =>
        (eqIgnoreAsciiCase_iff b b).2 (.refl b)
      rcases List.mem_cons.1 hp with rfl | hp
      · exact ⟨p, List.mem_cons_self, h⟩
      · rcases exists_mem_dedupFrom hrefl hp with hs | ⟨b, hb, hs⟩
        · exact ⟨a, List.mem_cons_self, h.trans ((eqIgnoreAsciiCase_iff _ _).1 hs)⟩
        · exact ⟨b, List.mem_cons_of_mem _ hb, h.trans ((eqIgnoreAsciiCase_iff _ _).1 hs)⟩

theorem named_iff {s : Store} {paths : List Str} {r : ProjectRow} : Named s paths r ↔
    (∃ p ∈ paths, FoldsOnto r.path p) ∨
      ∃ a ∈ s.projectAlias, a.projectId = r.id ∧ ∃ p ∈ paths, FoldsOnto a.aliasPath p := by
  constructor
  · rintro ⟨p, hp, h | ⟨a, ha, hid, h⟩⟩
    · exact .inl ⟨p, hp, h⟩
    · exact .inr ⟨a, ha, hid, p, hp, h⟩
  · rintro (⟨p, hp, h⟩ | ⟨a, ha, hid, p, hp, h⟩)
    · exact ⟨p, hp, .inl h⟩
    · exact ⟨p, hp, .inr ⟨a, ha, hid, h⟩⟩

/-- The two arms of the statement select the rows that the flush names. -/
theorem matchesPaths_deduplicated {s : Store} {paths : List Str} {r : ProjectRow} :
    matchesPaths s (deduplicated paths) r = true ↔ Named s paths r := by
  have hin : ∀ q, pathIn q (deduplicated paths) = true ↔ ∃ p ∈ paths, FoldsOnto q p := by
    intro q
    rw [← exists_deduplicated q]
    simp only [pathIn, List.any_eq_true, eqIgnoreAsciiCase_iff]
  rw [named_iff, matchesPaths, Bool.or_eq_true, hin, List.any_eq_true]
  simp only [Bool.and_eq_true, hin, beq_iff_eq]
  constructor
  · exact Or.imp_right fun ⟨a, ha, h, hid⟩ => ⟨a, ha, hid, h⟩
  · exact Or.imp_right fun ⟨a, ha, hid, h⟩ => ⟨a, ha, h, hid⟩

/-- The store with the rows that a flush names advanced to its moment. -/
def advanced (s : Store) (paths : List Str) (seconds : Int) : Store :=
  { s with
    project := s.project.map fun r =>
      if Named s paths r then { r with lastSeenAt := latest r.lastSeenAt [seconds] } else r }

theorem touched_eq (s : Store) (paths : List Str) (seconds : Int) :
    touched s (deduplicated paths) seconds = advanced s paths seconds := by
  have hrow : ∀ r : ProjectRow, (if touches s (deduplicated paths) seconds r then r.seen seconds
      else r) = if Named s paths r then { r with lastSeenAt := latest r.lastSeenAt [seconds] }
        else r := by
    intro r
    by_cases hn : Named s paths r
    · rw [if_pos hn, touches, matchesPaths_deduplicated.2 hn, Bool.true_and]
      cases hl : r.lastSeenAt with
      | none => rfl
      | some m =>
        by_cases hlt : m < seconds
        · have hmax : latest (some m) [seconds] = some seconds :=
            congrArg some (Int.max_eq_right (Int.le_of_lt hlt))
          rw [hmax, Option.all_some, decide_eq_true hlt]
          rfl
        · have hmax : latest (some m) [seconds] = some m :=
            congrArg some (Int.max_eq_left (Int.not_lt.1 hlt))
          rw [hmax, Option.all_some, decide_eq_false hlt, ← hl]
          rfl
    · have hfalse : matchesPaths s (deduplicated paths) r = false :=
        Bool.eq_false_iff.2 fun h => hn (matchesPaths_deduplicated.1 h)
      rw [if_neg hn, touches, hfalse]
      rfl
  exact congrArg (fun rows => ({ s with project := rows } : Store))
    (List.map_congr_left fun r _ => hrow r)

theorem forM_validate_ok_iff (what : String) (paths : List Str) :
    paths.forM (Path.validate what) = .ok () ↔ ∀ p ∈ paths, Grammatical p := by
  induction paths with
  | nil => exact ⟨fun _ _ hp => absurd hp List.not_mem_nil, fun _ => rfl⟩
  | cons p paths ih =>
    change (Path.validate what p >>= fun _ => paths.forM (Path.validate what)) = .ok () ↔ _
    rw [bind_eq_ok, List.forall_mem_cons, ← ih]
    constructor
    · rintro ⟨_, hp, h⟩
      exact ⟨(validate_ok_iff what p).1 hp, h⟩
    · rintro ⟨hp, h⟩
      exact ⟨(), (validate_ok_iff what p).2 hp, h⟩

theorem forM_validate_code {what : String} {paths : List Str}
    (h : paths.forM (Path.validate what) = .error e) : e.code = .invalidArgument := by
  induction paths with
  | nil => cases h
  | cons p paths ih =>
    change (Path.validate what p >>= fun _ => paths.forM (Path.validate what)) = .error e at h
    rcases bind_eq_error h with h | ⟨_, _, h⟩
    · exact validate_code h
    · exact ih h

theorem checked_ok_iff {req : TouchProjectsRequest} : checked req = .ok (seconds, paths) ↔
    Flushable req ∧ req.seenAt = some ⟨seconds⟩ ∧ paths = deduplicated req.paths := by
  unfold checked
  constructor
  · intro h
    obtain ⟨scope, hscope, h⟩ := bind_eq_ok.1 h
    have hscope : req.scope.isSome = true := by
      cases hs : req.scope with
      | none =>
        rw [hs] at hscope
        cases hscope
      | some _ => rfl
    cases hseen : req.seenAt with
    | none =>
      rw [hseen] at h
      cases h
    | some t =>
      simp only [hseen] at h
      split at h
      · cases h
      · rename_i hrange
        split at h
        · cases h
        · rename_i hne
          split at h
          · cases h
          · rename_i hsize
            obtain ⟨_, hvalid, h⟩ := bind_eq_ok.1 h
            cases h
            rw [not_or, Int.not_lt, Int.not_lt] at hrange
            refine ⟨⟨hscope, ⟨t, hseen, hrange⟩, fun hnil => hne ?_, Nat.le_of_not_gt hsize,
              (forM_validate_ok_iff _ _).1 hvalid⟩, rfl, rfl⟩
            rw [hnil]
            rfl
  · rintro ⟨hf, hseen, rfl⟩
    obtain ⟨scope, hscope⟩ := Option.isSome_iff_exists.1 hf.scope
    obtain ⟨t, ht, hmin, hmax⟩ := hf.seen
    cases hseen.symm.trans ht
    have hrange : ¬ (seconds < minTimestampSeconds ∨ seconds > maxTimestampSeconds) := by
      rw [not_or]
      exact ⟨Int.not_lt.2 hmin, Int.not_lt.2 hmax⟩
    have hne : ¬ req.paths.isEmpty = true := fun h => hf.paths (List.isEmpty_iff.1 h)
    apply bind_eq_ok.2
    refine ⟨scope, by rw [hscope]; rfl, ?_⟩
    simp only [hseen]
    rw [if_neg hrange, if_neg hne, if_neg (Nat.not_lt.2 hf.size)]
    exact bind_eq_ok.2 ⟨(), (forM_validate_ok_iff _ _).2 hf.grammar, rfl⟩

theorem checked_code {req : TouchProjectsRequest} (h : checked req = .error e) :
    e.code = .invalidArgument := by
  unfold checked at h
  rcases bind_eq_error h with h | ⟨_, _, h⟩
  · cases hs : req.scope with
    | none =>
      rw [hs] at h
      cases h
      rfl
    | some _ =>
      rw [hs] at h
      cases h
  · split at h
    · cases h
      rfl
    · split at h
      · cases h
        rfl
      · split at h
        · cases h
          rfl
        · split at h
          · cases h
            rfl
          · rcases bind_eq_error h with h | ⟨_, _, h⟩
            · exact forM_validate_code h
            · cases h

variable [ServerCollation] {env : Nat → Tick}

theorem serve_refused {req : TouchProjectsRequest} (h : ¬ Flushable req) (env : Nat → Tick)
    (s : Store) : ∃ e, e.code = .invalidArgument ∧ (touch req).serve env s = (.error e, s) := by
  cases hc : checked req with
  | ok flush => exact absurd (checked_ok_iff.1 hc).1 h
  | error e =>
    refine ⟨e, checked_code hc, ?_⟩
    unfold Rpc.serve touch
    rw [hc, Rpc.eval_bind_of_error (Rpc.eval_ofExcept _ _)]

theorem serve_answers {req : TouchProjectsRequest} (hf : Faultless env) (h : Flushable req)
    (s : Store) : ∃ answer, ((touch req).serve env s).1 = .ok answer := by
  obtain ⟨t, ht, _⟩ := h.seen
  exact serve_touch_faultless hf (checked_ok_iff.2 ⟨h, ht, rfl⟩) s

theorem serve_advances {req : TouchProjectsRequest} {s : Store} (hs : s.Schema)
    (h : commits req env = true) : Flushable req ∧ ∃ seconds, req.seenAt = some ⟨seconds⟩ ∧
      ((touch req).serve env s).2 = advanced s req.paths seconds ∧
        ∀ e, ((touch req).serve env s).1 = .error e →
          (env 4).fault = some .replyLost ∧ e.code = .internal := by
  rcases serve_touch_cases req env hs with ⟨hno, _⟩ | ⟨_, seconds, paths, hc, hserve⟩
  · cases hno.symm.trans h
  · obtain ⟨hf, hseen, rfl⟩ := checked_ok_iff.1 hc
    refine ⟨hf, seconds, hseen, ?_, fun e he => ?_⟩
    · rw [hserve, touched_eq]
    · rw [hserve] at he
      obtain ⟨hlost, rfl⟩ := Tick.acked_error he
      exact ⟨hlost, rfl⟩

theorem serve_unchanged {req : TouchProjectsRequest} {s : Store} (hs : s.Schema)
    (h : commits req env = false) : ∃ e, (touch req).serve env s = (.error e, s) := by
  rcases serve_touch_cases req env hs with ⟨_, hserve⟩ | ⟨hyes, _⟩
  · exact hserve
  · cases h.symm.trans hyes

end Touch

/-- The moment a row of the store was last seen. -/
def lastSeen (s : Store) (i : Str) : Option Time :=
  (s.project.find? fun r => r.id == i).bind ProjectRow.lastSeenAt

theorem lastSeen_absent {s : Store} (h : ∀ r ∈ s.project, r.id ≠ i) : lastSeen s i = none := by
  unfold lastSeen
  rw [List.find?_eq_none.2 fun r hr => by rw [beq_iff_eq]; exact h r hr]
  rfl

section
variable [ServerCollation]

theorem lastSeen_eq {s : Store} (hs : s.Schema) (hr : r ∈ s.project) :
    lastSeen s r.id = r.lastSeenAt := by
  unfold lastSeen
  cases hfind : s.project.find? fun x => x.id == r.id with
  | none =>
    have hne := List.find?_eq_none.1 hfind r hr
    rw [beq_self_eq_true] at hne
    exact absurd rfl hne
  | some x =>
    have hid := List.find?_some hfind
    rw [beq_iff_eq] at hid
    rw [List.inj_on_of_nodup_map hs.id_key (List.mem_of_find?_eq_some hfind) hr hid]
    rfl

theorem lastSeen_grown {s s' : Store} {R : ProjectRow → ProjectRow → Prop}
    {P : ProjectRow → Prop} (hs : s.Schema) (hs' : s'.Schema)
    (h : Grown R P s.project s'.project)
    (hR : ∀ a b, R a b → b.id = a.id ∧ b.lastSeenAt = a.lastSeenAt)
    (hP : ∀ a, P a → a.lastSeenAt = none) (i : Str) : lastSeen s' i = lastSeen s i := by
  by_cases hi : ∃ r' ∈ s'.project, r'.id = i
  · obtain ⟨r', hr', rfl⟩ := hi
    rw [lastSeen_eq hs' hr']
    rcases h.mem_right_fresh (fun a b hab => (hR a b hab).1) hs'.id_key hr' with
      ⟨r, hr, hrr⟩ | ⟨hp, hfresh⟩
    · obtain ⟨hid, hseen⟩ := hR r r' hrr
      rw [hid, lastSeen_eq hs hr, hseen]
    · rw [hP r' hp, lastSeen_absent hfresh]
  · have hnot : ∀ r ∈ s.project, r.id ≠ i := by
      intro r hr he
      obtain ⟨r', hr', hrr⟩ := h.mem_left hr
      exact hi ⟨r', hr', (hR r r' hrr).1.trans he⟩
    rw [lastSeen_absent hnot, lastSeen_absent fun r' hr' he => hi ⟨r', hr', he⟩]

end

section
variable [ServerCollation] [UuidCrate] [Idem.Sha256] [Message RegisterProjectRequest]
  [Message RegisterProjectResponse]

/-- The moment a call brings to the row of an id: that of a flush which commits and names it. -/
def Call.moment (env : Nat → Tick) (s : Store) (i : Str) : Call → List Time
  | .touch req =>
    if Touch.commits req env &&
        s.project.any (fun r => r.id == i && decide (Touch.Named s req.paths r)) then
      req.seenAt.toList.map Timestamp.seconds
    else []
  | _ => []

/-- The moments a run brings to the row of an id. -/
def moments (i : Str) (s : Store) : Run → List Time
  | [] => []
  | (c, env) :: run => c.moment env s i ++ moments i (c.served env s) run

omit [UuidCrate] [Idem.Sha256] [Message RegisterProjectRequest]
  [Message RegisterProjectResponse] in
theorem lastSeen_advanced {s : Store} (hs : s.Schema) (hs' : (Touch.advanced s paths n).Schema)
    (i : Str) : lastSeen (Touch.advanced s paths n) i = latest (lastSeen s i)
      (if s.project.any (fun r => r.id == i && decide (Touch.Named s paths r)) then [n]
        else []) := by
  by_cases hi : ∃ r ∈ s.project, r.id = i
  · obtain ⟨r, hr, rfl⟩ := hi
    have hnamed : s.project.any (fun x => x.id == r.id && decide (Touch.Named s paths x)) =
        decide (Touch.Named s paths r) := by
      rw [Bool.eq_iff_iff, List.any_eq_true, decide_eq_true_eq]
      constructor
      · rintro ⟨x, hx, h⟩
        rw [Bool.and_eq_true, beq_iff_eq, decide_eq_true_eq] at h
        rw [← List.inj_on_of_nodup_map hs.id_key hx hr h.1]
        exact h.2
      · intro h
        refine ⟨r, hr, ?_⟩
        rw [Bool.and_eq_true, beq_iff_eq, decide_eq_true_eq]
        exact ⟨rfl, h⟩
    have hmem : _ ∈ (Touch.advanced s paths n).project := List.mem_map_of_mem hr
    have hseen := lastSeen_eq hs' hmem
    rw [hnamed, lastSeen_eq hs hr]
    by_cases hn : Touch.Named s paths r
    · rw [if_pos hn] at hseen
      rw [decide_eq_true hn]
      exact hseen
    · rw [if_neg hn] at hseen
      rw [decide_eq_false hn]
      exact hseen.trans (latest_nil _).symm
  · have hany : s.project.any (fun r => r.id == i && decide (Touch.Named s paths r)) = false := by
      rw [List.any_eq_false]
      intro r hr h
      rw [Bool.and_eq_true, beq_iff_eq] at h
      exact hi ⟨r, hr, h.1⟩
    have habsent : ∀ r' ∈ (Touch.advanced s paths n).project, r'.id ≠ i := by
      intro r' hr' he
      obtain ⟨r, hr, rfl⟩ := List.mem_map.1 hr'
      refine hi ⟨r, hr, Eq.trans ?_ he⟩
      split <;> rfl
    rw [hany, lastSeen_absent habsent, lastSeen_absent fun r hr he => hi ⟨r, hr, he⟩]
    rfl

theorem Call.lastSeen (c : Call) (env : Nat → Tick) {s : Store} (hs : s.Schema) (i : Str) :
    ProjectDb.lastSeen (c.served env s) i = latest (ProjectDb.lastSeen s i) (c.moment env s i) := by
  have hs' := c.served_schema env hs
  cases c with
  | register caller req =>
    simp only [Call.served, Call.moment, latest_nil] at hs' ⊢
    rcases Register.serve_registerAs caller req env s with h | ⟨scope, cls, hc, hreg⟩
    · rw [h]
    · apply lastSeen_grown hs hs' hreg.grown (fun a b h => h ▸ ⟨rfl, rfl⟩) ?_ i
      rintro r ⟨uuid, now, rfl⟩
      rfl
  | sync caller req =>
    simp only [Call.served, Call.moment, latest_nil] at hs' ⊢
    rcases serve_syncAs caller req env s with ⟨e, he⟩ | ⟨actor, response, s', n, _, hw, ha, hok⟩
    · rw [he]
    · rw [hok] at hs' ⊢
      obtain ⟨hconv, _⟩ := apply_ok (validation_sound hw) hs ha
      apply lastSeen_grown hs hs' hconv.rows (fun a b h => ⟨h.id_eq, h.stamps.2⟩) ?_ i
      rintro r ⟨d, _, _, uuid, now, rfl⟩
      rfl
  | touch req =>
    simp only [Call.served, Call.moment] at hs' ⊢
    cases hcommits : Touch.commits req env with
    | false =>
      obtain ⟨e, hserve⟩ := Touch.serve_unchanged hs hcommits
      rw [hserve]
      exact (latest_nil _).symm
    | true =>
      obtain ⟨_, n, hseen, hstore, _⟩ := Touch.serve_advances hs hcommits
      rw [hstore] at hs' ⊢
      rw [lastSeen_advanced hs hs', hseen]
      simp only [Bool.true_and, Option.toList_some, List.map_cons, List.map_nil]

/-- A run takes the moment of each row to the latest of it and what the run brings. -/
theorem lastSeen_after (run : Run) {s : Store} (hs : s.Schema) (i : Str) :
    lastSeen (storeAfter s run) i = latest (lastSeen s i) (moments i s run) := by
  induction run generalizing s with
  | nil => exact (latest_nil _).symm
  | cons turn run ih =>
    obtain ⟨c, env⟩ := turn
    have hstep := ih (c.served_schema env hs)
    rw [c.lastSeen env hs, latest_append] at hstep
    exact hstep

/-- Flushes take each row's `last_seen_at` to the maximum of what they bring, and do no more. -/
theorem flushes_maximum {s : Store} (hs : s.Schema) (run : Run) :
    (∀ r' ∈ (storeAfter s run).project,
      r'.lastSeenAt = ((lastSeen s r'.id).toList ++ moments r'.id s run).max?) ∧
    (∀ r ∈ s.project, lastSeen s r.id = r.lastSeenAt ∧
      ∃ r' ∈ (storeAfter s run).project, r'.id = r.id ∧
        ∀ m, r.lastSeenAt = some m → ∃ m', r'.lastSeenAt = some m' ∧ m ≤ m') ∧
    (∀ run' i, (∀ n, n ∈ moments i s run' ↔ n ∈ moments i s run) →
      lastSeen (storeAfter s run') i = lastSeen (storeAfter s run) i) ∧
    ∀ (req : TouchProjectsRequest) (env : Nat → Tick),
      (Touch.Flushable req → Faultless env →
        ∃ answer, ((Touch.touch req).serve env (storeAfter s run)).1 = .ok answer) ∧
      (∀ answer, ((Touch.touch req).serve env (storeAfter s run)).1 = .ok answer →
        Touch.commits req env = true) ∧
      (Touch.commits req env = true →
        ∃ n, req.seenAt = some ⟨n⟩ ∧ ((Touch.touch req).serve env (storeAfter s run)).2 =
          { storeAfter s run with
            project := (storeAfter s run).project.map fun r =>
              if Touch.Named (storeAfter s run) req.paths r then
                { r with lastSeenAt := (r.lastSeenAt.toList ++ [n]).max? }
              else r }) ∧
      (∀ e, ((Touch.touch req).serve env (storeAfter s run)).1 = .error e →
        ((Touch.touch req).serve env (storeAfter s run)).2 = storeAfter s run ∨
          Touch.commits req env = true ∧ (env 4).fault = some .replyLost ∧ e.code = .internal) ∧
      (¬ Touch.Flushable req → ∃ e, e.code = .invalidArgument ∧
        (Touch.touch req).serve env (storeAfter s run) = (.error e, storeAfter s run)) := by
  have hs' := storeAfter_schema run hs
  refine ⟨fun r' hr' => ?_, fun r hr => ⟨lastSeen_eq hs hr, ?_⟩, fun run' i h => ?_, fun req env =>
    ⟨fun h hf => Touch.serve_answers hf h _, fun answer h => ?_, fun h => ?_, fun e h => ?_,
      fun h => Touch.serve_refused h env _⟩⟩
  · rw [← lastSeen_eq hs' hr']
    exact lastSeen_after run hs r'.id
  · obtain ⟨r', hr', hid, _⟩ := storeAfter_keeps run hs hr
    refine ⟨r', hr', hid, fun m hm => ?_⟩
    have hlast := lastSeen_after run hs r.id
    rw [← hid, lastSeen_eq hs' hr', hid, lastSeen_eq hs hr, hm] at hlast
    cases hr'm : r'.lastSeenAt with
    | none => cases (latest_eq_none.1 (hlast.symm.trans hr'm)).1
    | some m' => exact ⟨m', rfl, (latest_eq_some.1 (hlast.symm.trans hr'm)).2 m (.inl rfl)⟩
  · rw [lastSeen_after run' hs, lastSeen_after run hs]
    exact latest_congr h
  · cases hc : Touch.commits req env with
    | true => rfl
    | false =>
      obtain ⟨e, he⟩ := Touch.serve_unchanged hs' hc
      rw [he] at h
      cases h
  · obtain ⟨_, n, hseen, hstore, _⟩ := Touch.serve_advances hs' h
    exact ⟨n, hseen, hstore⟩
  · cases hc : Touch.commits req env with
    | false =>
      obtain ⟨e', he⟩ := Touch.serve_unchanged hs' hc
      rw [he]
      exact .inl rfl
    | true =>
      obtain ⟨_, _, _, _, hlost⟩ := Touch.serve_advances hs' hc
      exact .inr ⟨rfl, hlost e h⟩

end

section
open scoped Reference

/-- A flush of one former path at a moment. -/
def flushOld (n : Int) : TouchProjectsRequest := ⟨some ⟨ada, []⟩, ["OLD".toList], some ⟨n⟩⟩

/-- A flush, a sync and a late flush. -/
def flushesRenamed : Run :=
  [(.touch (flushOld 7), fun n => .quiet 1 n), (.sync (some syncCaller) acmeOnly,
    fun n => .quiet 2 n), (.touch (flushOld 5), fun n => .quiet 3 n)]

theorem flushes_maximum_renamed :
    ∃ r ∈ (storeAfter Read.renamed flushesRenamed).project, r.lastSeenAt = some 7 := by
  obtain ⟨hmax, hstays, _⟩ := flushes_maximum renamed_schema flushesRenamed
  obtain ⟨_, r, hr, hid, _⟩ := hstays Read.acmeRoot List.mem_cons_self
  have hmoments : ((lastSeen Read.renamed Read.acmeRoot.id).toList ++
      moments Read.acmeRoot.id Read.renamed flushesRenamed).max? = some 7 := by
    decide +kernel
  have hseen := hmax r hr
  rw [hid] at hseen
  exact ⟨r, hr, hseen.trans hmoments⟩

end

end ProjectDb
