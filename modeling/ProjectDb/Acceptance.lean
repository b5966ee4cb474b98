import ProjectDb.Totality
import ProjectDb.Convergence

namespace ProjectDb.Sync
open Text ProjectDb.Path Grants Mvcc
set_option autoImplicit true

theorem guard_code (h : guard archiving active allowed = .error e) :
    e.code = .failedPrecondition := by
  unfold guard at h
  split at h
  · cases h
  · cases h
    rfl

theorem revokeGuard_code (h : revokeGuard deleting stored allowed = .error e) :
    e.code = .failedPrecondition := by
  unfold revokeGuard at h
  split at h
  · cases h
  · cases h
    rfl

/-- The code of the first condition of the store a declaration fails. -/
def refusal (s : Store) (declared : List Declared) (guards : Guards) : Option Code :=
  if ∃ d ∈ declared, ∃ a ∈ s.projectAlias, FoldsOnto d.path a.aliasPath then some .alreadyExists
  else if ¬ (guards.allowMassArchive = true ∨
      2 * (archivable s declared).length ≤ s.orgRows.countP isActiveRow) then
    some .failedPrecondition
  else if ¬ (guards.allowMassRevoke = true ∨
      2 * (revocable s declared).length ≤ (orgGrants s).length) then
    some .failedPrecondition
  else none

theorem refusal_eq_none {guards : Guards} :
    refusal s declared guards = none ↔ Accepted s declared guards := by
  unfold refusal
  by_cases haliased : ∃ d ∈ declared, ∃ a ∈ s.projectAlias, FoldsOnto d.path a.aliasPath
  · simp only [haliased, ↓reduceIte, reduceCtorEq, false_iff]
    intro h
    obtain ⟨d, hd, a, ha, hfold⟩ := haliased
    exact h.unaliased d hd a ha hfold
  by_cases harchive : guards.allowMassArchive = true ∨
      2 * (archivable s declared).length ≤ s.orgRows.countP isActiveRow
  · by_cases hrevoke : guards.allowMassRevoke = true ∨
        2 * (revocable s declared).length ≤ (orgGrants s).length
    · simp only [haliased, harchive, hrevoke, not_true_eq_false, ↓reduceIte, true_iff]
      exact ⟨fun d hd a ha hfold => haliased ⟨d, hd, a, ha, hfold⟩, harchive, hrevoke⟩
    · simp only [haliased, harchive, hrevoke, not_true_eq_false, not_false_eq_true, ↓reduceIte,
        reduceCtorEq, false_iff]
      exact fun h => hrevoke h.revoke
  · simp only [haliased, harchive, not_false_eq_true, ↓reduceIte, reduceCtorEq, false_iff]
    exact fun h => harchive h.archive

/-- The code of the first condition a sync fails, or nothing when it meets them all. -/
def verdict (s : Store) (caller : Option Str) (req : SyncProjectsRequest) : Option Code :=
  if caller ≠ some syncCaller then some .permissionDenied
  else if ¬ ∃ scope ∈ req.scope, 1 ≤ scope.userId.length ∧ scope.userId.length ≤ 64 then
    some .invalidArgument
  else
    match validate req with
    | .error _ => some .invalidArgument
    | .ok declared => refusal s declared ⟨req.allowMassArchive, req.allowMassRevoke⟩

theorem admitted_eq (caller : Option Str) (scope : Option Scope) :
    (caller ≠ some syncCaller ∧ ∃ e, admitted caller scope = .error e ∧
        e.code = .permissionDenied) ∨
      (caller = some syncCaller ∧
        (¬ ∃ sc ∈ scope, 1 ≤ sc.userId.length ∧ sc.userId.length ≤ 64) ∧
        ∃ e, admitted caller scope = .error e ∧ e.code = .invalidArgument) ∨
      (caller = some syncCaller ∧ ∃ sc ∈ scope, admitted caller scope = .ok sc.userId ∧
        1 ≤ sc.userId.length ∧ sc.userId.length ≤ 64) := by
  unfold admitted admitCaller
  by_cases hc : caller = some syncCaller
  · refine .inr ?_
    simp only [hc, ↓reduceIte, true_and]
    cases scope with
    | none =>
      refine .inl ⟨?_, _, rfl, rfl⟩
      rintro ⟨sc, h, _⟩
      cases h
    | some sc =>
      by_cases hl : sc.userId.length = 0 ∨ sc.userId.length > maxPrincipalChars
      · refine .inl ⟨?_, ?_⟩
        · rintro ⟨sc', h, h₁, h₂⟩
          cases h
          rcases hl with hl | hl
          · omega
          · exact Nat.not_le_of_gt hl h₂
        · simp only [principal, hl, ↓reduceIte]
          exact ⟨_, rfl, rfl⟩
      · refine .inr ⟨sc, rfl, ?_, ?_⟩
        · simp only [principal, hl, ↓reduceIte]
          rfl
        · rw [not_or] at hl
          exact ⟨Nat.one_le_iff_ne_zero.2 hl.1, Nat.le_of_not_gt hl.2⟩
  · refine .inl ⟨hc, ?_⟩
    simp only [hc, ↓reduceIte]
    exact ⟨_, rfl, rfl⟩

variable [ServerCollation] {env : Nat → Tick}

theorem refuseAliases_eval (hf : Faultless env) (declared : List Declared) (w : Store × Nat) :
    ((∃ d ∈ declared, ∃ a ∈ w.1.projectAlias, FoldsOnto d.path a.aliasPath) ∧
        ∃ e, (refuseAliases declared).eval env w = (.error e, (w.1, w.2 + 1)) ∧
          e.code = .alreadyExists) ∨
      ((∀ d ∈ declared, ∀ a ∈ w.1.projectAlias, ¬ FoldsOnto d.path a.aliasPath) ∧
        (refuseAliases declared).eval env w = (.ok (), (w.1, w.2 + 1))) := by
  have hq : (Txn.query (.selectAliasIn (declared.map Declared.path))).eval env w =
      (.ok ((env w.2).order ((w.1.projectAlias.filter fun a =>
        pathIn a.aliasPath (declared.map Declared.path)).map AliasRow.aliasPath)).head?,
        (w.1, w.2 + 1)) := Txn.eval_read hf rfl
  have hp := (env w.2).order_perm ((w.1.projectAlias.filter fun a =>
    pathIn a.aliasPath (declared.map Declared.path)).map AliasRow.aliasPath)
  unfold refuseAliases
  rw [Txn.eval_bind_of_ok hq]
  cases hfound : (env w.2).order ((w.1.projectAlias.filter fun a =>
      pathIn a.aliasPath (declared.map Declared.path)).map AliasRow.aliasPath) with
  | nil =>
    refine .inr ⟨fun d hd a ha hfold => ?_, rfl⟩
    rw [hfound] at hp
    have hmem : a.aliasPath ∈ (w.1.projectAlias.filter fun a =>
        pathIn a.aliasPath (declared.map Declared.path)).map AliasRow.aliasPath := by
      apply List.mem_map_of_mem
      refine List.mem_filter.2 ⟨ha, List.any_eq_true.2 ⟨d.path, List.mem_map_of_mem hd, ?_⟩⟩
      exact (eqIgnoreAsciiCase_iff _ _).2 hfold.symm
    rw [← hp.mem_iff] at hmem
    cases hmem
  | cons found rest =>
    rw [hfound] at hp
    obtain ⟨a, ha, rfl⟩ := List.mem_map.1 (hp.mem_iff.1 List.mem_cons_self)
    obtain ⟨ha, hin⟩ := List.mem_filter.1 ha
    obtain ⟨path, hpath, hfold⟩ := List.any_eq_true.1 hin
    obtain ⟨d, hd, rfl⟩ := List.mem_map.1 hpath
    exact .inl ⟨⟨d, hd, a, ha, ((eqIgnoreAsciiCase_iff _ _).1 hfold).symm⟩, _, rfl, rfl⟩

/-- What a sync does once both guards have let it through. -/
def writing (declared : List Declared) (actor : Str) (stored : List Stored)
    (plan : GrantPlan) : Txn SyncProjectsResponse := do
  let (response, ids) ← writeAll (byKey stored) actor declared .default []
  archive (toArchive declared stored) actor
  Grants.write plan ids
  pure { response with
    archived := (toArchive declared stored).length
    grantsDeclared := (declared.map fun d => d.grants.length).sum
    grantsInserted := plan.inserts.length
    grantsDeleted := plan.deletes.length
    grantsUnchanged := plan.unchanged }

/-- What a sync does once it has read the rows and found no alias in its way. -/
def deciding (declared : List Declared) (actor : Str) (guards : Guards) (stored : List Stored) :
    Txn SyncProjectsResponse := do
  Txn.ofExcept (guard (toArchive declared stored).length (stored.filter isActive).length
    guards.allowMassArchive)
  let storedGrants ← Txn.query .selectOrgGrants
  let plan := Grants.plan declared storedGrants
  Txn.ofExcept (revokeGuard plan.deletes.length storedGrants.length guards.allowMassRevoke)
  writing declared actor stored plan

/-- Up to its first write, a transaction decides by the alias check and the two guards. -/
theorem apply_decides (hf : Faultless env) (declared : List Declared) (actor : Str)
    (guards : Guards) (w : Store × Nat) :
    (∃ code, refusal w.1 declared guards = some code ∧
      ∃ e w', (apply declared actor guards).eval env w = (.error e, w') ∧ e.code = code) ∨
    (refusal w.1 declared guards = none ∧ ∃ stored grants,
      stored.Perm (w.1.orgRows.map Stored.of) ∧ grants.Perm (orgGrants w.1) ∧
      (apply declared actor guards).eval env w =
        (writing declared actor stored (Grants.plan declared grants)).eval env
          (w.1, w.2 + 4)) := by
  have hlock : (Txn.query .selectSyncLockForUpdate).eval env w = (.ok (), (w.1, w.2 + 1)) :=
    Txn.eval_read hf rfl
  have hread : (Txn.query .selectOrgProjects).eval env (w.1, w.2 + 1) =
      (.ok ((env (w.2 + 1)).order (w.1.orgRows.map Stored.of)), (w.1, w.2 + 2)) :=
    Txn.eval_read hf rfl
  have hgrants : (Txn.query .selectOrgGrants).eval env (w.1, w.2 + 3) =
      (.ok ((env (w.2 + 3)).order (orgGrants w.1)), (w.1, w.2 + 4)) := Txn.eval_read hf rfl
  have hp := (env (w.2 + 1)).order_perm (w.1.orgRows.map Stored.of)
  have hpg := (env (w.2 + 3)).order_perm (orgGrants w.1)
  generalize (env (w.2 + 1)).order (w.1.orgRows.map Stored.of) = stored at hread hp
  generalize (env (w.2 + 3)).order (orgGrants w.1) = grants at hgrants hpg
  have harch : (toArchive declared stored).length = (archivable w.1 declared).length := by
    rw [(toArchive_perm hp).length_eq, List.length_map]
  have happly : (apply declared actor guards).eval env w =
      (refuseAliases declared >>= fun _ => deciding declared actor guards stored).eval env
        (w.1, w.2 + 2) := (Txn.eval_bind_of_ok hlock).trans (Txn.eval_bind_of_ok hread)
  rw [happly]
  rcases refuseAliases_eval hf declared (w.1, w.2 + 2) with ⟨haliased, e, he, hcode⟩ | ⟨hfree, hok⟩
  · refine .inl ⟨.alreadyExists, ?_, e, _, Txn.eval_bind_of_error he, hcode⟩
    simp only [refusal, haliased, ↓reduceIte]
  · have hna : ¬ ∃ d ∈ declared, ∃ a ∈ w.1.projectAlias, FoldsOnto d.path a.aliasPath :=
      fun ⟨d, hd, a, ha, hfold⟩ => hfree d hd a ha hfold
    rw [Txn.eval_bind_of_ok hok]
    unfold deciding
    cases hguard : guard (toArchive declared stored).length (stored.filter isActive).length
        guards.allowMassArchive with
    | error e =>
      refine .inl ⟨.failedPrecondition, ?_, e, _,
        Txn.eval_bind_of_error (Txn.eval_ofExcept _ _), guard_code hguard⟩
      have harchive : ¬ (guards.allowMassArchive = true ∨
          2 * (archivable w.1 declared).length ≤ w.1.orgRows.countP isActiveRow) := by
        rw [← activeCount_eq hp, ← harch, ← guard_ok_iff, hguard]
        exact fun h => by cases h
      simp only [refusal, hna, harchive, not_false_eq_true, ↓reduceIte]
    | ok u =>
      have harchive := (guard_ok_iff _ _ _).1 hguard
      rw [harch, activeCount_eq hp] at harchive
      rw [Txn.eval_bind_of_ok (Txn.eval_ofExcept _ _), Txn.eval_bind_of_ok hgrants]
      cases hrevoke : revokeGuard (Grants.plan declared grants).deletes.length grants.length
          guards.allowMassRevoke with
      | error e =>
        refine .inl ⟨.failedPrecondition, ?_, e, (w.1, w.2 + 4), ?_, revokeGuard_code hrevoke⟩
        · have hrevoked : ¬ (guards.allowMassRevoke = true ∨
              2 * (revocable w.1 declared).length ≤ (orgGrants w.1).length) := by
            rw [← deletes_length hpg, ← hpg.length_eq, ← revokeGuard_ok_iff, hrevoke]
            exact fun h => by cases h
          simp only [refusal, hna, harchive, hrevoked, not_true_eq_false, not_false_eq_true,
            ↓reduceIte]
        · simp only [hrevoke]
          exact Txn.eval_bind_of_error (Txn.eval_ofExcept _ _)
      | ok u =>
        have hrevoked := (revokeGuard_ok_iff _ _ _).1 hrevoke
        rw [deletes_length hpg, hpg.length_eq] at hrevoked
        refine .inr ⟨refusal_eq_none.2 ⟨hfree, harchive, hrevoked⟩, stored, grants, hp, hpg, ?_⟩
        simp only [hrevoke]
        exact Txn.eval_bind_of_ok (Txn.eval_ofExcept _ _)

theorem writing_succeeds {w : Store × Nat} (hf : Faultless env) (hd : Sound declared)
    (hs : w.1.Schema) (hfresh : Fresh env projectIdPrefix w.2 n w.1)
    (hroom : w.2 + 2 * declared.length ≤ n) (hactor : actor.length ≤ 64)
    (hp : stored.Perm (w.1.orgRows.map Stored.of)) (hpg : grants.Perm (orgGrants w.1)) :
    Txn.Succeeds env (writing declared actor stored (Grants.plan declared grants)) w := by
  have hm : ∀ d ∈ declared, (byKey stored).get d.key = (w.1.rowAt d.key).map Stored.of :=
    fun d _ => get_byKey hs.path_key hp d.key
  refine Txn.Succeeds.bind (writeAll_succeeds hf hs hfresh hroom hd hactor hm) ?_
  rintro ⟨response, ids⟩ w₁ h₁
  obtain ⟨hup, _⟩ := writeAll_ok hd hs hm h₁
  have hs₁ := schema_of_eval hs h₁
  refine Txn.Succeeds.bind (archive_succeeds hf hs₁ hactor _) fun _ w₂ h₂ => ?_
  have hs₂ := schema_of_eval hs₁ h₂
  obtain ⟨now, hw₂⟩ := archive_ok h₂
  have hrows := settled_rows hs hs₁ hup.rows (toArchive_perm hp) now
  have hproject : w₂.1.project = updateRows (fun r => (toArchive declared stored).contains r.id)
      (.archived ProjectStatus.archived.toI8 actor now) w₁.1.project := congrArg Store.project hw₂
  rw [← hproject] at hrows
  refine Txn.Succeeds.bind ?_ fun _ _ _ => .pure _
  apply write_succeeds hf hd hs hs₂ hpg
  · intro r hr
    obtain ⟨r', hr', hset⟩ := hrows.mem_left hr
    exact ⟨r', hr', hset.id_eq, hset.path_eq, hset.isOrg_eq⟩
  · intro d hdm
    obtain ⟨r, hr, hn, hid⟩ := hup.named d hdm
    rw [hproject]
    refine ⟨_, mem_updateRows.2 ⟨r, hr, rfl⟩, ?_⟩
    split
    · exact ⟨hn, hid⟩
    · exact ⟨hn, hid⟩
  · rw [hw₂]
    exact hup.grants

/-- Without engine errors a sync answers by its verdict. -/
theorem sync_decides {s : Store} {req : SyncProjectsRequest} (hs : s.Schema) (hf : Faultless env)
    (hfresh : Fresh env projectIdPrefix 0 (6 + 2 * (rows req).length) s) (caller : Option Str) :
    match verdict s caller req with
    | none => ∃ response s', (syncAs caller req).serve env s = (.ok response, s')
    | some code => ∃ e, (syncAs caller req).serve env s = (.error e, s) ∧ e.code = code := by
  unfold verdict
  rcases admitted_eq caller req.scope with ⟨hc, e, ha, hcode⟩ | ⟨hc, hn, e, ha, hcode⟩ |
    ⟨hc, sc, hsc, ha, hlo, hhi⟩
  · simp only [hc, ↓reduceIte, ne_eq, not_false_eq_true]
    refine ⟨e, ?_, hcode⟩
    unfold Rpc.serve syncAs
    rw [ha, Rpc.eval_bind_of_error (Rpc.eval_ofExcept _ _)]
  · simp only [hc, ne_eq, not_true_eq_false, ↓reduceIte, hn, not_false_eq_true]
    refine ⟨e, ?_, hcode⟩
    subst hc
    unfold Rpc.serve syncAs
    rw [ha, Rpc.eval_bind_of_error (Rpc.eval_ofExcept _ _)]
  · have hex : ∃ scope ∈ req.scope, 1 ≤ scope.userId.length ∧ scope.userId.length ≤ 64 :=
      ⟨sc, hsc, hlo, hhi⟩
    simp only [hc, ne_eq, not_true_eq_false, ↓reduceIte, hex]
    subst hc
    cases hv : validate req with
    | error e =>
      refine ⟨e, ?_, validate_code hv⟩
      unfold Rpc.serve syncAs
      rw [ha, Rpc.eval_bind_of_ok (Rpc.eval_ofExcept _ _), hv,
        Rpc.eval_bind_of_error (Rpc.eval_ofExcept _ _)]
    | ok declared =>
      obtain ⟨hw, rfl⟩ := (validate_ok_iff req).1 hv
      simp only
      rw [serve_syncAs_faultless hf ha hw]
      rcases apply_decides hf (rows req) sc.userId ⟨req.allowMassArchive, req.allowMassRevoke⟩
        (s, 2) with ⟨code, hcode, e, w', he, rfl⟩ | ⟨hnone, stored, grants, hp, hpg, heval⟩
      · simp only [hcode, he]
        exact ⟨e, rfl, rfl⟩
      · have hfresh₆ : Fresh env projectIdPrefix 6 (6 + 2 * (rows req).length) s :=
          hfresh.mono (Nat.zero_le 6) fun r hr => ⟨r, hr, rfl⟩
        obtain ⟨response, w', hok⟩ := writing_succeeds (w := (s, 6)) hf (validation_sound hw) hs
          hfresh₆ (Nat.le_refl _) hhi hp hpg
        simp only [hnone, heval, hok]
        exact ⟨response, _, rfl⟩

omit [ServerCollation] in
theorem verdict_eq_none {s : Store} {req : SyncProjectsRequest} :
    verdict s caller req = none ↔ caller = some syncCaller ∧
      (∃ scope ∈ req.scope, 1 ≤ scope.userId.length ∧ scope.userId.length ≤ 64) ∧
      ∃ declared, validate req = .ok declared ∧
        Accepted s declared ⟨req.allowMassArchive, req.allowMassRevoke⟩ := by
  unfold verdict
  by_cases hc : caller = some syncCaller
  · by_cases hscope : ∃ scope ∈ req.scope, 1 ≤ scope.userId.length ∧ scope.userId.length ≤ 64
    · simp only [hc, hscope, ne_eq, not_true_eq_false, ↓reduceIte, true_and]
      cases validate req with
      | error e => simp only [reduceCtorEq, false_and, exists_false]
      | ok declared =>
        simp only [refusal_eq_none, Except.ok.injEq, exists_eq_left']
    · simp only [hc, hscope, ne_eq, not_true_eq_false, not_false_eq_true, ↓reduceIte, reduceCtorEq,
        false_and, and_false]
  · simp only [hc, ne_eq, not_false_eq_true, ↓reduceIte, reduceCtorEq, false_and]

/-- A sync answers Ok exactly when the caller, the request and the store meet every condition,
and otherwise with the code of the first condition failed. Whatever fails and wherever, an error
leaves every table as it was, unless all of `apply` went through, the server executed the `COMMIT`
and its reply alone was lost: then the error is internal and every table is as `apply` left it. -/
theorem sync_all_or_nothing {s : Store} {req : SyncProjectsRequest} (hs : s.Schema)
    (caller : Option Str) (env : Nat → Tick) :
    (Faultless env → Fresh env projectIdPrefix 0 (6 + 2 * (rows req).length) s →
      ((∃ response, ((syncAs caller req).serve env s).1 = .ok response) ↔
        caller = some syncCaller ∧
        (∃ scope ∈ req.scope, 1 ≤ scope.userId.length ∧ scope.userId.length ≤ 64) ∧
        ∃ declared, validate req = .ok declared ∧
          Accepted s declared ⟨req.allowMassArchive, req.allowMassRevoke⟩) ∧
      ∀ code, verdict s caller req = some code →
        ∃ e, ((syncAs caller req).serve env s).1 = .error e ∧ e.code = code) ∧
    (∀ e, ((syncAs caller req).serve env s).1 = .error e →
      ((syncAs caller req).serve env s).2 = s ∨
      e.code = .internal ∧ Unacked req env s ((syncAs caller req).serve env s).2) := by
  refine ⟨fun hf hfresh => ?_, fun e h => ?_⟩
  · have h := sync_decides hs hf hfresh caller
    rw [← verdict_eq_none]
    cases hv : verdict s caller req with
    | none =>
      rw [hv] at h
      obtain ⟨response, s', hok⟩ := h
      exact ⟨⟨fun _ => rfl, fun _ => ⟨response, by rw [hok]⟩⟩, fun _ hc => by cases hc⟩
    | some code =>
      rw [hv] at h
      obtain ⟨e, he, hcode⟩ := h
      rw [he]
      refine ⟨⟨?_, fun hc => by cases hc⟩, ?_⟩
      · rintro ⟨response, hok⟩
        cases hok
      · intro c hc
        cases hc
        exact ⟨e, rfl, hcode⟩
  · rcases serve_syncAs caller req env s with
      ⟨_, he⟩ | ⟨actor, response, s', n, _, _, happly, hserve⟩
    · rw [he]
      exact .inl rfl
    · rw [hserve] at h ⊢
      obtain ⟨hlost, rfl⟩ := Tick.acked_error h
      exact .inr ⟨rfl, actor, response, n, happly, hlost⟩

omit [ServerCollation] in
theorem quiet_fresh : Fresh (fun n => .quiet 1 n) projectIdPrefix 0 (6 + 2 * (rows acmeOnly).length)
    strayStore where
  distinct := by
    have h : ∀ i < 8, ∀ j < 8, uuidOf i = uuidOf j → i = j := by decide
    rintro i ⟨_, hi⟩ j ⟨_, hj⟩ he
    exact h i hi j hj he
  unused := by
    have h : ∀ i < 8, ∀ r ∈ strayStore.project, r.id ≠ projectIdPrefix ++ uuidOf i := by decide
    rintro i ⟨_, hi⟩
    exact h i hi

omit [ServerCollation] in
theorem sync_all_or_nothing_acme :
    letI := ServerCollation.ascii
    ∃ response, ((syncAs (some syncCaller) acmeOnly).serve (fun n => .quiet 1 n) strayStore).1 =
      .ok response := by
  let _ := ServerCollation.ascii
  have h := (sync_all_or_nothing strayStore_schema (some syncCaller) fun n => .quiet 1 n).1
    (fun _ => rfl) quiet_fresh
  apply h.1.2
  exact ⟨rfl, ⟨_, rfl, by decide, by decide⟩, _, rfl, ⟨by decide, by decide, by decide⟩⟩

omit [ServerCollation] in
/-- The `COMMIT` of a sync is executed and its reply is lost: an error, and a row more. -/
theorem sync_reply_lost :
    letI := ServerCollation.ascii
    let served := (syncAs (some syncCaller) acmeOnly).serve
      (fun n => { Tick.quiet 1 n with fault := if n = 9 then some .replyLost else none })
      Store.empty
    (∃ e, served.1 = .error e) ∧ served.2.project ≠ Store.empty.project := by
  refine ⟨⟨.internal ["storage error"], ?_⟩, ?_⟩ <;> decide +kernel

end ProjectDb.Sync
