import ProjectDb.Converge
import ProjectDb.Register
import ProjectDb.Touch

namespace ProjectDb
open Text ProjectDb.Path Mvcc
set_option autoImplicit true

/-- The tables a registration's ledger statements leave alone. -/
structure SameTables (s s' : Store) : Prop where
  project : s'.project = s.project
  grants : s'.projectGrant = s.projectGrant
  aliases : s'.projectAlias = s.projectAlias

theorem SameTables.refl (s : Store) : SameTables s s := ⟨rfl, rfl, rfl⟩

theorem SameTables.trans (h : SameTables a b) (h' : SameTables b c) : SameTables a c :=
  ⟨h'.project.trans h.project, h'.grants.trans h.grants, h'.aliases.trans h.aliases⟩

variable [ServerCollation] {env : Nat → Tick}

namespace Rpc

theorem eval_acquire_ok {c : Conn Store} (h : acquire.eval env c = (.ok u, c')) :
    (env c.count).fault = none := by
  cases hf : (env c.count).fault with
  | none => rfl
  | some f =>
    have hcontrol : engine.control (env c.count) = .error (.fault f) := by
      simp only [Rules.control, engine, hf, Option.map_some]
    unfold acquire eval at h
    simp only [ExceptT.run_mk, Prog.run, Rules.serve, hcontrol] at h
    cases f <;> cases h

theorem eval_open {s : Store} {k : Rpc α} {r : Except Status α × Conn Store}
    (h : (do acquire; begin; k : Rpc α).eval env ⟨s, none, 0⟩ = r) :
    ¬ ((env 0).fault = none ∧ (env 1).fault = none) ∧ (∃ e, r.1 = .error e) ∧ r.2.store = s ∨
      ((env 0).fault = none ∧ (env 1).fault = none) ∧ k.eval env ⟨s, some s, 2⟩ = r := by
  have hc : (acquire.eval env ⟨s, none, 0⟩).2 = _ := eval_acquire_conn ⟨s, none, 0⟩
  rcases eval_bind_cases h with ⟨e, c, hx, rfl⟩ | ⟨_, c, hx, h⟩
  · refine .inl ⟨fun hf => ?_, ⟨e, rfl⟩, ?_⟩
    · have hacquire : acquire.eval env ⟨s, none, 0⟩ = _ := eval_acquire hf.1
      rw [hx] at hacquire
      cases hacquire
    · rw [hx] at hc
      exact congrArg Conn.store hc
  · have hfirst := eval_acquire_ok hx
    rw [hx] at hc
    subst hc
    rcases eval_bind_cases h with ⟨e, c, hx, rfl⟩ | ⟨_, c, hx, h⟩
    · rw [eval_begin] at hx
      split at hx
      · rename_i f hf
        cases hx
        exact .inl ⟨fun hnone => (Option.some_ne_none f) (hf.symm.trans hnone.2), ⟨_, rfl⟩, rfl⟩
      · cases hx
    · rw [eval_begin] at hx
      split at hx
      · cases hx
      · rename_i hf
        cases hx
        exact .inr ⟨⟨hfirst, hf⟩, h⟩

theorem eval_open_faultless (hf : Faultless env) (s : Store) (k : Rpc α) :
    (do acquire; begin; k : Rpc α).eval env ⟨s, none, 0⟩ = k.eval env ⟨s, some s, 2⟩ := by
  have hb : begin.eval env ⟨s, none, 1⟩ = (.ok (), ⟨s, some s, 2⟩) := by
    rw [eval_begin, hf]
  rw [eval_bind_of_ok (eval_acquire (hf 0)), eval_bind_of_ok hb]

end Rpc

namespace Sync

theorem transact_cases {s : Store}
    (h : (transact declared actor guards).eval env ⟨s, some s, n⟩ = r) :
    (∃ e, r.1 = .error e) ∧ r.2.store = s ∨ ∃ response s' m,
      (apply declared actor guards).eval env (s, n) = (.ok response, (s', m)) ∧
        r = ((env m).acked response, ⟨s', none, m + 1⟩) := by
  unfold transact at h
  rw [Rpc.eval_bind_of_ok (Rpc.eval_inTxn _ s s n)] at h
  rcases happly : (apply declared actor guards).eval env (s, n) with ⟨x, s', m⟩
  rw [happly] at h
  cases x with
  | ok response =>
    rcases Rpc.eval_commit_cases h with ⟨_, e, rfl⟩ | ⟨_, rfl⟩
    · exact .inl ⟨⟨e, rfl⟩, rfl⟩
    · exact .inr ⟨response, s', m, rfl, rfl⟩
  | error refusal =>
    rcases Rpc.eval_rollback_cases h with ⟨e, rfl⟩ | rfl
    · exact .inl ⟨⟨e, rfl⟩, rfl⟩
    · exact .inl ⟨⟨refusal, rfl⟩, rfl⟩

/-- A sync answers an error and changes nothing, or is applied and committed whole. -/
theorem serve_syncAs (caller : Option Str) (req : SyncProjectsRequest) (env : Nat → Tick)
    (s : Store) :
    (∃ e, (syncAs caller req).serve env s = (.error e, s)) ∨
      ∃ actor response s' n, admitted caller req.scope = .ok actor ∧ WellFormed req ∧
        (apply (rows req) actor ⟨req.allowMassArchive, req.allowMassRevoke⟩).eval env (s, 2) =
          (.ok response, (s', n)) ∧
        (syncAs caller req).serve env s = ((env n).acked response, s') := by
  unfold Rpc.serve syncAs
  cases ha : admitted caller req.scope with
  | error e =>
    rw [Rpc.eval_bind_of_error (Rpc.eval_ofExcept _ _)]
    exact .inl ⟨e, rfl⟩
  | ok actor =>
    rw [Rpc.eval_bind_of_ok (Rpc.eval_ofExcept _ _)]
    cases hv : validate req with
    | error e =>
      rw [Rpc.eval_bind_of_error (Rpc.eval_ofExcept _ _)]
      exact .inl ⟨e, rfl⟩
    | ok declared =>
      obtain ⟨hw, rfl⟩ := (validate_ok_iff req).1 hv
      rw [Rpc.eval_bind_of_ok (Rpc.eval_ofExcept _ _)]
      rcases Rpc.eval_open (s := s) (k := Rpc.closing (transact (rows req) actor
        ⟨req.allowMassArchive, req.allowMassRevoke⟩)) rfl with ⟨_, ⟨e, he⟩, hstore⟩ | ⟨_, hr⟩
      · exact .inl ⟨e, Prod.ext he hstore⟩
      · rw [← hr, Rpc.eval_closing]
        rcases transact_cases (s := s) (n := 2) rfl with
          ⟨⟨e, he⟩, hstore⟩ | ⟨response, s', n, happly, hcommit⟩
        · exact .inl ⟨e, Prod.ext he hstore⟩
        · rw [hcommit]
          exact .inr ⟨actor, response, s', n, rfl, hw, happly, rfl⟩

/-- All of a sync's transaction was executed, and only the reply to its `COMMIT` was lost. -/
def Unacked (req : SyncProjectsRequest) (env : Nat → Tick) (s s' : Store) : Prop :=
  ∃ actor response n,
    (apply (rows req) actor ⟨req.allowMassArchive, req.allowMassRevoke⟩).eval env (s, 2) =
      (.ok response, (s', n)) ∧
    (env n).fault = some .replyLost

theorem serve_syncAs_faultless (hf : Faultless env) {s : Store} {req : SyncProjectsRequest}
    (ha : admitted caller req.scope = .ok actor) (hw : WellFormed req) :
    (syncAs caller req).serve env s =
      match (apply (rows req) actor ⟨req.allowMassArchive, req.allowMassRevoke⟩).eval env (s, 2)
      with
      | (.ok response, (s', _)) => (.ok response, s')
      | (.error e, _) => (.error e, s) := by
  unfold Rpc.serve syncAs
  rw [ha, (validate_ok_iff req).2 ⟨hw, rfl⟩, Rpc.eval_bind_of_ok (Rpc.eval_ofExcept _ _),
    Rpc.eval_bind_of_ok (Rpc.eval_ofExcept _ _), Rpc.eval_open_faultless hf, Rpc.eval_closing]
  unfold transact
  rw [Rpc.eval_bind_of_ok (Rpc.eval_inTxn _ s s 2)]
  rcases (apply (rows req) actor ⟨req.allowMassArchive, req.allowMassRevoke⟩).eval env (s, 2)
    with ⟨r, s', n⟩
  cases r with
  | ok response =>
    simp only
    rw [Rpc.eval_commit_of_ok _ _ _ (hf n)]
    rfl
  | error e =>
    simp only
    rw [Rpc.eval_rollback_of_ok _ _ _ (hf n)]
    rfl

end Sync

namespace Touch

/-- The rows a flush advances. -/
def touches (s : Store) (paths : List Str) (seconds : Int) (r : ProjectRow) : Bool :=
  matchesPaths s paths r && r.lastSeenAt.all (· < seconds)

def touched (s : Store) (paths : List Str) (seconds : Int) : Store :=
  { s with project := updateRows (touches s paths seconds) (.seen seconds) s.project }

theorem contains_hits {s : Store} (hs : s.Schema) (p : ProjectRow → Bool) (hr : r ∈ s.project) :
    ((s.project.filter p).map ProjectRow.id).contains r.id = p r := by
  rw [Bool.eq_iff_iff, List.contains_iff_mem, List.mem_map]
  constructor
  · rintro ⟨r', hr', he⟩
    obtain ⟨hm, hp⟩ := List.mem_filter.1 hr'
    rwa [List.inj_on_of_nodup_map hs.id_key hm hr he] at hp
  · intro hp
    exact ⟨r, List.mem_filter.2 ⟨hr, hp⟩, rfl⟩

theorem updateLastSeen_ok {w : Store × Nat} (hs : w.1.Schema)
    (h : (Txn.query (.updateLastSeen seconds paths)).eval env w = (.ok (), w')) :
    w'.1 = touched w.1 paths seconds := by
  obtain ⟨ws, hx, rfl⟩ := Txn.eval_query_ok h
  cases hx
  have hrows := updateRows_congr (fun r hr => contains_hits hs (touches w.1 paths seconds) hr)
    (.seen seconds)
  exact congrArg (fun rows => ({ w.1 with project := rows } : Store)) hrows

/-- The number of rows that the paths resolve to. -/
def matched (s : Store) (paths : List Str) : Nat := (s.project.filter (matchesPaths s paths)).length

omit [ServerCollation] in
/-- The update moves no row out of the count made after it. -/
theorem matched_touched (s : Store) (paths : List Str) (seconds : Int) :
    matched (touched s paths seconds) paths = matched s paths := by
  have hrow : ∀ r : ProjectRow, matchesPaths (touched s paths seconds) paths
      (if touches s paths seconds r then r.seen seconds else r) = matchesPaths s paths r := by
    intro r
    split <;> rfl
  unfold matched
  rw [← List.countP_eq_length_filter, ← List.countP_eq_length_filter]
  exact List.countP_map.trans (List.countP_congr fun r _ => Bool.eq_iff_iff.1 (hrow r))

/-- The server executes the `COMMIT` of a flush, its fifth command. -/
def commits (req : TouchProjectsRequest) (env : Nat → Tick) : Bool :=
  (checked req).isOk && (List.range 4).all (fun n => (env n).fault.isNone) && (env 4).commits

omit [ServerCollation] in
theorem commits_iff (hc : checked req = .ok flush) : commits req env = true ↔
    ((env 0).fault = none ∧ (env 1).fault = none) ∧
      ((env 2).fault = none ∧ (env 3).fault = none) ∧ (env 4).commits = true := by
  unfold commits
  rw [hc]
  simp [Except.isOk, Except.toBool, List.range_succ, and_assoc]

theorem transact_cases {s : Store} (hs : s.Schema)
    (h : (transact seconds paths).eval env ⟨s, some s, 2⟩ = r) :
    ¬ (((env 2).fault = none ∧ (env 3).fault = none) ∧ (env 4).commits = true) ∧
        (∃ e, r.1 = .error e) ∧ r.2.store = s ∨
      (((env 2).fault = none ∧ (env 3).fault = none) ∧ (env 4).commits = true) ∧
        r.1 = (env 4).acked (matched s paths) ∧ r.2.store = touched s paths seconds := by
  rcases Rpc.eval_inTxn_cases h with ⟨e, w, m, hx, rfl⟩ | ⟨_, w, m, hx, h⟩
  · refine .inl ⟨fun hf => ?_, ⟨e, rfl⟩, rfl⟩
    rw [Txn.eval_query, hf.1.1] at hx
    cases hx
  · have hw := updateLastSeen_ok hs hx
    obtain ⟨hfirst, rfl⟩ := Txn.eval_query_fault hx
    rcases Rpc.eval_inTxn_cases h with ⟨e, w', m', hy, rfl⟩ | ⟨matched, w', m', hy, h⟩
    · refine .inl ⟨fun hf => ?_, ⟨e, rfl⟩, rfl⟩
      rw [Txn.eval_query, hf.1.2] at hy
      cases hy
    · obtain ⟨hsecond, rfl⟩ := Txn.eval_query_fault hy
      obtain ⟨ws, hy, he⟩ := Txn.eval_query_ok hy
      cases hy
      cases he
      rcases Rpc.eval_commit_cases h with ⟨hno, e, rfl⟩ | ⟨hyes, rfl⟩
      · exact .inl ⟨fun hf => Bool.false_ne_true (hno.symm.trans hf.2), ⟨e, rfl⟩, rfl⟩
      · refine .inr ⟨⟨⟨hfirst, hsecond⟩, hyes⟩, congrArg (env _).acked ?_, hw⟩
        rw [← matched_touched s paths seconds, ← hw]
        rfl

theorem serve_touch_cases (req : TouchProjectsRequest) (env : Nat → Tick) {s : Store}
    (hs : s.Schema) :
    commits req env = false ∧ (∃ e, (touch req).serve env s = (.error e, s)) ∨
      commits req env = true ∧ ∃ seconds paths, checked req = .ok (seconds, paths) ∧
        (touch req).serve env s = ((env 4).acked (⟨⟩, decide (matched s paths < paths.length)),
          touched s paths seconds) := by
  cases hc : checked req with
  | error e =>
    refine .inl ⟨by unfold commits; rw [hc]; rfl, e, ?_⟩
    unfold Rpc.serve touch
    rw [hc, Rpc.eval_bind_of_error (Rpc.eval_ofExcept _ _)]
  | ok flush =>
    obtain ⟨seconds, paths⟩ := flush
    rw [← Bool.not_eq_true, commits_iff hc]
    unfold Rpc.serve touch
    rw [hc, Rpc.eval_bind_of_ok (Rpc.eval_ofExcept _ _)]
    rcases Rpc.eval_open (s := s) (k := do
      let matched ← Rpc.closing (transact seconds paths)
      pure ((⟨⟩ : TouchProjectsResponse), decide (matched < paths.length))) rfl with
      ⟨hopen, ⟨e, he⟩, hstore⟩ | ⟨hopen, hr⟩
    · exact .inl ⟨fun h => hopen h.1, e, Prod.ext he hstore⟩
    · have ht := transact_cases hs (rfl : (transact seconds paths).eval env ⟨s, some s, 2⟩ = _)
      rcases Rpc.eval_bind_cases hr with ⟨e, c, hx, he⟩ | ⟨m, c, hx, he⟩
      · rw [Rpc.eval_closing] at hx
        obtain ⟨hanswer, rfl⟩ := Prod.mk.inj hx
        rw [hanswer] at ht
        rw [he]
        rcases ht with ⟨hno, _, hstore⟩ | ⟨hyes, ht, hstore⟩
        · exact .inl ⟨fun h => hno h.2, e, Prod.ext rfl hstore⟩
        · obtain ⟨hlost, rfl⟩ := Tick.acked_error ht.symm
          refine .inr ⟨⟨hopen, hyes⟩, seconds, paths, rfl, Prod.ext ?_ hstore⟩
          exact (if_pos hlost).symm
      · rw [Rpc.eval_closing] at hx
        obtain ⟨hanswer, rfl⟩ := Prod.mk.inj hx
        rw [hanswer] at ht
        rw [← he]
        rcases ht with ⟨_, ⟨_, ht⟩, _⟩ | ⟨hyes, ht, hstore⟩
        · cases ht
        · refine .inr ⟨⟨hopen, hyes⟩, seconds, paths, rfl, Prod.ext ?_ hstore⟩
          unfold Tick.acked at ht ⊢
          split_ifs at ht ⊢
          cases ht
          rfl

theorem serve_touch (req : TouchProjectsRequest) (env : Nat → Tick) {s : Store} (hs : s.Schema) :
    ((touch req).serve env s).2 = s ∨
      ∃ seconds paths, checked req = .ok (seconds, paths) ∧
        ((touch req).serve env s).2 = touched s paths seconds := by
  rcases serve_touch_cases req env hs with ⟨_, _, h⟩ | ⟨_, seconds, paths, hc, h⟩
  · exact .inl (congrArg Prod.snd h)
  · exact .inr ⟨seconds, paths, hc, congrArg Prod.snd h⟩

theorem serve_touch_faultless (hf : Faultless env) (hc : checked req = .ok (seconds, paths))
    (s : Store) : ∃ answer, ((touch req).serve env s).1 = .ok answer := by
  unfold Rpc.serve touch
  rw [hc, Rpc.eval_bind_of_ok (Rpc.eval_ofExcept _ _), Rpc.eval_open_faultless hf]
  have hupdate : (Txn.query (.updateLastSeen seconds paths)).eval env (s, 2) = _ :=
    Txn.eval_query_of_ok hf rfl
  have htransact : (transact seconds paths).eval env ⟨s, some s, 2⟩ = _ :=
    (Rpc.eval_inTxn_of_ok s hupdate).trans ((Rpc.eval_inTxn_of_ok s (Txn.eval_read hf rfl)).trans
      (Rpc.eval_commit_of_ok _ _ _ (hf _)))
  have hclosing : ∃ m c, (Rpc.closing (transact seconds paths)).eval env ⟨s, some s, 2⟩ =
      (.ok m, c) := by
    rw [Rpc.eval_closing, htransact]
    exact ⟨_, _, rfl⟩
  obtain ⟨m, c, hclosing⟩ := hclosing
  rw [Rpc.eval_bind_of_ok hclosing]
  exact ⟨_, rfl⟩

end Touch

namespace Idem

theorem replay_store [Message τ] {scope : Scope} {r : Except Status (Claimed τ)} {w : Store × Nat}
    (h : (replay scope rpc key fp).eval env w = (r, w')) : w'.1 = w.1 := by
  rcases Txn.eval_bind_cases h with ⟨e, w₁, hq, he⟩ | ⟨row, w₁, hq, h⟩
  · cases he
    rw [Txn.eval_query_error hq]
  · obtain ⟨ws, hx, rfl⟩ := Txn.eval_query_ok hq
    have hws : ws = [] := by
      simp only [Stmt.exec] at hx
      split at hx
      · cases hx
        rfl
      · cases hx
    subst hws
    split at h
    · cases h
      rfl
    · split at h
      · cases h
        rfl
      · split at h
        · cases h
          rfl
        · cases h
          rfl

theorem claim_tables [Sha256] [Message τ] {scope : Scope} {r : Except Status (Claimed τ)}
    {w : Store × Nat} (h : (claim scope rpc idem payload).eval env w = (r, w')) :
    SameTables w.1 w'.1 := by
  unfold claim at h
  cases hp : present idem with
  | none =>
    rw [hp] at h
    cases h
    exact .refl _
  | some key =>
    rw [hp] at h
    rcases Txn.eval_bind_cases h with ⟨e, w₁, hq, he⟩ | ⟨a, w₁, hq, h⟩
    · rcases Txn.eval_attempt_cases hq with ⟨_, hr, _⟩ | ⟨_, _, hr, _⟩ <;> cases hr
    · rcases Txn.eval_attempt_cases hq with ⟨e, hr, rfl⟩ | ⟨_, ws, hr, hx, rfl⟩
      · cases hr
        split at h
        · cases h
          exact .refl _
        · rw [replay_store h]
          exact .refl _
        · cases h
          exact .refl _
      · cases hr
        cases h
        simp only [Stmt.exec] at hx
        split at hx
        · cases hx
        · split at hx
          · cases hx
          · cases hx
            exact ⟨rfl, rfl, rfl⟩

theorem record_tables [Message τ] {scope : Scope} {response : τ} {w : Store × Nat}
    (h : (record scope idem response).eval env w = (.ok (), w')) : SameTables w.1 w'.1 := by
  unfold record at h
  cases hp : present idem with
  | none =>
    rw [hp] at h
    cases h
    exact .refl _
  | some key =>
    rw [hp] at h
    obtain ⟨ws, hx, rfl⟩ := Txn.eval_query_ok h
    simp only [Stmt.exec] at hx
    split at hx
    · cases hx
      exact ⟨rfl, rfl, rfl⟩
    · cases hx

end Idem

namespace Register

theorem aliasOwner_none {w : Store × Nat}
    (h : (aliasOwner path).eval env w = (.ok none, w')) :
    w'.1 = w.1 ∧ ∀ a ∈ w.1.projectAlias, ¬ FoldsOnto a.aliasPath path := by
  obtain ⟨ws, hx, rfl⟩ := Txn.eval_query_ok h
  have hreply := Except.ok.inj hx
  have hws : ws = [] := (congrArg Prod.snd hreply).symm
  have hnone : (w.1.projectAlias.find? fun a => eqIgnoreAsciiCase a.aliasPath path).map
      AliasRow.projectId = none := congrArg Prod.fst hreply
  subst hws
  refine ⟨rfl, fun a ha hf => ?_⟩
  have hfind := Option.map_eq_none_iff.1 hnone
  exact List.find?_eq_none.1 hfind a ha ((eqIgnoreAsciiCase_iff _ _).2 hf)

variable [UuidCrate] [Idem.Sha256] [Message RegisterProjectRequest]
  [Message RegisterProjectResponse]

/-- What a registration adds to the store. -/
structure Registered (req : RegisterProjectRequest) (scope : Scope) (cls : Class) (s s' : Store) :
    Prop where
  row : ∃ uuid now, s'.project =
    s.project ++ [(newRow (projectIdPrefix ++ uuid) req scope cls).row now]
  free : ∀ r ∈ s.project, ¬ FoldsOnto r.path req.path
  unaliased : ∀ a ∈ s.projectAlias, ¬ FoldsOnto a.aliasPath req.path
  grants : s'.projectGrant = s.projectGrant
  aliases : s'.projectAlias = s.projectAlias

omit [ServerCollation] [UuidCrate] [Idem.Sha256] [Message RegisterProjectRequest]
  [Message RegisterProjectResponse] in
theorem Registered.grown {req : RegisterProjectRequest} {s s' : Store}
    (h : Registered req scope cls s s') : Grown Eq
      (fun r => ∃ uuid now, r = (newRow (projectIdPrefix ++ uuid) req scope cls).row now)
      s.project s'.project := by
  obtain ⟨uuid, now, hrow⟩ := h.row
  rw [hrow]
  apply Grown.snoc fun _ => rfl
  exact ⟨uuid, now, rfl⟩

omit [UuidCrate] in
theorem transact_store {s : Store}
    (h : (transact req scope cls).eval env ⟨s, some s, n⟩ = r) :
    r.2.store = s ∨ Registered req scope cls s r.2.store := by
  unfold transact at h
  rcases Rpc.eval_inTxn_cases h with ⟨e, w₁, m₁, _, rfl⟩ | ⟨claimed, w₁, m₁, hclaim, h⟩
  · exact .inl rfl
  · have hsame := Idem.claim_tables hclaim
    cases claimed with
    | replay original =>
      rcases Rpc.eval_rollback_cases h with ⟨e, rfl⟩ | h
      · exact .inl rfl
      · subst h
        exact .inl rfl
    | proceed =>
      rcases Rpc.eval_inTxn_cases h with ⟨e, w₂, m₂, _, rfl⟩ | ⟨owner, w₂, m₂, halias, h⟩
      · exact .inl rfl
      · cases owner with
        | some owner =>
          rcases Rpc.eval_rollback_cases h with ⟨e, rfl⟩ | h
          · exact .inl rfl
          · subst h
            exact .inl rfl
        | none =>
          obtain ⟨hw₂, hfree⟩ := aliasOwner_none halias
          rcases Rpc.eval_inTxn_cases h with ⟨e, w₃, m₃, _, rfl⟩ | ⟨uuid, w₃, m₃, hu, h⟩
          · exact .inl rfl
          · rw [Txn.eval_nowV7] at hu
            cases hu
            rcases Rpc.eval_inTxn_cases h with ⟨e, w₄, m₄, _, rfl⟩ | ⟨inserted, w₄, m₄, hi, h⟩
            · exact .inl rfl
            · rcases Txn.eval_attempt_cases hi with ⟨e, hr, _⟩ | ⟨_, ws, hr, hx, hw₄⟩
              · cases hr
                rcases Rpc.eval_rollback_cases h with ⟨e, rfl⟩ | h
                · exact .inl rfl
                · subst h
                  refine .inl ?_
                  split <;> rfl
              · cases hr
                obtain ⟨_, hid, hpath, rfl⟩ := exec_insertProject_ok hx
                cases hw₄
                rcases Rpc.eval_inTxn_cases h with ⟨e, w₅, m₅, _, rfl⟩ | ⟨_, w₅, m₅, hrec, h⟩
                · exact .inl rfl
                · have hsame₅ := Idem.record_tables hrec
                  rcases Rpc.eval_commit_cases h with ⟨_, e, rfl⟩ | ⟨_, h⟩
                  · exact .inl rfl
                  · subst h
                    have hbase : SameTables s w₂ := by
                      have he : w₂ = w₁ := hw₂
                      rw [he]
                      exact hsame
                    refine .inr ⟨⟨(env m₂).uuid, (env (m₂ + 1)).now, ?_⟩, fun r hr => ?_,
                      fun a ha => ?_, hsame₅.grants.trans hbase.grants,
                      hsame₅.aliases.trans hbase.aliases⟩
                    · exact hsame₅.project.trans (congrArg (fun rows => rows ++ [_]) hbase.project)
                    · apply hpath r
                      rw [hbase.project]
                      exact hr
                    · apply hfree a
                      rw [hsame.aliases]
                      exact ha

/-- A registration leaves every table but the ledger alone, or adds one row. -/
theorem serve_registerAs (caller : Option Str) (req : RegisterProjectRequest) (env : Nat → Tick)
    (s : Store) :
    ((registerAs caller req).serve env s).2 = s ∨
      ∃ scope cls, checked req = .ok (scope, cls) ∧
        Registered req scope cls s ((registerAs caller req).serve env s).2 := by
  unfold Rpc.serve registerAs register
  cases admitCaller caller with
  | error e =>
    rw [Rpc.eval_bind_of_error (Rpc.eval_ofExcept _ _)]
    exact .inl rfl
  | ok u =>
    rw [Rpc.eval_bind_of_ok (Rpc.eval_ofExcept _ _)]
    cases hc : checked req with
    | error e =>
      rw [Rpc.eval_bind_of_error (Rpc.eval_ofExcept _ _)]
      exact .inl rfl
    | ok admitted =>
      obtain ⟨scope, cls⟩ := admitted
      rw [Rpc.eval_bind_of_ok (Rpc.eval_ofExcept _ _)]
      rcases Rpc.eval_open (s := s) (k := Rpc.closing (transact req scope cls)) rfl with
        ⟨_, _, hstore⟩ | ⟨_, hr⟩
      · exact .inl hstore
      · rw [← hr, Rpc.eval_closing]
        have ht : ((transact req scope cls).eval env ⟨s, some s, 2⟩).2.store = s ∨
          Registered req scope cls s ((transact req scope cls).eval env ⟨s, some s, 2⟩).2.store :=
          transact_store rfl
        exact ht.imp_right fun h => ⟨scope, cls, rfl, h⟩

end Register

end ProjectDb
