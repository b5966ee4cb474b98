import ProjectDb.Counter
import ProjectDb.Outcome
import ProjectDb.Writers

namespace ProjectDb
open Text ProjectDb.Path Mvcc
set_option autoImplicit true

section
variable [ServerCollation] {env : Nat → Tick}

theorem exec_selectWrite_ok {t : Tick} {s : Store} {a : Str × Bytes × Bytes}
    (h : Stmt.exec t (.selectWriteForUpdate projectId userId idemKey) s = .ok (a, ws)) :
    ws = [] ∧ ∃ w ∈ s.projectWrite, w.key = ledgerKey projectId userId idemKey ∧
      a = (w.rpc, w.response, w.requestFingerprint) := by
  refine ⟨selectWrite_writes h, ?_⟩
  simp only [Stmt.exec] at h
  split at h
  · rename_i w hfind
    cases h
    have hk := List.find?_some hfind
    exact ⟨w, List.mem_of_find?_eq_some hfind, beq_iff_eq.1 hk, rfl⟩
  · cases h

namespace Register
variable [UuidCrate] [Idem.Sha256] [Message RegisterProjectRequest]
  [Message RegisterProjectResponse]

/-- The ledger's key of a request that carries one. -/
def KeyOf (req : RegisterProjectRequest) (κ : Str × Str × Str) : Prop :=
  ∃ scope key, req.scope = some scope ∧ Idem.present req.idempotency = some key ∧
    ledgerKey scope.projectId scope.userId key = κ

/-- A ledger row answers a request: it is of a key and of the request's verb and payload, and holds
the response. -/
structure Answers (w : WriteRow) (req : RegisterProjectRequest) (κ : Str × Str × Str)
    (m : RegisterProjectResponse) : Prop where
  key : w.key = κ
  rpc : w.rpc = rpcName
  payload : w.requestFingerprint = Idem.fingerprint (payload req)
  response : Message.decode w.response = some m

/-- The store once a registration is made. -/
def registeredIn (req : RegisterProjectRequest) (scope : Scope) (cls : Class) (uuid : Str)
    (now : Time) (s : Store) : Store :=
  { s with
    project := s.project ++ [(newRow (projectIdPrefix ++ uuid) req scope cls).row now]
    projectWrite := s.projectWrite ++ entries req scope uuid }

/-- What comes of a registration: a refusal, the replay of a ledger row, or a new row under a key
that nothing held. -/
inductive Result (req : RegisterProjectRequest) (s : Store) :
    Except Status RegisterProjectResponse → Store → Prop
  | refused (e : Status) : Result req s (.error e) s
  | replayed : KeyOf req κ → w ∈ s.projectWrite → Answers w req κ m → Result req s (.ok m) s
  | registered : checked req = .ok (scope, cls) → ¬ Held s req scope →
      a = Tick.acked t (responseOf uuid req scope) →
      Result req s a (registeredIn req scope cls uuid now s)

variable {req : RegisterProjectRequest} {scope : Scope} {cls : Class}

omit [UuidCrate] [Idem.Sha256] [Message RegisterProjectRequest]
  [Message RegisterProjectResponse] in
theorem KeyOf.unique (h : KeyOf req κ) (h' : KeyOf req κ') : κ = κ' := by
  obtain ⟨scope, key, hscope, hkey, rfl⟩ := h
  obtain ⟨scope', key', hscope', hkey', rfl⟩ := h'
  cases hscope.symm.trans hscope'
  cases hkey.symm.trans hkey'
  rfl

omit [UuidCrate] [Idem.Sha256] [Message RegisterProjectRequest]
  [Message RegisterProjectResponse] in
theorem KeyOf.held (h : KeyOf req κ) (hscope : req.scope = some scope) {s : Store}
    (hw : w ∈ s.projectWrite) (hk : w.key = κ) : Held s req scope := by
  obtain ⟨scope', key, hscope', hkey, rfl⟩ := h
  cases hscope.symm.trans hscope'
  exact ⟨key, hkey, .inr ⟨w, hw, hk⟩⟩

theorem claim_proceeds (hc : checked req = .ok (scope, cls))
    (h : (claimOf req scope).eval env (s, n) = (.ok .proceed, (w, m))) :
    ¬ Held s req scope ∧ w = { s with projectWrite := s.projectWrite ++ claims req scope } := by
  unfold claimOf Idem.claim at h
  cases hkey : Idem.present req.idempotency with
  | none =>
    rw [hkey] at h
    cases h
    constructor
    · rintro ⟨key, hpresent, _⟩
      cases hkey.symm.trans hpresent
    · unfold claims
      rw [hkey, Option.toList_none, List.map_nil, List.append_nil]
  | some key =>
    rw [hkey] at h
    obtain ⟨r, p, hattempt, h⟩ := Txn.eval_bind_ok h
    rcases Txn.eval_attempt_cases hattempt with ⟨e, he, _⟩ | ⟨_, ws, he, hexec, hp⟩
    · cases he
      cases e with
      | uniqueViolation =>
        obtain ⟨row, q, _, h⟩ := Txn.eval_bind_ok h
        split_ifs at h
        · cases h
        · cases h
        · split at h <;> cases h
      | _ => cases h
    · cases he
      cases (Prod.mk.inj h).2
      cases (Prod.mk.inj hp).1
      obtain ⟨hfits, hfree, hws⟩ := exec_insertWrite_ok hexec
      constructor
      · rintro ⟨key', hpresent, hheld⟩
        cases hkey.symm.trans hpresent
        rcases hheld with hwide | hspent
        · exact hwide ((claimRow_fits_iff hc).1 hfits)
        · exact hfree hspent
      · unfold claims
        rw [hws, hkey]
        rfl

omit [UuidCrate] in
theorem claim_replays (hscope : req.scope = some scope)
    (h : (claimOf req scope).eval env (s, n) = (.ok (.replay m), (w, k))) :
    ∃ κ row, KeyOf req κ ∧ row ∈ s.projectWrite ∧ Answers row req κ m := by
  unfold claimOf Idem.claim at h
  cases hkey : Idem.present req.idempotency with
  | none =>
    rw [hkey] at h
    cases h
  | some key =>
    rw [hkey] at h
    obtain ⟨r, p, hattempt, h⟩ := Txn.eval_bind_ok h
    rcases Txn.eval_attempt_cases hattempt with ⟨e, he, hp⟩ | ⟨_, ws, he, hexec, hp⟩
    · cases he
      cases e with
      | uniqueViolation =>
        obtain ⟨found, q, hquery, h⟩ := Txn.eval_bind_ok h
        obtain ⟨ws, hexec, _⟩ := Txn.eval_query_ok hquery
        rw [hp] at hexec
        obtain ⟨_, row, hrow, hk, rfl⟩ := exec_selectWrite_ok hexec
        split_ifs at h with hrpc hpayload
        · cases h
        · cases h
        · split at h
          · rename_i original hdecode
            cases h
            exact ⟨_, row, ⟨scope, key, hscope, hkey, rfl⟩, hrow, hk, not_ne_iff.1 hrpc,
              not_ne_iff.1 hpayload, hdecode⟩
          · cases h
      | _ => cases h
    · cases he
      cases h

omit [UuidCrate] [Idem.Sha256] [Message RegisterProjectRequest] in
theorem record_ok {idem : Option Idempotency} {response : RegisterProjectResponse}
    (h : (Idem.record scope idem response).eval env (s, n) = (.ok (), (w, m))) :
    w = { s with projectWrite := Idem.recorded scope idem response s.projectWrite } := by
  unfold Idem.record at h
  unfold Idem.recorded
  cases hkey : Idem.present idem with
  | none =>
    rw [hkey] at h
    cases h
    rfl
  | some key =>
    rw [hkey] at h
    obtain ⟨ws, hexec, hp⟩ := Txn.eval_query_ok h
    cases (Prod.mk.inj hp).1
    simp only [Stmt.exec] at hexec
    split_ifs at hexec
    cases hexec
    rfl

theorem transact_result (hc : checked req = .ok (scope, cls)) {s : Store}
    (h : (transact req scope cls).eval env ⟨s, some s, n⟩ = r) : Result req s r.1 r.2.store := by
  unfold transact at h
  rcases Rpc.eval_inTxn_cases h with ⟨e, w₁, m₁, _, rfl⟩ | ⟨claimed, w₁, m₁, hclaim, h⟩
  · exact .refused e
  cases claimed with
  | replay original =>
    obtain ⟨κ, row, hκ, hrow, hanswers⟩ := claim_replays (checked_scope hc) hclaim
    rcases Rpc.eval_rollback_cases h with ⟨e, rfl⟩ | h
    · exact .refused e
    · subst h
      exact .replayed hκ hrow hanswers
  | proceed =>
    obtain ⟨hheld, rfl⟩ := claim_proceeds hc hclaim
    rcases Rpc.eval_inTxn_cases h with ⟨e, w₂, m₂, _, rfl⟩ | ⟨owner, w₂, m₂, halias, h⟩
    · exact .refused e
    cases owner with
    | some owner =>
      rcases Rpc.eval_rollback_cases h with ⟨e, rfl⟩ | h
      · exact .refused e
      · subst h
        exact .refused _
    | none =>
      obtain ⟨hw₂, _⟩ := aliasOwner_none halias
      obtain rfl : w₂ = _ := hw₂
      rcases Rpc.eval_inTxn_cases h with ⟨e, w₃, m₃, _, rfl⟩ | ⟨uuid, w₃, m₃, hu, h⟩
      · exact .refused e
      rw [Txn.eval_nowV7] at hu
      cases hu
      rcases Rpc.eval_inTxn_cases h with ⟨e, w₄, m₄, _, rfl⟩ | ⟨inserted, w₄, m₄, hi, h⟩
      · exact .refused e
      rcases Txn.eval_attempt_cases hi with ⟨e, hr, _⟩ | ⟨_, ws, hr, hx, hw₄⟩
      · cases hr
        rcases Rpc.eval_rollback_cases h with ⟨e, rfl⟩ | h
        · exact .refused e
        · subst h
          split_ifs <;> exact .refused _
      · cases hr
        obtain ⟨_, _, _, rfl⟩ := exec_insertProject_ok hx
        cases hw₄
        rcases Rpc.eval_inTxn_cases h with ⟨e, w₅, m₅, _, rfl⟩ | ⟨_, w₅, m₅, hrec, h⟩
        · exact .refused e
        obtain rfl := record_ok hrec
        rcases Rpc.eval_commit_cases h with ⟨_, e, rfl⟩ | ⟨_, h⟩
        · exact .refused e
        · subst h
          have hledger := recorded_claims hheld (env m₂).uuid
          have hmade : Result req s ((env m₅).acked (responseOf (env m₂).uuid req scope))
              (registeredIn req scope cls (env m₂).uuid (env (m₂ + 1)).now s) :=
            .registered hc hheld rfl
          unfold registeredIn at hmade
          rw [← hledger] at hmade
          exact hmade

/-- A registration answers and leaves what its checks, its key and its path make of it. -/
theorem serve_result (caller : Option Str) (req : RegisterProjectRequest) (env : Nat → Tick)
    (s : Store) :
    Result req s ((registerAs caller req).serve env s).1
      ((registerAs caller req).serve env s).2 := by
  unfold Rpc.serve registerAs register
  cases admitCaller caller with
  | error e =>
    rw [Rpc.eval_bind_of_error (Rpc.eval_ofExcept _ _)]
    exact .refused e
  | ok _ =>
    rw [Rpc.eval_bind_of_ok (Rpc.eval_ofExcept _ _)]
    cases hc : checked req with
    | error e =>
      rw [Rpc.eval_bind_of_error (Rpc.eval_ofExcept _ _)]
      exact .refused e
    | ok admitted =>
      obtain ⟨scope, cls⟩ := admitted
      rw [Rpc.eval_bind_of_ok (Rpc.eval_ofExcept _ _)]
      rcases Rpc.eval_open (s := s) (k := Rpc.closing (transact req scope cls)) rfl with
        ⟨_, ⟨e, he⟩, hstore⟩ | ⟨_, hr⟩
      · rw [he, hstore]
        exact .refused e
      · rw [← hr, Rpc.eval_closing]
        exact transact_result hc rfl

theorem registeredIn_entry (hc : checked req = .ok (scope, cls)) (hκ : KeyOf req κ) (uuid : Str)
    (now : Time) (s : Store) : ∃ w ∈ (registeredIn req scope cls uuid now s).projectWrite,
      Answers w req κ (responseOf uuid req scope) := by
  obtain ⟨scope', key, hscope, hkey, rfl⟩ := hκ
  cases (checked_scope hc).symm.trans hscope
  exact ⟨_, List.mem_append_right _ (mem_entries scope hkey uuid), WriteRow.kept_key _, rfl, rfl,
    Message.decode_encodeToVec _⟩

/-- What an answer rests on afterwards: a ledger row that would give it again. -/
theorem Result.entry {s s' : Store} (h : Result req s (.ok m) s') (hκ : KeyOf req κ) :
    ∃ w ∈ s'.projectWrite, Answers w req κ m := by
  cases h with
  | replayed hκ' hw hanswers => exact ⟨_, hw, hκ.unique hκ' ▸ hanswers⟩
  | registered hc _ hacked =>
    obtain rfl := Tick.acked_ok hacked.symm
    exact registeredIn_entry hc hκ _ _ _

/-- Under a key that a ledger row has, an answer is that row's, and the store is left alone. -/
theorem Result.spent {s s' : Store} (h : Result req s (.ok m) s') (hs : s.Schema)
    (hκ : KeyOf req κ) (hw : w ∈ s.projectWrite) (hk : w.key = κ) :
    s' = s ∧ Answers w req κ m := by
  cases h with
  | replayed hκ' hw' hanswers =>
    have hanswers := hκ.unique hκ' ▸ hanswers
    have hsame := List.inj_on_of_nodup_map hs.write_key hw' hw (hanswers.key.trans hk.symm)
    exact ⟨rfl, hsame ▸ hanswers⟩
  | registered hc hheld _ => exact absurd (hκ.held (checked_scope hc) hw hk) hheld

/-- Sent again under its key, a request is answered as it was, and another one is refused. -/
theorem serve_again (hf : Faultless env) (hp : Passes caller req scope cls)
    (hkey : Idem.present req.idempotency = some key) (hnarrow : Narrow scope key) {s : Store}
    (hs : s.Schema) (hw : w ∈ s.projectWrite)
    (hk : w.key = ledgerKey scope.projectId scope.userId key) (hrpc : w.rpc = rpcName)
    (hdecode : Message.decode w.response = some m) :
    (w.requestFingerprint = Idem.fingerprint (payload req) →
      (registerAs caller req).serve env s = (.ok m, s)) ∧
    (w.requestFingerprint ≠ Idem.fingerprint (payload req) →
      ∃ e, e.code = .invalidArgument ∧ (registerAs caller req).serve env s = (.error e, s)) := by
  obtain ⟨ha, hc⟩ := hp
  obtain ⟨hclaim, hselect⟩ : (claimOf req scope).eval env (s, 2) =
      (Idem.replay scope rpcName key (Idem.fingerprint (payload req))).eval env (s, 3) ∧ _ :=
    Idem.eval_claim_replay hf hkey ((claimRow_fits_iff hc).2 hnarrow) hs hw hk 2
  constructor
  · intro hpayload
    apply serve_claimReplay hf ha hc
    rw [hclaim]
    unfold Idem.replay
    rw [Txn.eval_bind_of_ok hselect, if_neg (not_ne_iff.2 hrpc), if_neg (not_ne_iff.2 hpayload)]
    simp only [hdecode]
    rfl
  · intro hpayload
    have hrefused : ∃ e, e.code = .invalidArgument ∧
        (claimOf req scope).eval env (s, 2) = (.error e, (s, 4)) := by
      rw [hclaim]
      unfold Idem.replay
      rw [Txn.eval_bind_of_ok hselect, if_neg (not_ne_iff.2 hrpc), if_pos hpayload]
      exact ⟨_, rfl, rfl⟩
    obtain ⟨e, hcode, hrefused⟩ := hrefused
    exact ⟨e, hcode, serve_claimError hf ha hc hrefused⟩

end Register

end

/-- A row as later calls may leave it: it names the same project of the same account, and it was
not changed without its version. -/
structure Follows (r r' : ProjectRow) : Prop where
  id : r'.id = r.id
  path : r'.path = r.path
  owner : r'.ownerUserId = r.ownerUserId
  createdBy : r'.createdBy = r.createdBy
  version : r.version ≤ r'.version
  declares : r'.version = r.version → r'.declares = r.declares

theorem Follows.refl (r : ProjectRow) : Follows r r :=
  ⟨rfl, rfl, rfl, rfl, Nat.le_refl _, fun _ => rfl⟩

theorem Follows.trans (h : Follows a b) (h' : Follows b c) : Follows a c where
  id := h'.id.trans h.id
  path := h'.path.trans h.path
  owner := h'.owner.trans h.owner
  createdBy := h'.createdBy.trans h.createdBy
  version := Nat.le_trans h.version h'.version
  declares he := by
    have hmid : b.version = a.version :=
      Nat.le_antisymm (he ▸ h'.version) h.version
    exact (h'.declares (he.trans hmid.symm)).trans (h.declares hmid)

theorem Follows.of_unseen (h : r'.unseen = r.unseen) : Follows r r' := by
  have hcolumn : ∀ {β : Type} (f : ProjectRow → β), f r'.unseen = f r.unseen :=
    fun f => congrArg f h
  exact ⟨hcolumn ProjectRow.id, hcolumn ProjectRow.path, hcolumn ProjectRow.ownerUserId,
    hcolumn ProjectRow.createdBy, Nat.le_of_eq (hcolumn ProjectRow.version).symm,
    fun _ => hcolumn ProjectRow.declares⟩

/-- Nothing of a store is gone from a later one: no row, no former path and no ledger row. -/
structure Carries (s s' : Store) : Prop where
  rows : ∀ r ∈ s.project, ∃ r' ∈ s'.project, Follows r r'
  ledger : ∀ w ∈ s.projectWrite, w ∈ s'.projectWrite
  aliases : s'.projectAlias = s.projectAlias

namespace Carries
variable {s s' s'' : Store}

theorem refl (s : Store) : Carries s s := ⟨fun r hr => ⟨r, hr, .refl r⟩, fun _ hw => hw, rfl⟩

theorem trans (h : Carries s s') (h' : Carries s' s'') : Carries s s'' where
  rows r hr := by
    obtain ⟨r', hr', hfollows⟩ := h.rows r hr
    obtain ⟨r'', hr'', hfollows'⟩ := h'.rows r' hr'
    exact ⟨r'', hr'', hfollows.trans hfollows'⟩
  ledger w hw := h'.ledger w (h.ledger w hw)
  aliases := h'.aliases.trans h.aliases

theorem of_unseen {t t' : Store} (h : Carries s s') (hs : t.unseen = s.unseen)
    (hs' : t'.unseen = s'.unseen) : Carries t t' where
  rows r hr := by
    have hmem : r.unseen ∈ s.unseen.project := hs ▸ List.mem_map_of_mem hr
    obtain ⟨r₁, hr₁, he₁⟩ := List.mem_map.1 hmem
    obtain ⟨r₂, hr₂, hfollows⟩ := h.rows r₁ hr₁
    have hmem' : r₂.unseen ∈ t'.unseen.project := hs'.symm ▸ List.mem_map_of_mem hr₂
    obtain ⟨r₃, hr₃, he₃⟩ := List.mem_map.1 hmem'
    exact ⟨r₃, hr₃, ((Follows.of_unseen he₁).trans hfollows).trans (.of_unseen he₃)⟩
  ledger w hw := by
    rw [(tables_of_unseen hs').2.2]
    exact h.ledger w ((tables_of_unseen hs).2.2 ▸ hw)
  aliases :=
    (tables_of_unseen hs').1.trans (h.aliases.trans (tables_of_unseen hs).1.symm)

end Carries

theorem Sync.Settled.follows (h : Settled declared actor r r') : Follows r r' := by
  obtain ⟨hversion, hdeclares⟩ := h.counted.version_le
  exact ⟨h.id_eq, h.path_eq, by cases h <;> rfl, h.stamps.1, hversion, hdeclares⟩

theorem Sync.Converged.carries {s s' : Store} (h : Converged declared actor s s') :
    Carries s s' where
  rows r hr := by
    obtain ⟨r', hr', hset⟩ := h.rows.mem_left hr
    exact ⟨r', hr', hset.follows⟩
  ledger w hw := h.writes ▸ hw
  aliases := h.aliases

theorem Register.Result.carries [ServerCollation] [UuidCrate] [Idem.Sha256]
    [Message RegisterProjectRequest] [Message RegisterProjectResponse]
    {req : RegisterProjectRequest} {s s' : Store}
    (h : Result req s r s') : Carries s s' := by
  cases h with
  | refused => exact .refl s
  | replayed => exact .refl s
  | registered =>
    exact ⟨fun r hr => ⟨r, List.mem_append_left _ hr, .refl r⟩,
      fun w hw => List.mem_append_left _ hw, rfl⟩

end ProjectDb
