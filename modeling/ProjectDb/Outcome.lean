import ProjectDb.Confinement
import ProjectDb.Ledger

namespace ProjectDb
open Text ProjectDb.Path Mvcc
set_option autoImplicit true

variable [ServerCollation] {env : Nat → Tick}

namespace Idem
variable [Sha256] [Message τ] {scope : Scope} {idem : Option Idempotency} {payload : Unit → Bytes}

/-- The row that `claim` inserts under a key. -/
def claimRow (scope : Scope) (rpc key : Str) (payload : Unit → Bytes) : WriteRow :=
  WriteRow.kept ⟨scope.projectId, scope.userId, key, rpc, [], fingerprint (payload ())⟩

@[simp] theorem claimRow_key (scope : Scope) (rpc key : Str) (payload : Unit → Bytes) :
    (claimRow scope rpc key payload).key = ledgerKey scope.projectId scope.userId key :=
  WriteRow.kept_key _

theorem eval_claim_unkeyed (h : present idem = none) (w : Store × Nat) :
    (claim (τ := τ) scope rpc idem payload).eval env w = (.ok .proceed, w) := by
  unfold claim
  rw [h]
  rfl

theorem eval_claim_free (hf : Faultless env) (h : present idem = some key)
    (hfits : (claimRow scope rpc key payload).fits = true) {s : Store}
    (hfree : ∀ w ∈ s.projectWrite, w.key ≠ ledgerKey scope.projectId scope.userId key) (n : Nat) :
    (claim (τ := τ) scope rpc idem payload).eval env (s, n) = (.ok .proceed,
      ({ s with projectWrite := s.projectWrite ++ [claimRow scope rpc key payload] }, n + 1)) := by
  have hany : (s.projectWrite.any fun w => w.key == (claimRow scope rpc key payload).key) =
      false := by
    rw [List.any_eq_false]
    intro w hw he
    exact hfree w hw ((beq_iff_eq.1 he).trans (claimRow_key scope rpc key payload))
  have hinsert : (Txn.attempt (.insertWrite scope.projectId scope.userId key rpc
      (fingerprint (payload ())))).eval env (s, n) = (.ok (.ok ()), ({ s with
        projectWrite := s.projectWrite ++ [claimRow scope rpc key payload] }, n + 1)) := by
    unfold claimRow at hfits hany ⊢
    rw [Txn.eval_attempt, hf]
    simp only [Stmt.exec, hfits, hany, Bool.not_true, Bool.false_eq_true, ↓reduceIte]
    rfl
  unfold claim
  rw [h]
  exact Txn.eval_bind_of_ok hinsert

theorem eval_claim_replay (hf : Faultless env) (h : present idem = some key)
    (hfits : (claimRow scope rpc key payload).fits = true) {s : Store} (hs : s.Schema)
    (hw : w ∈ s.projectWrite) (hk : w.key = ledgerKey scope.projectId scope.userId key) (n : Nat) :
    (claim (τ := τ) scope rpc idem payload).eval env (s, n) =
        (replay scope rpc key (fingerprint (payload ()))).eval env (s, n + 1) ∧
      (Txn.query (.selectWriteForUpdate scope.projectId scope.userId key)).eval env (s, n + 1) =
        (.ok (w.rpc, w.response, w.requestFingerprint), (s, n + 2)) := by
  have hany : (s.projectWrite.any fun w => w.key == (claimRow scope rpc key payload).key) =
      true := List.any_eq_true.2
        ⟨w, hw, beq_iff_eq.2 (hk.trans (claimRow_key scope rpc key payload).symm)⟩
  have hfind : (s.projectWrite.find? fun w =>
      w.key == ledgerKey scope.projectId scope.userId key) = some w := by
    cases hv : s.projectWrite.find? fun w =>
      w.key == ledgerKey scope.projectId scope.userId key with
    | none => exact absurd (beq_iff_eq.2 hk) (List.find?_eq_none.1 hv w hw)
    | some v =>
      have hkv := List.find?_some hv
      rw [List.inj_on_of_nodup_map hs.write_key (List.mem_of_find?_eq_some hv) hw
        ((beq_iff_eq.1 hkv).trans hk.symm)]
  have hinsert : (Txn.attempt (.insertWrite scope.projectId scope.userId key rpc
      (fingerprint (payload ())))).eval env (s, n) =
        (.ok (.error .uniqueViolation), (s, n + 1)) := by
    unfold claimRow at hfits hany
    rw [Txn.eval_attempt, hf]
    simp only [Stmt.exec, hfits, hany, Bool.not_true, Bool.false_eq_true, ↓reduceIte]
  constructor
  · unfold claim
    rw [h]
    exact Txn.eval_bind_of_ok hinsert
  · rw [Txn.eval_query, hf]
    simp only [Stmt.exec, hfind]
    rfl

theorem eval_claim_spent (hf : Faultless env) (h : present idem = some key)
    (hfits : (claimRow scope rpc key payload).fits = true) {s : Store} (hs : s.Schema)
    (hw : w ∈ s.projectWrite) (hk : w.key = ledgerKey scope.projectId scope.userId key) (n : Nat) :
    ∃ r, (claim (τ := τ) scope rpc idem payload).eval env (s, n) = (r, (s, n + 2)) ∧
      ((∃ e, r = .error e ∧ e.code ≠ .alreadyExists) ∨
        ∃ m, Message.decode w.response = some m ∧ r = .ok (.replay m)) := by
  obtain ⟨hclaim, hselect⟩ := eval_claim_replay (τ := τ) hf h hfits hs hw hk n
  rw [hclaim]
  unfold replay
  rw [Txn.eval_bind_of_ok hselect]
  split
  · exact ⟨_, rfl, .inl ⟨_, rfl, Code.noConfusion⟩⟩
  · split
    · exact ⟨_, rfl, .inl ⟨_, rfl, Code.noConfusion⟩⟩
    · cases hd : Message.decode (τ := τ) w.response with
      | none => exact ⟨_, rfl, .inl ⟨_, rfl, Code.noConfusion⟩⟩
      | some m => exact ⟨_, rfl, .inr ⟨m, rfl, rfl⟩⟩

theorem eval_claim_congr (hf : Faultless env) (h : present idem = some key)
    (hfits : (claimRow scope rpc key payload).fits = true) {s s' : Store} (hs : s.Schema)
    (hs' : s'.Schema) (hw : w ∈ s.projectWrite) (hw' : w ∈ s'.projectWrite)
    (hk : w.key = ledgerKey scope.projectId scope.userId key) (n : Nat) :
    ((claim (τ := τ) scope rpc idem payload).eval env (s, n)).1 =
      ((claim (τ := τ) scope rpc idem payload).eval env (s', n)).1 := by
  obtain ⟨hclaim, hselect⟩ := eval_claim_replay (τ := τ) hf h hfits hs hw hk n
  obtain ⟨hclaim', hselect'⟩ := eval_claim_replay (τ := τ) hf h hfits hs' hw' hk n
  rw [hclaim, hclaim']
  unfold replay
  rw [Txn.eval_bind_of_ok hselect, Txn.eval_bind_of_ok hselect']
  split
  · rfl
  · split
    · rfl
    · cases Message.decode (τ := τ) w.response <;> rfl

/-- The ledger once `record` has filled the claim in. -/
def recorded (scope : Scope) (idem : Option Idempotency) (response : τ) (ws : List WriteRow) :
    List WriteRow :=
  match present idem with
  | none => ws
  | some key => ws.map fun w =>
    if w.key == ledgerKey scope.projectId scope.userId key then
      { w with response := Message.encodeToVec response }
    else w

omit [Sha256] in
theorem eval_record (hf : Faultless env) (scope : Scope) (idem : Option Idempotency) {response : τ}
    (hlength : (Message.encodeToVec response).length ≤ 4096) (s : Store) (n : Nat) :
    ∃ m, (record scope idem response).eval env (s, n) =
      (.ok (), ({ s with projectWrite := recorded scope idem response s.projectWrite }, m)) := by
  unfold record recorded
  cases present idem with
  | none => exact ⟨n, rfl⟩
  | some key =>
    have hexec : Stmt.exec (env n) (.updateWrite (Message.encodeToVec response) scope.projectId
        scope.userId key) s = .ok ((), [.updateWrite (Message.encodeToVec response)
          scope.projectId scope.userId key]) := by
      simp only [Stmt.exec, hlength, ↓reduceIte]
    have hquery := Txn.eval_query_of_ok (s := (s, n)) hf hexec
    exact ⟨n + 1, hquery⟩

end Idem

namespace Register
variable [UuidCrate] [Idem.Sha256] [Message RegisterProjectRequest]
  [Message RegisterProjectResponse] {req : RegisterProjectRequest} {scope : Scope} {cls : Class}

/-- No project and no former path is at a path. -/
structure Vacant (s : Store) (path : Str) : Prop where
  rows : ∀ r ∈ s.project, ¬ FoldsOnto r.path path
  aliases : ∀ a ∈ s.projectAlias, ¬ FoldsOnto a.aliasPath path

/-- The claim of a request, as `register` takes it. -/
abbrev claimOf (req : RegisterProjectRequest) (scope : Scope) :
    Txn (Idem.Claimed RegisterProjectResponse) :=
  Idem.claim scope rpcName req.idempotency fun _ => payload req

/-- The answer of a registration under a minted id. -/
def responseOf (uuid : Str) (req : RegisterProjectRequest) (scope : Scope) :
    RegisterProjectResponse :=
  ⟨some (metaOf (projectIdPrefix ++ uuid) 1 req.path scope.userId)⟩

theorem serve_checked (hf : Faultless env) (ha : admitCaller caller = .ok ())
    (h : checked req = .ok (scope, cls)) (s : Store) :
    (registerAs caller req).serve env s =
      (((transact req scope cls).eval env ⟨s, some s, 2⟩).1,
        ((transact req scope cls).eval env ⟨s, some s, 2⟩).2.store) := by
  unfold Rpc.serve registerAs register
  rw [ha, h, Rpc.eval_bind_of_ok (Rpc.eval_ofExcept _ _),
    Rpc.eval_bind_of_ok (Rpc.eval_ofExcept _ _), Rpc.eval_open_faultless hf, Rpc.eval_closing]

theorem serve_claimError (hf : Faultless env) (ha : admitCaller caller = .ok ())
    (h : checked req = .ok (scope, cls))
    (hclaim : (claimOf req scope).eval env (s, 2) = (.error e, (s, n))) :
    (registerAs caller req).serve env s = (.error e, s) := by
  have htransact : (transact req scope cls).eval env ⟨s, some s, 2⟩ =
      (.error e, ⟨s, some s, n⟩) := Rpc.eval_inTxn_of_error _ s hclaim
  rw [serve_checked hf ha h, htransact]

theorem serve_claimReplay (hf : Faultless env) (ha : admitCaller caller = .ok ())
    (h : checked req = .ok (scope, cls))
    (hclaim : (claimOf req scope).eval env (s, 2) = (.ok (.replay m), (s, n))) :
    (registerAs caller req).serve env s = (.ok m, s) := by
  have htransact : (transact req scope cls).eval env ⟨s, some s, 2⟩ = (.ok m, ⟨s, none, n + 1⟩) :=
    (Rpc.eval_inTxn_of_ok s hclaim).trans (Rpc.eval_rollback_of_ok _ _ _ (hf n))
  rw [serve_checked hf ha h, htransact]

theorem serve_spent (hf : Faultless env) (ha : admitCaller caller = .ok ())
    (h : checked req = .ok (scope, cls)) (hkey : Idem.present req.idempotency = some key)
    (hfits : (Idem.claimRow scope rpcName key fun _ => payload req).fits = true) {s : Store}
    (hs : s.Schema) (hw : w ∈ s.projectWrite)
    (hk : w.key = ledgerKey scope.projectId scope.userId key) :
    ∃ r, (registerAs caller req).serve env s = (r, s) ∧
      ((∃ e, r = .error e ∧ e.code ≠ .alreadyExists) ∨
        ∃ m, Message.decode w.response = some m ∧ r = .ok m) := by
  obtain ⟨r, hclaim, hr⟩ := Idem.eval_claim_spent (τ := RegisterProjectResponse) hf hkey hfits hs hw
    hk 2
  rcases hr with ⟨e, rfl, he⟩ | ⟨m, hm, rfl⟩
  · exact ⟨_, serve_claimError hf ha h hclaim, .inl ⟨e, rfl, he⟩⟩
  · exact ⟨_, serve_claimReplay hf ha h hclaim, .inr ⟨m, hm, rfl⟩⟩

theorem serve_spent_congr (hf : Faultless env) (ha : admitCaller caller = .ok ())
    (h : checked req = .ok (scope, cls)) (hkey : Idem.present req.idempotency = some key)
    (hfits : (Idem.claimRow scope rpcName key fun _ => payload req).fits = true) {s s' : Store}
    (hs : s.Schema) (hs' : s'.Schema) (hw : w ∈ s.projectWrite) (hw' : w ∈ s'.projectWrite)
    (hk : w.key = ledgerKey scope.projectId scope.userId key) :
    ∃ r, (registerAs caller req).serve env s = (r, s) ∧
      (registerAs caller req).serve env s' = (r, s') := by
  have hcongr :=
    Idem.eval_claim_congr (τ := RegisterProjectResponse) hf hkey hfits hs hs' hw hw' hk 2
  obtain ⟨r, hclaim, hr⟩ := Idem.eval_claim_spent (τ := RegisterProjectResponse) hf hkey hfits hs hw
    hk 2
  obtain ⟨r', hclaim', _⟩ := Idem.eval_claim_spent (τ := RegisterProjectResponse) hf hkey hfits hs'
    hw' hk 2
  rw [hclaim, hclaim'] at hcongr
  obtain rfl : r = r' := hcongr
  rcases hr with ⟨e, rfl, _⟩ | ⟨m, _, rfl⟩
  · exact ⟨_, serve_claimError hf ha h hclaim, serve_claimError hf ha h hclaim'⟩
  · exact ⟨_, serve_claimReplay hf ha h hclaim, serve_claimReplay hf ha h hclaim'⟩

omit [UuidCrate] [Idem.Sha256] [Message RegisterProjectRequest]
  [Message RegisterProjectResponse] in
theorem eval_aliasOwner (hf : Faultless env) (path : Str) (w : Store × Nat) :
    (aliasOwner path).eval env w = (.ok ((w.1.projectAlias.find? fun a =>
      eqIgnoreAsciiCase a.aliasPath path).map AliasRow.projectId), (w.1, w.2 + 1)) := by
  have hexec : Stmt.exec (env w.2) (.selectAliasOwner path) w.1 = .ok ((w.1.projectAlias.find?
      fun a => eqIgnoreAsciiCase a.aliasPath path).map AliasRow.projectId, []) := rfl
  exact Txn.eval_read hf hexec

/-- The request's key is no obstacle, and leaves the ledger as given. -/
def Proceeds (env : Nat → Tick) (req : RegisterProjectRequest) (scope : Scope) (s : Store)
    (ws : List WriteRow) (n : Nat) : Prop :=
  (claimOf req scope).eval env (s, 2) = (.ok .proceed, ({ s with projectWrite := ws }, n))

theorem serve_aliased (hf : Faultless env) (ha : admitCaller caller = .ok ())
    (h : checked req = .ok (scope, cls)) (a : AliasRow) :
    ∃ e, e.code = .alreadyExists ∧ ∀ s ws n, Proceeds env req scope s ws n →
      (s.projectAlias.find? fun a => eqIgnoreAsciiCase a.aliasPath req.path) = some a →
        (registerAs caller req).serve env s = (.error e, s) := by
  refine ⟨?e, ?code, ?main⟩
  case main =>
    intro s ws n hclaim hfind
    have howner := eval_aliasOwner hf req.path ({ s with projectWrite := ws }, n)
    simp only [hfind, Option.map_some] at howner
    rw [serve_checked hf ha h]
    unfold transact
    rw [Rpc.eval_inTxn_of_ok s hclaim]
    simp only
    rw [Rpc.eval_inTxn_of_ok s howner]
    simp only
    rw [Rpc.eval_rollback_of_ok _ _ _ (hf _)]
    rfl
  case code => rfl

theorem serve_occupied (hf : Faultless env) (ha : admitCaller caller = .ok ())
    (h : checked req = .ok (scope, cls)) :
    ∃ e, e.code = .alreadyExists ∧ ∀ s ws n, Proceeds env req scope s ws n →
      (s.projectAlias.find? fun a => eqIgnoreAsciiCase a.aliasPath req.path) = none →
        (∃ r ∈ s.project, FoldsOnto r.path req.path) →
          (registerAs caller req).serve env s = (.error e, s) := by
  refine ⟨?e, ?code, ?main⟩
  case main =>
    intro s ws n hclaim hfind ⟨r, hr, hfold⟩
    have howner := eval_aliasOwner hf req.path ({ s with projectWrite := ws }, n)
    simp only [hfind, Option.map_none] at howner
    have hany : (s.project.any fun r =>
        r.id == ((newRow (projectIdPrefix ++ (env (n + 1)).uuid) req scope cls).row
          (env (n + 2)).now).id || eqIgnoreAsciiCase r.path ((newRow
          (projectIdPrefix ++ (env (n + 1)).uuid) req scope cls).row (env (n + 2)).now).path) =
        true := by
      refine List.any_eq_true.2 ⟨r, hr, ?_⟩
      rw [Bool.or_eq_true, eqIgnoreAsciiCase_iff]
      exact .inr hfold
    have hfits := newRow_fits h (env (n + 1)).uuid_shape (env (n + 2)).now
    have hinsert : (Txn.attempt (.insertProject (newRow (projectIdPrefix ++ (env (n + 1)).uuid) req
        scope cls))).eval env ({ s with projectWrite := ws }, n + 2) =
          (.ok (.error .uniqueViolation), ({ s with projectWrite := ws }, n + 3)) := by
      rw [Txn.eval_attempt, hf]
      simp only [Stmt.exec, hfits, hany, Bool.not_true, Bool.false_eq_true, ↓reduceIte]
    rw [serve_checked hf ha h]
    unfold transact
    rw [Rpc.eval_inTxn_of_ok s hclaim]
    simp only
    rw [Rpc.eval_inTxn_of_ok s howner]
    simp only
    rw [Rpc.eval_inTxn_of_ok s (Txn.eval_nowV7 _), Rpc.eval_inTxn_of_ok s hinsert]
    simp only
    rw [Rpc.eval_rollback_of_ok _ _ _ (hf _)]
    rfl
  case code => rfl

theorem serve_vacant (hprost : ∀ m : RegisterProjectResponse,
      Message.encodeToVec m = Protobuf.put m.fields)
    (hf : Faultless env) (ha : admitCaller caller = .ok ()) (h : checked req = .ok (scope, cls))
    (hunused : ∀ r ∈ s.project, r.id ≠ projectIdPrefix ++ (env (n + 1)).uuid)
    (hclaim : Proceeds env req scope s ws n) (hvacant : Vacant s req.path) :
    (registerAs caller req).serve env s = (.ok (responseOf (env (n + 1)).uuid req scope),
      { s with
        project := s.project ++
          [(newRow (projectIdPrefix ++ (env (n + 1)).uuid) req scope cls).row (env (n + 2)).now]
        projectWrite :=
          Idem.recorded scope req.idempotency (responseOf (env (n + 1)).uuid req scope) ws }) := by
  rw [serve_checked hf ha h]
  have howner := eval_aliasOwner hf req.path ({ s with projectWrite := ws }, n)
  have hfind : (s.projectAlias.find? fun a => eqIgnoreAsciiCase a.aliasPath req.path) = none := by
    rw [List.find?_eq_none]
    intro a ha he
    exact hvacant.aliases a ha ((eqIgnoreAsciiCase_iff _ _).1 he)
  have hany : (s.project.any fun r =>
      r.id == ((newRow (projectIdPrefix ++ (env (n + 1)).uuid) req scope cls).row
        (env (n + 2)).now).id || eqIgnoreAsciiCase r.path ((newRow
        (projectIdPrefix ++ (env (n + 1)).uuid) req scope cls).row (env (n + 2)).now).path) =
      false := by
    rw [List.any_eq_false]
    intro r hr he
    rw [Bool.or_eq_true, beq_iff_eq, eqIgnoreAsciiCase_iff] at he
    exact he.elim (hunused r hr) (hvacant.rows r hr)
  have hfits := newRow_fits h (env (n + 1)).uuid_shape (env (n + 2)).now
  have hinsert : (Txn.attempt (.insertProject (newRow (projectIdPrefix ++ (env (n + 1)).uuid) req
      scope cls))).eval env ({ s with projectWrite := ws }, n + 2) =
        (.ok (.ok ()), ({ s with
          project := s.project ++ [(newRow (projectIdPrefix ++ (env (n + 1)).uuid) req scope
            cls).row (env (n + 2)).now]
          projectWrite := ws }, n + 3)) := by
    rw [Txn.eval_attempt, hf]
    simp only [Stmt.exec, hfits, hany, Bool.not_true, Bool.false_eq_true, ↓reduceIte]
    rfl
  simp only [hfind, Option.map_none] at howner
  unfold transact
  rw [Rpc.eval_inTxn_of_ok s hclaim]
  simp only
  rw [Rpc.eval_inTxn_of_ok s howner]
  simp only
  rw [Rpc.eval_inTxn_of_ok s (Txn.eval_nowV7 _), Rpc.eval_inTxn_of_ok s hinsert]
  simp only
  obtain ⟨m, hrecord⟩ := Idem.eval_record hf scope req.idempotency
    (Nat.le_trans (response_length hprost h (env (n + 1)).uuid_shape) (by decide))
    ({ s with
      project := s.project ++ [(newRow (projectIdPrefix ++ (env (n + 1)).uuid) req scope
        cls).row (env (n + 2)).now]
      projectWrite := ws }) (n + 3)
  rw [Rpc.eval_inTxn_of_ok s hrecord, Rpc.eval_commit_of_ok _ _ _ (hf m)]
  rfl

/-- The caller is admitted, and the request passes every check that reads no store. -/
structure Passes (caller : Option Str) (req : RegisterProjectRequest) (scope : Scope)
    (cls : Class) : Prop where
  admitted : admitCaller caller = .ok ()
  checked : checked req = .ok (scope, cls)

/-- A request that its own key holds back: the key is too wide for its row, or spent. -/
def Held (s : Store) (req : RegisterProjectRequest) (scope : Scope) : Prop :=
  ∃ key, Idem.present req.idempotency = some key ∧ (¬ Narrow scope key ∨
    ∃ w ∈ s.projectWrite, w.key = ledgerKey scope.projectId scope.userId key)

omit [ServerCollation] [Message RegisterProjectResponse] in
theorem claimRow_fits_iff (h : checked req = .ok (scope, cls)) :
    (Idem.claimRow scope rpcName key fun _ => payload req).fits = true ↔ Narrow scope key := by
  obtain ⟨_, hactor⟩ := checked_owner h
  have huser : (varchar 64 scope.userId).length ≤ 64 := by
    have hlen : scope.userId.length ≤ 64 := by
      rw [hactor]
      decide
    rw [varchar_of_le hlen]
    exact hlen
  have hrpc : (varchar 32 rpcName).length ≤ 32 := by decide
  have hdigest : (Idem.fingerprint (payload req)).length = 32 := Idem.Sha256.digest_length _
  simp only [WriteRow.fits, Bool.and_eq_true, decide_eq_true_eq, beq_iff_eq]
  exact ⟨fun hfits => ⟨hfits.1.1.1.1.1, hfits.1.1.1.2⟩,
    fun hwidth => ⟨⟨⟨⟨⟨hwidth.1, huser⟩, hwidth.2⟩, hrpc⟩, Nat.zero_le _⟩, hdigest⟩⟩

/-- The claims that a request leaves in the ledger, of which there is one or none. -/
def claims (req : RegisterProjectRequest) (scope : Scope) : List WriteRow :=
  (Idem.present req.idempotency).toList.map fun key =>
    Idem.claimRow scope rpcName key fun _ => payload req

/-- The same once the registration is made. -/
def entries (req : RegisterProjectRequest) (scope : Scope) (uuid : Str) : List WriteRow :=
  (Idem.present req.idempotency).toList.map fun key => (ledgerRow req scope key uuid).kept

omit [UuidCrate] in
theorem mem_entries_key {w : WriteRow} (h : w ∈ entries req scope uuid) :
    ∃ key, Idem.present req.idempotency = some key ∧
      w.key = ledgerKey scope.projectId scope.userId key := by
  obtain ⟨key, hkey, rfl⟩ := List.mem_map.1 h
  exact ⟨key, Option.mem_toList.1 hkey, WriteRow.kept_key _⟩

omit [UuidCrate] [ServerCollation] in
theorem mem_entries (scope : Scope) (hkey : Idem.present req.idempotency = some key) (uuid : Str) :
    (ledgerRow req scope key uuid).kept ∈ entries req scope uuid := by
  unfold entries
  rw [hkey]
  exact List.mem_singleton.2 rfl

/-- The operation that the request's uuid is minted at, which follows its claim. -/
def mintedAt (req : RegisterProjectRequest) : Nat :=
  (Idem.present req.idempotency).toList.length + 3

theorem proceeds_of_not_held (hf : Faultless env) (h : checked req = .ok (scope, cls)) {s : Store}
    (hheld : ¬ Held s req scope) :
    Proceeds env req scope s (s.projectWrite ++ claims req scope)
      ((Idem.present req.idempotency).toList.length + 2) := by
  unfold Proceeds claims
  cases hkey : Idem.present req.idempotency with
  | none =>
    have hclaim : (claimOf req scope).eval env (s, 2) = (.ok .proceed, (s, 2)) :=
      Idem.eval_claim_unkeyed hkey (s, 2)
    rw [Option.toList_none, List.map_nil, List.append_nil]
    exact hclaim
  | some key =>
    have hnarrow : Narrow scope key := by
      by_contra hwide
      exact hheld ⟨key, hkey, .inl hwide⟩
    have hfree : ∀ w ∈ s.projectWrite, w.key ≠ ledgerKey scope.projectId scope.userId key :=
      fun w hw hk => hheld ⟨key, hkey, .inr ⟨w, hw, hk⟩⟩
    exact Idem.eval_claim_free hf hkey ((claimRow_fits_iff h).2 hnarrow) hfree 2

omit [UuidCrate] in
theorem recorded_claims {s : Store} (hheld : ¬ Held s req scope) (uuid : Str) :
    Idem.recorded scope req.idempotency (responseOf uuid req scope)
      (s.projectWrite ++ claims req scope) = s.projectWrite ++ entries req scope uuid := by
  unfold Idem.recorded claims entries
  cases hkey : Idem.present req.idempotency with
  | none => rfl
  | some key =>
    have hkept : (s.projectWrite.map fun w =>
        if w.key == ledgerKey scope.projectId scope.userId key then
          { w with response := Message.encodeToVec (responseOf uuid req scope) }
        else w) = s.projectWrite := by
      apply (List.map_congr_left fun w hw => ?_).trans (List.map_id _)
      rw [if_neg]
      · rfl
      · intro hk
        exact hheld ⟨key, hkey, .inr ⟨w, hw, beq_iff_eq.1 hk⟩⟩
    simp only [List.map_append, hkept]
    have hown : (Idem.claimRow scope rpcName key fun _ => payload req).key =
        ledgerKey scope.projectId scope.userId key := Idem.claimRow_key _ _ _ _
    simp only [Option.toList_some, List.map_cons, List.map_nil, hown, beq_self_eq_true, ↓reduceIte]
    rfl

theorem serve_unpassed (h : ∀ scope cls, ¬ Passes caller req scope cls) :
    ∃ e, ∀ env s, (registerAs caller req).serve env s = (.error e, s) := by
  cases hc : checked req with
  | error e => exact serve_unchecked caller hc
  | ok admitted =>
    cases ha : admitCaller caller with
    | ok _ => exact absurd ⟨ha, hc⟩ (h admitted.1 admitted.2)
    | error e =>
      refine ⟨e, fun env s => ?_⟩
      unfold Rpc.serve registerAs
      rw [ha, Rpc.eval_bind_of_error (Rpc.eval_ofExcept _ _)]

/-- A request that its key holds back is refused or replayed, and changes nothing. -/
theorem serve_held (hf : Faultless env) (hp : Passes caller req scope cls) {s : Store}
    (hs : s.Schema) (hheld : Held s req scope) :
    ∃ r, (registerAs caller req).serve env s = (r, s) ∧ ((∃ e, r = .error e ∧
      e.code ≠ .alreadyExists) ∨ ∃ m key w, r = .ok m ∧ Idem.present req.idempotency = some key ∧
        w ∈ s.projectWrite ∧ w.key = ledgerKey scope.projectId scope.userId key ∧
          Message.decode w.response = some m) := by
  obtain ⟨ha, hc⟩ := hp
  obtain ⟨key, hkey, hheld⟩ := hheld
  by_cases hnarrow : Narrow scope key
  · obtain ⟨w, hw, hk⟩ := hheld.resolve_left fun h => h hnarrow
    obtain ⟨r, hr, hanswer⟩ := serve_spent hf ha hc hkey ((claimRow_fits_iff hc).2 hnarrow) hs hw hk
    refine ⟨r, hr, hanswer.imp_right fun ⟨m, hm, he⟩ => ⟨m, key, w, he, hkey, hw, hk, hm⟩⟩
  · exact ⟨_, serve_registerAs_overwide hf ha hc hkey hnarrow s, .inl ⟨_, rfl, Code.noConfusion⟩⟩

theorem serve_taken (hf : Faultless env) (hp : Passes caller req scope cls) {s : Store}
    (hheld : ¬ Held s req scope) (htaken : ¬ Vacant s req.path) :
    ∃ e, e.code = .alreadyExists ∧ (registerAs caller req).serve env s = (.error e, s) := by
  obtain ⟨ha, hc⟩ := hp
  have hclaim := proceeds_of_not_held hf hc hheld
  cases hfind : s.projectAlias.find? fun a => eqIgnoreAsciiCase a.aliasPath req.path with
  | some a =>
    obtain ⟨e, he, hserve⟩ := serve_aliased hf ha hc a
    exact ⟨e, he, hserve _ _ _ hclaim hfind⟩
  | none =>
    obtain ⟨e, he, hserve⟩ := serve_occupied hf ha hc
    refine ⟨e, he, hserve _ _ _ hclaim hfind ?_⟩
    by_contra hno
    apply htaken
    refine ⟨fun r hr hfold => hno ⟨r, hr, hfold⟩, fun a ha hfold => ?_⟩
    exact List.find?_eq_none.1 hfind a ha ((eqIgnoreAsciiCase_iff _ _).2 hfold)

/-- The row that a request registers under what its environment gives it. -/
def rowOf (env : Nat → Tick) (req : RegisterProjectRequest) (scope : Scope) (cls : Class) :
    ProjectRow :=
  (newRow (projectIdPrefix ++ (env (mintedAt req)).uuid) req scope cls).row
    (env (mintedAt req + 1)).now

theorem serve_registered (hprost : ∀ m : RegisterProjectResponse,
      Message.encodeToVec m = Protobuf.put m.fields)
    (hf : Faultless env) (hp : Passes caller req scope cls) {s : Store} (hu : Unminted env s)
    (hheld : ¬ Held s req scope) (hvacant : Vacant s req.path) :
    (registerAs caller req).serve env s = (.ok (responseOf (env (mintedAt req)).uuid req scope),
      { s with
        project := s.project ++ [rowOf env req scope cls]
        projectWrite := s.projectWrite ++ entries req scope (env (mintedAt req)).uuid }) := by
  obtain ⟨ha, hc⟩ := hp
  rw [serve_vacant hprost hf ha hc (fun r hr => hu r hr _) (proceeds_of_not_held hf hc hheld)
    hvacant, recorded_claims hheld]
  rfl

end Register

end ProjectDb
