import ProjectDb.Storable
import ProjectDb.Encoding

namespace ProjectDb
open Text ProjectDb.Path
set_option autoImplicit true

section
variable [ServerCollation] {env : Nat → Tick}

/-- No width, CHECK or reference of any table refuses the statement's row. -/
def Stmt.Accepted (t : Tick) (q : Stmt) (s : Store) : Prop := q.exec t s ≠ .error .constraint

theorem accepted_of_storable {t : Tick} {q : Stmt} {s : Store} (hq : q.onRegistry = true)
    (h : q.Storable t s) : q.Accepted t s := h hq

theorem accepted_insertWrite (t : Tick) (s : Store)
    (h : (WriteRow.kept ⟨projectId, userId, key, rpc, [], fp⟩).fits = true) :
    Stmt.Accepted t (.insertWrite projectId userId key rpc fp) s := by
  intro he
  simp only [Stmt.exec, h, Bool.not_true, Bool.false_eq_true, ↓reduceIte] at he
  split at he <;> cases he

theorem accepted_updateWrite (t : Tick) (s : Store) {response : Bytes}
    (h : response.length ≤ 4096) :
    Stmt.Accepted t (.updateWrite response projectId userId key) s := by
  intro he
  simp only [Stmt.exec, h, ↓reduceIte] at he
  cases he

theorem accepted_selectWrite (t : Tick) (s : Store) :
    Stmt.Accepted t (.selectWriteForUpdate projectId userId key) s := by
  intro he
  simp only [Stmt.exec] at he
  split at he <;> cases he

namespace Register
variable [UuidCrate] [Idem.Sha256] [Message RegisterProjectRequest]
  [Message RegisterProjectResponse]

/-- The row that `claim` inserts, as `record` fills it. -/
def ledgerRow (req : RegisterProjectRequest) (scope : Scope) (key uuid : Str) : WriteRow where
  projectId := scope.projectId
  userId := scope.userId
  idemKey := key
  rpc := rpcName
  response := Message.encodeToVec
    (⟨some (metaOf (projectIdPrefix ++ uuid) 1 req.path scope.userId)⟩ : RegisterProjectResponse)
  requestFingerprint := Idem.fingerprint (payload req)

variable {req : RegisterProjectRequest}

omit [ServerCollation] [Idem.Sha256] [Message RegisterProjectRequest] in
theorem response_length
    (hprost : ∀ m : RegisterProjectResponse, Message.encodeToVec m = Protobuf.put m.fields)
    (h : checked req = .ok (scope, cls)) (hu : Hyphenated uuid) :
    (Message.encodeToVec (⟨some (metaOf (projectIdPrefix ++ uuid) 1 req.path scope.userId)⟩ :
      RegisterProjectResponse)).length ≤ 1068 := by
  obtain ⟨hgrammar, _⟩ := checked_ok h
  obtain ⟨_, hactor⟩ := checked_owner h
  have hid : (projectIdPrefix ++ uuid).length ≤ 51 := by
    have hp : projectIdPrefix.length = 15 := by decide
    rw [List.length_append, length_of_hyphenated hu, hp]
  rw [hprost]
  exact metaOf_length hid hgrammar.1 (Nat.le_of_eq hactor)

omit [ServerCollation] in
/-- A ledger row fits when the key and the scope's project do, which nothing checks. -/
theorem ledgerRow_fits_iff
    (hprost : ∀ m : RegisterProjectResponse, Message.encodeToVec m = Protobuf.put m.fields)
    (h : checked req = .ok (scope, cls)) (hu : Hyphenated uuid) :
    (ledgerRow req scope key uuid).fits = true ↔
      scope.projectId.length ≤ 255 ∧ key.length ≤ 255 := by
  obtain ⟨_, hactor⟩ := checked_owner h
  have hresponse := Nat.le_trans (response_length hprost h hu) (by decide : 1068 ≤ 4096)
  have huser : scope.userId.length ≤ 64 := by
    rw [hactor]
    decide
  have hrpc : rpcName.length ≤ 32 := by decide
  have hdigest : (Idem.fingerprint (payload req)).length = 32 := Idem.Sha256.digest_length _
  simp only [WriteRow.fits, Bool.and_eq_true, decide_eq_true_eq, beq_iff_eq]
  exact ⟨fun hfits => ⟨hfits.1.1.1.1.1, hfits.1.1.1.2⟩,
    fun hwidth => ⟨⟨⟨⟨⟨hwidth.1, huser⟩, hwidth.2⟩, hrpc⟩, hresponse⟩, hdigest⟩⟩

theorem statements_accepted
    (hprost : ∀ m : RegisterProjectResponse, Message.encodeToVec m = Protobuf.put m.fields)
    (h : checked req = .ok (scope, cls)) (hkey : Idem.present req.idempotency = some key)
    (hwidth : scope.projectId.length ≤ 255 ∧ key.length ≤ 255) :
    Statements Stmt.Accepted env req scope cls where
  claim key' hkey' t s := by
    cases hkey.symm.trans hkey'
    apply accepted_insertWrite
    have hfits := (ledgerRow_fits_iff hprost h (uuidOf_shape 0)).2 hwidth
    have hblank : (WriteRow.mk scope.projectId scope.userId key rpcName []
        (Idem.fingerprint (payload req))).fits = true := by
      simp only [WriteRow.fits, ledgerRow, Bool.and_eq_true] at hfits ⊢
      exact ⟨⟨hfits.1.1, rfl⟩, hfits.2⟩
    rw [WriteRow.kept_of_fits hblank]
    exact hblank
  replay _ _ t s := accepted_selectWrite t s
  former t s := accepted_of_storable rfl (storable_of_ok rfl)
  insert n t s := accepted_of_storable rfl
    (storable_insertProject (newRow_fits h (env n).uuid_shape _) s)
  record _ _ n t s := accepted_updateWrite t s
    (Nat.le_trans (response_length hprost h (env n).uuid_shape) (by decide))

/-- A key that its column has room for, and the project that scopes it, but for the spaces that they
end in. -/
def Narrow (scope : Scope) (key : Str) : Prop :=
  (varchar 255 scope.projectId).length ≤ 255 ∧ (varchar 255 key).length ≤ 255

instance (scope : Scope) (key : Str) : Decidable (Narrow scope key) :=
  inferInstanceAs (Decidable (_ ∧ _))

/-- A claim too wide for its row is a storage error that nothing foretells. -/
theorem serve_registerAs_overwide (hf : Faultless env) (ha : admitCaller caller = .ok ())
    (h : checked req = .ok (scope, cls)) (hkey : Idem.present req.idempotency = some key)
    (hwide : ¬ Narrow scope key) (s : Store) :
    (registerAs caller req).serve env s = (.error (.internal ["storage error"]), s) := by
  have hrow : (WriteRow.kept ⟨scope.projectId, scope.userId, key, rpcName, [],
      Idem.fingerprint (payload req)⟩).fits = false := by
    rw [Bool.eq_false_iff]
    intro hfits
    simp only [WriteRow.fits, Bool.and_eq_true, decide_eq_true_eq] at hfits
    exact hwide ⟨hfits.1.1.1.1.1, hfits.1.1.1.2⟩
  have hattempt : (Txn.attempt (.insertWrite scope.projectId scope.userId key rpcName
      (Idem.fingerprint (payload req)))).eval env (s, 2) =
      (.ok (.error .constraint), (s, 3)) := by
    rw [Txn.eval_attempt, hf]
    simp only [Stmt.exec, hrow, Bool.not_false, ↓reduceIte]
  have hclaim : (Idem.claim (τ := RegisterProjectResponse) scope rpcName req.idempotency
      fun _ => payload req).eval env (s, 2) = (.error (.internal ["storage error"]), (s, 3)) := by
    unfold Idem.claim
    rw [hkey]
    exact Txn.eval_bind_of_ok hattempt
  unfold Rpc.serve registerAs register
  rw [ha, h, Rpc.eval_bind_of_ok (Rpc.eval_ofExcept _ _),
    Rpc.eval_bind_of_ok (Rpc.eval_ofExcept _ _), Rpc.eval_open_faultless hf, Rpc.eval_closing]
  have htransact : (transact req scope cls).eval env ⟨s, some s, 2⟩ =
      (.error (.internal ["storage error"]), ⟨s, some s, 3⟩) :=
    Rpc.eval_inTxn_of_error _ s hclaim
  rw [htransact]

/-- A keyed registration's ledger row fits, and no statement is refused for a width, exactly when
the key and the scope's project are no wider than their columns. -/
theorem ledger_storable_iff
    (hprost : ∀ m : RegisterProjectResponse, Message.encodeToVec m = Protobuf.put m.fields)
    (h : checked req = .ok (scope, cls)) (hkey : Idem.present req.idempotency = some key) :
    ((∀ uuid, Hyphenated uuid → (ledgerRow req scope key uuid).fits = true) ∧
      ∀ caller env s, (registerAs caller req).Sends Stmt.Accepted env ⟨s, none, 0⟩) ↔
      scope.projectId.length ≤ 255 ∧ key.length ≤ 255 := by
  constructor
  · intro ⟨hfits, _⟩
    exact (ledgerRow_fits_iff hprost h (uuidOf_shape 0)).1 (hfits _ (uuidOf_shape 0))
  · intro hwidth
    refine ⟨fun uuid hu => (ledgerRow_fits_iff hprost h hu).2 hwidth, fun caller env s => ?_⟩
    apply registerAs_sends
    intro scope' cls' h'
    cases h.symm.trans h'
    exact statements_accepted hprost h hkey hwidth

end Register

end

section
open scoped Reference

/-- A registration under a key of the given length. -/
def keyed (n : Nat) : RegisterProjectRequest :=
  { adaHome with idempotency := some ⟨List.replicate n 'k'⟩ }

theorem ledger_storable_ada :
    (∀ uuid, Hyphenated uuid →
      (Register.ledgerRow (keyed 255) ⟨ada, []⟩ (List.replicate 255 'k') uuid).fits = true) ∧
    ∀ caller env s, (Register.registerAs caller (keyed 255)).Sends Stmt.Accepted env
      ⟨s, none, 0⟩ := by
  have hchecked : Register.checked (keyed 255) =
      .ok (⟨ada, []⟩, ⟨ada, Visibility.private_.toI8⟩) := by decide +kernel
  have hkey : Idem.present (keyed 255).idempotency = some (List.replicate 255 'k') := by
    decide +kernel
  exact (Register.ledger_storable_iff (fun _ => rfl) hchecked hkey).2 (by decide +kernel)

theorem ledger_overwide :
    Register.checked (keyed 256) = .ok (⟨ada, []⟩, ⟨ada, Visibility.private_.toI8⟩) ∧
    Idem.present (keyed 256).idempotency = some (List.replicate 256 'k') ∧
    (Register.ledgerRow (keyed 256) ⟨ada, []⟩ (List.replicate 256 'k') (uuidOf 0)).fits = false ∧
    (Register.registerAs (some Register.registerCaller) (keyed 256)).serve (fun n => .quiet 1 n)
      .empty = (.error (.internal ["storage error"]), .empty) := by
  have hchecked : Register.checked (keyed 256) =
      .ok (⟨ada, []⟩, ⟨ada, Visibility.private_.toI8⟩) := by decide +kernel
  have hkey : Idem.present (keyed 256).idempotency = some (List.replicate 256 'k') := by
    decide +kernel
  refine ⟨hchecked, hkey, by decide +kernel, ?_⟩
  exact Register.serve_registerAs_overwide (fun _ => rfl) (by decide +kernel) hchecked hkey
    (by decide +kernel) _

end

end ProjectDb
