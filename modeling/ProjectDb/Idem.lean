import ProjectDb.Handler

namespace ProjectDb.Idem
open Text
set_option autoImplicit true

/-- The `sha2` crate's `Sha256::digest`, which is 32 bytes long. -/
class Sha256 where
  digest : Bytes → Bytes
  digest_length : ∀ b, (digest b).length = 32

inductive Claimed (τ : Type)
  | proceed
  | replay (original : τ)
  deriving DecidableEq, Repr

def present (idem : Option Idempotency) : Option Str :=
  (idem.map Idempotency.key).filter (fun k => !k.isEmpty)

def fingerprint [Sha256] (payload : Bytes) : Bytes := Sha256.digest payload

def replay [Message τ] (scope : Scope) (rpc key : Str) (fingerprint : Bytes) :
    Txn (Claimed τ) := do
  let row ← Txn.query (.selectWriteForUpdate scope.projectId scope.userId key)
  if row.1 ≠ rpc then
    Txn.ofExcept (.error (.invalidArgument
      ["this idempotency key was already used for a different operation"]))
  else if row.2.2 ≠ fingerprint then
    Txn.ofExcept (.error (.invalidArgument
      ["this idempotency key was already used for a different request — ",
        "a replay would discard what this one asked for"]))
  else
    match Message.decode row.2.1 with
    | some original => pure (.replay original)
    | none => Txn.ofExcept (.error (.internal ["storage error"]))

def claim [Sha256] [Message τ] (scope : Scope) (rpc : Str) (idem : Option Idempotency)
    (payload : Unit → Bytes) : Txn (Claimed τ) :=
  match present idem with
  | none => pure .proceed
  | some key => do
    let fingerprint := fingerprint (payload ())
    match ← Txn.attempt (.insertWrite scope.projectId scope.userId key rpc fingerprint) with
    | .ok _ => pure .proceed
    | .error .uniqueViolation => replay scope rpc key fingerprint
    | .error e => Txn.ofExcept (.error (internal e))

def record [Message τ] (scope : Scope) (idem : Option Idempotency) (response : τ) : Txn Unit :=
  match present idem with
  | none => pure ()
  | some key =>
    Txn.query (.updateWrite (Message.encodeToVec response) scope.projectId scope.userId key)

end ProjectDb.Idem
