import ProjectDb.Declaration
import ProjectDb.Lookup

namespace ProjectDb.Grants
open Text Sync
set_option autoImplicit true

/-- What the grant half of a sync will write, decided before any write. -/
structure GrantPlan where
  inserts : List (Str × Str × Int)
  updates : List (Str × Str × Int)
  deletes : List (Str × Str)
  unchanged : Nat
  deriving DecidableEq, Repr

/-- The declared level of every (folded path, team) pair. -/
def wanted (declared : List Declared) : HashMap (Str × Str) Int :=
  HashMap.collect (declared.flatMap fun d => d.grants.map fun g => ((d.key, g.1), g.2))

/-- What `plan` does with one stored grant. -/
def planStored (wanted : HashMap (Str × Str) Int) (plan : GrantPlan) (g : StoredGrant) :
    GrantPlan :=
  match HashMap.get wanted (toAsciiLowercase g.path, g.teamId) with
  | some level =>
    if level = g.level then { plan with unchanged := plan.unchanged + 1 }
    else { plan with updates := plan.updates ++ [(g.projectId, g.teamId, level)] }
  | none => { plan with deletes := plan.deletes ++ [(g.projectId, g.teamId)] }

def kept (stored : List StoredGrant) : List (Str × Str) :=
  stored.map fun g => (toAsciiLowercase g.path, g.teamId)

def missing (kept : List (Str × Str)) (declared : List Declared) : List (Str × Str × Int) :=
  declared.flatMap fun d =>
    (d.grants.filter fun g => !kept.contains (d.key, g.1)).map fun g => (d.key, g.1, g.2)

def plan (declared : List Declared) (stored : List StoredGrant) : GrantPlan :=
  { stored.foldl (planStored (wanted declared)) ⟨[], [], [], 0⟩ with
    inserts := missing (kept stored) declared }

def revokeGuard (deleting stored : Nat) (allowed : Bool) : Except Status Unit :=
  if allowed || deleting * 2 ≤ stored then .ok ()
  else
    .error (.failedPrecondition ["this sync would delete ", .num deleting, " of the ", .num stored,
      " stored team grants, which is more than half (ADR-0963 (6)), and nothing was written. A ",
      "truncated or mis-rendered declaration looks exactly like this. If the revocation is ",
      "intended, send the same declaration with allow_mass_revoke set"])

def writeDeletes : List (Str × Str) → Txn Unit
  | [] => pure ()
  | (projectId, teamId) :: deletes => do
    Txn.query (.deleteGrant projectId teamId)
    writeDeletes deletes

def writeUpdates : List (Str × Str × Int) → Txn Unit
  | [] => pure ()
  | (projectId, teamId, level) :: updates => do
    Txn.query (.updateGrant level projectId teamId)
    writeUpdates updates

def writeInserts (ids : HashMap Str Str) : List (Str × Str × Int) → Txn Unit
  | [] => pure ()
  | (key, teamId, level) :: inserts => do
    match HashMap.get ids key with
    | none =>
      Txn.ofExcept (.error (.internal ["no row id for the declared path ", .debug key]))
    | some projectId =>
      Txn.query (.insertGrant ⟨projectId, teamId, level⟩)
      writeInserts ids inserts

def write (plan : GrantPlan) (ids : HashMap Str Str) : Txn Unit := do
  writeDeletes plan.deletes
  writeUpdates plan.updates
  writeInserts ids plan.inserts

end ProjectDb.Grants
