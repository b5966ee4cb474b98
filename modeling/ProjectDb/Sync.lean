import ProjectDb.Grants

namespace ProjectDb.Sync
open Text ProjectDb.Path Grants
set_option autoImplicit true

def syncCaller : Str := "project-caller".toList

def maxPrincipalChars : Nat := 64

def projectIdPrefix : Str := "yadgar:project:".toList

def admitCaller (caller : Option Str) : Except Status Unit :=
  if caller = some syncCaller then .ok ()
  else
    .error (.permissionDenied ["SyncProjects is callable by `project` only (ADR-0936, ADR-0938): ",
      "the client certificate must name ", .debug syncCaller, ", and this one names ",
      shownCaller caller, ". Every module's leaf verifies against the same authority, so ",
      "verification alone admits nobody here"])

def principal (userId : Str) : Except Status Str :=
  if userId.length = 0 ∨ userId.length > maxPrincipalChars then
    .error (.invalidArgument ["scope.user_id is the principal stamped as created_by and ",
      "updated_by, and must be 1 to ", .num maxPrincipalChars, " characters; it is ",
      .num userId.length])
  else .ok userId

/-- Every check that admits a sync, in order: the caller, a Scope, and its principal. -/
def admitted (caller : Option Str) (scope : Option Scope) : Except Status Str := do
  admitCaller caller
  match scope with
  | none =>
    .error (.invalidArgument ["scope is required: the seeder builds it with its system principal ",
      "as user_id and a request_id it mints, and project relays it unchanged (ADR-0942)"])
  | some scope => principal scope.userId

structure Guards where
  allowMassArchive : Bool
  allowMassRevoke : Bool
  deriving DecidableEq, Repr

def refuseAliases (declared : List Declared) : Txn Unit := do
  match ← Txn.query (.selectAliasIn (declared.map Declared.path)) with
  | none => pure ()
  | some alias_ =>
    let path := ((declared.find? fun d => d.key == toAsciiLowercase alias_).map
      Declared.path).getD alias_
    Txn.ofExcept (.error (.alreadyExists [.debug path, " is a former path of another project and ",
      "still resolves to it (D53). Declaring a project there would make one path mean two ",
      "things"]))

def guard (archiving active : Nat) (allowed : Bool) : Except Status Unit :=
  if allowed || archiving * 2 ≤ active then .ok ()
  else
    .error (.failedPrecondition ["this sync would archive ", .num archiving, " of the ",
      .num active, " active organisation projects, which is more than half (ADR-0939), and ",
      "nothing was written. A truncated or mis-rendered declaration looks exactly like this. If ",
      "the archive is intended, send the same declaration with allow_mass_archive set"])

def insert (d : Declared) (actor : Str) : Txn Str := do
  let uuid ← Txn.nowV7
  let id := projectIdPrefix ++ uuid
  Txn.query (.insertProject ⟨id, d.path, d.displayName, ProjectStatus.active.toI8,
    some d.sourceRepo, none, Visibility.org.toI8, actor, actor⟩)
  pure id

def differs (stored : Stored) (d : Declared) : Bool :=
  stored.displayName != d.displayName || stored.sourceRepo != some d.sourceRepo

def reactivating (stored : Stored) : Bool := stored.status != ProjectStatus.active.toI8

/-- Insert, overwrite, reactivate or leave one declared row, and count it. -/
def writeOne (d : Declared) (stored : Option Stored) (actor : Str)
    (response : SyncProjectsResponse) : Txn (Str × SyncProjectsResponse) := do
  match stored with
  | none =>
    let id ← insert d actor
    pure (id, { response with inserted := response.inserted + 1 })
  | some stored =>
    if !differs stored d && !reactivating stored then
      pure (stored.id, { response with unchanged := response.unchanged + 1 })
    else
      Txn.query (.updateDeclared d.displayName d.sourceRepo ProjectStatus.active.toI8 actor
        stored.id)
      if reactivating stored then
        pure (stored.id, { response with reactivated := response.reactivated + 1 })
      else
        pure (stored.id, { response with updated := response.updated + 1 })

/-- The loop over the declared rows, with the id of each. -/
def writeAll (byKey : HashMap Str Stored) (actor : Str) :
    List Declared → SyncProjectsResponse → HashMap Str Str →
      Txn (SyncProjectsResponse × HashMap Str Str)
  | [], response, ids => pure (response, ids)
  | d :: declared, response, ids => do
    let (id, response) ← writeOne d (HashMap.get byKey d.key) actor response
    writeAll byKey actor declared response (HashMap.insert ids d.key id)

def archive (ids : List Str) (actor : Str) : Txn Unit :=
  if ids.isEmpty then pure ()
  else Txn.query (.updateArchived ProjectStatus.archived.toI8 actor ids)

def byKey (stored : List Stored) : HashMap Str Stored :=
  HashMap.collect (stored.map fun s => (toAsciiLowercase s.path, s))

def isActive (s : Stored) : Bool := s.status == ProjectStatus.active.toI8

def toArchive (declared : List Declared) (stored : List Stored) : List Str :=
  (stored.filter fun s =>
    isActive s && !(declared.map Declared.key).contains (toAsciiLowercase s.path)).map Stored.id

/-- Everything inside the caller's transaction. -/
def apply (declared : List Declared) (actor : Str) (guards : Guards) :
    Txn SyncProjectsResponse := do
  Txn.query .selectSyncLockForUpdate
  let stored ← Txn.query .selectOrgProjects
  refuseAliases declared
  let toArchive := toArchive declared stored
  let activeCount := (stored.filter isActive).length
  Txn.ofExcept (guard toArchive.length activeCount guards.allowMassArchive)
  let storedGrants ← Txn.query .selectOrgGrants
  let plan := Grants.plan declared storedGrants
  Txn.ofExcept (revokeGuard plan.deletes.length storedGrants.length guards.allowMassRevoke)
  let (response, ids) ← writeAll (byKey stored) actor declared .default []
  archive toArchive actor
  Grants.write plan ids
  pure { response with
    archived := toArchive.length
    grantsDeclared := (declared.map fun d => d.grants.length).sum
    grantsInserted := plan.inserts.length
    grantsDeleted := plan.deletes.length
    grantsUnchanged := plan.unchanged }

/-- The transaction of a sync: committed when `apply` is, and rolled back when it refuses. -/
def transact (declared : List Declared) (actor : Str) (guards : Guards) :
    Rpc SyncProjectsResponse := do
  match ← Rpc.inTxn (apply declared actor guards) with
  | .ok response =>
    Rpc.commit
    pure response
  | .error refusal =>
    Rpc.rollback
    Rpc.ofExcept (.error refusal)

def syncAs (caller : Option Str) (req : SyncProjectsRequest) : Rpc SyncProjectsResponse := do
  let actor ← Rpc.ofExcept (admitted caller req.scope)
  let declared ← Rpc.ofExcept (validate req)
  Rpc.acquire
  Rpc.begin
  Rpc.closing (transact declared actor ⟨req.allowMassArchive, req.allowMassRevoke⟩)

end ProjectDb.Sync
