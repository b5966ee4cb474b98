import ProjectDb.Idem

namespace ProjectDb.Register
open Text ProjectDb.Path
set_option autoImplicit true

def registerCaller : Str := "project-caller".toList

def maxDisplayNameChars : Nat := 255

def projectIdPrefix : Str := "yadgar:project:".toList

def rpcName : Str := "RegisterProject".toList

def admitCaller (caller : Option Str) : Except Status Unit :=
  if caller = some registerCaller then .ok ()
  else
    .error (.permissionDenied ["RegisterProject is callable by `project` only (ADR-1007): the ",
      "client certificate must name ", .debug registerCaller, ", and this one names ",
      shownCaller caller, ". Every module's leaf verifies against the same authority, so ",
      "verification alone admits nobody here"])

structure Class where
  ownerUserId : Str
  visibility : Int
  deriving DecidableEq, Repr

def Class.of [UuidCrate] (path actor sourceRepo : Str) : Except Status Class :=
  if !isPrivateClass path then
    .error (.failedPrecondition [.debug path, " is an organisation project path. Organisation ",
      "projects are declared in the GitOps repository and written by the seeder (ADR-0934, ",
      "ADR-0936); RegisterProject registers a private `local/<account>/...` project only"])
  else
    match accountSegment actor with
    | none =>
      .error (.invalidArgument [
        "scope.user_id is not a canonical `yadgar:user:<lowercase uuidv7>` ",
        "id, so it owns no account segment and can register no private `local/<account>/...` ",
        "path (ADR-0954)"])
    | some seg =>
      if !isUnderOwnRoot path seg then
        .error (.permissionDenied [.debug path, " is not under your private root \"local/",
          .shown seg, "\". A private project id is `local/<account>/...`, where <account> is ",
          "your user id without its `yadgar:user:` prefix, spelled exactly in lowercase ",
          "(ADR-0954)"])
      else if !sourceRepo.isEmpty then
        .error (.invalidArgument ["source_repo was sent as ", .debug sourceRepo, " for the ",
          "private-class path ", .debug path, ". A `local/...` project belongs to one account ",
          "and carries an owner, never a repository — `ck_project_class` in the store admits ",
          "exactly one of the two, so this row cannot exist. Omit source_repo"])
      else
        .ok ⟨actor, Visibility.private_.toI8⟩

def metaOf (id : Str) (version : Nat) (path actor : Str) : Meta where
  id := id
  version := version
  projectId := path
  ownerUserId := actor
  teamId := []
  visibility := 0
  createdBy := actor
  updatedBy := actor
  createdAt := none
  updatedAt := none
  deletedAt := none
  derivedFrom := []

/-- The request with `scope` and `idempotency` cleared, encoded. -/
def payload [Message RegisterProjectRequest] (req : RegisterProjectRequest) : Bytes :=
  Message.encodeToVec { req with scope := none, idempotency := none }

def aliasOwner (path : Str) : Txn (Option Str) := Txn.query (.selectAliasOwner path)

/-- The checks made before a connection is taken. -/
def checked [UuidCrate] (req : RegisterProjectRequest) : Except Status (Scope × Class) := do
  let scope ← scopeOf req.scope
  validate "path" req.path
  refuseReservedRoot "path" req.path
  if req.displayName.length > maxDisplayNameChars then
    .error (.invalidArgument ["display_name is ", .num req.displayName.length,
      " characters and the limit is ", .num maxDisplayNameChars])
  else
    let cls ← Class.of req.path scope.userId req.sourceRepo
    .ok (scope, cls)

/-- The row a registration inserts. -/
def newRow (id : Str) (req : RegisterProjectRequest) (scope : Scope) (cls : Class) :
    NewProject where
  id := id
  path := req.path
  displayName := req.displayName
  status := ProjectStatus.active.toI8
  sourceRepo := none
  ownerUserId := some cls.ownerUserId
  visibility := cls.visibility
  createdBy := scope.userId
  updatedBy := scope.userId

variable [UuidCrate] [Idem.Sha256] [Message RegisterProjectRequest]
  [Message RegisterProjectResponse]

/-- The transaction: a replay or a refusal is rolled back, a registration is committed. -/
def transact (req : RegisterProjectRequest) (scope : Scope) (cls : Class) :
    Rpc RegisterProjectResponse := do
  let claimed ← Rpc.inTxn (Idem.claim scope rpcName req.idempotency fun _ => payload req)
  match ← Rpc.ofExcept claimed with
  | .replay original =>
    Rpc.rollback
    pure original
  | .proceed =>
    match ← Rpc.ofExcept (← Rpc.inTxn (aliasOwner req.path)) with
    | some owner =>
      Rpc.rollback
      Rpc.ofExcept (.error (.alreadyExists [.debug req.path, " is a former path of the project ",
        .shown owner, " and still resolves to it (D53). Registering a project there would make ",
        "one path mean two things"]))
    | none =>
      let uuid ← Rpc.ofExcept (← Rpc.inTxn Txn.nowV7)
      let id := projectIdPrefix ++ uuid
      let inserted ← Rpc.ofExcept
        (← Rpc.inTxn (Txn.attempt (.insertProject (newRow id req scope cls))))
      match inserted with
      | .error e =>
        Rpc.rollback
        if e = .uniqueViolation then
          Rpc.ofExcept (.error (.alreadyExists ["a project is already registered at ",
            .debug req.path]))
        else
          Rpc.ofExcept (.error (internal e))
      | .ok _ =>
        let response : RegisterProjectResponse := ⟨some (metaOf id 1 req.path scope.userId)⟩
        Rpc.ofExcept (← Rpc.inTxn (Idem.record scope req.idempotency response))
        Rpc.commit
        pure response

/-- The registration itself, for an admitted caller only. -/
def register (req : RegisterProjectRequest) : Rpc RegisterProjectResponse := do
  let admitted ← Rpc.ofExcept (checked req)
  Rpc.acquire
  Rpc.begin
  Rpc.closing (transact req admitted.1 admitted.2)

def registerAs (caller : Option Str) (req : RegisterProjectRequest) :
    Rpc RegisterProjectResponse := do
  Rpc.ofExcept (admitCaller caller)
  register req

end ProjectDb.Register
