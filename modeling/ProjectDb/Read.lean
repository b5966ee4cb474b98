import ProjectDb.Resolve

namespace ProjectDb.Read
open Text ProjectDb.Path
set_option autoImplicit true

def maxPage : Int := 500

def defaultPage : Int := 50

def atSecs (seconds : Int) : Timestamp := ⟨seconds⟩

def rowToProject (row : ProjectRow) : Project where
  envelope := some {
    id := row.id
    version := row.version
    projectId := row.path
    ownerUserId := row.ownerUserId.getD []
    teamId := []
    visibility := 0
    createdBy := row.createdBy
    updatedBy := row.updatedBy
    createdAt := some (atSecs row.createdAt)
    updatedAt := some (atSecs row.updatedAt)
    deletedAt := none
    derivedFrom := [] }
  path := row.path
  displayName := row.displayName
  status := row.status
  lastSeenAt := row.lastSeenAt.map atSecs
  aliases := []
  grants := []

def idsOf (projects : List Project) : List Str :=
  projects.filterMap fun p => p.envelope.map Meta.id

def fillAliases (pairs : List AliasRow) (p : Project) : Project :=
  match p.envelope with
  | none => p
  | some m =>
    { p with aliases := (pairs.filter fun a => a.projectId == m.id).map AliasRow.aliasPath }

/-- Fill in `Project.aliases` for a whole page, in one statement. -/
def withAliases (projects : List Project) : Rpc (List Project) :=
  if projects.isEmpty || (idsOf projects).isEmpty then pure projects
  else do
    let pairs ← Rpc.read (.selectAliases (idsOf projects))
    pure (projects.map (fillAliases pairs))

def fillGrants (rows : List GrantRow) (p : Project) : Project :=
  match p.envelope with
  | none => p
  | some m =>
    { p with
      grants := (rows.filter fun g => g.projectId == m.id).map fun g => ⟨g.teamId, g.level⟩ }

/-- Fill in `Project.grants` for a whole page, in one statement. -/
def withGrants (projects : List Project) : Rpc (List Project) :=
  if (idsOf projects).isEmpty then pure projects
  else do
    let rows ← Rpc.read (.selectGrants (idsOf projects))
    pure (projects.map (fillGrants rows))

/-- The project of the row a lookup found. -/
def project (path : Str) : Option ProjectRow → Rpc GetProjectResponse
  | none =>
    Rpc.ofExcept (.error (.notFound ["no project is registered at ", .debug path,
      ", and it is not a former path of one"]))
  | some row => do
    let project ← withAliases [rowToProject row]
    let project ← withGrants project
    pure ⟨project.head?⟩

def get (req : GetProjectRequest) : Rpc GetProjectResponse := do
  Rpc.ofExcept (Path.validate "path" req.path)
  Rpc.acquire
  project req.path (← Rpc.read (.selectProject req.path))

/-- A page size the caller did not set is 0, and one too large is cut to the bound. -/
def pageSize (requested : Int) : Int :=
  if requested ≤ 0 then defaultPage
  else if requested > maxPage then maxPage
  else requested

def statusFilter (requested : Option Int) : Except Status (Option ProjectStatus) :=
  match requested with
  | none => .ok none
  | some value =>
    match ProjectStatus.tryFrom value with
    | some .unspecified =>
      .error (.invalidArgument ["status was sent as PROJECT_STATUS_UNSPECIFIED, which names no ",
        "status. Omit the field to list every status"])
    | some status => .ok (some status)
    | none => .error (.invalidArgument [.num value, " is not a ProjectStatus"])

/-- A filter that the request leaves empty is not sent. -/
def present (value : Str) : Option Str := if value.isEmpty then none else some value

/-- A page of the rows a listing read, one of which may only tell that another page follows. -/
def page (limit : Nat) (rows : List ProjectRow) : Rpc ListProjectsResponse := do
  let more := decide (rows.length > limit)
  let projects ← withAliases ((rows.take limit).map rowToProject)
  let projects ← withGrants projects
  pure ⟨projects, match projects.getLast? with
    | some last => if more then last.path else []
    | none => []⟩

def list (req : ListProjectsRequest) : Rpc ListProjectsResponse := do
  let limit := (pageSize req.pageSize).toNat
  let status ← Rpc.ofExcept (statusFilter req.status)
  Rpc.ofExcept (if req.underPath.isEmpty then .ok () else Path.validate "under_path" req.underPath)
  Rpc.acquire
  page limit (← Rpc.read (.selectPage ((present req.underPath).map fun path => (path, subtree path))
    (status.map ProjectStatus.toI8) (present req.pageToken) (limit + 1)))

end ProjectDb.Read
