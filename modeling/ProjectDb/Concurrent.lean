import ProjectDb.Interleaving
import ProjectDb.Read
import ProjectDb.Register
import ProjectDb.Sync
import ProjectDb.Touch

namespace ProjectDb
open Text ProjectDb.Path Mvcc
set_option autoImplicit true

/-- A call, with the certificate name of its caller where the verb reads one. -/
inductive Request
  | resolve (req : ResolveProjectRequest)
  | get (req : GetProjectRequest)
  | list (req : ListProjectsRequest)
  | register (caller : Option Str) (req : RegisterProjectRequest)
  | sync (caller : Option Str) (req : SyncProjectsRequest)
  | touch (req : TouchProjectsRequest)

inductive Answer
  | resolved (r : Except Status ResolveProjectResponse)
  | got (r : Except Status GetProjectResponse)
  | listed (r : Except Status ListProjectsResponse)
  | registered (r : Except Status RegisterProjectResponse)
  | synced (r : Except Status SyncProjectsResponse)
  | touched (r : Except Status (TouchProjectsResponse × Bool))
  deriving DecidableEq

/-- The projects that an answer carries. -/
def Answer.projects : Answer → List Project
  | .got (.ok response) => response.project.toList
  | .listed (.ok response) => response.projects
  | _ => []

abbrev Handler := Prog (Cmd.Reply SqlError Op.Reply) Answer

def Rpc.answering (x : Rpc α) (f : Except Status α → Answer) : Handler :=
  x.run.bind fun r => .done (f r)

/-- The calls in flight, each on a connection of its own. -/
abbrev Server (ι : Type) := World SqlError Op.Reply Write Record ι Answer

variable [UuidCrate] [Idem.Sha256] [Message RegisterProjectRequest]
  [Message RegisterProjectResponse]

def Request.handler : Request → Handler
  | .resolve req => (Read.resolve req).answering .resolved
  | .get req => (Read.get req).answering .got
  | .list req => (Read.list req).answering .listed
  | .register caller req => (Register.registerAs caller req).answering .registered
  | .sync caller req => (Sync.syncAs caller req).answering .synced
  | .touch req => (Touch.touch req).answering .touched

/-- The server before any call has sent a statement. -/
def Server.start (calls : ι → Request) : Server ι where
  log := []
  held := []
  granted := []
  sess i := ⟨some (calls i).handler, 0, none⟩

end ProjectDb
