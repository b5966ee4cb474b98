import ProjectDb.Handler

namespace ProjectDb
open Text ProjectDb.Path
set_option autoImplicit true

namespace Grants

def teamPrefix : Str := "yadgar:team:".toList

def maxTeamNameChars : Nat := 63

def isAsciiLowercase (c : Char) : Bool := 'a' ≤ c && c ≤ 'z'

def isAsciiDigit (c : Char) : Bool := '0' ≤ c && c ≤ '9'

def isTeamId (id : Str) : Bool :=
  match teamPrefix.isPrefixOf? id with
  | none => false
  | some [] => false
  | some (c :: chars) =>
    isAsciiLowercase c && (c :: chars).length ≤ maxTeamNameChars &&
      chars.all (fun c => isAsciiLowercase c || isAsciiDigit c || c == '-')

/-- The level a grant is stored with; the zero level and unknown ones are refused. -/
def levelOf (level : Int) : Option Int :=
  match GrantLevel.tryFrom level with
  | some .read => some GrantLevel.read.toI8
  | some .readWrite => some GrantLevel.readWrite.toI8
  | _ => none

/-- The loop of `validate` over one row's grants, with the teams already seen. -/
def validateFrom (path : Str) : List DeclaredGrant → List Str → Except Status (List (Str × Int))
  | [], _ => .ok []
  | g :: gs, seen =>
    match levelOf g.level with
    | none =>
      .error (.invalidArgument ["the grant to ", .debug g.teamId, " on ", .debug path,
        " has level ", .num g.level, ", which is not read (1) or read-write (2). ",
        "GRANT_LEVEL_UNSPECIFIED is refused, never stored as read"])
    | some level =>
      if !isTeamId g.teamId then
        .error (.invalidArgument ["the grant on ", .debug path, " names ", .debug g.teamId,
          ", which is not a team id. A team id is ", .debug teamPrefix, " followed by a declared ",
          "team name: a lowercase letter, then up to 62 lowercase letters, digits or hyphens"])
      else if seen.contains g.teamId then
        .error (.invalidArgument [.debug path, " grants ", .debug g.teamId,
          " twice. One team appears at most once per row"])
      else do
        let out ← validateFrom path gs (g.teamId :: seen)
        .ok ((g.teamId, level) :: out)

def validate (d : DeclaredProject) : Except Status (List (Str × Int)) :=
  validateFrom d.path d.grants []

end Grants

namespace Sync

def maxChars : Nat := 255

/-- One declared row, after validation, with its case-folded key. -/
structure Declared where
  key : Str
  path : Str
  displayName : Str
  sourceRepo : Str
  grants : List (Str × Int)
  deriving DecidableEq, Repr

/-- The width check of one text field of a declared row. -/
def refuseWide (field : String) (value path : Str) : Except Status Unit :=
  if value.length > maxChars then
    .error (.invalidArgument ["the ", field, " of ", .debug path, " is ", .num value.length,
      " characters and the limit is ", .num maxChars])
  else .ok ()

/-- One row's own checks: grammar, class, the two column widths and its grants. -/
def row (what : String) (d : DeclaredProject) : Except Status Declared := do
  Path.validate what d.path
  refuseReservedRoot what d.path
  if isPrivateClass d.path then
    .error (.invalidArgument [what, " ", .debug d.path, " is a private `local/...` path. A sync ",
      "declares organisation projects only; a personal project belongs to one account and is ",
      "registered by it"])
  else if d.sourceRepo.isEmpty then
    .error (.invalidArgument [.debug d.path, " has no source_repo. Every declared row is org ",
      "class, and an org row names the repository whose pull request flow governs it"])
  else do
    refuseWide "source_repo" d.sourceRepo d.path
    refuseWide "display_name" d.displayName d.path
    let grants ← Grants.validate d
    .ok ⟨toAsciiLowercase d.path, d.path, d.displayName, d.sourceRepo, grants⟩

/-- The loop over `req.roots`. -/
def validateRoots : List DeclaredProject → Except Status (List Declared)
  | [] => .ok []
  | root :: roots => do
    let r ← row "roots[].path" root
    if root.path.contains '/' then
      .error (.invalidArgument ["the root ", .debug root.path, " has more than one segment. A ",
        "root is a namespace anchor, a single segment such as \"acme\"; declare a deeper path as ",
        "a project"])
    else do
      let out ← validateRoots roots
      .ok (r :: out)

/-- The loop over `req.projects`, with the keys of the roots. -/
def validateProjects (roots : List Str) : List DeclaredProject → Except Status (List Declared)
  | [] => .ok []
  | project :: projects => do
    let r ← row "projects[].path" project
    let first := (segments r.key).headD []
    if !r.key.contains '/' || !roots.contains first then
      .error (.invalidArgument ["the project ", .debug project.path, " is not under a declared ",
        "root. Every project sits strictly beneath one of the declaration's roots"])
    else do
      let out ← validateProjects roots projects
      .ok (r :: out)

/-- Two spellings of one path are one path to the store. -/
def refuseDuplicates : List Declared → List Str → Except Status Unit
  | [], _ => .ok ()
  | row :: rows, seen =>
    if seen.contains row.key then
      .error (.invalidArgument [.debug row.path, " is declared twice (paths are compared with ",
        "ASCII case folded, as the store compares them)"])
    else refuseDuplicates rows (row.key :: seen)

/-- The whole request, or nothing. -/
def validate (req : SyncProjectsRequest) : Except Status (List Declared) :=
  if req.roots.isEmpty then
    .error (.invalidArgument ["a declaration names at least one root: the namespace anchors every ",
      "project sits under (ADR-0673). None was sent"])
  else do
    let roots ← validateRoots req.roots
    let projects ← validateProjects (roots.map Declared.key) req.projects
    refuseDuplicates (roots ++ projects) []
    .ok (roots ++ projects)

end Sync

end ProjectDb
