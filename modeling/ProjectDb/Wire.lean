import ProjectDb.Schema

namespace ProjectDb
open Text
set_option autoImplicit true

structure Scope where
  userId : Str
  projectId : Str
  deriving DecidableEq, Repr

structure Idempotency where
  key : Str
  deriving DecidableEq, Repr

structure Timestamp where
  seconds : Int
  deriving DecidableEq, Repr

/-- The record envelope. Its name is `meta` on the wire, which is a keyword here. -/
structure Meta where
  id : Str
  version : Nat
  projectId : Str
  ownerUserId : Str
  teamId : Str
  visibility : Int
  createdBy : Str
  updatedBy : Str
  createdAt : Option Timestamp
  updatedAt : Option Timestamp
  deletedAt : Option Timestamp
  derivedFrom : List Str
  deriving DecidableEq, Repr

structure DeclaredGrant where
  teamId : Str
  level : Int
  deriving DecidableEq, Repr

structure DeclaredProject where
  path : Str
  displayName : Str
  sourceRepo : Str
  grants : List DeclaredGrant
  deriving DecidableEq, Repr

structure SyncProjectsRequest where
  scope : Option Scope
  roots : List DeclaredProject
  projects : List DeclaredProject
  allowMassArchive : Bool
  allowMassRevoke : Bool
  deriving DecidableEq, Repr

/-- The counts are `uint32` on the wire. None wraps: no request holds that many rows, and what a
sync archives or revokes an earlier request declared. -/
structure SyncProjectsResponse where
  inserted : Nat
  updated : Nat
  archived : Nat
  reactivated : Nat
  unchanged : Nat
  grantsDeclared : Nat
  grantsInserted : Nat
  grantsDeleted : Nat
  grantsUnchanged : Nat
  deriving DecidableEq, Repr

def SyncProjectsResponse.default : SyncProjectsResponse := ⟨0, 0, 0, 0, 0, 0, 0, 0, 0⟩

structure RegisterProjectRequest where
  idempotency : Option Idempotency
  scope : Option Scope
  path : Str
  displayName : Str
  sourceRepo : Str
  deriving DecidableEq, Repr

structure RegisterProjectResponse where
  envelope : Option Meta
  deriving DecidableEq, Repr

structure TouchProjectsRequest where
  scope : Option Scope
  paths : List Str
  seenAt : Option Timestamp
  deriving DecidableEq, Repr

structure TouchProjectsResponse where
  deriving DecidableEq, Repr

structure ResolveProjectRequest where
  candidatePath : Str
  deriving DecidableEq, Repr

structure ResolveProjectResponse where
  resolvedPath : Str
  exact : Bool
  viaAlias : Bool
  status : Int
  sourceRepo : Str
  deriving DecidableEq, Repr

structure Project where
  envelope : Option Meta
  path : Str
  displayName : Str
  status : Int
  lastSeenAt : Option Timestamp
  aliases : List Str
  grants : List DeclaredGrant
  deriving DecidableEq, Repr

structure GetProjectRequest where
  path : Str
  deriving DecidableEq, Repr

structure GetProjectResponse where
  project : Option Project
  deriving DecidableEq, Repr

structure ListProjectsRequest where
  underPath : Str
  status : Option Int
  pageSize : Int
  pageToken : Str
  deriving DecidableEq, Repr

structure ListProjectsResponse where
  projects : List Project
  nextPageToken : Str
  deriving DecidableEq, Repr

/-- A protobuf message as `prost` encodes it: decoding gives an encoded message back, and no
bytes are the message whose every field is unset. -/
class Message (τ : Type) where
  encodeToVec : τ → Bytes
  decode : Bytes → Option τ
  unset : τ
  decode_encodeToVec : ∀ m, decode (encodeToVec m) = some m
  decode_nil : decode [] = some unset

end ProjectDb
