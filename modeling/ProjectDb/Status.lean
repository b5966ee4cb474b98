import ProjectDb.Text

namespace ProjectDb
open Text
set_option autoImplicit true

/-- The gRPC codes this service answers with. -/
inductive Code
  | invalidArgument
  | notFound
  | alreadyExists
  | permissionDenied
  | failedPrecondition
  | aborted
  | unavailable
  | deadlineExceeded
  | internal
  deriving DecidableEq, Repr

/-- A piece of a message: text of the source, or a value rendered with `{}` or `{:?}`. -/
inductive Piece
  | text (t : String)
  | shown (s : Str)
  | debug (s : Str)
  | num (n : Int)
  deriving DecidableEq, Repr

instance : Coe String Piece := ⟨.text⟩

/-- A refusal as `tonic` carries it. -/
structure Status where
  code : Code
  message : List Piece
  deriving DecidableEq, Repr

namespace Status

def invalidArgument (message : List Piece) : Status := ⟨.invalidArgument, message⟩

def notFound (message : List Piece) : Status := ⟨.notFound, message⟩

def alreadyExists (message : List Piece) : Status := ⟨.alreadyExists, message⟩

def permissionDenied (message : List Piece) : Status := ⟨.permissionDenied, message⟩

def failedPrecondition (message : List Piece) : Status := ⟨.failedPrecondition, message⟩

def aborted (message : List Piece) : Status := ⟨.aborted, message⟩

def unavailable (message : List Piece) : Status := ⟨.unavailable, message⟩

def deadlineExceeded (message : List Piece) : Status := ⟨.deadlineExceeded, message⟩

def internal (message : List Piece) : Status := ⟨.internal, message⟩

end Status

/-- The caller's name as a refusal renders it. -/
def shownCaller : Option Str → Piece
  | none => "no caller"
  | some c => .debug c

end ProjectDb
