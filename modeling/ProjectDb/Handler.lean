import ProjectDb.Sql

namespace ProjectDb
open Text Mvcc
set_option autoImplicit true

/-- The `Scope` a write requires. -/
def scopeOf (scope : Option Scope) : Except Status Scope :=
  match scope with
  | some scope => .ok scope
  | none => .error (.invalidArgument ["scope is required and is attested by the gateway"])

/-- What runs inside a transaction, with `?` as the error of `ExceptT`. -/
abbrev Txn (α : Type) := ExceptT Status (Prog Op.Reply) α

/-- A whole handler, from its checks to its answer. -/
abbrev Rpc (α : Type) := ExceptT Status (Prog (Cmd.Reply SqlError Op.Reply)) α

namespace Txn

/-- Send a statement and look at what came back. -/
def attempt (q : Stmt) : Txn (Except SqlError q.Reply) :=
  ExceptT.mk (.ask (.sql q) fun (r : Except SqlError q.Reply) => .done (.ok r))

/-- Send a statement, `.map_err(internal)?`. -/
def query (q : Stmt) : Txn q.Reply :=
  ExceptT.mk (.ask (.sql q) fun (r : Except SqlError q.Reply) => .done (r.mapError internal))

def nowV7 : Txn Str := ExceptT.mk (.ask .nowV7 fun (r : Str) => .done (.ok r))

/-- A refusal or a value computed without the store. -/
def ofExcept (r : Except Status α) : Txn α := ExceptT.mk (.done r)

end Txn

namespace Rpc

def ofExcept (r : Except Status α) : Rpc α := ExceptT.mk (.done r)

/-- `Pooled::acquire`: the caller's deadline, or the pool's own ceiling. -/
def acquire : Rpc Unit :=
  ExceptT.mk (.ask .acquire fun (r : Except SqlError Unit) => .done (match r with
    | .ok () => .ok ()
    | .error (.fault .deadlineSpent) => .error (.deadlineExceeded
        ["no connection was free before the caller's deadline (grpc-timeout, ADR-1019)"])
    | .error e => .error (internal e)))

def begin : Rpc Unit :=
  ExceptT.mk (.ask .begin fun (r : Except SqlError Unit) => .done (r.mapError internal))

def commit : Rpc Unit :=
  ExceptT.mk (.ask .commit fun (r : Except SqlError Unit) => .done (r.mapError internal))

def rollback : Rpc Unit :=
  ExceptT.mk (.ask .rollback fun (r : Except SqlError Unit) => .done (r.mapError internal))

def send (o : Op) : Prog (Cmd.Reply SqlError Op.Reply) o.Reply := Prog.call (Cmd.stmt o)

/-- Run a transaction's statements on the handler's connection, and catch their refusal. -/
def inTxn (x : Txn α) : Rpc (Except Status α) :=
  ExceptT.mk ((x.run.embed send).bind fun r => .done (.ok r))

/-- The scope that owns a transaction, which rolls back at its end what is still open. -/
def closing (x : Rpc α) : Rpc α :=
  ExceptT.mk (x.run.bind fun r => .ask .close fun (_ : Unit) => .done r)

/-- A plain read outside a transaction. -/
def read (q : Stmt) : Rpc q.Reply :=
  ExceptT.mk (.ask (.stmt (.sql q)) fun (r : Except SqlError q.Reply) =>
    .done (r.mapError internal))

end Rpc

end ProjectDb
