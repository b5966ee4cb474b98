import ProjectDb.Mvcc
import ProjectDb.Protocol

namespace ProjectDb.Pool
open Mvcc
set_option autoImplicit true

variable {σ ω κ ε Q ι γ α : Type} {A : Q → Type} {T : Type u}

/-- A connection taken out of the pool for one call. It is armed while a `BEGIN` is in flight. -/
structure Pooled (γ : Type) where
  conn : γ
  armed : Bool

def Pooled.new (conn : γ) : Pooled γ := ⟨conn, false⟩

/-- Where a connection is: `returning` until the release-time ping is answered, and `closed` once
the handler that borrowed it last dropped it armed. -/
inductive Place (ι : Type)
  | unopened
  | idle
  | lent (i : ι)
  | returning
  | closed (i : ι)
  deriving DecidableEq

/-- A connection. `counted` is the client's count of transactions on it, `queue` what was written
to it and nobody waits for, and `tx` the transaction that the server has open there: its writes,
each with the handler that sent it. -/
structure Line (Q ω ι : Type) where
  place : Place ι
  counted : Bool
  queue : List (ι × Cmd Q)
  tx : Option (List (ι × ω))

/-- How far a handler has come: on its way to its next await, waiting for a command that the server
has not executed, or before a reply that it has not read. -/
inductive Stage (ε : Type) (A : Q → Type) (α : Type)
  | calls (p : Prog (Cmd.Reply ε A) α)
  | awaits (c : Cmd Q) (k : Cmd.Reply ε A c → Prog (Cmd.Reply ε A) α)
  | answered (c : Cmd Q) (r : Cmd.Reply ε A c) (k : Cmd.Reply ε A c → Prog (Cmd.Reply ε A) α)
  | gone

/-- A handler. `begun` is set once its `BEGIN` has returned. -/
structure Task (ε : Type) (A : Q → Type) (γ α : Type) where
  stage : Stage ε A α
  pooled : Option (Pooled γ)
  begun : Bool

/-- The pool, the handlers and the server: what every commit so far wrote, and the handlers whose
`COMMIT` the server executed. -/
structure World (ε : Type) (A : Q → Type) (ω ι γ α : Type) where
  log : List (List (ι × ω))
  reached : List ι
  line : γ → Line Q ω ι
  task : ι → Task ε A γ α

/-- What the server meets as it executes a command: how many commits a statement sees, whether it
finds its view outdated, and whether a command that fails takes its transaction along. A deadlock
rolls it back, and a `BEGIN` that fails may have opened one. -/
structure Chance (T : Type u) where
  tick : T
  view : Nat
  stale : Bool
  lost : Bool

inductive Act (ι γ : Type) (T : Type u)
  | connect (l : γ)
  | lend (i : ι) (l : γ)
  | refuse (i : ι) (t : T)
  | poll (i : ι)
  | exec (l : γ) (x : Chance T)
  | receive (i : ι)
  | cut (i : ι)
  | settle (l : γ)
  | disconnect (l : γ)

/-- What a command leaves: its reply, the transaction open on the connection, and what became
visible. -/
structure Effect (ε : Type) (A : Q → Type) (ω ι : Type) (c : Cmd Q) where
  reply : Cmd.Reply ε A c
  tx : Option (List (ι × ω))
  commits : List (List (ι × ω))

section
variable (R : Rules σ ω κ ε Q A T) (fatal : (q : Q) → A q → Bool) (s₀ : σ)

/-- The server's end of a command. Outside a transaction a statement commits itself, and a `BEGIN`
inside one commits that. After a `fatal` reply the server may have rolled back. -/
def execute (x : Chance T) (log : List (List (ι × ω))) (i : ι) (tx : Option (List (ι × ω))) :
    (c : Cmd Q) → Effect ε A ω ι c
  | .acquire => ⟨R.control x.tick, tx, []⟩
  | .begin =>
    match R.refused x.tick with
    | some e => ⟨.error e, if x.lost then some [] else tx, if x.lost then tx.toList else []⟩
    | none => ⟨.ok (), some [], tx.toList⟩
  | .commit =>
    match R.unserved x.tick with
    | some e => ⟨.error e, if x.lost then none else tx, []⟩
    | none => ⟨R.control x.tick, none, tx.toList⟩
  | .rollback =>
    match R.refused x.tick with
    | some e => ⟨.error e, if x.lost then none else tx, []⟩
    | none => ⟨.ok (), none, []⟩
  | .close => ⟨(), none, []⟩
  | .stmt q =>
    let seen := R.patchAll (((log.take x.view).flatten ++ tx.getD []).map Prod.snd) s₀
    let r := if x.stale then (R.stale q, []) else R.exec x.tick q seen
    let writes := r.2.map fun change => (i, change)
    match tx with
    | none => ⟨r.1, none, [writes]⟩
    | some own => ⟨r.1, if fatal q r.1 && x.lost then none else some (own ++ writes), []⟩

end

namespace Line

/-- `Transaction`'s `Drop`: where the client counts a transaction, a `ROLLBACK` is queued. -/
def dropTransaction (i : ι) (l : Line Q ω ι) : Line Q ω ι :=
  if l.counted then { l with counted := false, queue := l.queue ++ [(i, .close)] } else l

/-- `Pooled`'s `Drop`: an armed connection is closed, any other goes back to the pool. -/
def dropPooled (i : ι) (armed : Bool) (l : Line Q ω ι) : Line Q ω ι :=
  { l with place := if armed then .closed i else .returning }

/-- The client's count, which moves once a command has returned. -/
def count (l : Line Q ω ι) : (c : Cmd Q) → Cmd.Reply ε A c → Line Q ω ι
  | .begin, .ok _ => { l with counted := true }
  | .commit, .ok _ => { l with counted := false }
  | .rollback, .ok _ => { l with counted := false }
  | _, _ => l

end Line

namespace Task

/-- The task of a handler that was dropped or has returned. -/
def ended (t : Task ε A γ α) : Task ε A γ α := { t with stage := .gone, pooled := none }

/-- What a handler sets down before it writes a command: `begin` arms its connection. -/
def send (t : Task ε A γ α) (p : Pooled γ) (c : Cmd Q)
    (k : Cmd.Reply ε A c → Prog (Cmd.Reply ε A) α) : Task ε A γ α :=
  match c with
  | .begin => { t with stage := .awaits .begin k, pooled := some { p with armed := true } }
  | c => { t with stage := .awaits c k }

/-- What a handler sets down once a command has returned: `begin` disarms its connection. -/
def receive (t : Task ε A γ α) (p : Pooled γ) (c : Cmd Q) (r : Cmd.Reply ε A c)
    (k : Cmd.Reply ε A c → Prog (Cmd.Reply ε A) α) : Task ε A γ α :=
  match c, r with
  | .begin, .ok _ => ⟨.calls (k (.ok ())), some { p with armed := false }, true⟩
  | _, r => { t with stage := .calls (k r) }

/-- What a handler that is dropped leaves on its connection unread: a command that the server has
not executed. -/
def unread (t : Task ε A γ α) (i : ι) : List (ι × Cmd Q) :=
  match t.stage with
  | .awaits c _ => [(i, c)]
  | _ => []

end Task

namespace World

/-- The pool before any call: nothing is open. -/
def start (calls : ι → Prog (Cmd.Reply ε A) α) : World ε A ω ι γ α where
  log := []
  reached := []
  line _ := ⟨.unopened, false, [], none⟩
  task i := ⟨.calls (calls i), none, false⟩

variable [DecidableEq ι] [DecidableEq γ]

def putTask (w : World ε A ω ι γ α) (i : ι) (t : Task ε A γ α) : World ε A ω ι γ α :=
  { w with task := Function.update w.task i t }

def putLine (w : World ε A ω ι γ α) (l : γ) (ln : Line Q ω ι) : World ε A ω ι γ α :=
  { w with line := Function.update w.line l ln }

/-- End a handler wherever it is: its `Transaction` is dropped first, and then its `Pooled`. -/
def dropTask (w : World ε A ω ι γ α) (i : ι) : World ε A ω ι γ α :=
  let t := w.task i
  match t.pooled with
  | none => w.putTask i t.ended
  | some p =>
    let ln := w.line p.conn
    let ln := { ln with queue := ln.queue ++ t.unread i }
    (w.putTask i t.ended).putLine p.conn ((ln.dropTransaction i).dropPooled i p.armed)

/-- What the server executed becomes visible, and a `COMMIT` has reached it. -/
def commit (w : World ε A ω ι γ α) (i : ι) (c : Cmd Q) (commits : List (List (ι × ω))) :
    World ε A ω ι γ α :=
  { w with
    log := w.log ++ commits
    reached := w.reached ++ match c with
      | .commit => [i]
      | _ => [] }

section
variable (R : Rules σ ω κ ε Q A T) (fatal : (q : Q) → A q → Bool) (s₀ : σ)

/-- The server executes the oldest command of a connection. Its handler waits for the last one
only, and nobody for those that are queued before it. -/
def exec (w : World ε A ω ι γ α) (l : γ) (x : Chance T) : Option (World ε A ω ι γ α) :=
  let ln := w.line l
  match ln.queue with
  | (i, c) :: rest =>
    let e := execute R fatal s₀ x w.log i ln.tx c
    some ((w.commit i c e.commits).putLine l { ln with queue := rest, tx := e.tx })
  | [] =>
    match ln.place with
    | .lent i =>
      match (w.task i).stage with
      | .awaits c k =>
        let e := execute R fatal s₀ x w.log i ln.tx c
        some (((w.commit i c e.commits).putLine l { ln with tx := e.tx }).putTask i
          { w.task i with stage := .answered c e.reply k })
      | _ => none
    | _ => none

/-- A handler runs to its next await or to its end. -/
def poll (w : World ε A ω ι γ α) (i : ι) : Option (World ε A ω ι γ α) :=
  let t := w.task i
  match t.stage, t.pooled with
  | .calls (.done _), _ => some (w.dropTask i)
  | .calls (.ask .close k), some p =>
    some ((w.putTask i { t with stage := .calls (k ()) }).putLine p.conn
      ((w.line p.conn).dropTransaction i))
  | .calls (.ask .acquire _), _ => none
  | .calls (.ask c k), some p => some (w.putTask i (t.send p c k))
  | _, _ => none

def step (w : World ε A ω ι γ α) : Act ι γ T → Option (World ε A ω ι γ α)
  | .connect l =>
    match (w.line l).place with
    | .unopened => some (w.putLine l { w.line l with place := .idle })
    | _ => none
  | .lend i l =>
    match (w.task i).stage, (w.line l).place with
    | .calls (.ask .acquire k), .idle =>
      some ((w.putTask i
        { w.task i with stage := .calls (k (.ok ())), pooled := some (.new l) }).putLine l
        { w.line l with place := .lent i })
    | _, _ => none
  | .refuse i t =>
    match (w.task i).stage, R.refused t with
    | .calls (.ask .acquire k), some e =>
      some (w.putTask i { w.task i with stage := .calls (k (.error e)) })
    | _, _ => none
  | .poll i => w.poll i
  | .exec l x => w.exec R fatal s₀ l x
  | .receive i =>
    match (w.task i).stage, (w.task i).pooled with
    | .answered c r k, some p =>
      some ((w.putTask i ((w.task i).receive p c r k)).putLine p.conn
        ((w.line p.conn).count c r))
    | _, _ => none
  | .cut i =>
    match (w.task i).stage with
    | .gone => none
    | _ => some (w.dropTask i)
  | .settle l =>
    match (w.line l).place, (w.line l).queue with
    | .returning, [] => some (w.putLine l { w.line l with place := .idle })
    | _, _ => none
  | .disconnect l =>
    match (w.line l).place with
    | .closed _ => some (w.putLine l { w.line l with queue := [], tx := none })
    | _ => none

def run : World ε A ω ι γ α → List (Act ι γ T) → Option (World ε A ω ι γ α)
  | w, [] => some w
  | w, a :: acts => (w.step R fatal s₀ a).bind fun v => v.run acts

end
end World
end ProjectDb.Pool
