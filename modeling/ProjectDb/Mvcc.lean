import ProjectDb.Prog
import Mathlib.Data.List.Basic
import Mathlib.Logic.Function.Basic

namespace Mvcc
set_option autoImplicit true

/-- What one connection asks for: a pooled connection, control of its transaction, or a
statement. `close` is the end of a transaction's scope, which rolls back what is still open. -/
inductive Cmd (Q : Type)
  | acquire
  | begin
  | commit
  | rollback
  | close
  | stmt (q : Q)

def Cmd.Reply (ε : Type) (A : Q → Type) : Cmd Q → Type
  | .acquire => Except ε Unit
  | .begin => Except ε Unit
  | .commit => Except ε Unit
  | .rollback => Except ε Unit
  | .close => Unit
  | .stmt q => A q

/-- How an engine executes statements `Q` on stores `σ`.

A statement answers and lists its record writes `ω`. `locks` are the records it locks without
writing them, `writes` the records a write locks, and `revises` those among them that existed
before. A statement that `stale` answers has found such a record changed since its read view. A
control command that is `refused` was not executed, unless it `landed` and its reply alone was
lost. -/
structure Rules (σ ω κ ε Q : Type) (A : Q → Type) (T : Type u) where
  exec : T → (q : Q) → σ → A q × List ω
  patch : ω → σ → σ
  refused : T → Option ε
  landed : T → Bool
  nonlocking : Q → Bool
  locks : T → Q → σ → List κ
  writes : ω → List κ
  revises : ω → List κ
  stale : (q : Q) → A q

variable {σ ω κ ε Q ι α : Type} {A : Q → Type} {T : Type u}

def Rules.patchAll (R : Rules σ ω κ ε Q A T) (ws : List ω) (s : σ) : σ :=
  ws.foldl (fun s w => R.patch w s) s

def Rules.control (R : Rules σ ω κ ε Q A T) (t : T) : Except ε Unit :=
  match R.refused t with
  | some e => .error e
  | none => .ok ()

theorem Rules.control_of_refused {R : Rules σ ω κ ε Q A T} {t : T} (h : R.refused t = some e) :
    R.control t = .error e := by
  unfold control
  rw [h]

theorem Rules.control_of_executed {R : Rules σ ω κ ε Q A T} {t : T} (h : R.refused t = none) :
    R.control t = .ok () := by
  unfold control
  rw [h]

/-- Why the server executes no `COMMIT`. -/
def Rules.unserved (R : Rules σ ω κ ε Q A T) (t : T) : Option ε :=
  if R.landed t then none else R.refused t

theorem Rules.refused_of_unserved {R : Rules σ ω κ ε Q A T} {t : T} (h : R.unserved t = some e) :
    R.refused t = some e := by
  unfold unserved at h
  split at h
  · cases h
  · exact h

/-- A connection served alone: the committed store and the open transaction's own copy. -/
structure Conn (σ : Type) where
  store : σ
  work : Option σ
  count : Nat

/-- Serve one command of a connection that nobody interleaves with. -/
def Rules.serve (R : Rules σ ω κ ε Q A T) (env : Nat → T) :
    (c : Cmd Q) → Conn σ → Cmd.Reply ε A c × Conn σ
  | .acquire, c => (R.control (env c.count), { c with count := c.count + 1 })
  | .begin, c =>
    match R.refused (env c.count) with
    | some e => (.error e, { c with count := c.count + 1 })
    | none => (.ok (), { c with work := some c.store, count := c.count + 1 })
  | .commit, c =>
    match R.unserved (env c.count) with
    | some e => (.error e, { c with count := c.count + 1 })
    | none => (R.control (env c.count), ⟨c.work.getD c.store, none, c.count + 1⟩)
  | .rollback, c =>
    match R.refused (env c.count) with
    | some e => (.error e, { c with count := c.count + 1 })
    | none => (.ok (), { c with work := none, count := c.count + 1 })
  | .close, c => ((), { c with work := none, count := c.count + 1 })
  | .stmt q, c =>
    match c.work with
    | some w =>
      let r := R.exec (env c.count) q w
      (r.1, { c with work := some (R.patchAll r.2 w), count := c.count + 1 })
    | none =>
      let r := R.exec (env c.count) q c.store
      (r.1, { c with store := R.patchAll r.2 c.store, count := c.count + 1 })

/-- An open transaction: when its read view opened, counted in commits, and what it wrote. -/
structure Tx (ω : Type) where
  view : Option Nat
  own : List ω

/-- One handler in flight. `rest` is absent once the handler is cut off. -/
structure Session (ε : Type) (A : Q → Type) (ω α : Type) where
  rest : Option (Prog (Cmd.Reply ε A) α)
  count : Nat
  tx : Option (Tx ω)

/-- The server under concurrent handlers: every commit so far with its writer, the lock table,
every lock ever granted, and the handlers. -/
structure World (ε : Type) (A : Q → Type) (ω κ ι α : Type) where
  log : List (ι × List ω)
  held : List (ι × κ)
  granted : List (ι × κ)
  sess : ι → Session ε A ω α

/-- Run the next command of a handler, or cut the handler off. -/
inductive Act (ι : Type)
  | run (i : ι)
  | cut (i : ι)

variable [DecidableEq ι] [DecidableEq κ]

namespace World

/-- The store after the first `n` commits. -/
def storeAt (R : Rules σ ω κ ε Q A T) (s₀ : σ) (w : World ε A ω κ ι α) (n : Nat) : σ :=
  R.patchAll ((w.log.take n).flatMap Prod.snd) s₀

def committed (R : Rules σ ω κ ε Q A T) (s₀ : σ) (w : World ε A ω κ ι α) : σ :=
  R.patchAll (w.log.flatMap Prod.snd) s₀

/-- Another handler holds one of the records. -/
def blocked (w : World ε A ω κ ι α) (i : ι) (keys : List κ) : Bool :=
  w.held.any (fun h => h.1 != i && keys.contains h.2)

/-- One of the records was changed by a commit that the read view does not see. -/
def outdated (R : Rules σ ω κ ε Q A T) (w : World ε A ω κ ι α) (view : Option Nat)
    (keys : List κ) : Bool :=
  match view with
  | none => false
  | some v => (w.log.drop v).any (fun e => (e.2.flatMap R.writes).any keys.contains)

def put (w : World ε A ω κ ι α) (i : ι) (s : Session ε A ω α) : World ε A ω κ ι α :=
  { w with sess := Function.update w.sess i s }

/-- Give a handler's locks back. -/
def release (w : World ε A ω κ ι α) (i : ι) : World ε A ω κ ι α :=
  { w with held := w.held.filter (fun h => h.1 != i) }

/-- Grant a handler locks. -/
def grant (w : World ε A ω κ ι α) (i : ι) (keys : List κ) : World ε A ω κ ι α :=
  { w with
    held := w.held ++ keys.map (fun k => (i, k))
    granted := w.granted ++ keys.map (fun k => (i, k)) }

/-- Serve one command of a handler, or nothing while it waits for a lock. -/
def serve (R : Rules σ ω κ ε Q A T) (s₀ : σ) (t : T) (w : World ε A ω κ ι α) (i : ι)
    (n : Nat) (tx : Option (Tx ω)) :
    (c : Cmd Q) → (Cmd.Reply ε A c → Prog (Cmd.Reply ε A) α) → Option (World ε A ω κ ι α)
  | .acquire, k => some (w.put i ⟨some (k (R.control t)), n + 1, tx⟩)
  | .begin, k =>
    match R.refused t with
    | some e => some (w.put i ⟨some (k (.error e)), n + 1, tx⟩)
    | none => some (w.put i ⟨some (k (.ok ())), n + 1, some ⟨none, []⟩⟩)
  | .commit, k =>
    match R.unserved t, tx with
    | some e, _ => some (w.put i ⟨some (k (.error e)), n + 1, tx⟩)
    | none, none => some (w.put i ⟨some (k (R.control t)), n + 1, none⟩)
    | none, some x =>
      some ({ (w.release i) with log := w.log ++ [(i, x.own)] }.put i
        ⟨some (k (R.control t)), n + 1, none⟩)
  | .rollback, k =>
    match R.refused t with
    | some e => some (w.put i ⟨some (k (.error e)), n + 1, tx⟩)
    | none => some ((w.release i).put i ⟨some (k (.ok ())), n + 1, none⟩)
  | .close, k => some ((w.release i).put i ⟨some (k ()), n + 1, none⟩)
  | .stmt q, k =>
    match tx with
    | none =>
      let r := R.exec t q (w.committed R s₀)
      let keys := R.locks t q (w.committed R s₀) ++ r.2.flatMap R.writes
      if R.nonlocking q then some (w.put i ⟨some (k r.1), n + 1, none⟩)
      else if w.blocked i keys then none
      else some ({ w with log := w.log ++ [(i, r.2)] }.put i ⟨some (k r.1), n + 1, none⟩)
    | some x =>
      if R.nonlocking q then
        let v := x.view.getD w.log.length
        let r := R.exec t q (R.patchAll x.own (w.storeAt R s₀ v))
        some (w.put i ⟨some (k r.1), n + 1, some ⟨some v, x.own⟩⟩)
      else
        let cur := R.patchAll x.own (w.committed R s₀)
        let r := R.exec t q cur
        let keys := R.locks t q cur ++ r.2.flatMap R.writes
        if w.blocked i keys then none
        else if w.outdated R x.view (r.2.flatMap R.revises) then
          some (w.put i ⟨some (k (R.stale q)), n + 1, some x⟩)
        else
          some ((w.grant i keys).put i ⟨some (k r.1), n + 1, some ⟨x.view, x.own ++ r.2⟩⟩)

/-- One step of the server under concurrent handlers. -/
def step (R : Rules σ ω κ ε Q A T) (s₀ : σ) (env : ι → Nat → T) (w : World ε A ω κ ι α) :
    Act ι → Option (World ε A ω κ ι α)
  | .run i =>
    match (w.sess i).rest with
    | some (.ask c k) => w.serve R s₀ (env i (w.sess i).count) i (w.sess i).count (w.sess i).tx c k
    | _ => none
  | .cut i => some ((w.release i).put i ⟨none, (w.sess i).count, none⟩)

end World

end Mvcc
