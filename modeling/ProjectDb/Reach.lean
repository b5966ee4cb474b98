import ProjectDb.Reapply

namespace ProjectDb
open Text ProjectDb.Path Mvcc Sync
set_option autoImplicit true

variable [ServerCollation]

/-- A connection whose store and open transaction both keep the schema. -/
def ConnSchema (c : Conn Store) : Prop := c.store.Schema ∧ ∀ w ∈ c.work, w.Schema

theorem serve_schema {env : Nat → Tick} (cmd : Cmd Op) {c : Conn Store} (h : ConnSchema c) :
    ConnSchema (engine.serve env cmd c).2 := by
  obtain ⟨hs, hw⟩ := h
  have hnone : ∀ w ∈ (none : Option Store), w.Schema := fun _ hw => by cases hw
  cases cmd with
  | acquire => exact ⟨hs, hw⟩
  | begin =>
    simp only [Rules.serve]
    cases engine.refused (env c.count) with
    | some e => exact ⟨hs, hw⟩
    | none =>
      refine ⟨hs, fun w hw => ?_⟩
      cases hw
      exact hs
  | commit =>
    simp only [Rules.serve]
    cases engine.unserved (env c.count) with
    | some e => exact ⟨hs, hw⟩
    | none =>
      refine ⟨?_, hnone⟩
      cases hc : c.work with
      | none => exact hs
      | some w => exact hw w hc
  | rollback =>
    simp only [Rules.serve]
    cases engine.refused (env c.count) with
    | some e => exact ⟨hs, hw⟩
    | none => exact ⟨hs, hnone⟩
  | close => exact ⟨hs, hnone⟩
  | stmt o =>
    simp only [Rules.serve]
    cases hc : c.work with
    | some w =>
      refine ⟨hs, fun w' hw' => ?_⟩
      cases hw'
      exact op_exec_schema _ o (hw w hc)
    | none => exact ⟨op_exec_schema _ o hs, hnone⟩

theorem Rpc.serve_schema {env : Nat → Tick} (x : Rpc α) {s : Store} (hs : s.Schema) :
    (x.serve env s).2.Schema := by
  have h : ConnSchema (x.eval env ⟨s, none, 0⟩).2 :=
    Prog.run_invariant (I := ConnSchema) (engine.serve env)
      (fun cmd _ h => ProjectDb.serve_schema cmd h) x.run ⟨hs, fun _ h => by cases h⟩
  exact h.1

variable [UuidCrate] [Idem.Sha256] [Message RegisterProjectRequest]
  [Message RegisterProjectResponse]

/-- A call that writes, with the certificate name of its caller where the verb reads one. -/
inductive Call
  | register (caller : Option Str) (req : RegisterProjectRequest)
  | sync (caller : Option Str) (req : SyncProjectsRequest)
  | touch (req : TouchProjectsRequest)

/-- The store after a call served alone. -/
def Call.served (env : Nat → Tick) (s : Store) : Call → Store
  | .register caller req => ((Register.registerAs caller req).serve env s).2
  | .sync caller req => ((syncAs caller req).serve env s).2
  | .touch req => ((Touch.touch req).serve env s).2

/-- Calls served one after another, each with what the outside gives it. -/
abbrev Run := List (Call × (Nat → Tick))

/-- The store after a run. -/
def storeAfter (s : Store) : Run → Store
  | [] => s
  | (c, env) :: run => storeAfter (c.served env s) run

/-- The stores that calls lead to, whatever the engine refuses and whatever the calls answer. -/
inductive Reaches (s₀ : Store) : Store → Prop
  | start : Reaches s₀ s₀
  | call (c : Call) (env : Nat → Tick) : Reaches s₀ s → Reaches s₀ (c.served env s)

/-- What a call can do to the tables it writes. -/
inductive Effect (s : Store) : Store → Prop
  | nothing : Effect s s
  | registered : Register.checked req = .ok (scope, cls) →
      Register.Registered req scope cls s s' → Effect s s'
  | synced : WellFormed req → Converged (rows req) actor s s' →
      Accepted s (rows req) guards → Effect s s'
  | touched : Touch.checked req = .ok (seconds, paths) →
      Effect s (Touch.touched s paths seconds)

theorem Call.effect (c : Call) (env : Nat → Tick) {s : Store} (hs : s.Schema) :
    Effect s (c.served env s) := by
  cases c with
  | register caller req =>
    simp only [Call.served]
    rcases Register.serve_registerAs caller req env s with h | ⟨scope, cls, hc, hreg⟩
    · rw [h]
      exact .nothing
    · exact .registered hc hreg
  | sync caller req =>
    simp only [Call.served]
    rcases serve_syncAs caller req env s with ⟨e, he⟩ | ⟨actor, response, s', n, _, hw, ha, hok⟩
    · rw [he]
      exact .nothing
    · rw [hok]
      obtain ⟨hconv, haccepted, _⟩ := apply_ok (validation_sound hw) hs ha
      exact .synced hw hconv haccepted
  | touch req =>
    simp only [Call.served]
    rcases Touch.serve_touch req env hs with h | ⟨seconds, paths, hc, h⟩
    · rw [h]
      exact .nothing
    · rw [h]
      exact .touched hc

theorem Call.served_schema (c : Call) (env : Nat → Tick) {s : Store} (hs : s.Schema) :
    (c.served env s).Schema := by
  cases c with
  | register caller req => exact Rpc.serve_schema _ hs
  | sync caller req => exact Rpc.serve_schema _ hs
  | touch req => exact Rpc.serve_schema _ hs

theorem storeAfter_schema (run : Run) {s : Store} (hs : s.Schema) :
    (storeAfter s run).Schema := by
  induction run generalizing s with
  | nil => exact hs
  | cons turn run ih => exact ih (turn.1.served_schema turn.2 hs)

/-- What every effect keeps on stores of the schema holds of every store reached. -/
theorem Reaches.induct {P : Store → Prop} (h : Reaches s₀ s) (hs : s₀.Schema) (start : P s₀)
    (step : ∀ s s', s.Schema → s'.Schema → P s → Effect s s' → P s') : s.Schema ∧ P s := by
  induction h with
  | start => exact ⟨hs, start⟩
  | call c env _ ih =>
    obtain ⟨hs, hp⟩ := ih
    have hs' := c.served_schema env hs
    exact ⟨hs', step _ _ hs hs' hp (c.effect env hs)⟩

end ProjectDb
