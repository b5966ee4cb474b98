import ProjectDb.Storable

namespace ProjectDb
open Text Mvcc
set_option autoImplicit true

variable [ServerCollation] {env : Nat → Tick} {R : Store → Store → Prop}

/-- On every store related to this one the statement answers and writes the same, and its writes
keep the two related. -/
def Stmt.Respects (R : Store → Store → Prop) (t : Tick) (q : Stmt) (s : Store) : Prop :=
  ∀ s', R s s' → q.exec t s' = q.exec t s ∧
    ∀ a ws, q.exec t s = .ok (a, ws) → R (engine.patchAll ws s) (engine.patchAll ws s')

/-- What the statement writes keeps a condition on stores. -/
def Stmt.Keeps (I : Store → Prop) (t : Tick) (q : Stmt) (s : Store) : Prop :=
  I s → ∀ a ws, q.exec t s = .ok (a, ws) → I (engine.patchAll ws s)

theorem op_respects {t : Tick} {o : Op} (h : o.Holds (Stmt.Respects R) t s) (hR : R s s') :
    (o.exec t s).1 = (o.exec t s').1 ∧
      R (engine.patchAll (o.exec t s).2 s) (engine.patchAll (o.exec t s').2 s') := by
  cases o with
  | nowV7 => exact ⟨rfl, hR⟩
  | sql q =>
    obtain ⟨hexec, hpatch⟩ := h s' hR
    simp only [Op.exec, hexec]
    cases t.fault with
    | some f => exact ⟨trivial, hR⟩
    | none =>
      cases hq : q.exec t s with
      | error e => exact ⟨trivial, hR⟩
      | ok r => exact ⟨trivial, hpatch r.1 r.2 hq⟩

/-- Two connections at the same operation, on related stores and in related transactions. -/
structure ConnRel (R : Store → Store → Prop) (c c' : Conn Store) : Prop where
  store : R c.store c'.store
  work : Option.Rel R c.work c'.work
  count : c.count = c'.count

theorem serve_respects (q : Cmd Op) {c c' : Conn Store} (hR : ConnRel R c c')
    (h : cmdHolds (Stmt.Respects R) env q c) :
    (engine.serve env q c).1 = (engine.serve env q c').1 ∧
      ConnRel R (engine.serve env q c).2 (engine.serve env q c').2 := by
  obtain ⟨s, w, n⟩ := c
  obtain ⟨s', w', n'⟩ := c'
  obtain ⟨hs, hw, rfl⟩ := hR
  cases q with
  | acquire => exact ⟨rfl, hs, hw, rfl⟩
  | begin =>
    simp only [Rules.serve]
    cases engine.refused (env n) with
    | some e => exact ⟨rfl, hs, hw, rfl⟩
    | none => exact ⟨rfl, hs, .some hs, rfl⟩
  | commit =>
    simp only [Rules.serve]
    cases engine.unserved (env n) with
    | some e => exact ⟨rfl, hs, hw, rfl⟩
    | none =>
      cases hw with
      | none => exact ⟨rfl, hs, .none, rfl⟩
      | some hw => exact ⟨rfl, hw, .none, rfl⟩
  | rollback =>
    simp only [Rules.serve]
    cases engine.refused (env n) with
    | some e => exact ⟨rfl, hs, hw, rfl⟩
    | none => exact ⟨rfl, hs, .none, rfl⟩
  | close => exact ⟨rfl, hs, .none, rfl⟩
  | stmt o =>
    cases hw with
    | none =>
      obtain ⟨hreply, hafter⟩ := op_respects h hs
      exact ⟨hreply, hafter, .none, rfl⟩
    | some hw =>
      obtain ⟨hreply, hafter⟩ := op_respects h hw
      exact ⟨hreply, hs, .some hafter, rfl⟩

namespace Rpc

/-- A handler whose statements respect a relation answers alike on related stores, and leaves
related stores. -/
theorem simulates {x : Rpc α} {s s' : Store} (h : x.Sends (Stmt.Respects R) env ⟨s, none, 0⟩)
    (hR : R s s') :
    (x.serve env s).1 = (x.serve env s').1 ∧ R (x.serve env s).2 (x.serve env s').2 := by
  have hc : ConnRel R ⟨s, none, 0⟩ ⟨s', none, 0⟩ := ⟨hR, .none, rfl⟩
  obtain ⟨hanswer, hstore, _⟩ := Prog.run_simulates (engine.serve env)
    (fun q _ _ hc hq => serve_respects q hc hq) h hc
  exact ⟨hanswer, hstore⟩

theorem keeps {I : Store → Prop} {x : Rpc α} {s : Store}
    (h : x.Sends (Stmt.Keeps I) env ⟨s, none, 0⟩) (hI : I s) : I (x.serve env s).2 := by
  have hself : x.Sends (Stmt.Respects fun a b => a = b ∧ I a) env ⟨s, none, 0⟩ := by
    apply h.mono
    intro t q s hq s' hR
    obtain ⟨rfl, hs⟩ := hR
    exact ⟨rfl, fun a ws hx => ⟨rfl, hq hs a ws hx⟩⟩
  obtain ⟨_, _, hkept⟩ := simulates hself ⟨rfl, hI⟩
  exact hkept

end Rpc

end ProjectDb
