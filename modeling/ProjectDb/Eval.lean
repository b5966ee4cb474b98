import ProjectDb.Handler

namespace ProjectDb
open Text Mvcc
set_option autoImplicit true

variable [ServerCollation]

/-- Serve an operation on a transaction's own copy of the store, counting operations. -/
def serveOp (env : Nat → Tick) (o : Op) (s : Store × Nat) : o.Reply × (Store × Nat) :=
  ((o.exec (env s.2) s.1).1, engine.patchAll (o.exec (env s.2) s.1).2 s.1, s.2 + 1)

/-- Run a transaction's statements alone. -/
def Txn.eval (env : Nat → Tick) (x : Txn α) (s : Store × Nat) :
    Except Status α × (Store × Nat) :=
  x.run.run (serveOp env) s

/-- Run a handler alone on a connection. -/
def Rpc.eval (env : Nat → Tick) (x : Rpc α) (c : Conn Store) : Except Status α × Conn Store :=
  x.run.run (engine.serve env) c

/-- A call served alone: its answer and the committed store after it. -/
def Rpc.serve (env : Nat → Tick) (x : Rpc α) (s : Store) : Except Status α × Store :=
  ((x.eval env ⟨s, none, 0⟩).1, (x.eval env ⟨s, none, 0⟩).2.store)

/-- The server executes a `COMMIT`, though its reply may be lost. -/
def Tick.commits (t : Tick) : Bool := t.fault.all (· == .replyLost)

/-- What a handler answers once its `COMMIT` was executed. -/
def Tick.acked (t : Tick) (a : α) : Except Status α :=
  if t.fault = some .replyLost then .error (internal (.fault .replyLost)) else .ok a

/-- The engine refuses no statement of the call. -/
def Faultless (env : Nat → Tick) : Prop := ∀ n, (env n).fault = none

omit [ServerCollation] in
theorem Tick.acked_ok {t : Tick} {a b : α} (h : t.acked a = .ok b) : a = b := by
  unfold acked at h
  split_ifs at h
  cases h
  rfl

omit [ServerCollation] in
theorem Tick.acked_error {t : Tick} {a : α} (h : t.acked a = .error e) :
    t.fault = some .replyLost ∧ e = internal (.fault .replyLost) := by
  unfold acked at h
  split_ifs at h with hlost
  cases h
  exact ⟨hlost, rfl⟩

variable {env : Nat → Tick}

namespace Txn

@[simp] theorem eval_pure (a : α) (s : Store × Nat) :
    (pure a : Txn α).eval env s = (.ok a, s) := rfl

@[simp] theorem eval_ofExcept (r : Except Status α) (s : Store × Nat) :
    (ofExcept r).eval env s = (r, s) := rfl

theorem eval_bind (x : Txn α) (f : α → Txn β) (s : Store × Nat) :
    (x >>= f).eval env s =
      match x.eval env s with
      | (.ok a, s') => (f a).eval env s'
      | (.error e, s') => (.error e, s') := by
  change (x.run.bind (ExceptT.bindCont f)).run (serveOp env) s = _
  rw [Prog.run_bind]
  unfold eval
  rcases x.run.run (serveOp env) s with ⟨r, s'⟩
  cases r <;> rfl

theorem eval_bind_ok {x : Txn α} {f : α → Txn β} (h : (x >>= f).eval env s = (.ok b, s'')) :
    ∃ a s', x.eval env s = (.ok a, s') ∧ (f a).eval env s' = (.ok b, s'') := by
  rw [eval_bind] at h
  rcases hx : x.eval env s with ⟨r, s'⟩
  rw [hx] at h
  cases r with
  | error e => cases h
  | ok a => exact ⟨a, s', rfl, h⟩

theorem eval_bind_of_ok {x : Txn α} {f : α → Txn β} (h : x.eval env s = (.ok a, s')) :
    (x >>= f).eval env s = (f a).eval env s' := by
  rw [eval_bind, h]

theorem eval_bind_of_error {x : Txn α} {f : α → Txn β} (h : x.eval env s = (.error e, s')) :
    (x >>= f).eval env s = (.error e, s') := by
  rw [eval_bind, h]

theorem eval_nowV7 (s : Store × Nat) :
    nowV7.eval env s = (.ok (env s.2).uuid, s.1, s.2 + 1) := rfl

theorem eval_query (q : Stmt) (s : Store × Nat) :
    (query q).eval env s =
      match (env s.2).fault with
      | some f => (.error (internal (.fault f)), s.1, s.2 + 1)
      | none =>
        match q.exec (env s.2) s.1 with
        | .ok (a, ws) => (.ok a, engine.patchAll ws s.1, s.2 + 1)
        | .error e => (.error (internal e), s.1, s.2 + 1) := by
  change ((serveOp env (.sql q) s).1.mapError internal, (serveOp env (.sql q) s).2) = _
  simp only [serveOp, Op.exec]
  cases (env s.2).fault with
  | some f => rfl
  | none =>
    cases q.exec (env s.2) s.1 with
    | error e => rfl
    | ok r => rfl

theorem eval_query_ok {q : Stmt} {a : q.Reply} (h : (query q).eval env s = (.ok a, s')) :
    ∃ ws, q.exec (env s.2) s.1 = .ok (a, ws) ∧ s' = (engine.patchAll ws s.1, s.2 + 1) := by
  rw [eval_query] at h
  cases hf : (env s.2).fault with
  | some f =>
    rw [hf] at h
    cases h
  | none =>
    rw [hf] at h
    cases hq : q.exec (env s.2) s.1 with
    | error e =>
      rw [hq] at h
      cases h
    | ok r =>
      rw [hq] at h
      cases h
      exact ⟨r.2, rfl, rfl⟩

theorem eval_query_fault {q : Stmt} {a : q.Reply} (h : (query q).eval env s = (.ok a, s')) :
    (env s.2).fault = none ∧ s'.2 = s.2 + 1 := by
  rw [eval_query] at h
  cases hf : (env s.2).fault with
  | some f =>
    rw [hf] at h
    cases h
  | none =>
    obtain ⟨_, _, rfl⟩ := eval_query_ok (by rw [eval_query, hf]; rw [hf] at h; exact h)
    exact ⟨rfl, rfl⟩

theorem eval_query_of_ok {q : Stmt} {a : q.Reply} (hf : Faultless env)
    (h : q.exec (env s.2) s.1 = .ok (a, ws)) :
    (query q).eval env s = (.ok a, engine.patchAll ws s.1, s.2 + 1) := by
  rw [eval_query, hf, h]

theorem eval_read {q : Stmt} {a : q.Reply} (hf : Faultless env)
    (h : q.exec (env s.2) s.1 = .ok (a, [])) : (query q).eval env s = (.ok a, s.1, s.2 + 1) :=
  eval_query_of_ok hf h

theorem eval_attempt (q : Stmt) (s : Store × Nat) :
    (attempt q).eval env s =
      match (env s.2).fault with
      | some f => (.ok (.error (.fault f)), s.1, s.2 + 1)
      | none =>
        match q.exec (env s.2) s.1 with
        | .ok (a, ws) => (.ok (.ok a), engine.patchAll ws s.1, s.2 + 1)
        | .error e => (.ok (.error e), s.1, s.2 + 1) := by
  change (Except.ok (serveOp env (.sql q) s).1, (serveOp env (.sql q) s).2) = _
  simp only [serveOp, Op.exec]
  cases (env s.2).fault with
  | some f => rfl
  | none =>
    cases q.exec (env s.2) s.1 with
    | error e => rfl
    | ok r => rfl

theorem eval_bind_cases {x : Txn α} {f : α → Txn β} {r : Except Status β × (Store × Nat)}
    (h : (x >>= f).eval env s = r) :
    (∃ e s', x.eval env s = (.error e, s') ∧ r = (.error e, s')) ∨
      ∃ a s', x.eval env s = (.ok a, s') ∧ (f a).eval env s' = r := by
  rw [eval_bind] at h
  rcases hx : x.eval env s with ⟨a, s'⟩
  rw [hx] at h
  cases a with
  | error e => exact .inl ⟨e, s', rfl, h.symm⟩
  | ok a => exact .inr ⟨a, s', rfl, h⟩

theorem eval_query_error {q : Stmt} (h : (query q).eval env s = (.error e, s')) :
    s' = (s.1, s.2 + 1) := by
  rw [eval_query] at h
  cases hf : (env s.2).fault with
  | some f =>
    rw [hf] at h
    cases h
    rfl
  | none =>
    rw [hf] at h
    cases hq : q.exec (env s.2) s.1 with
    | error e =>
      rw [hq] at h
      cases h
      rfl
    | ok r =>
      rw [hq] at h
      cases h

theorem eval_attempt_cases {q : Stmt} {r : Except Status (Except SqlError q.Reply)}
    (h : (attempt q).eval env s = (r, s')) :
    (∃ e, r = .ok (.error e) ∧ s' = (s.1, s.2 + 1)) ∨
      ∃ a ws, r = .ok (.ok a) ∧ q.exec (env s.2) s.1 = .ok (a, ws) ∧
        s' = (engine.patchAll ws s.1, s.2 + 1) := by
  rw [eval_attempt] at h
  cases hf : (env s.2).fault with
  | some f =>
    rw [hf] at h
    cases h
    exact .inl ⟨_, rfl, rfl⟩
  | none =>
    rw [hf] at h
    cases hq : q.exec (env s.2) s.1 with
    | error e =>
      rw [hq] at h
      cases h
      exact .inl ⟨_, rfl, rfl⟩
    | ok p =>
      rw [hq] at h
      cases h
      exact .inr ⟨p.1, p.2, rfl, rfl, rfl⟩

end Txn

namespace Rpc

@[simp] theorem eval_pure (a : α) (c : Conn Store) : (pure a : Rpc α).eval env c = (.ok a, c) :=
  rfl

@[simp] theorem eval_ofExcept (r : Except Status α) (c : Conn Store) :
    (ofExcept r).eval env c = (r, c) := rfl

theorem eval_bind (x : Rpc α) (f : α → Rpc β) (c : Conn Store) :
    (x >>= f).eval env c =
      match x.eval env c with
      | (.ok a, c') => (f a).eval env c'
      | (.error e, c') => (.error e, c') := by
  change (x.run.bind (ExceptT.bindCont f)).run (engine.serve env) c = _
  rw [Prog.run_bind]
  unfold eval
  rcases x.run.run (engine.serve env) c with ⟨r, c'⟩
  cases r <;> rfl

theorem eval_bind_of_ok {x : Rpc α} {f : α → Rpc β} (h : x.eval env c = (.ok a, c')) :
    (x >>= f).eval env c = (f a).eval env c' := by
  rw [eval_bind, h]

theorem eval_bind_of_error {x : Rpc α} {f : α → Rpc β} (h : x.eval env c = (.error e, c')) :
    (x >>= f).eval env c = (.error e, c') := by
  rw [eval_bind, h]

theorem eval_inTxn (x : Txn α) (s w : Store) (n : Nat) :
    (inTxn x).eval env ⟨s, some w, n⟩ =
      (.ok (x.eval env (w, n)).1,
        ⟨s, some (x.eval env (w, n)).2.1, (x.eval env (w, n)).2.2⟩) := by
  change ((x.run.embed send).bind fun r => .done (.ok r : Except Status (Except Status α))).run
    (engine.serve env) ⟨s, some w, n⟩ = _
  have hsend : ∀ o (p : Store × Nat), (send o).run (engine.serve env) ⟨s, some p.1, p.2⟩ =
      ((serveOp env o p).1, ⟨s, some (serveOp env o p).2.1, (serveOp env o p).2.2⟩) :=
    fun o p => rfl
  have h := Prog.run_embed (φ := fun p : Store × Nat => (⟨s, some p.1, p.2⟩ : Conn Store))
    (serveOp env) hsend x.run (w, n)
  rw [Prog.run_bind, h]
  rfl

theorem eval_closing (x : Rpc α) (c : Conn Store) :
    (closing x).eval env c =
      ((x.eval env c).1, ⟨(x.eval env c).2.store, none, (x.eval env c).2.count + 1⟩) := by
  change (x.run.bind fun r => .ask .close fun (_ : Unit) => .done r).run (engine.serve env) c = _
  rw [Prog.run_bind]
  rfl

theorem eval_acquire (hf : (env c.count).fault = none) :
    acquire.eval env c = (.ok (), { c with count := c.count + 1 }) := by
  have hcontrol : engine.control (env c.count) = .ok () := by
    simp only [Rules.control, engine, hf, Option.map_none]
  unfold acquire eval
  simp only [ExceptT.run_mk, Prog.run, Rules.serve, hcontrol]

theorem eval_bind_cases {x : Rpc α} {f : α → Rpc β} {r : Except Status β × Conn Store}
    (h : (x >>= f).eval env c = r) :
    (∃ e c', x.eval env c = (.error e, c') ∧ r = (.error e, c')) ∨
      ∃ a c', x.eval env c = (.ok a, c') ∧ (f a).eval env c' = r := by
  rw [eval_bind] at h
  rcases hx : x.eval env c with ⟨a, c'⟩
  rw [hx] at h
  cases a with
  | error e => exact .inl ⟨e, c', rfl, h.symm⟩
  | ok a => exact .inr ⟨a, c', rfl, h⟩

theorem eval_acquire_conn (c : Conn Store) :
    (acquire.eval env c).2 = { c with count := c.count + 1 } := rfl

theorem eval_begin (c : Conn Store) :
    begin.eval env c =
      match (env c.count).fault with
      | some f => (.error (internal (.fault f)), { c with count := c.count + 1 })
      | none => (.ok (), { c with work := some c.store, count := c.count + 1 }) := by
  change ((engine.serve env .begin c).1.mapError internal, (engine.serve env .begin c).2) = _
  simp only [Rules.serve, engine]
  cases (env c.count).fault <;> rfl

theorem eval_commit (c : Conn Store) :
    commit.eval env c =
      match (env c.count).fault with
      | some f =>
        if f = .replyLost then
          (.error (internal (.fault f)), ⟨c.work.getD c.store, none, c.count + 1⟩)
        else (.error (internal (.fault f)), { c with count := c.count + 1 })
      | none => (.ok (), ⟨c.work.getD c.store, none, c.count + 1⟩) := by
  change ((engine.serve env .commit c).1.mapError internal, (engine.serve env .commit c).2) = _
  cases hf : (env c.count).fault with
  | none =>
    simp only [Rules.serve, Rules.unserved, Rules.control, engine, hf]
    rfl
  | some f =>
    simp only [Rules.serve, Rules.unserved, Rules.control, engine, hf]
    cases f <;> rfl

theorem eval_rollback (c : Conn Store) :
    rollback.eval env c =
      match (env c.count).fault with
      | some f => (.error (internal (.fault f)), { c with count := c.count + 1 })
      | none => (.ok (), { c with work := none, count := c.count + 1 }) := by
  change ((engine.serve env .rollback c).1.mapError internal, (engine.serve env .rollback c).2) = _
  simp only [Rules.serve, engine]
  cases (env c.count).fault <;> rfl

theorem eval_inTxn_cases {x : Txn α} {k : α → Rpc β} {r : Except Status β × Conn Store}
    (h : (do let a ← ofExcept (← inTxn x); k a : Rpc β).eval env ⟨s, some w, n⟩ = r) :
    (∃ e w' m, x.eval env (w, n) = (.error e, (w', m)) ∧ r = (.error e, ⟨s, some w', m⟩)) ∨
      ∃ a w' m, x.eval env (w, n) = (.ok a, (w', m)) ∧ (k a).eval env ⟨s, some w', m⟩ = r := by
  rw [eval_bind_of_ok (eval_inTxn x s w n)] at h
  rcases hx : x.eval env (w, n) with ⟨a, w', m⟩
  rw [hx] at h
  cases a with
  | error e => exact .inl ⟨e, w', m, rfl, h.symm⟩
  | ok a => exact .inr ⟨a, w', m, rfl, h⟩

theorem eval_inTxn_of_ok {x : Txn α} {k : α → Rpc β} (s : Store)
    (h : x.eval env (w, n) = (.ok a, (w', m))) :
    (do let a ← ofExcept (← inTxn x); k a : Rpc β).eval env ⟨s, some w, n⟩ =
      (k a).eval env ⟨s, some w', m⟩ := by
  rw [eval_bind_of_ok (eval_inTxn x s w n), h]
  rfl

theorem eval_inTxn_of_error {x : Txn α} (k : α → Rpc β) (s : Store)
    (h : x.eval env (w, n) = (.error e, (w', m))) :
    (do let a ← ofExcept (← inTxn x); k a : Rpc β).eval env ⟨s, some w, n⟩ =
      (.error e, ⟨s, some w', m⟩) := by
  rw [eval_bind_of_ok (eval_inTxn x s w n), h]
  rfl

theorem eval_commit_of_ok (k : Unit → Rpc β) (s w : Store) (hf : (env n).fault = none) :
    (commit >>= k).eval env ⟨s, some w, n⟩ = (k ()).eval env ⟨w, none, n + 1⟩ := by
  rw [eval_bind, eval_commit, hf]
  rfl

theorem eval_rollback_of_ok (k : Unit → Rpc β) (s w : Store) (hf : (env n).fault = none) :
    (rollback >>= k).eval env ⟨s, some w, n⟩ = (k ()).eval env ⟨s, none, n + 1⟩ := by
  rw [eval_bind, eval_rollback, hf]

/-- A commit publishes nothing where it is refused, and else the transaction's own copy. -/
theorem eval_commit_cases {a : α} {r : Except Status α × Conn Store}
    (h : (do commit; pure a : Rpc α).eval env ⟨s, some w, n⟩ = r) :
    (env n).commits = false ∧ (∃ e, r = (.error e, ⟨s, some w, n + 1⟩)) ∨
      (env n).commits = true ∧ r = ((env n).acked a, ⟨w, none, n + 1⟩) := by
  unfold Tick.acked Tick.commits
  rcases eval_bind_cases h with ⟨e, c, hx, rfl⟩ | ⟨_, c, hx, h⟩
  · rw [eval_commit] at hx
    split at hx
    · rename_i f hf
      rw [hf]
      split_ifs at hx with hlost
      · cases hx
        subst hlost
        exact .inr ⟨rfl, rfl⟩
      · cases hx
        exact .inl ⟨beq_eq_false_iff_ne.2 hlost, _, rfl⟩
    · cases hx
  · rw [eval_commit] at hx
    split at hx
    · split_ifs at hx <;> cases hx
    · rename_i hf
      cases hx
      subst h
      rw [hf]
      exact .inr ⟨rfl, rfl⟩

theorem eval_rollback_cases {k : Unit → Rpc α} {r : Except Status α × Conn Store}
    (h : (rollback >>= k).eval env ⟨s, some w, n⟩ = r) :
    (∃ e, r = (.error e, ⟨s, some w, n + 1⟩)) ∨ (k ()).eval env ⟨s, none, n + 1⟩ = r := by
  rcases eval_bind_cases h with ⟨e, c, hx, rfl⟩ | ⟨_, c, hx, h⟩
  · rw [eval_rollback] at hx
    split at hx
    · cases hx
      exact .inl ⟨_, rfl⟩
    · cases hx
  · rw [eval_rollback] at hx
    split at hx
    · cases hx
    · cases hx
      exact .inr h

end Rpc

end ProjectDb
