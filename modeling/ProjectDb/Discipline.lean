import ProjectDb.Cancellation
import ProjectDb.Serial

namespace Mvcc
set_option autoImplicit true

variable {σ ω κ ε Q ι α Φ : Type} {A : Q → Type} {T : Type u} {R : Rules σ ω κ ε Q A T}
  {env : Nat → T} {p rest : Prog (Cmd.Reply ε A) α} {s : σ} {d : Conn σ}

theorem Comes.obeys {after : Φ → (c : Cmd Q) → Cmd.Reply ε A c → Option Φ} {post : Φ → α → Prop}
    (h : Comes R env p s rest d) (hp : p.Obeys after post ph) :
    ∃ next, rest.Obeys after post next := by
  induction h with
  | start => exact ⟨ph, hp⟩
  | serve _ ih =>
    obtain ⟨next, hnext⟩ := ih
    obtain ⟨last, _, hlast⟩ := hnext _
    exact ⟨last, hlast⟩

/-- A handler that only ends its transaction once a statement of it failed, and the last failure
that it met. -/
def breaking (failure : (q : Q) → A q → Option ε) :
    Option ε → (c : Cmd Q) → Cmd.Reply ε A c → Option (Option ε)
  | none, .stmt q, r => some (failure q r)
  | none, _, _ => some none
  | some e, .rollback, .ok _ => some (some e)
  | some _, .rollback, .error e => some (some e)
  | some e, .close, _ => some (some e)
  | some _, _, _ => none

/-- After a failure a handler ends, with that failure or with one of its `ROLLBACK`. -/
theorem ends_of_breaking {failure : (q : Q) → A q → Option ε} {post : Option ε → α → Prop}
    {D : α → Prop} {F : ε → Prop} {n : Nat}
    (hrefused : ∀ m e, n ≤ m → R.refused (env m) = some e → F e)
    (hpost : ∀ e a, F e → post (some e) a → D a) (h : p.Obeys (breaking failure) post (some e))
    (he : F e) : Ends R env D p n := by
  induction p generalizing e n with
  | done a => exact hpost e a he h
  | ask c k ih =>
    cases c with
    | rollback =>
      obtain ⟨next, hnext, hk⟩ := h (R.control (env n))
      cases hr : R.refused (env n) with
      | none =>
        rw [Rules.control_of_executed hr] at hnext
        cases hnext
        exact ih _ (fun m e' hm => hrefused m e' (Nat.le_of_succ_le hm)) hk he
      | some e' =>
        rw [Rules.control_of_refused hr] at hnext
        cases hnext
        exact ih _ (fun m e' hm => hrefused m e' (Nat.le_of_succ_le hm)) hk
          (hrefused n e' (Nat.le_refl n) hr)
    | close =>
      obtain ⟨next, hnext, hk⟩ := h ()
      cases hnext
      exact ih _ (fun m e' hm => hrefused m e' (Nat.le_of_succ_le hm)) hk he
    | acquire =>
      obtain ⟨_, hnext, _⟩ := h (R.control (env n))
      cases hnext
    | begin =>
      obtain ⟨_, hnext, _⟩ := h (R.control (env n))
      cases hnext
    | commit =>
      obtain ⟨_, hnext, _⟩ := h (R.control (env n))
      cases hnext
    | stmt q =>
      obtain ⟨_, hnext, _⟩ := h (R.stale q)
      cases hnext

theorem Comes.ends {failure : (q : Q) → A q → Option ε} {post : Option ε → α → Prop}
    {D : α → Prop} {F : ε → Prop} {k : A q → Prog (Cmd.Reply ε A) α}
    (h : Comes R env p s (.ask (.stmt q) k) d) (hp : p.Obeys (breaking failure) post none) {n : Nat}
    (hrefused : ∀ m e, n ≤ m → R.refused (env m) = some e → F e)
    (hpost : ∀ e a, F e → post (some e) a → D a) {r : A q} (hr : failure q r = some e) (he : F e) :
    Ends R env D (k r) n := by
  obtain ⟨failed, hfailed⟩ := h.obeys hp
  obtain ⟨next, hnext, hk⟩ := hfailed r
  cases failed with
  | some _ => cases hnext
  | none =>
    cases hnext
    rw [hr] at hk
    exact ends_of_breaking hrefused hpost hk he

/-- What the handlers in flight may still ask for, and what they wrote, open and committed. -/
structure World.Within (C : ι → Cmd Q → Prop) (W : ι → ω → Prop) (w : World ε A ω κ ι α) :
    Prop where
  rest : ∀ i p, (w.sess i).rest = some p → p.All (C i)
  own : ∀ i x, (w.sess i).tx = some x → ∀ u ∈ x.own, W i u
  log : ∀ i ws, (i, ws) ∈ w.log → ∀ u ∈ ws, W i u

namespace World.Within

variable [DecidableEq ι] [DecidableEq κ] {C : ι → Cmd Q → Prop} {W : ι → ω → Prop} {s₀ : σ}
  {envs : ι → Nat → T} {w v : World ε A ω κ ι α}

omit [DecidableEq κ] in
theorem put {x : Session ε A ω α} (h : w.Within C W) (hsess : v.sess = w.sess)
    (hlog : ∀ j ws, (j, ws) ∈ v.log → ∀ u ∈ ws, W j u)
    (hrest : ∀ p, x.rest = some p → p.All (C i))
    (hown : ∀ y, x.tx = some y → ∀ u ∈ y.own, W i u) : (v.put i x).Within C W where
  rest j p hp := by
    by_cases hj : j = i
    · subst hj
      rw [World.put_sess_self] at hp
      exact hrest p hp
    · rw [World.put_sess_other _ _ hj, hsess] at hp
      exact h.rest j p hp
  own j y hy := by
    by_cases hj : j = i
    · subst hj
      rw [World.put_sess_self] at hy
      exact hown y hy
    · rw [World.put_sess_other _ _ hj, hsess] at hy
      exact h.own j y hy
  log := hlog

theorem step (hwrites : ∀ i t q s, C i (.stmt q) → ∀ u ∈ (R.exec t q s).2, W i u)
    (h : w.Within C W) {a : Act ι} (hstep : w.step R s₀ envs a = some v) : v.Within C W := by
  rcases World.step_cases hstep with ⟨i, c, k, r, tx, u, rfl, hrest, hserves, rfl⟩ | ⟨i, rfl, rfl⟩
  · obtain ⟨hc, hk⟩ := h.rest i _ hrest
    have hown := h.own i
    have hthis : (∀ j ws, (j, ws) ∈ u.log → ∀ x ∈ ws, W j x) ∧
        ∀ y, tx = some y → ∀ x ∈ y.own, W i x := by
      generalize (w.sess i).tx = tx₀ at hserves hown
      cases hserves with
      | begin =>
        refine ⟨h.log, fun y hy => ?_⟩
        cases hy
        exact fun _ hx => absurd hx List.not_mem_nil
      | commitNothing => exact ⟨h.log, fun _ hy => by cases hy⟩
      | commit =>
        refine ⟨fun j ws hj => ?_, fun _ hy => by cases hy⟩
        rcases List.mem_append.1 hj with hj | hj
        · exact h.log j ws hj
        · cases List.mem_singleton.1 hj
          exact hown _ rfl
      | rollback => exact ⟨h.log, fun _ hy => by cases hy⟩
      | close => exact ⟨h.log, fun _ hy => by cases hy⟩
      | read => exact ⟨h.log, fun _ hy => by cases hy⟩
      | autocommit _ hr _ =>
        refine ⟨fun j ws hj => ?_, fun _ hy => by cases hy⟩
        rcases List.mem_append.1 hj with hj | hj
        · exact h.log j ws hj
        · cases List.mem_singleton.1 hj
          rw [hr]
          exact hwrites i _ _ _ hc
      | snapshot =>
        refine ⟨h.log, fun y hy => ?_⟩
        cases hy
        exact fun x hx => hown _ rfl x hx
      | lock _ _ hr _ _ _ =>
        refine ⟨h.log, fun y hy => ?_⟩
        cases hy
        intro x hx
        rcases List.mem_append.1 hx with hx | hx
        · exact hown _ rfl x hx
        · rw [hr] at hx
          exact hwrites i _ _ _ hc x hx
      | _ => exact ⟨h.log, hown⟩
    apply h.put hserves.sess hthis.1 _ hthis.2
    intro p hp
    cases hp
    exact hk _
  · exact h.put rfl h.log (fun _ hp => by cases hp) fun _ hy => by cases hy

end World.Within

/-- How a handler comes to have a read view: it had it, or opens it now with a plain read. While
it has one it keeps its locks, and others commit. -/
theorem World.step_view [DecidableEq ι] [DecidableEq κ] {s₀ : σ} {envs : ι → Nat → T}
    {w v : World ε A ω κ ι α} {a : Act ι} (h : w.step R s₀ envs a = some v)
    (hv : (v.sess i).tx = some ⟨some view, own⟩) :
    (∀ k, (i, k) ∈ w.held → (i, k) ∈ v.held) ∧ (∀ ws, v.log ≠ w.log ++ [(i, ws)]) ∧
      ((∃ own', (w.sess i).tx = some ⟨some view, own'⟩) ∨
        v.log = w.log ∧ view = w.log.length ∧ ∃ q k own',
          w.sess i = ⟨some (.ask (.stmt q) k), (w.sess i).count, some ⟨none, own'⟩⟩ ∧
            R.nonlocking q = true) := by
  have hsame : ∀ {j ws}, w.log ≠ w.log ++ [(j, ws)] := by
    intro j ws he
    have hlength := congrArg List.length he
    rw [List.length_append, List.length_singleton] at hlength
    omega
  rcases World.step_cases h with ⟨j, c, k, r, tx, u, rfl, hrest, hserves, rfl⟩ | ⟨j, rfl, rfl⟩
  · by_cases hj : i = j
    · subst hj
      rw [World.put_sess_self] at hv
      have htx : tx = some ⟨some view, own⟩ := hv
      rcases hs : w.sess i with ⟨rest, n, x⟩
      rw [hs] at hrest hserves
      cases hrest
      change Serves R s₀ _ w i x c r tx u at hserves
      cases hserves with
      | acquire => exact ⟨fun _ hk => hk, fun _ => hsame, .inl ⟨own, htx⟩⟩
      | beginRefused => exact ⟨fun _ hk => hk, fun _ => hsame, .inl ⟨own, htx⟩⟩
      | commitRefused => exact ⟨fun _ hk => hk, fun _ => hsame, .inl ⟨own, htx⟩⟩
      | rollbackRefused => exact ⟨fun _ hk => hk, fun _ => hsame, .inl ⟨own, htx⟩⟩
      | stale => exact ⟨fun _ hk => hk, fun _ => hsame, .inl ⟨own, htx⟩⟩
      | @lock _ _ _ _ y =>
        obtain ⟨before, ws⟩ := y
        cases htx
        exact ⟨fun _ hk => World.mem_grant.2 (.inl hk), fun _ => hsame, .inl ⟨ws, rfl⟩⟩
      | @snapshot q _ y hq hview =>
        refine ⟨fun _ hk => hk, fun _ => hsame, ?_⟩
        obtain ⟨before, ws⟩ := y
        cases htx
        cases before with
        | some at_ =>
          cases hview
          exact .inl ⟨ws, rfl⟩
        | none => exact .inr ⟨rfl, hview, q, k, ws, rfl, hq⟩
      | _ => cases htx
    · rw [World.put_sess_other _ _ hj, hserves.sess] at hv
      refine ⟨fun k hk => hserves.held.1 i k hj hk, fun ws => ?_, .inl ⟨own, hv⟩⟩
      rcases hserves.log_cases with hlog | ⟨us, hlog⟩
      · rw [World.put_log, hlog]
        exact hsame
      · rw [World.put_log, hlog]
        intro he
        have hlast := List.append_cancel_left he
        cases hlast
        exact hj rfl
  · by_cases hj : i = j
    · subst hj
      rw [World.put_sess_self] at hv
      cases hv
    · rw [World.put_sess_other _ _ hj] at hv
      exact ⟨fun k hk => World.mem_release.2 ⟨hj, hk⟩, fun _ => hsame, .inl ⟨own, hv⟩⟩

end Mvcc

namespace ProjectDb.Pool
open Mvcc

variable {σ ω κ ε Q α : Type} {A : Q → Type} {T : Type u} {R : Rules σ ω κ ε Q A T}
  {env : Nat → T} {p : Prog (Cmd.Reply ε A) α}

/-- A transaction is open in the first of these phases, and in the last one it has ended. -/
def Spans : Phase → Conn σ → Prop
  | .inside, d => d.work.isSome = true
  | .broken, _ => True
  | .ended, _ => True
  | _, _ => False

theorem spans_of_ending {fatal : (q : Q) → A q → Bool} {c : Cmd Q} {r : Cmd.Reply ε A c}
    (hc : c = .commit ∨ c = .rollback) (h : after R fatal ph c r = some next) : Spans next d := by
  rcases hc with rfl | rfl
  · cases ph with
    | inside =>
      cases r <;> cases h <;> trivial
    | _ => cases h
  · cases ph with
    | inside =>
      cases r <;> cases h <;> trivial
    | broken =>
      cases r <;> cases h <;> trivial
    | _ => cases h

theorem always_oneTx {fatal : (q : Q) → A q → Bool} {post : Phase → α → Prop}
    (h : p.Obeys (after R fatal) post ph) (hd : Spans ph d) :
    p.Always (R.serve env) oneTx d := by
  induction p generalizing ph d with
  | done a => trivial
  | ask c k ih =>
    obtain ⟨s, work, n⟩ := d
    obtain ⟨next, hnext, hk⟩ := h (R.serve env c ⟨s, work, n⟩).1
    have hthis : oneTx c (⟨s, work, n⟩ : Conn σ) ∧ Spans next (R.serve env c ⟨s, work, n⟩).2 := by
      cases ph with
      | inside =>
        obtain ⟨x, rfl⟩ := Option.isSome_iff_exists.1 hd
        cases c with
        | stmt q =>
          cases hnext
          refine ⟨rfl, ?_⟩
          split
          · trivial
          · rfl
        | acquire => cases hnext
        | begin => cases hnext
        | commit => exact ⟨trivial, spans_of_ending (.inl rfl) hnext⟩
        | rollback => exact ⟨trivial, spans_of_ending (.inr rfl) hnext⟩
        | close =>
          cases hnext
          exact ⟨trivial, trivial⟩
      | broken =>
        cases c with
        | rollback => exact ⟨trivial, spans_of_ending (.inr rfl) hnext⟩
        | close =>
          cases hnext
          exact ⟨trivial, trivial⟩
        | _ => cases hnext
      | ended =>
        cases c with
        | close =>
          cases hnext
          exact ⟨trivial, trivial⟩
        | _ => cases hnext
      | _ => exact hd.elim
    exact ⟨hthis.1, ih _ hk hthis.2⟩

end ProjectDb.Pool
