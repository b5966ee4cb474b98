import ProjectDb.Mvcc

namespace Mvcc
set_option autoImplicit true

variable {σ ω κ ε Q ι α : Type} {A : Q → Type} {T : Type u}

/-- Serve a handler outside a transaction, each command on the store that was committed then. -/
def Rules.watch (R : Rules σ ω κ ε Q A T) (env : Nat → T) (stores : Nat → σ) :
    (c : Cmd Q) → Nat → Cmd.Reply ε A c × Nat
  | .acquire, n => (R.control (env n), n + 1)
  | .begin, n => (R.control (env n), n + 1)
  | .commit, n => (R.control (env n), n + 1)
  | .rollback, n => (R.control (env n), n + 1)
  | .close, n => ((), n + 1)
  | .stmt q, n => ((R.exec (env n) q (stores n)).1, n + 1)

theorem Rules.watch_congr {R : Rules σ ω κ ε Q A T} {env : Nat → T} {stores stores' : Nat → σ}
    {p : Prog (Cmd.Reply ε A) α} (h : ∀ m, n ≤ m → stores m = stores' m) :
    p.run (R.watch env stores) n = p.run (R.watch env stores') n := by
  induction p generalizing n with
  | done a => rfl
  | ask c k ih =>
    have hserve : R.watch env stores c n = R.watch env stores' c n := by
      cases c with
      | stmt q => exact congrArg (fun s => ((R.exec (env n) q s).1, n + 1)) (h n (Nat.le_refl n))
      | _ => rfl
    have hnext : (R.watch env stores' c n).2 = n + 1 := by
      cases c <;> rfl
    rw [Prog.run_ask, Prog.run_ask, hserve, hnext]
    exact ih _ fun m hm => h m (Nat.le_of_succ_le hm)

/-- A command that neither opens a transaction nor locks. -/
def Rules.Plain (R : Rules σ ω κ ε Q A T) : Cmd Q → Prop
  | .acquire => True
  | .stmt q => R.nonlocking q = true
  | _ => False

theorem Rules.serve_watch {R : Rules σ ω κ ε Q A T} {env : Nat → T}
    (hread : ∀ t q s, R.nonlocking q = true → R.patchAll (R.exec t q s).2 s = s)
    {p : Prog (Cmd.Reply ε A) α} (hp : p.All R.Plain) (s : σ) (n : Nat) :
    ∃ m, p.run (R.serve env) ⟨s, none, n⟩ =
      ((p.run (R.watch env fun _ => s) n).1, ⟨s, none, m⟩) := by
  induction p generalizing n with
  | done a => exact ⟨n, rfl⟩
  | ask c k ih =>
    obtain ⟨hc, hk⟩ := hp
    have hserve : R.serve env c ⟨s, none, n⟩ =
        ((R.watch env (fun _ => s) c n).1, ⟨s, none, (R.watch env (fun _ => s) c n).2⟩) := by
      cases c with
      | acquire => rfl
      | stmt q =>
        change (_, (⟨R.patchAll (R.exec (env n) q s).2 s, none, n + 1⟩ : Conn σ)) = _
        rw [hread (env n) q s hc]
        rfl
      | _ => exact hc.elim
    rw [Prog.run_ask, Prog.run_ask, hserve]
    exact ih _ (hk _) _

namespace World
variable {R : Rules σ ω κ ε Q A T} {s₀ : σ} {w w' : World ε A ω κ ι α}

theorem storeAt_of_prefix (h : w.log <+: w'.log) (hn : n ≤ w.log.length) :
    w'.storeAt R s₀ n = w.storeAt R s₀ n := by
  obtain ⟨es, hes⟩ := h
  unfold storeAt
  rw [← hes, List.take_append_of_le_length hn]

theorem storeAt_length (w : World ε A ω κ ι α) :
    w.storeAt R s₀ w.log.length = w.committed R s₀ := by
  unfold storeAt committed
  rw [List.take_length]

end World

variable [DecidableEq ι]

namespace World

@[simp] theorem put_log (w : World ε A ω κ ι α) (i : ι) (s : Session ε A ω α) :
    (w.put i s).log = w.log := rfl

@[simp] theorem release_log (w : World ε A ω κ ι α) (i : ι) : (w.release i).log = w.log := rfl

@[simp] theorem put_sess_self (w : World ε A ω κ ι α) (i : ι) (s : Session ε A ω α) :
    (w.put i s).sess i = s := by
  simp only [put, Function.update_self]

theorem put_sess_other (w : World ε A ω κ ι α) (s : Session ε A ω α) (h : j ≠ i) :
    (w.put i s).sess j = w.sess j := by
  simp only [put, Function.update_of_ne h]

end World

variable [DecidableEq κ]

/-- What one command of a handler does to its transaction and to the rest of the server. -/
inductive Serves (R : Rules σ ω κ ε Q A T) (s₀ : σ) (t : T) (w : World ε A ω κ ι α) (i : ι) :
    Option (Tx ω) → (c : Cmd Q) → Cmd.Reply ε A c → Option (Tx ω) → World ε A ω κ ι α → Prop
  | acquire : Serves R s₀ t w i tx .acquire (R.control t) tx w
  | beginRefused : R.refused t = some e → Serves R s₀ t w i tx .begin (.error e) tx w
  | begin : R.refused t = none → Serves R s₀ t w i tx .begin (.ok ()) (some ⟨none, []⟩) w
  | commitRefused : R.unserved t = some e → Serves R s₀ t w i tx .commit (.error e) tx w
  | commitNothing : R.unserved t = none → Serves R s₀ t w i none .commit (R.control t) none w
  | commit : R.unserved t = none → Serves R s₀ t w i (some x) .commit (R.control t) none
      { (w.release i) with log := w.log ++ [(i, x.own)] }
  | rollbackRefused : R.refused t = some e → Serves R s₀ t w i tx .rollback (.error e) tx w
  | rollback : R.refused t = none → Serves R s₀ t w i tx .rollback (.ok ()) none (w.release i)
  | close : Serves R s₀ t w i tx .close () none (w.release i)
  | read : R.nonlocking q = true →
      Serves R s₀ t w i none (.stmt q) (R.exec t q (w.committed R s₀)).1 none w
  | autocommit : R.nonlocking q = false → r = R.exec t q (w.committed R s₀) →
      w.blocked i (R.locks t q (w.committed R s₀) ++ r.2.flatMap R.writes) = false →
      Serves R s₀ t w i none (.stmt q) r.1 none { w with log := w.log ++ [(i, r.2)] }
  | snapshot : R.nonlocking q = true → v = x.view.getD w.log.length →
      Serves R s₀ t w i (some x) (.stmt q) (R.exec t q (R.patchAll x.own (w.storeAt R s₀ v))).1
        (some ⟨some v, x.own⟩) w
  | stale : R.nonlocking q = false → r = R.exec t q (R.patchAll x.own (w.committed R s₀)) →
      w.outdated R x.view (r.2.flatMap R.revises) = true →
      Serves R s₀ t w i (some x) (.stmt q) (R.stale q) (some x) w
  | lock : R.nonlocking q = false → s = R.patchAll x.own (w.committed R s₀) →
      r = R.exec t q s → keys = R.locks t q s ++ r.2.flatMap R.writes →
      w.blocked i keys = false → w.outdated R x.view (r.2.flatMap R.revises) = false →
      Serves R s₀ t w i (some x) (.stmt q) r.1 (some ⟨x.view, x.own ++ r.2⟩) (w.grant i keys)

namespace World

/-- The world after a schedule, if each of its steps can be taken. -/
def run (R : Rules σ ω κ ε Q A T) (s₀ : σ) (env : ι → Nat → T) :
    World ε A ω κ ι α → List (Act ι) → Option (World ε A ω κ ι α)
  | w, [] => some w
  | w, a :: acts => (w.step R s₀ env a).bind fun w' => w'.run R s₀ env acts

/-- A world that a schedule passes through. -/
def Moment (R : Rules σ ω κ ε Q A T) (s₀ : σ) (env : ι → Nat → T) (w : World ε A ω κ ι α)
    (acts : List (Act ι)) (u : World ε A ω κ ι α) : Prop :=
  ∃ before rest, acts = before ++ rest ∧ w.run R s₀ env before = some u

/-- What a handler answered, once it has. -/
def answer (w : World ε A ω κ ι α) (i : ι) : Option α :=
  match (w.sess i).rest with
  | some (.done a) => some a
  | _ => none

/-- How many commits there are when a schedule serves a handler's command of a given number. -/
def servedAt (R : Rules σ ω κ ε Q A T) (s₀ : σ) (env : ι → Nat → T) (i : ι) (n : Nat) :
    World ε A ω κ ι α → List (Act ι) → Nat
  | w, [] => w.log.length
  | w, a :: acts =>
    match w.step R s₀ env a with
    | none => w.log.length
    | some w' => if n < (w'.sess i).count then w.log.length else w'.servedAt R s₀ env i n acts

variable {R : Rules σ ω κ ε Q A T} {s₀ : σ} {env : ι → Nat → T} {w w' : World ε A ω κ ι α}

theorem serves_of_serve {c : Cmd Q} {k : Cmd.Reply ε A c → Prog (Cmd.Reply ε A) α}
    (h : w.serve R s₀ t i n tx c k = some w') : ∃ r tx' v, Serves R s₀ t w i tx c r tx' v ∧
      w' = v.put i ⟨some (k r), n + 1, tx'⟩ := by
  cases c with
  | acquire =>
    cases h
    exact ⟨_, _, _, .acquire, rfl⟩
  | begin =>
    simp only [serve] at h
    split at h
    · cases h
      exact ⟨_, _, _, .beginRefused ‹_›, rfl⟩
    · cases h
      exact ⟨_, _, _, .begin ‹_›, rfl⟩
  | commit =>
    simp only [serve] at h
    split at h
    · cases h
      exact ⟨_, _, _, .commitRefused ‹_›, rfl⟩
    · cases h
      exact ⟨_, _, _, .commitNothing ‹_›, rfl⟩
    · cases h
      exact ⟨_, _, _, .commit ‹_›, rfl⟩
  | rollback =>
    simp only [serve] at h
    split at h
    · cases h
      exact ⟨_, _, _, .rollbackRefused ‹_›, rfl⟩
    · cases h
      exact ⟨_, _, _, .rollback ‹_›, rfl⟩
  | close =>
    cases h
    exact ⟨_, _, _, .close, rfl⟩
  | stmt q =>
    cases tx with
    | none =>
      simp only [serve] at h
      split_ifs at h with hq hb
      · cases h
        exact ⟨_, _, _, .read hq, rfl⟩
      · cases h
        exact ⟨_, _, _, .autocommit (Bool.eq_false_iff.2 hq) rfl (Bool.eq_false_iff.2 hb), rfl⟩
    | some x =>
      simp only [serve] at h
      split_ifs at h with hq hb ho
      · cases h
        exact ⟨_, _, _, .snapshot hq rfl, rfl⟩
      · cases h
        exact ⟨_, _, _, .stale (Bool.eq_false_iff.2 hq) rfl ho, rfl⟩
      · cases h
        exact ⟨_, _, _, .lock (Bool.eq_false_iff.2 hq) rfl rfl rfl (Bool.eq_false_iff.2 hb)
          (Bool.eq_false_iff.2 ho), rfl⟩

/-- What a step can do: serve a handler's next command, or cut a handler off. -/
theorem step_cases {a : Act ι} (h : w.step R s₀ env a = some w') :
    (∃ i c k r tx v, a = .run i ∧ (w.sess i).rest = some (.ask c k) ∧
      Serves R s₀ (env i (w.sess i).count) w i (w.sess i).tx c r tx v ∧
      w' = v.put i ⟨some (k r), (w.sess i).count + 1, tx⟩) ∨
    ∃ i, a = .cut i ∧ w' = (w.release i).put i ⟨none, (w.sess i).count, none⟩ := by
  cases a with
  | run i =>
    simp only [step] at h
    split at h
    · rename_i c k hrest
      obtain ⟨r, tx, v, hserves, rfl⟩ := serves_of_serve h
      exact .inl ⟨i, c, k, r, tx, v, rfl, hrest, hserves, rfl⟩
    · cases h
  | cut i =>
    cases h
    exact .inr ⟨i, rfl, rfl⟩

end World

section
variable {R : Rules σ ω κ ε Q A T} {s₀ : σ} {w v : World ε A ω κ ι α}

theorem Serves.sess {c : Cmd Q} {r : Cmd.Reply ε A c} (h : Serves R s₀ t w i tx c r tx' v) :
    v.sess = w.sess := by
  cases h <;> rfl

theorem Serves.log {c : Cmd Q} {r : Cmd.Reply ε A c} (h : Serves R s₀ t w i tx c r tx' v) :
    w.log <+: v.log := by
  cases h with
  | commit => exact List.prefix_append _ _
  | autocommit => exact List.prefix_append _ _
  | _ => exact List.prefix_refl _

/-- What a plain command of a handler outside a transaction does: it is answered from the
committed store. -/
theorem Serves.plain {c : Cmd Q} {r : Cmd.Reply ε A c} (h : Serves R s₀ t w i none c r tx' v)
    (hc : R.Plain c) : v = w ∧ tx' = none ∧ ∀ (env : Nat → T) (stores : Nat → σ) (n : Nat),
      env n = t → stores n = w.committed R s₀ → R.watch env stores c n = (r, n + 1) := by
  cases h with
  | acquire =>
    refine ⟨rfl, rfl, fun env stores n ht _ => ?_⟩
    rw [← ht]
    rfl
  | read _ =>
    refine ⟨rfl, rfl, fun env stores n ht hs => ?_⟩
    rw [← ht, ← hs]
    rfl
  | autocommit hq _ _ => exact absurd (hq.symm.trans hc) Bool.noConfusion
  | _ => exact hc.elim

end

namespace World
variable {R : Rules σ ω κ ε Q A T} {s₀ : σ} {env : ι → Nat → T} {w w' : World ε A ω κ ι α}

theorem step_log {a : Act ι} (h : w.step R s₀ env a = some w') : w.log <+: w'.log := by
  rcases step_cases h with ⟨i, c, k, r, tx, v, _, _, hv, rfl⟩ | ⟨i, _, rfl⟩
  · exact hv.log
  · exact List.prefix_refl _

theorem Moment.cons {acts : List (Act ι)} {a : Act ι} {u : World ε A ω κ ι α}
    (h : w'.Moment R s₀ env acts u) (hstep : w.step R s₀ env a = some w') :
    w.Moment R s₀ env (a :: acts) u := by
  obtain ⟨before, rest, rfl, hu⟩ := h
  exact ⟨a :: before, rest, rfl, Option.bind_eq_some_iff.2 ⟨w', hstep, hu⟩⟩

theorem run_log {acts : List (Act ι)} (h : w.run R s₀ env acts = some w') : w.log <+: w'.log := by
  induction acts generalizing w with
  | nil =>
    cases h
    exact List.prefix_refl _
  | cons a acts ih =>
    obtain ⟨v, hv, h⟩ := Option.bind_eq_some_iff.1 h
    exact (step_log hv).trans (ih h)

theorem servedAt_ge (acts : List (Act ι)) (w : World ε A ω κ ι α) :
    w.log.length ≤ w.servedAt R s₀ env i n acts := by
  induction acts generalizing w with
  | nil => exact Nat.le_refl _
  | cons a acts ih =>
    simp only [servedAt]
    split
    · exact Nat.le_refl _
    · rename_i w' hw'
      split_ifs
      · exact Nat.le_refl _
      · exact Nat.le_trans (step_log hw').length_le (ih w')

theorem servedAt_le {acts : List (Act ι)} (h : w.run R s₀ env acts = some w') :
    w.servedAt R s₀ env i n acts ≤ w'.log.length := by
  induction acts generalizing w with
  | nil =>
    cases h
    exact Nat.le_refl _
  | cons a acts ih =>
    obtain ⟨v, hv, h⟩ := Option.bind_eq_some_iff.1 h
    simp only [servedAt, hv]
    split_ifs
    · exact ((step_log hv).trans (run_log h)).length_le
    · exact ih h

theorem servedAt_mono (acts : List (Act ι)) (w : World ε A ω κ ι α) (h : m ≤ n) :
    w.servedAt R s₀ env i m acts ≤ w.servedAt R s₀ env i n acts := by
  induction acts generalizing w with
  | nil => exact Nat.le_refl _
  | cons a acts ih =>
    simp only [servedAt]
    split
    · exact Nat.le_refl _
    · rename_i w' hw'
      split_ifs with hm hn
      · exact Nat.le_refl _
      · exact Nat.le_trans (step_log hw').length_le (servedAt_ge acts w')
      · omega
      · exact ih w'

theorem step_sess {a : Act ι} (h : w.step R s₀ env a = some w') (hrun : a ≠ .run i)
    (hcut : a ≠ .cut i) : w'.sess i = w.sess i := by
  rcases step_cases h with ⟨j, c, k, r, tx, v, ha, _, hv, rfl⟩ | ⟨j, ha, rfl⟩
  · have hne : i ≠ j := fun he => hrun (he ▸ ha)
    rw [put_sess_other _ _ hne, hv.sess]
  · have hne : i ≠ j := fun he => hcut (he ▸ ha)
    rw [put_sess_other _ _ hne]
    rfl

theorem servedAt_cons {a : Act ι} (h : w.step R s₀ env a = some w') (hn : (w'.sess i).count ≤ n) :
    w.servedAt R s₀ env i n (a :: acts) = w'.servedAt R s₀ env i n acts := by
  simp only [servedAt, h, if_neg (Nat.not_lt.2 hn)]

theorem answer_of_done {acts : List (Act ι)} (h : w.run R s₀ env acts = some w')
    (hs : (w.sess i).rest = none) : w'.answer i = none := by
  induction acts generalizing w with
  | nil =>
    cases h
    unfold answer
    rw [hs]
  | cons a acts ih =>
    obtain ⟨v, hv, h⟩ := Option.bind_eq_some_iff.1 h
    apply ih h
    by_cases hcut : a = .cut i
    · subst hcut
      cases hv
      rw [put_sess_self]
    · rw [step_sess hv _ hcut, hs]
      intro hrun
      subst hrun
      simp only [step, hs] at hv
      cases hv

theorem answer_of_plain {acts : List (Act ι)} {p : Prog (Cmd.Reply ε A) α}
    (h : w.run R s₀ env acts = some w') (hs : w.sess i = ⟨some p, n, none⟩) (hp : p.All R.Plain)
    (ha : w'.answer i = some a) :
    (p.run (R.watch (env i) fun m =>
      w'.storeAt R s₀ (w.servedAt R s₀ env i m acts)) n).1 = a := by
  induction acts generalizing w p n with
  | nil =>
    cases h
    simp only [answer, hs] at ha
    cases p with
    | done b => exact Option.some.inj ha
    | ask c k => cases ha
  | cons act acts ih =>
    obtain ⟨v, hv, h⟩ := Option.bind_eq_some_iff.1 h
    have hlater : ∀ m, (v.sess i).count ≤ m →
        w.servedAt R s₀ env i m (act :: acts) = v.servedAt R s₀ env i m acts :=
      fun m hm => servedAt_cons hv hm
    by_cases hrun : act = .run i
    · subst hrun
      rcases step_cases hv with ⟨j, c, k, r, tx, u, hj, hrest, hserves, rfl⟩ | ⟨j, hj, _⟩
      · cases hj
        rw [hs] at hrest hserves
        cases hrest
        obtain ⟨rfl, rfl, hwatch⟩ := hserves.plain hp.1
        have hnow : w'.storeAt R s₀ (u.servedAt R s₀ env i n (.run i :: acts)) =
            u.committed R s₀ := by
          rw [← storeAt_length]
          have hat : u.servedAt R s₀ env i n (.run i :: acts) = u.log.length := by
            simp only [servedAt, hv, put_sess_self, hs, Nat.lt_succ_self, ↓reduceIte]
          rw [hat]
          exact storeAt_of_prefix ((step_log hv).trans (run_log h)) (Nat.le_refl _)
        rw [Prog.run_ask, hwatch _ _ _ rfl hnow]
        rw [Rules.watch_congr fun m hm => by rw [hlater m (by simpa [hs] using hm)]]
        apply ih h _ (hp.2 r)
        rw [put_sess_self, hs]
      · cases hj
    · by_cases hcut : act = .cut i
      · subst hcut
        cases hv
        have hnone := answer_of_done h (by rw [put_sess_self])
        rw [hnone] at ha
        cases ha
      · have hsame := step_sess hv hrun hcut
        rw [Rules.watch_congr fun m hm => by rw [hlater m (by simpa [hsame, hs] using hm)]]
        exact ih h (hsame.trans hs) hp

end World

end Mvcc
