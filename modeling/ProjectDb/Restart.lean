import Mathlib.Data.List.Basic
import Mathlib.Data.List.Infix

namespace Restart
set_option autoImplicit true

variable {σ ε Q : Type}

structure Migration (Q : Type) where
  version : Nat
  name : String
  sql : List Q

/-- The tables, and the versions recorded as applied. -/
structure Database (σ : Type) where
  tables : σ
  ledger : List Nat

/-- What is committed at once: one statement of a migration, or its row of the ledger. -/
inductive Step (Q : Type)
  | statement (version : Nat) (q : Q)
  | record (version : Nat)

def Migration.steps (m : Migration Q) : List (Step Q) :=
  m.sql.map (.statement m.version) ++ [.record m.version]

def newest (ledger : List Nat) : Nat := ledger.foldr max 0

def pendingAfter (set : List (Migration Q)) (version : Nat) : List (Migration Q) :=
  set.filter fun m => version < m.version

/-- The steps of a boot: every pending migration whole, each with its row of the ledger last. -/
def steps (set : List (Migration Q)) (ledger : List Nat) : List (Step Q) :=
  (pendingAfter set (newest ledger)).flatMap Migration.steps

section
variable (exec : Q → σ → Except ε σ)

def Step.apply : Step Q → Database σ → Except ε (Database σ)
  | .statement _ q, db => (exec q db.tables).map fun tables => { db with tables }
  | .record version, db => .ok { db with ledger := db.ledger ++ [version] }

/-- Run steps until one fails. -/
def run : List (Step Q) → Database σ → Option ε × Database σ
  | [], db => (none, db)
  | step :: rest, db =>
    match step.apply exec db with
    | .error e => (some e, db)
    | .ok db' => run rest db'

def boot (set : List (Migration Q)) (db : Database σ) : Option ε × Database σ :=
  run exec (steps set db.ledger) db

/-- A boot cut off after some number of steps. -/
def cutOff (set : List (Migration Q)) (n : Nat) (db : Database σ) : Database σ :=
  (run exec ((steps set db.ledger).take n) db).2

/-- Boots cut off one after the other. -/
def cutOffs (set : List (Migration Q)) : List Nat → Database σ → Database σ
  | [], db => db
  | n :: cuts, db => cutOffs set cuts (cutOff exec set n db)

/-- Statements one after the other. -/
def runAll (qs : List Q) (s : σ) : Except ε σ := qs.foldlM (fun s q => exec q s) s

end

variable {exec : Q → σ → Except ε σ}

theorem runAll_append (as bs : List Q) (s : σ) :
    runAll exec (as ++ bs) s = runAll exec as s >>= runAll exec bs :=
  List.foldlM_append

theorem runAll_single (q : Q) (s : σ) : runAll exec [q] s = exec q s := by
  change (exec q s >>= pure) = exec q s
  cases exec q s <;> rfl

theorem runAll_take {qs : List Q} {s s' : σ} (h : runAll exec qs s = .ok s') (n : Nat) :
    ∃ t, runAll exec (qs.take n) s = .ok t := by
  rw [← List.take_append_drop n qs, runAll_append] at h
  cases ht : runAll exec (qs.take n) s with
  | error e =>
    rw [ht] at h
    cases h
  | ok t => exact ⟨t, rfl⟩

theorem run_append {as : List (Step Q)} (h : run exec as db = (none, db')) (bs : List (Step Q)) :
    run exec (as ++ bs) db = run exec bs db' := by
  induction as generalizing db with
  | nil =>
    cases h
    rfl
  | cons a as ih =>
    simp only [List.cons_append, run] at h ⊢
    cases ha : a.apply exec db with
    | error e =>
      rw [ha] at h
      cases h
    | ok db₁ =>
      rw [ha] at h
      exact ih h

theorem run_statements {qs : List Q} {s s' : σ} (h : runAll exec qs s = .ok s') (version : Nat)
    (ledger : List Nat) :
    run exec (qs.map (.statement version)) ⟨s, ledger⟩ = (none, ⟨s', ledger⟩) := by
  induction qs generalizing s with
  | nil =>
    cases h
    rfl
  | cons q qs ih =>
    change (exec q s >>= runAll exec qs) = .ok s' at h
    simp only [List.map_cons, run, Step.apply]
    cases hq : exec q s with
    | error e =>
      rw [hq] at h
      cases h
    | ok t =>
      rw [hq] at h
      exact ih h

theorem run_steps {m : Migration Q} {s s' : σ} (h : runAll exec m.sql s = .ok s')
    (ledger : List Nat) :
    run exec m.steps ⟨s, ledger⟩ = (none, ⟨s', ledger ++ [m.version]⟩) :=
  run_append (run_statements h m.version ledger) _

/-- A migration that runs, and whose statements change nothing where they and more of them ran
already. -/
def Rerunnable (exec : Q → σ → Except ε σ) (m : Migration Q) (s s' : σ) : Prop :=
  runAll exec m.sql s = .ok s' ∧ ∀ j t, runAll exec (m.sql.take j) s = .ok t →
    ∀ i ≤ j, runAll exec (m.sql.take i) t = .ok t

theorem Rerunnable.part {m : Migration Q} {s s' t : σ} (h : Rerunnable exec m s s')
    (ht : runAll exec (m.sql.take j) s = .ok t) (n : Nat) :
    ∃ t', runAll exec (m.sql.take n) t = .ok t' ∧
      ∃ k, n ≤ k ∧ runAll exec (m.sql.take k) s = .ok t' := by
  by_cases hn : n ≤ j
  · exact ⟨t, h.2 j t ht n hn, j, hn, ht⟩
  · have hj : j ≤ n := Nat.le_of_not_le hn
    obtain ⟨t', ht'⟩ := runAll_take h.1 n
    refine ⟨t', ?_, n, Nat.le_refl n, ht'⟩
    have hsplit : m.sql.take n = m.sql.take j ++ (m.sql.take n).drop j := by
      have hprefix : (m.sql.take n).take j = m.sql.take j := by
        rw [List.take_take, Nat.min_eq_left hj]
      rw [← hprefix, List.take_append_drop]
    rw [hsplit, runAll_append, ht] at ht'
    rw [hsplit, runAll_append, h.2 j t ht j (Nat.le_refl j)]
    exact ht'

theorem Rerunnable.whole {m : Migration Q} {s s' t : σ} (h : Rerunnable exec m s s')
    (ht : runAll exec (m.sql.take j) s = .ok t) : runAll exec m.sql t = .ok s' := by
  obtain ⟨t', ht', k, hk, hs⟩ := h.part ht m.sql.length
  rw [List.take_of_length_le hk, h.1] at hs
  rw [List.take_length] at ht'
  rw [ht', hs]

/-- Statements that run one after the other, each of them a no-op ever after. -/
def Retraces (exec : Q → σ → Except ε σ) : List Q → List Q → σ → σ → Prop
  | _, [], s, s' => s = s'
  | before, q :: qs, s, s' =>
    ∃ t, exec q s = .ok t ∧ (∀ p ∈ q :: before, exec p t = .ok t) ∧
      Retraces exec (q :: before) qs t s'

theorem runAll_still {qs : List Q} {t : σ} (h : ∀ q ∈ qs, exec q t = .ok t) :
    runAll exec qs t = .ok t := by
  induction qs with
  | nil => rfl
  | cons q qs ih =>
    obtain ⟨hq, hqs⟩ := List.forall_mem_cons.1 h
    change (exec q t >>= runAll exec qs) = .ok t
    rw [hq]
    exact ih hqs

theorem Retraces.runAll {before qs : List Q} {s s' : σ} (h : Retraces exec before qs s s') :
    runAll exec qs s = .ok s' := by
  induction qs generalizing before s with
  | nil => exact congrArg Except.ok h
  | cons q qs ih =>
    obtain ⟨t, hq, _, hrest⟩ := h
    change (exec q s >>= Restart.runAll exec qs) = .ok s'
    rw [hq]
    exact ih hrest

theorem Retraces.still {before qs : List Q} {s s' t : σ} (h : Retraces exec before qs s s')
    (hs : ∀ p ∈ before, exec p s = .ok s) (ht : Restart.runAll exec (qs.take j) s = .ok t) :
    (∀ p ∈ before, exec p t = .ok t) ∧ ∀ p ∈ qs.take j, exec p t = .ok t := by
  induction qs generalizing before s j with
  | nil =>
    rw [List.take_nil] at ht ⊢
    cases ht
    exact ⟨hs, fun _ h => nomatch h⟩
  | cons q qs ih =>
    cases j with
    | zero =>
      cases ht
      exact ⟨hs, fun _ h => nomatch h⟩
    | succ j =>
      obtain ⟨u, hq, hu, hrest⟩ := h
      change (exec q s >>= Restart.runAll exec (qs.take j)) = .ok t at ht
      rw [hq] at ht
      obtain ⟨hbefore, hafter⟩ := ih hrest hu ht
      obtain ⟨hqt, hbefore⟩ := List.forall_mem_cons.1 hbefore
      exact ⟨hbefore, List.forall_mem_cons.2 ⟨hqt, hafter⟩⟩

theorem Retraces.rerunnable {m : Migration Q} {s s' : σ} (h : Retraces exec [] m.sql s s') :
    Rerunnable exec m s s' := by
  refine ⟨h.runAll, fun j t ht i hi => runAll_still fun q hq => ?_⟩
  obtain ⟨_, hstill⟩ := h.still (fun _ h => nomatch h) ht
  apply hstill q
  rw [← Nat.min_eq_left hi, ← List.take_take] at hq
  exact List.mem_of_mem_take hq

/-- From these tables the pending migrations run to the final ones. `once` are the versions that
are a single statement, which does not run again where it ran. -/
inductive Ready (exec : Q → σ → Except ε σ) (once : Nat → Prop) :
    List (Migration Q) → σ → σ → Prop
  | done : Ready exec once [] s s
  | again {m : Migration Q} {s s' t final : σ} {j : Nat} {ms : List (Migration Q)} :
      ¬ once m.version → Rerunnable exec m s s' → runAll exec (m.sql.take j) s = .ok t →
      Ready exec once ms s' final → Ready exec once (m :: ms) t final
  | first {m : Migration Q} {q : Q} {t s' final : σ} {e : ε} {ms : List (Migration Q)} :
      once m.version → m.sql = [q] → exec q t = .ok s' → exec q s' = .error e →
      Ready exec once ms s' final → Ready exec once (m :: ms) t final

theorem Ready.unguarded {m : Migration Q} {ms : List (Migration Q)} {t s' final : σ} {e : ε}
    (honce : once m.version) (hlen : m.sql.length = 1) (hrun : runAll exec m.sql t = .ok s')
    (hagain : runAll exec m.sql s' = .error e) (h : Ready exec once ms s' final) :
    Ready exec once (m :: ms) t final := by
  obtain ⟨q, hsql⟩ := List.length_eq_one_iff.1 hlen
  rw [hsql, runAll_single] at hrun hagain
  exact .first honce hsql hrun hagain h

/-- The first pending migration is a statement that fails on these tables. -/
def Stuck (exec : Q → σ → Except ε σ) (ms : List (Migration Q)) (t : σ) : Prop :=
  ∃ m q e rest, ms = m :: rest ∧ m.sql = [q] ∧ exec q t = .error e

/-- The last of the steps is the statement of a version that runs but once. -/
def Interrupts (once : Nat → Prop) (ss : List (Step Q)) : Prop :=
  ∃ version q, ss.getLast? = some (.statement version q) ∧ once version

theorem take_steps_of_le {m : Migration Q} {ss : List (Step Q)} (h : n ≤ m.sql.length) :
    (m.steps ++ ss).take n = (m.sql.take n).map (.statement m.version) := by
  have hlen : n ≤ (m.sql.map (Step.statement m.version)).length := by
    rwa [List.length_map]
  rw [Migration.steps, List.append_assoc, List.take_append_of_le_length hlen, List.map_take]

theorem take_steps_of_lt {m : Migration Q} {ss : List (Step Q)} (h : m.sql.length < n) :
    (m.steps ++ ss).take n = m.steps ++ ss.take (n - m.steps.length) := by
  have hlen : m.steps.length ≤ n := by
    rw [Migration.steps, List.length_append, List.length_map]
    exact h
  rw [List.take_append, List.take_of_length_le hlen]

theorem interrupts_append (m : Migration Q) (ss : List (Step Q)) :
    Interrupts once (m.steps ++ ss) ↔ Interrupts once ss := by
  have hlast : m.steps.getLast? = some (.record m.version) := by
    rw [Migration.steps, List.getLast?_append]
    rfl
  unfold Interrupts
  rw [List.getLast?_append, hlast]
  cases ss.getLast? with
  | none =>
    rw [Option.none_or]
    exact iff_of_false (fun ⟨_, _, h, _⟩ => nomatch h) fun ⟨_, _, h, _⟩ => nomatch h
  | some step => rw [Option.some_or]

theorem interrupts_statements {m : Migration Q} {qs : List Q}
    (h : Interrupts once (qs.map (.statement m.version))) : once m.version := by
  obtain ⟨version, q, hlast, honce⟩ := h
  obtain ⟨q', _, he⟩ := List.mem_map.1 (List.mem_of_getLast? hlast)
  cases he
  exact honce

theorem Ready.boots {ms : List (Migration Q)} (h : Ready exec once ms t final) (ledger : List Nat) :
    run exec (ms.flatMap Migration.steps) ⟨t, ledger⟩ =
      (none, ⟨final, ledger ++ ms.map Migration.version⟩) := by
  induction h generalizing ledger with
  | done =>
    rw [List.map_nil, List.append_nil]
    rfl
  | again _ hm ht _ ih =>
    rw [List.flatMap_cons, run_append (run_steps (hm.whole ht) ledger), ih, List.map_cons,
      List.append_assoc, List.singleton_append]
  | @first m q t s' final e ms _ hsql hq _ _ ih =>
    have hall : runAll exec m.sql t = .ok s' := by
      rw [hsql, runAll_single, hq]
    rw [List.flatMap_cons, run_append (run_steps hall ledger), ih, List.map_cons,
      List.append_assoc, List.singleton_append]

/-- A boot cut off leaves ready tables, or a statement that fails where it already ran. -/
theorem Ready.cut {ms : List (Migration Q)} (h : Ready exec once ms t final) (n : Nat)
    (ledger : List Nat) : ∃ as bs t', ms = as ++ bs ∧
      (run exec ((ms.flatMap Migration.steps).take n) ⟨t, ledger⟩).2 =
        ⟨t', ledger ++ as.map Migration.version⟩ ∧
      (¬ Interrupts once ((ms.flatMap Migration.steps).take n) → Ready exec once bs t' final) ∧
      (Interrupts once ((ms.flatMap Migration.steps).take n) → Stuck exec bs t') := by
  induction h generalizing n ledger with
  | done =>
    rw [List.flatMap_nil, List.take_nil]
    refine ⟨[], [], _, rfl, ?_, fun _ => .done, fun ⟨_, _, h, _⟩ => nomatch h⟩
    rw [List.map_nil, List.append_nil]
    rfl
  | @again m s s' t final j ms honce hm ht hms ih =>
    rw [List.flatMap_cons]
    by_cases hn : n ≤ m.sql.length
    · -- cut off inside the migration, which goes on from there
      obtain ⟨t', ht', k, _, hk⟩ := hm.part ht n
      rw [take_steps_of_le hn, run_statements ht' m.version ledger]
      refine ⟨[], m :: ms, t', rfl, ?_, fun _ => .again honce hm hk hms,
        fun h => absurd (interrupts_statements h) honce⟩
      rw [List.map_nil, List.append_nil]
    · rw [take_steps_of_lt (Nat.lt_of_not_le hn), interrupts_append,
        run_append (run_steps (hm.whole ht) ledger)]
      obtain ⟨as, bs, t', rfl, hrun, hready, hstuck⟩ :=
        ih (n - m.steps.length) (ledger ++ [m.version])
      refine ⟨m :: as, bs, t', rfl, ?_, hready, hstuck⟩
      rw [hrun, List.map_cons, List.append_assoc, List.singleton_append]
  | @first m q t s' final e ms honce hsql hq hagain hms ih =>
    have hall : runAll exec m.sql t = .ok s' := by
      rw [hsql, runAll_single, hq]
    rw [List.flatMap_cons]
    by_cases hn : n ≤ m.sql.length
    · rw [take_steps_of_le hn]
      cases n with
      | zero =>
        refine ⟨[], m :: ms, t, rfl, ?_, fun _ => .first honce hsql hq hagain hms,
          fun ⟨_, _, h, _⟩ => nomatch h⟩
        rw [List.map_nil, List.append_nil]
        rfl
      | succ n =>
        have hwhole : m.sql.take (n + 1) = m.sql := by
          apply List.take_of_length_le
          rw [hsql]
          exact Nat.le_add_left 1 n
        have hlast : Interrupts once (m.sql.map (Step.statement m.version)) :=
          ⟨m.version, q, by rw [hsql]; rfl, honce⟩
        rw [hwhole, run_statements hall m.version ledger]
        refine ⟨[], m :: ms, s', rfl, ?_, fun h => absurd hlast h,
          fun _ => ⟨m, q, e, ms, rfl, hsql, hagain⟩⟩
        rw [List.map_nil, List.append_nil]
    · rw [take_steps_of_lt (Nat.lt_of_not_le hn), interrupts_append,
        run_append (run_steps hall ledger)]
      obtain ⟨as, bs, t', rfl, hrun, hready, hstuck⟩ :=
        ih (n - m.steps.length) (ledger ++ [m.version])
      refine ⟨m :: as, bs, t', rfl, ?_, hready, hstuck⟩
      rw [hrun, List.map_cons, List.append_assoc, List.singleton_append]

theorem Stuck.fails {ms : List (Migration Q)} (h : Stuck exec ms t) (ledger : List Nat) :
    (∃ e, run exec (ms.flatMap Migration.steps) ⟨t, ledger⟩ = (some e, ⟨t, ledger⟩)) ∧
      ∀ n, (run exec ((ms.flatMap Migration.steps).take n) ⟨t, ledger⟩).2 = ⟨t, ledger⟩ := by
  obtain ⟨m, q, e, rest, rfl, hsql, hq⟩ := h
  have hsteps : (m :: rest).flatMap Migration.steps =
      .statement m.version q :: (.record m.version :: rest.flatMap Migration.steps) := by
    rw [List.flatMap_cons, Migration.steps, hsql]
    rfl
  have hfail : ∀ ss, run exec (.statement m.version q :: ss) ⟨t, ledger⟩ =
      (some e, ⟨t, ledger⟩) := by
    intro ss
    simp only [run, Step.apply, hq]
    rfl
  rw [hsteps]
  refine ⟨⟨e, hfail _⟩, fun n => ?_⟩
  cases n with
  | zero => rfl
  | succ n =>
    rw [List.take_succ_cons, hfail]

theorem newest_lt {ledger : List Nat} (hn : 0 < n) (h : ∀ v ∈ ledger, v < n) :
    newest ledger < n := by
  induction ledger with
  | nil => exact hn
  | cons v ledger ih =>
    obtain ⟨hv, hrest⟩ := List.forall_mem_cons.1 h
    exact max_lt hv (ih hrest)

theorem le_newest {ledger : List Nat} (h : v ∈ ledger) : v ≤ newest ledger := by
  induction ledger with
  | nil => cases h
  | cons x ledger ih =>
    rcases List.mem_cons.1 h with rfl | h
    · exact le_max_left _ _
    · exact (ih h).trans (le_max_right _ _)

/-- A set as it is to be written: from version 1 up, in order. -/
structure Ordered (set : List (Migration Q)) : Prop where
  sorted : set.Pairwise fun m m' => m.version < m'.version
  positive : ∀ m ∈ set, 0 < m.version

theorem pending_eq {as bs : List (Migration Q)} (ho : Ordered (as ++ bs)) :
    pendingAfter (as ++ bs) (newest (as.map Migration.version)) = bs := by
  obtain ⟨_, _, hlt⟩ := List.pairwise_append.1 ho.sorted
  unfold pendingAfter
  rw [List.filter_append]
  have hdone : as.filter (fun m => newest (as.map Migration.version) < m.version) = [] := by
    apply List.filter_eq_nil_iff.2
    intro m hm h
    exact Nat.not_lt.2 (le_newest (List.mem_map_of_mem hm)) (of_decide_eq_true h)
  have hrest : bs.filter (fun m => newest (as.map Migration.version) < m.version) = bs := by
    apply List.filter_eq_self.2
    intro m hm
    apply decide_eq_true
    apply newest_lt (ho.positive m (List.mem_append_right _ hm))
    intro v hv
    obtain ⟨m', hm', rfl⟩ := List.mem_map.1 hv
    exact hlt m' hm' m hm
  rw [hdone, hrest, List.nil_append]

theorem steps_eq {as bs : List (Migration Q)} (ho : Ordered (as ++ bs))
    (h : ledger = as.map Migration.version) :
    steps (as ++ bs) ledger = bs.flatMap Migration.steps := by
  unfold steps
  rw [h, pending_eq ho]

section
variable (exec : Q → σ → Except ε σ) (once : Nat → Prop) (set : List (Migration Q)) (final : σ)

/-- The first migrations are recorded, and the tables are ready for the rest. -/
def Standing (db : Database σ) : Prop :=
  ∃ as bs, set = as ++ bs ∧ db.ledger = as.map Migration.version ∧
    Ready exec once bs db.tables final

/-- The first migrations are recorded, and the next one fails. -/
def Broken (db : Database σ) : Prop :=
  ∃ as bs, set = as ++ bs ∧ db.ledger = as.map Migration.version ∧ Stuck exec bs db.tables

/-- No boot is cut off between a statement that runs but once and the row that records it. -/
def Spared : List Nat → Database σ → Prop
  | [], _ => True
  | n :: cuts, db =>
    ¬ Interrupts once ((steps set db.ledger).take n) ∧ Spared cuts (cutOff exec set n db)

end

variable {set : List (Migration Q)} {db : Database σ}

theorem Standing.boot (ho : Ordered set) (h : Standing exec once set final db) :
    boot exec set db = (none, ⟨final, set.map Migration.version⟩) := by
  obtain ⟨as, bs, rfl, hledger, hready⟩ := h
  unfold Restart.boot
  rw [steps_eq ho hledger, List.map_append, ← hledger]
  exact hready.boots db.ledger

theorem Standing.cutOff (ho : Ordered set) (h : Standing exec once set final db) (n : Nat) :
    (¬ Interrupts once ((steps set db.ledger).take n) →
      Standing exec once set final (cutOff exec set n db)) ∧
    (Interrupts once ((steps set db.ledger).take n) →
      Broken exec set (cutOff exec set n db)) := by
  obtain ⟨as, bs, rfl, hledger, hready⟩ := h
  obtain ⟨cs, ds, t', rfl, hrun, hstand, hstuck⟩ := hready.cut n db.ledger
  have hsteps := steps_eq ho hledger
  have hafter : Restart.cutOff exec (as ++ (cs ++ ds)) n db =
      ⟨t', (as ++ cs).map Migration.version⟩ := by
    unfold Restart.cutOff
    rw [hsteps]
    exact hrun.trans (by rw [hledger, List.map_append])
  rw [hsteps, hafter]
  exact ⟨fun h => ⟨as ++ cs, ds, (List.append_assoc _ _ _).symm, rfl, hstand h⟩,
    fun h => ⟨as ++ cs, ds, (List.append_assoc _ _ _).symm, rfl, hstuck h⟩⟩

theorem Broken.boot (ho : Ordered set) (h : Broken exec set db) :
    ∃ e, boot exec set db = (some e, db) := by
  obtain ⟨as, bs, rfl, hledger, hstuck⟩ := h
  unfold Restart.boot
  rw [steps_eq ho hledger]
  exact (hstuck.fails db.ledger).1

theorem Broken.cutOff (ho : Ordered set) (h : Broken exec set db) (n : Nat) :
    cutOff exec set n db = db := by
  obtain ⟨as, bs, rfl, hledger, hstuck⟩ := h
  unfold Restart.cutOff
  rw [steps_eq ho hledger]
  exact (hstuck.fails db.ledger).2 n

theorem Broken.cutOffs (ho : Ordered set) (h : Broken exec set db) (cuts : List Nat) :
    cutOffs exec set cuts db = db := by
  induction cuts with
  | nil => rfl
  | cons n cuts ih =>
    rw [Restart.cutOffs, h.cutOff ho n]
    exact ih

/-- However many boots are cut off, the next one ends as an uninterrupted one would, as long as
none was cut off where it must not be. -/
theorem Standing.boot_cutOffs (ho : Ordered set) (h : Standing exec once set final db)
    {cuts : List Nat} (hcuts : Spared exec once set cuts db) :
    Restart.boot exec set (Restart.cutOffs exec set cuts db) =
      (none, ⟨final, set.map Migration.version⟩) := by
  induction cuts generalizing db with
  | nil => exact h.boot ho
  | cons n cuts ih =>
    obtain ⟨hcut, hcuts⟩ := hcuts
    exact ih ((h.cutOff ho n).1 hcut) hcuts

/-- After a boot cut off where it must not be, every boot fails. -/
theorem Standing.boot_fails (ho : Ordered set) (h : Standing exec once set final db)
    {cuts : List Nat} (hcuts : ¬ Spared exec once set cuts db) :
    ∃ e db', Restart.boot exec set (Restart.cutOffs exec set cuts db) = (some e, db') := by
  induction cuts generalizing db with
  | nil => exact absurd trivial hcuts
  | cons n cuts ih =>
    obtain ⟨hstand, hbroken⟩ := h.cutOff ho n
    by_cases hcut : Interrupts once ((steps set db.ledger).take n)
    · have hb := hbroken hcut
      obtain ⟨e, he⟩ := hb.boot ho
      refine ⟨e, Restart.cutOff exec set n db, ?_⟩
      rw [Restart.cutOffs, hb.cutOffs ho]
      exact he
    · exact ih (hstand hcut) fun hrest => hcuts ⟨hcut, hrest⟩

theorem Step.apply_ledger (step : Step Q) (h : step.apply exec db = .ok db') :
    ∀ v ∈ db.ledger, v ∈ db'.ledger := by
  intro v hv
  cases step with
  | statement version q =>
    change (exec q db.tables).map _ = .ok db' at h
    cases hq : exec q db.tables with
    | error e =>
      rw [hq] at h
      cases h
    | ok tables =>
      rw [hq] at h
      cases h
      exact hv
  | record version =>
    cases h
    exact List.mem_append_left _ hv

theorem run_ledger (ss : List (Step Q)) (db : Database σ) :
    ∀ v ∈ db.ledger, v ∈ (run exec ss db).2.ledger := by
  induction ss generalizing db with
  | nil => exact fun _ h => h
  | cons step ss ih =>
    intro v hv
    unfold run
    cases hstep : step.apply exec db with
    | error e => exact hv
    | ok db' =>
      apply ih db'
      exact step.apply_ledger hstep v hv

theorem spared_of_recorded (honce : ∀ m ∈ set, once m.version → m.version ∈ db.ledger)
    (cuts : List Nat) : Spared exec once set cuts db := by
  induction cuts generalizing db with
  | nil => exact trivial
  | cons n cuts ih =>
    refine ⟨?_, ih fun m hm h => run_ledger _ db _ (honce m hm h)⟩
    intro ⟨version, q, hlast, hv⟩
    obtain ⟨m, hm, hstep⟩ := List.mem_flatMap.1 (List.mem_of_mem_take (List.mem_of_getLast? hlast))
    obtain ⟨hset, hnew⟩ := List.mem_filter.1 hm
    have hversion : m.version = version := by
      rcases List.mem_append.1 hstep with h | h
      · obtain ⟨q', _, he⟩ := List.mem_map.1 h
        cases he
        rfl
      · cases List.mem_singleton.1 h
    have hrecorded := le_newest (honce m hset (hversion ▸ hv))
    exact absurd (of_decide_eq_true hnew) (Nat.not_lt.2 hrecorded)

end Restart
