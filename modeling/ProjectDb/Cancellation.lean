import ProjectDb.Phases

namespace ProjectDb.Pool
open Mvcc
set_option autoImplicit true

variable {σ ω κ ε Q ι γ α : Type} {A : Q → Type} {T : Type u}
  {R : Rules σ ω κ ε Q A T} {fatal : (q : Q) → A q → Bool} {s₀ : σ}

section
variable (R : Rules σ ω κ ε Q A T) (fatal : (q : Q) → A q → Bool)

/-- What holds of a connection, wherever it is. -/
inductive LineOk (task : ι → Task ε A γ α) (l : γ) (ln : Line Q ω ι) : Prop
  | spare : ln.place = .unopened ∨ ln.place = .idle → ln.counted = false → ln.queue = [] →
      ln.tx = none → LineOk task l ln
  | lent : ln.place = .lent i → (task i).pooled = some ⟨l, armed⟩ →
      Holds R fatal i (task i) armed ln → LineOk task l ln
  | returning : ln.place = .returning → ln.counted = false → Settling R ln.queue ln.tx →
      LineOk task l ln
  | closed : ln.place = .closed i → (task i).stage = .gone → (task i).begun = false →
      Doomed ln.queue ln.tx → LineOk task l ln

/-- What holds of a handler: it is gone, has not been lent a connection yet, or holds one. -/
inductive TaskOk (line : γ → Line Q ω ι) (i : ι) (t : Task ε A γ α) : Prop
  | gone : t.pooled = none → t.stage = .gone → TaskOk line i t
  | outside : t.pooled = none → t.begun = false → t.stage = .calls p →
      Keeps R fatal .outside p → TaskOk line i t
  | holding : t.pooled = some p → (line p.conn).place = .lent i → TaskOk line i t

structure Inv (w : World ε A ω ι γ α) : Prop where
  line : ∀ l, LineOk R fatal w.task l (w.line l)
  task : ∀ i, TaskOk R fatal w.line i (w.task i)
  log : ∀ ws ∈ w.log, ∀ e ∈ ws, e.1 ∈ w.reached

end

theorem LineOk.frame {task task' : ι → Task ε A γ α} {ln : Line Q ω ι}
    (h : LineOk R fatal task l ln)
    (hover : ∀ j, (task j).stage = .gone → task' j = task j)
    (hlent : ∀ j armed, (task j).pooled = some ⟨l, armed⟩ → task' j = task j) :
    LineOk R fatal task' l ln := by
  cases h with
  | spare hspare hcounted hqueue htx => exact .spare hspare hcounted hqueue htx
  | @lent j armed hplace hpooled hholds =>
    have hj := hlent j armed hpooled
    exact .lent hplace (hj ▸ hpooled) (hj ▸ hholds)
  | returning hplace hcounted hsettling => exact .returning hplace hcounted hsettling
  | @closed j hplace hstage hbegun hdoomed =>
    have hj := hover j hstage
    exact .closed hplace (hj ▸ hstage) (hj ▸ hbegun) hdoomed

theorem LineOk.held [DecidableEq ι] {task : ι → Task ε A γ α} {t : Task ε A γ α} {ln : Line Q ω ι}
    (hplace : ln.place = .lent i) (hp : t.pooled = some ⟨l, armed⟩)
    (hholds : Holds R fatal i t armed ln) :
    LineOk R fatal (Function.update task i t) l ln := by
  have hself : Function.update task i t i = t := Function.update_self _ _ _
  exact .lent hplace (hself.symm ▸ hp) (hself.symm ▸ hholds)

theorem TaskOk.frame {line line' : γ → Line Q ω ι} {t : Task ε A γ α}
    (h : TaskOk R fatal line j t)
    (hlent : ∀ p, t.pooled = some p → (line p.conn).place = .lent j →
      line' p.conn = line p.conn) : TaskOk R fatal line' j t := by
  cases h with
  | gone hnone hover => exact .gone hnone hover
  | outside hnone hbegun hcalls hkeeps => exact .outside hnone hbegun hcalls hkeeps
  | @holding p hp hplace =>
    exact .holding hp ((congrArg Line.place (hlent p hp hplace)).trans hplace)

theorem World.putLine_line [DecidableEq γ] (w : World ε A ω ι γ α) (l : γ) (ln : Line Q ω ι) :
    (w.putLine l ln).line l = ln := Function.update_self _ _ _

theorem World.dropTask_line [DecidableEq ι] [DecidableEq γ] {w : World ε A ω ι γ α}
    (hp : (w.task i).pooled = some p) : (w.dropTask i).line p.conn =
      ({ w.line p.conn with queue := (w.line p.conn).queue ++ (w.task i).unread i }.dropTransaction
        i).dropPooled i p.armed := by
  simp only [World.dropTask, hp]
  exact Function.update_self _ _ _

namespace Inv
variable {w : World ε A ω ι γ α}

theorem lent_of_pooled (h : Inv R fatal w) (hp : (w.task i).pooled = some p) :
    (w.line p.conn).place = .lent i ∧ Holds R fatal i (w.task i) p.armed (w.line p.conn) := by
  cases h.task i with
  | gone hnone _ => rw [hnone] at hp; cases hp
  | outside hnone _ _ _ => rw [hnone] at hp; cases hp
  | holding hp' hplace =>
    rw [hp] at hp'
    cases hp'
    obtain ⟨l, armed⟩ := p
    refine ⟨hplace, ?_⟩
    cases h.line l with
    | spare hspare _ _ _ =>
      rw [hplace] at hspare
      rcases hspare with hspare | hspare <;> cases hspare
    | lent hlent hpooled hholds =>
      rw [hplace] at hlent
      cases hlent
      rw [hp] at hpooled
      cases hpooled
      exact hholds
    | returning hret _ _ => rw [hplace] at hret; cases hret
    | closed hclosed _ _ _ => rw [hplace] at hclosed; cases hclosed

theorem idle (h : Inv R fatal w) (hl : (w.line l).place = .idle) :
    (w.line l).counted = false ∧ (w.line l).queue = [] ∧ (w.line l).tx = none := by
  cases h.line l with
  | spare _ hcounted hqueue htx => exact ⟨hcounted, hqueue, htx⟩
  | lent hlent _ _ => rw [hl] at hlent; cases hlent
  | returning hret _ _ => rw [hl] at hret; cases hret
  | closed hclosed _ _ _ => rw [hl] at hclosed; cases hclosed

theorem returning (h : Inv R fatal w) (hl : (w.line l).place = .returning) :
    (w.line l).counted = false ∧ Settling R (w.line l).queue (w.line l).tx := by
  cases h.line l with
  | spare hspare _ _ _ =>
    rw [hl] at hspare
    rcases hspare with hspare | hspare <;> cases hspare
  | lent hlent _ _ => rw [hl] at hlent; cases hlent
  | returning _ hcounted hsettling => exact ⟨hcounted, hsettling⟩
  | closed hclosed _ _ _ => rw [hl] at hclosed; cases hclosed

theorem closed (h : Inv R fatal w) (hl : (w.line l).place = .closed i) :
    (w.task i).stage = .gone ∧ (w.task i).begun = false := by
  cases h.line l with
  | spare hspare _ _ _ =>
    rw [hl] at hspare
    rcases hspare with hspare | hspare <;> cases hspare
  | lent hlent _ _ => rw [hl] at hlent; cases hlent
  | returning hret _ _ => rw [hl] at hret; cases hret
  | closed hclosed hover hbegun _ =>
    rw [hl] at hclosed
    cases hclosed
    exact ⟨hover, hbegun⟩

theorem pooled_of_lent (h : Inv R fatal w) (hl : (w.line l).place = .lent i) :
    ∃ armed, (w.task i).pooled = some ⟨l, armed⟩ ∧
      Holds R fatal i (w.task i) armed (w.line l) := by
  cases h.line l with
  | spare hspare _ _ _ =>
    rw [hl] at hspare
    rcases hspare with hspare | hspare <;> cases hspare
  | lent hlent hpooled hholds =>
    rw [hl] at hlent
    cases hlent
    exact ⟨_, hpooled, hholds⟩
  | returning hret _ _ => rw [hl] at hret; cases hret
  | closed hclosed _ _ _ => rw [hl] at hclosed; cases hclosed

theorem start {calls : ι → Prog (Cmd.Reply ε A) α} (h : ∀ i, Keeps R fatal .outside (calls i)) :
    Inv R fatal (World.start calls : World ε A ω ι γ α) where
  line _ := .spare (.inl rfl) rfl rfl rfl
  task i := .outside rfl rfl rfl (h i)
  log _ he := nomatch he

theorem commit (h : Inv R fatal w) (hvisible : Visible i c commits) :
    ∀ ws ∈ (w.commit i c commits).log, ∀ e ∈ ws, e.1 ∈ (w.commit i c commits).reached := by
  intro ws hws e he
  rcases List.mem_append.1 hws with hws | hws
  · exact List.mem_append_left _ (h.log ws hws e he)
  · obtain ⟨rfl, rfl⟩ := hvisible ws hws e he
    exact List.mem_append_right _ (List.mem_singleton_self _)

theorem acquiring (h : Inv R fatal w) {k : Cmd.Reply ε A .acquire → Prog (Cmd.Reply ε A) α}
    (hstage : (w.task i).stage = .calls (.ask .acquire k)) :
    (w.task i).pooled = none ∧ (w.task i).begun = false ∧
      Keeps R fatal .outside (.ask .acquire k) := by
  cases h.task i with
  | gone _ hover => rw [hstage] at hover; cases hover
  | outside hnone hbegun hcalls hkeeps =>
    rw [hstage] at hcalls
    cases hcalls
    exact ⟨hnone, hbegun, hkeeps⟩
  | holding hp _ =>
    obtain ⟨ph, hout, _, _, hholds⟩ := (h.lent_of_pooled hp).2
    rw [hstage] at hholds
    cases asks_of_keeps hholds.2.1 hout nofun

section
variable [DecidableEq γ]

theorem moveLine {commits : List (List (ι × ω))} (h : Inv R fatal w) {ln : Line Q ω ι}
    (hplace : ∀ j, (w.line l).place ≠ .lent j) (hline : LineOk R fatal w.task l ln)
    (hlog : ∀ ws ∈ commits, ∀ e ∈ ws, e.1 ∈ reached) :
    Inv R fatal ⟨commits, reached, Function.update w.line l ln, w.task⟩ := by
  refine ⟨fun m => ?_, fun j => ?_, hlog⟩
  · change LineOk R fatal w.task m (Function.update w.line l ln m)
    by_cases hm : m = l
    · subst hm
      rw [Function.update_self]
      exact hline
    · rw [Function.update_of_ne hm]
      exact h.line m
  · apply (h.task j).frame
    intro p _ hlent
    apply Function.update_of_ne
    rintro rfl
    exact hplace j hlent

end

variable [DecidableEq ι]

theorem over_ne (hlive : (w.task i).stage ≠ .gone) (t : Task ε A γ α) (j : ι)
    (hj : (w.task j).stage = .gone) : Function.update w.task i t j = w.task j :=
  Function.update_of_ne (fun he : j = i => hlive (he ▸ hj)) _ _

theorem moveTask (h : Inv R fatal w) {t : Task ε A γ α} (hlive : (w.task i).stage ≠ .gone)
    (hnone : (w.task i).pooled = none) (htask : TaskOk R fatal w.line i t) :
    Inv R fatal (w.putTask i t) := by
  refine ⟨fun m => ?_, fun j => ?_, h.log⟩
  · apply (h.line m).frame (over_ne hlive t)
    intro j armed hj
    apply Function.update_of_ne
    rintro rfl
    rw [hnone] at hj
    cases hj
  · change TaskOk R fatal w.line j (Function.update w.task i t j)
    by_cases hj : j = i
    · subst hj
      rw [Function.update_self]
      exact htask
    · rw [Function.update_of_ne hj]
      exact h.task j

variable [DecidableEq γ]

theorem move {commits : List (List (ι × ω))} (h : Inv R fatal w) {t : Task ε A γ α}
    {ln : Line Q ω ι} (hlive : (w.task i).stage ≠ .gone)
    (hpooled : ∀ p, (w.task i).pooled = some p → p.conn = l)
    (hplace : ∀ j, (w.line l).place = .lent j → j = i)
    (hline : LineOk R fatal (Function.update w.task i t) l ln)
    (htask : TaskOk R fatal (Function.update w.line l ln) i t)
    (hlog : ∀ ws ∈ commits, ∀ e ∈ ws, e.1 ∈ reached) :
    Inv R fatal ⟨commits, reached, Function.update w.line l ln, Function.update w.task i t⟩ := by
  refine ⟨fun m => ?_, fun j => ?_, hlog⟩
  · change LineOk R fatal (Function.update w.task i t) m (Function.update w.line l ln m)
    by_cases hm : m = l
    · subst hm
      rw [Function.update_self]
      exact hline
    · rw [Function.update_of_ne hm]
      apply (h.line m).frame (over_ne hlive t)
      intro j armed hj
      apply Function.update_of_ne
      rintro rfl
      exact hm (hpooled ⟨m, armed⟩ hj)
  · change TaskOk R fatal (Function.update w.line l ln) j (Function.update w.task i t j)
    by_cases hj : j = i
    · subst hj
      rw [Function.update_self]
      exact htask
    · rw [Function.update_of_ne hj]
      apply (h.task j).frame
      intro p _ hlent
      apply Function.update_of_ne
      rintro rfl
      exact hj (hplace j hlent)

theorem moveHeld {commits : List (List (ι × ω))} (h : Inv R fatal w) {t : Task ε A γ α}
    {ln : Line Q ω ι} {p p' : Pooled γ} (hp : (w.task i).pooled = some p)
    (hp' : t.pooled = some p') (hconn : p'.conn = p.conn) (hplace : ln.place = .lent i)
    (hholds : Holds R fatal i t p'.armed ln) (hlog : ∀ ws ∈ commits, ∀ e ∈ ws, e.1 ∈ reached) :
    Inv R fatal
      ⟨commits, reached, Function.update w.line p.conn ln, Function.update w.task i t⟩ := by
  obtain ⟨hlent, hheld⟩ := h.lent_of_pooled hp
  apply h.move
  · intro hover
    obtain ⟨_, _, _, _, hstage⟩ := hheld
    rw [hover] at hstage
    exact hstage
  · intro p'' hp''
    rw [hp] at hp''
    cases hp''
    rfl
  · intro j hj
    rw [hlent] at hj
    cases hj
    rfl
  · obtain ⟨l, armed⟩ := p'
    cases hconn
    exact .held hplace hp' hholds
  · apply TaskOk.holding hp'
    rw [hconn, Function.update_self]
    exact hplace
  · exact hlog

theorem moveHeldLine {commits : List (List (ι × ω))} (h : Inv R fatal w) {ln : Line Q ω ι}
    {p : Pooled γ} (hp : (w.task i).pooled = some p) (hplace : ln.place = .lent i)
    (hholds : Holds R fatal i (w.task i) p.armed ln)
    (hlog : ∀ ws ∈ commits, ∀ e ∈ ws, e.1 ∈ reached) :
    Inv R fatal ⟨commits, reached, Function.update w.line p.conn ln, w.task⟩ := by
  have hmove := h.moveHeld hp hp rfl hplace hholds hlog
  rwa [Function.update_eq_self] at hmove

theorem moveHeldTask (h : Inv R fatal w) {t : Task ε A γ α} {p p' : Pooled γ}
    (hp : (w.task i).pooled = some p) (hp' : t.pooled = some p') (hconn : p'.conn = p.conn)
    (hholds : Holds R fatal i t p'.armed (w.line p.conn)) : Inv R fatal (w.putTask i t) := by
  have hmove := h.moveHeld hp hp' hconn (h.lent_of_pooled hp).1 hholds h.log
  rwa [Function.update_eq_self] at hmove

theorem drop (h : Inv R fatal w) (hlive : (w.task i).stage ≠ .gone) :
    Inv R fatal (w.dropTask i) := by
  cases hp : (w.task i).pooled with
  | none =>
    simp only [World.dropTask, hp]
    exact h.moveTask hlive hp (.gone rfl rfl)
  | some p =>
    obtain ⟨hlent, hheld⟩ := h.lent_of_pooled hp
    simp only [World.dropTask, hp]
    apply h.move hlive
    · intro p' hp'
      rw [hp] at hp'
      cases hp'
      rfl
    · intro j hj
      rw [hlent] at hj
      cases hj
      rfl
    · rcases hheld.drop rfl with ⟨hplace, hbegun, hdoomed⟩ | ⟨hplace, hcounted, hsettling⟩
      · refine .closed hplace ?_ ?_ hdoomed
        · rw [Function.update_self]
          rfl
        · rw [Function.update_self]
          exact hbegun
      · exact .returning hplace hcounted hsettling
    · exact .gone rfl rfl
    · exact h.log

theorem poll (h : Inv R fatal w) (hstep : w.poll i = some v) : Inv R fatal v := by
  simp only [World.poll] at hstep
  split at hstep
  · rename_i hstage
    cases hstep
    exact h.drop (by rw [hstage]; nofun)
  · rename_i k p hstage hp
    cases hstep
    obtain ⟨hlent, hheld⟩ := h.lent_of_pooled hp
    exact h.moveHeld hp hp rfl ((dropTransaction_place i _).trans hlent) (hheld.close hstage) h.log
  · cases hstep
  · rename_i c k p hclose hacquire hstage hp
    cases hstep
    have hne : c ≠ .close := by
      rintro rfl
      exact hclose k rfl HEq.rfl
    obtain ⟨p', hp', hconn, hholds⟩ := (h.lent_of_pooled hp).2.send hp hstage hne
    exact h.moveHeldTask hp hp' hconn hholds
  · cases hstep

theorem exec (hread : ∀ t q s, R.nonlocking q = true → (R.exec t q s).2 = [])
    (h : Inv R fatal w) (hstep : w.exec R fatal s₀ l x = some v) : Inv R fatal v := by
  simp only [World.exec] at hstep
  split at hstep
  · rename_i i c rest hqueue
    cases hstep
    cases h.line l with
    | spare _ _ hnone _ =>
      rw [hqueue] at hnone
      cases hnone
    | @lent j armed hlent hp hheld =>
      obtain ⟨rfl, rfl, rfl, hholds⟩ := hheld.flush hqueue
      exact h.moveHeldLine hp hlent hholds (h.commit (visible_nil _))
    | returning hplace hcounted hsettling =>
      rw [hqueue] at hsettling
      obtain ⟨hvisible, hrest⟩ := hsettling.execute hread x w.log
      apply h.moveLine (by rw [hplace]; nofun) _ (h.commit hvisible)
      exact .returning hplace hcounted hrest
    | closed hplace hover hbegun hdoomed =>
      rw [hqueue] at hdoomed
      obtain ⟨hvisible, hrest⟩ := hdoomed.execute x w.log
      apply h.moveLine (by rw [hplace]; nofun) _ (h.commit hvisible)
      exact .closed hplace hover hbegun hrest
  · rename_i hqueue
    split at hstep
    · rename_i i hlent
      split at hstep
      · rename_i c k hawaits
        cases hstep
        obtain ⟨armed, hp, hheld⟩ := h.pooled_of_lent hlent
        obtain ⟨hvisible, hholds⟩ := hheld.answer hread hawaits x w.log
        exact h.moveHeld hp hp rfl hlent hholds (h.commit hvisible)
      · cases hstep
    · cases hstep

/-- Whatever happens to the pool, the invariant is kept. -/
theorem step (hread : ∀ t q s, R.nonlocking q = true → (R.exec t q s).2 = [])
    (h : Inv R fatal w) {a : Act ι γ T} (hstep : w.step R fatal s₀ a = some v) :
    Inv R fatal v := by
  cases a with
  | connect l =>
    simp only [World.step] at hstep
    split at hstep
    · rename_i hplace
      cases hstep
      cases h.line l with
      | spare _ hcounted hqueue htx =>
        exact h.moveLine (by rw [hplace]; nofun) (.spare (.inr rfl) hcounted hqueue htx) h.log
      | lent hlent _ _ => rw [hplace] at hlent; cases hlent
      | returning hret _ _ => rw [hplace] at hret; cases hret
      | closed hclosed _ _ _ => rw [hplace] at hclosed; cases hclosed
    · cases hstep
  | lend i l =>
    simp only [World.step] at hstep
    split at hstep
    · rename_i k hstage hplace
      cases hstep
      have hidle := h.idle hplace
      obtain ⟨hnone, hbegun, hkeeps⟩ := h.acquiring hstage
      obtain ⟨next, hnext, hk⟩ := hkeeps (.ok ())
      cases hnext
      apply h.move (by rw [hstage]; nofun) (by rw [hnone]; nofun) (by rw [hplace]; nofun) _ _ h.log
      · refine .held rfl rfl ?_
        exact ⟨.holding, nofun, hidle.1, hbegun, rfl, hk, .inl ⟨hidle.2.1, hidle.2.2⟩⟩
      · refine .holding rfl ?_
        exact congrArg Line.place (Function.update_self l _ w.line)
    · cases hstep
  | refuse i t =>
    simp only [World.step] at hstep
    split at hstep
    · rename_i k e hstage hrefused
      cases hstep
      obtain ⟨hnone, hbegun, hkeeps⟩ := h.acquiring hstage
      obtain ⟨next, hnext, hk⟩ := hkeeps (.error e)
      cases hnext
      exact h.moveTask (by rw [hstage]; nofun) hnone (.outside hnone hbegun rfl hk)
    · cases hstep
  | poll i => exact h.poll hstep
  | exec l x => exact h.exec hread hstep
  | receive i =>
    simp only [World.step] at hstep
    split at hstep
    · rename_i c r k p hstage hp
      cases hstep
      obtain ⟨hlent, hheld⟩ := h.lent_of_pooled hp
      obtain ⟨p', hp', hconn, hplace, hholds⟩ := hheld.receive hp hstage
      exact h.moveHeld hp hp' hconn (hplace.trans hlent) hholds h.log
    · cases hstep
  | cut i =>
    simp only [World.step] at hstep
    split at hstep
    · cases hstep
    · rename_i hlive
      cases hstep
      exact h.drop hlive
  | settle l =>
    simp only [World.step] at hstep
    split at hstep
    · rename_i hplace hqueue
      cases hstep
      obtain ⟨hcounted, hsettling⟩ := h.returning hplace
      rw [hqueue] at hsettling
      exact h.moveLine (by rw [hplace]; nofun)
        (.spare (.inr rfl) hcounted hqueue hsettling.clean) h.log
    · cases hstep
  | disconnect l =>
    simp only [World.step] at hstep
    split at hstep
    · rename_i i hplace
      cases hstep
      obtain ⟨hover, hbegun⟩ := h.closed hplace
      exact h.moveLine (by rw [hplace]; nofun) (.closed hplace hover hbegun .nothing) h.log
    · cases hstep

theorem run (hread : ∀ t q s, R.nonlocking q = true → (R.exec t q s).2 = [])
    (h : Inv R fatal w) {acts : List (Act ι γ T)} (hrun : w.run R fatal s₀ acts = some v) :
    Inv R fatal v := by
  induction acts generalizing w with
  | nil =>
    cases hrun
    exact h
  | cons a acts ih =>
    obtain ⟨u, hstep, hrun⟩ := Option.bind_eq_some_iff.1 hrun
    exact ih (h.step hread hstep) hrun

theorem lend (h : Inv R fatal w) (hstep : w.step R fatal s₀ (.lend i l) = some v) :
    (w.line l).tx = none ∧ (w.line l).queue = [] := by
  simp only [World.step] at hstep
  split at hstep
  · obtain ⟨_, hqueue, htx⟩ := h.idle ‹_›
    exact ⟨htx, hqueue⟩
  · cases hstep

theorem dropTask_other (h : Inv R fatal w) (hl : (w.line l).place = .lent i) (hj : j ≠ i) :
    ((w.dropTask j).line l).place = .lent i := by
  cases hp : (w.task j).pooled with
  | none =>
    simp only [World.dropTask, hp]
    exact hl
  | some p =>
    have hne : l ≠ p.conn := by
      rintro rfl
      have hplace := (h.lent_of_pooled hp).1
      rw [hl] at hplace
      cases hplace
      exact hj rfl
    simp only [World.dropTask, hp]
    exact (congrArg Line.place (Function.update_of_ne hne _ _)).trans hl

theorem step_place (h : Inv R fatal w) {a : Act ι γ T} (hstep : w.step R fatal s₀ a = some v)
    (hl : (w.line l).place = .lent i) : (v.line l).place = .lent i ∨ v = w.dropTask i := by
  have hkeep : ∀ m (ln : Line Q ω ι), (m = l → ln.place = .lent i) →
      (Function.update w.line m ln l).place = .lent i := by
    intro m ln hm
    by_cases he : l = m
    · subst he
      rw [Function.update_self]
      exact hm rfl
    · rw [Function.update_of_ne he]
      exact hl
  have hdrop : ∀ j, v = w.dropTask j → (v.line l).place = .lent i ∨ v = w.dropTask i := by
    rintro j rfl
    by_cases hj : j = i
    · exact .inr (hj ▸ rfl)
    · exact .inl (h.dropTask_other hl hj)
  cases a with
  | connect m =>
    simp only [World.step] at hstep
    split at hstep
    · rename_i hplace
      cases hstep
      exact .inl (hkeep _ _ fun he => by rw [he, hl] at hplace; cases hplace)
    · cases hstep
  | lend j m =>
    simp only [World.step] at hstep
    split at hstep
    · rename_i hplace
      cases hstep
      exact .inl (hkeep _ _ fun he => by rw [he, hl] at hplace; cases hplace)
    · cases hstep
  | refuse j t =>
    simp only [World.step] at hstep
    split at hstep
    · cases hstep
      exact .inl hl
    · cases hstep
  | poll j =>
    simp only [World.step, World.poll] at hstep
    split at hstep
    · cases hstep
      exact hdrop j rfl
    · cases hstep
      exact .inl (hkeep _ _ fun he => (dropTransaction_place j _).trans (he ▸ hl))
    · cases hstep
    · cases hstep
      exact .inl hl
    · cases hstep
  | exec m x =>
    simp only [World.step, World.exec] at hstep
    split at hstep
    · cases hstep
      exact .inl (hkeep _ _ fun he => he ▸ hl)
    · split at hstep
      · split at hstep
        · cases hstep
          exact .inl (hkeep _ _ fun he => he ▸ hl)
        · cases hstep
      · cases hstep
  | receive j =>
    simp only [World.step] at hstep
    split at hstep
    · cases hstep
      exact .inl (hkeep _ _ fun he => (count_place _ _ _).trans (he ▸ hl))
    · cases hstep
  | cut j =>
    simp only [World.step] at hstep
    split at hstep
    · cases hstep
    · cases hstep
      exact hdrop j rfl
  | settle m =>
    simp only [World.step] at hstep
    split at hstep
    · rename_i hplace _
      cases hstep
      exact .inl (hkeep _ _ fun he => by rw [he, hl] at hplace; cases hplace)
    · cases hstep
  | disconnect m =>
    simp only [World.step] at hstep
    split at hstep
    · rename_i hplace
      cases hstep
      exact .inl (hkeep _ _ fun he => by rw [he, hl] at hplace; cases hplace)
    · cases hstep

/-- A connection whose `BEGIN` returned goes back to the pool when its handler is gone. -/
theorem returned (h : Inv R fatal w) {a : Act ι γ T} (hstep : w.step R fatal s₀ a = some v)
    (hl : (w.line l).place = .lent i) (hgone : (v.line l).place ≠ .lent i)
    (hbegun : (w.task i).begun = true) : (v.line l).place = .returning := by
  rcases h.step_place hstep hl with hlent | rfl
  · exact absurd hlent hgone
  · obtain ⟨armed, hp, hheld⟩ := h.pooled_of_lent hl
    rw [World.dropTask_line hp]
    rcases hheld.drop rfl with ⟨_, hnot, _⟩ | ⟨hplace, _⟩
    · rw [hbegun] at hnot
      cases hnot
    · exact hplace

end Inv

theorem World.settles [DecidableEq ι] [DecidableEq γ] (R : Rules σ ω κ ε Q A T)
    (fatal : (q : Q) → A q → Bool) (s₀ : σ) (x : Chance T) {w : World ε A ω ι γ α}
    (hl : (w.line l).place = .returning) :
    ∃ acts v, w.run R fatal s₀ acts = some v ∧ (v.line l).place = .idle := by
  generalize hq : (w.line l).queue = queue
  induction queue generalizing w with
  | nil =>
    refine ⟨[.settle l], w.putLine l { w.line l with place := .idle }, ?_, ?_⟩
    · simp only [World.run, World.step, hl, hq]
      rfl
    · rw [World.putLine_line]
  | cons e rest ih =>
    obtain ⟨i, c⟩ := e
    obtain ⟨v, hv, hplace, hqueue⟩ : ∃ v, w.step R fatal s₀ (.exec l x) = some v ∧
        (v.line l).place = .returning ∧ (v.line l).queue = rest := by
      refine ⟨_, by simp only [World.step, World.exec, hq]; rfl, ?_, ?_⟩
      · rw [World.putLine_line]
        exact hl
      · rw [World.putLine_line]
    obtain ⟨acts, u, hrun, hidle⟩ := ih hplace hqueue
    exact ⟨.exec l x :: acts, u, by rw [World.run, hv]; exact hrun, hidle⟩

end ProjectDb.Pool
