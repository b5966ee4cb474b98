import ProjectDb.Pooled

namespace ProjectDb.Pool
open Mvcc
set_option autoImplicit true

variable {σ ω κ ε Q ι γ α : Type} {A : Q → Type} {T : Type u}

/-- How far a handler is with its connection: `doubtful` after a `BEGIN` that failed, and `broken`
after a reply that may have ended the transaction. -/
inductive Phase
  | outside
  | holding
  | doubtful
  | inside
  | broken
  | ended
  deriving DecidableEq

/-- What a handler may ask for in a phase, and where the reply takes it. A handler reads outside a
transaction and writes inside one, and after a fatal reply it only ends its transaction. -/
def after (R : Rules σ ω κ ε Q A T) (fatal : (q : Q) → A q → Bool) :
    Phase → (c : Cmd Q) → Cmd.Reply ε A c → Option Phase
  | .outside, .acquire, .ok _ => some .holding
  | .outside, .acquire, .error _ => some .outside
  | .holding, .begin, .ok _ => some .inside
  | .holding, .begin, .error _ => some .doubtful
  | .holding, .stmt q, _ => if R.nonlocking q then some .holding else none
  | .inside, .stmt q, r => some (if fatal q r then .broken else .inside)
  | .inside, .commit, .ok _ => some .ended
  | .inside, .commit, .error _ => some .broken
  | .inside, .rollback, .ok _ => some .ended
  | .inside, .rollback, .error _ => some .broken
  | .broken, .rollback, .ok _ => some .ended
  | .broken, .rollback, .error _ => some .broken
  | .inside, .close, _ => some .ended
  | .broken, .close, _ => some .ended
  | .ended, .close, _ => some .ended
  | _, _, _ => none

namespace Phase

def counted : Phase → Bool
  | .inside => true
  | .broken => true
  | _ => false

def begun : Phase → Bool
  | .inside => true
  | .broken => true
  | .ended => true
  | _ => false

def armed : Phase → Bool
  | .doubtful => true
  | _ => false

end Phase

/-- No transaction, or one in which only the handler wrote. -/
def Owned (i : ι) (tx : Option (List (ι × ω))) : Prop := ∀ ws ∈ tx, ∀ e ∈ ws, e.1 = i

/-- What the server may have open for a handler in a phase. -/
def Phase.Fits (i : ι) : Phase → Option (List (ι × ω)) → Prop
  | .outside, tx => tx = none
  | .holding, tx => tx = none
  | .doubtful, tx => Owned i tx
  | .inside, tx => ∃ ws, tx = some ws ∧ ∀ e ∈ ws, e.1 = i
  | .broken, tx => Owned i tx
  | .ended, tx => tx = none

theorem owned_none : Owned i (none : Option (List (ι × ω))) := fun _ h => nomatch h

theorem owned_some {ws : List (ι × ω)} (h : ∀ e ∈ ws, e.1 = i) : Owned i (some ws) := by
  intro ws' hws
  cases hws
  exact h

theorem Phase.Fits.owned {ph : Phase} {tx : Option (List (ι × ω))} (h : ph.Fits i tx) :
    Owned i tx := by
  cases ph with
  | outside => exact h ▸ owned_none
  | holding => exact h ▸ owned_none
  | doubtful => exact h
  | inside =>
    obtain ⟨ws, rfl, hws⟩ := h
    exact owned_some hws
  | broken => exact h
  | ended => exact h ▸ owned_none

/-- The commands that a handler sends to the server in a phase. -/
inductive Asks (R : Rules σ ω κ ε Q A T) : Phase → Cmd Q → Prop
  | begin : Asks R .holding .begin
  | read : R.nonlocking q = true → Asks R .holding (.stmt q)
  | stmt : Asks R .inside (.stmt q)
  | commit : Asks R .inside .commit
  | rollback : Asks R .inside .rollback
  | rollbackAgain : Asks R .broken .rollback

/-- The command that a connection is armed for. -/
def arms : Cmd Q → Bool
  | .begin => true
  | _ => false

section
variable (R : Rules σ ω κ ε Q A T) (fatal : (q : Q) → A q → Bool)

def Keeps (ph : Phase) (p : Prog (Cmd.Reply ε A) α) : Prop :=
  p.Obeys (after R fatal) (fun _ _ => True) ph

/-- A handler and the connection it holds. -/
def Holds (i : ι) (t : Task ε A γ α) (armed : Bool) (ln : Line Q ω ι) : Prop :=
  ∃ ph, ph ≠ .outside ∧ ln.counted = ph.counted ∧ t.begun = ph.begun ∧
    match t.stage with
    | .calls p => armed = ph.armed ∧ Keeps R fatal ph p ∧
        (ln.queue = [] ∧ ph.Fits i ln.tx ∨
          ph = .ended ∧ ln.queue = [(i, .close)] ∧ Owned i ln.tx)
    | .awaits c k => armed = arms c ∧ Asks R ph c ∧ ln.queue = [] ∧ ph.Fits i ln.tx ∧
        ∀ r, ∃ next, after R fatal ph c r = some next ∧ Keeps R fatal next (k r)
    | .answered c r k => armed = arms c ∧ Asks R ph c ∧ ln.queue = [] ∧
        ∃ next, after R fatal ph c r = some next ∧ Keeps R fatal next (k r) ∧ next.Fits i ln.tx
    | .gone => False

/-- What is left on a connection that goes back to the pool: executed, it leaves no transaction. -/
inductive Settling (R : Rules σ ω κ ε Q A T) : List (ι × Cmd Q) → Option (List (ι × ω)) → Prop
  | nothing : Settling R [] none
  | read : R.nonlocking q = true → Settling R [(i, .stmt q)] none
  | dropped : Owned i tx → Settling R [(i, .close)] tx
  | statement : (∀ e ∈ ws, e.1 = i) → Settling R [(i, .stmt q), (i, .close)] (some ws)
  | commit : Owned i tx → Settling R [(i, .commit), (i, .close)] tx
  | rollback : Owned i tx → Settling R [(i, .rollback), (i, .close)] tx

/-- What is left on a connection that is closed. -/
inductive Doomed : List (ι × Cmd Q) → Option (List (ι × ω)) → Prop
  | nothing : Doomed [] tx
  | begin : Doomed [(i, .begin)] none

end

variable {R : Rules σ ω κ ε Q A T} {fatal : (q : Q) → A q → Bool} {s₀ : σ}

theorem asks_of_keeps {c : Cmd Q} {k : Cmd.Reply ε A c → Prog (Cmd.Reply ε A) α}
    (h : Keeps R fatal ph (.ask c k)) (hout : ph ≠ .outside) (hclose : c ≠ .close) :
    Asks R ph c := by
  cases c with
  | acquire =>
    obtain ⟨next, hnext, _⟩ := h (.ok ())
    cases ph with
    | outside => exact absurd rfl hout
    | _ => cases hnext
  | close => exact absurd rfl hclose
  | begin =>
    obtain ⟨next, hnext, _⟩ := h (.ok ())
    cases ph with
    | holding => exact .begin
    | _ => cases hnext
  | commit =>
    obtain ⟨next, hnext, _⟩ := h (.ok ())
    cases ph with
    | inside => exact .commit
    | _ => cases hnext
  | rollback =>
    obtain ⟨next, hnext, _⟩ := h (.ok ())
    cases ph with
    | inside => exact .rollback
    | broken => exact .rollbackAgain
    | _ => cases hnext
  | stmt q =>
    obtain ⟨next, hnext, _⟩ := h (R.stale q)
    cases ph with
    | holding =>
      by_cases hq : R.nonlocking q = true
      · exact .read hq
      · simp only [after, if_neg hq] at hnext
        cases hnext
    | inside => exact .stmt
    | _ => cases hnext

/-- What a command makes visible: nothing, but what a `COMMIT` of the handler commits. -/
def Visible (i : ι) (c : Cmd Q) (commits : List (List (ι × ω))) : Prop :=
  ∀ ws ∈ commits, ∀ e ∈ ws, c = .commit ∧ e.1 = i

theorem visible_nil (c : Cmd Q) : Visible i c ([] : List (List (ι × ω))) := fun _ h => nomatch h

theorem execute_begin (x : Chance T) (log : List (List (ι × ω))) (i : ι) :
    Visible i (.begin : Cmd Q) (execute R fatal s₀ x log i none .begin).commits ∧
      ∃ next, after R fatal .holding .begin (execute R fatal s₀ x log i none .begin).reply =
        some next ∧ next.Fits i (execute R fatal s₀ x log i none .begin).tx := by
  unfold execute
  cases R.refused x.tick with
  | some e =>
    refine ⟨?_, .doubtful, rfl, ?_⟩
    · cases x.lost <;> exact visible_nil _
    · cases x.lost
      · exact owned_none
      · exact owned_some nofun
  | none => exact ⟨visible_nil _, .inside, rfl, [], rfl, nofun⟩

theorem execute_read (hread : ∀ t q s, R.nonlocking q = true → (R.exec t q s).2 = []) {q : Q}
    (hq : R.nonlocking q = true) (x : Chance T) (log : List (List (ι × ω))) (i : ι) :
    (execute R fatal s₀ x log i none (.stmt q)).tx = none ∧
      Visible i (.stmt q) (execute R fatal s₀ x log i none (.stmt q)).commits := by
  refine ⟨rfl, ?_⟩
  intro ws hws e he
  obtain rfl := List.mem_singleton.1 hws
  obtain ⟨change, hchange, _⟩ := List.mem_map.1 he
  cases hx : x.stale with
  | true =>
    simp only [hx] at hchange
    cases hchange
  | false =>
    simp only [hx] at hchange
    rw [if_neg Bool.false_ne_true, hread _ _ _ hq] at hchange
    cases hchange

theorem execute_stmt {ws : List (ι × ω)} (hws : ∀ e ∈ ws, e.1 = i) (x : Chance T)
    (log : List (List (ι × ω))) (q : Q) :
    (execute R fatal s₀ x log i (some ws) (.stmt q)).commits = [] ∧
      ∃ next, after R fatal .inside (.stmt q)
          (execute R fatal s₀ x log i (some ws) (.stmt q)).reply = some next ∧
        next.Fits i (execute R fatal s₀ x log i (some ws) (.stmt q)).tx := by
  obtain ⟨r, hr⟩ : ∃ r : A q × List ω, execute R fatal s₀ x log i (some ws) (.stmt q) =
      ⟨r.1, if fatal q r.1 && x.lost then none else some (ws ++ r.2.map fun change => (i, change)),
        []⟩ := ⟨_, rfl⟩
  have hown : ∀ e ∈ ws ++ r.2.map fun change => (i, change), e.1 = i := by
    intro e he
    rcases List.mem_append.1 he with he | he
    · exact hws e he
    · obtain ⟨_, _, rfl⟩ := List.mem_map.1 he
      rfl
  rw [hr]
  refine ⟨rfl, _, rfl, ?_⟩
  cases fatal q r.1 with
  | false => exact ⟨_, rfl, hown⟩
  | true =>
    cases x.lost with
    | false => exact owned_some hown
    | true => exact owned_none

theorem execute_commit {tx : Option (List (ι × ω))} (hown : Owned i tx) (x : Chance T)
    (log : List (List (ι × ω))) :
    Visible i (.commit : Cmd Q) (execute R fatal s₀ x log i tx .commit).commits ∧
      ∃ next, after R fatal .inside .commit (execute R fatal s₀ x log i tx .commit).reply =
        some next ∧ next.Fits i (execute R fatal s₀ x log i tx .commit).tx := by
  unfold execute
  cases R.unserved x.tick with
  | some e =>
    refine ⟨visible_nil _, .broken, rfl, ?_⟩
    cases x.lost
    · exact hown
    · exact owned_none
  | none =>
    constructor
    · intro ws hws e he
      exact ⟨rfl, hown ws (Option.mem_toList.1 hws) e he⟩
    · cases R.control x.tick with
      | ok _ => exact ⟨.ended, rfl, rfl⟩
      | error _ => exact ⟨.broken, rfl, owned_none⟩

theorem execute_rollback {tx : Option (List (ι × ω))} (hown : Owned i tx) (x : Chance T)
    (log : List (List (ι × ω))) (hph : ph = .inside ∨ ph = .broken) :
    (execute R fatal s₀ x log i tx .rollback).commits = [] ∧
      ∃ next, after R fatal ph .rollback (execute R fatal s₀ x log i tx .rollback).reply =
        some next ∧ next.Fits i (execute R fatal s₀ x log i tx .rollback).tx := by
  unfold execute
  cases R.refused x.tick with
  | some e =>
    refine ⟨rfl, .broken, by rcases hph with rfl | rfl <;> rfl, ?_⟩
    cases x.lost
    · exact hown
    · exact owned_none
  | none => exact ⟨rfl, .ended, by rcases hph with rfl | rfl <;> rfl, rfl⟩

/-- The server's end of a command fits the phase that its reply takes the handler to. -/
theorem execute_fits (hread : ∀ t q s, R.nonlocking q = true → (R.exec t q s).2 = [])
    {c : Cmd Q} {tx : Option (List (ι × ω))} (hasks : Asks R ph c) (hfits : ph.Fits i tx)
    (x : Chance T) (log : List (List (ι × ω))) :
    Visible i c (execute R fatal s₀ x log i tx c).commits ∧
      ∃ next, after R fatal ph c (execute R fatal s₀ x log i tx c).reply = some next ∧
        next.Fits i (execute R fatal s₀ x log i tx c).tx := by
  cases hasks with
  | begin =>
    cases hfits
    exact execute_begin x log i
  | read hq =>
    cases hfits
    exact ⟨(execute_read hread hq x log i).2, .holding, if_pos hq,
      (execute_read hread hq x log i).1⟩
  | stmt =>
    obtain ⟨ws, rfl, hws⟩ := hfits
    obtain ⟨hcommits, hnext⟩ := execute_stmt hws x log _
    exact ⟨hcommits ▸ visible_nil _, hnext⟩
  | commit => exact execute_commit hfits.owned x log
  | rollback =>
    obtain ⟨hcommits, hnext⟩ := execute_rollback hfits.owned x log (.inl rfl)
    exact ⟨hcommits ▸ visible_nil _, hnext⟩
  | rollbackAgain =>
    obtain ⟨hcommits, hnext⟩ := execute_rollback hfits.owned x log (.inr rfl)
    exact ⟨hcommits ▸ visible_nil _, hnext⟩

theorem Settling.execute (hread : ∀ t q s, R.nonlocking q = true → (R.exec t q s).2 = [])
    {rest : List (ι × Cmd Q)} {tx : Option (List (ι × ω))} (h : Settling R ((i, c) :: rest) tx)
    (x : Chance T) (log : List (List (ι × ω))) :
    Visible i c (execute R fatal s₀ x log i tx c).commits ∧
      Settling R rest (execute R fatal s₀ x log i tx c).tx := by
  cases h with
  | read hq =>
    obtain ⟨htx, hvisible⟩ := execute_read hread hq x log i
    exact ⟨hvisible, htx ▸ .nothing⟩
  | dropped _ => exact ⟨visible_nil _, .nothing⟩
  | statement hws =>
    obtain ⟨hcommits, _, _, hfits⟩ := execute_stmt hws x log _
    exact ⟨hcommits ▸ visible_nil _, .dropped hfits.owned⟩
  | commit hown =>
    obtain ⟨hvisible, _, _, hfits⟩ := execute_commit hown x log
    exact ⟨hvisible, .dropped hfits.owned⟩
  | rollback hown =>
    obtain ⟨hcommits, _, _, hfits⟩ := execute_rollback hown x log (.inl rfl)
    exact ⟨hcommits ▸ visible_nil _, .dropped hfits.owned⟩

theorem Settling.clean {tx : Option (List (ι × ω))} (h : Settling R [] tx) : tx = none := by
  cases h
  rfl

theorem Doomed.execute {rest : List (ι × Cmd Q)} {tx : Option (List (ι × ω))}
    (h : Doomed ((i, c) :: rest) tx) (x : Chance T) (log : List (List (ι × ω))) :
    Visible i c (execute R fatal s₀ x log i tx c).commits ∧
      Doomed rest (execute R fatal s₀ x log i tx c).tx := by
  cases h
  exact ⟨(execute_begin x log i).1, .nothing⟩

/-- Once its handler is gone, an armed connection is closed before its `BEGIN` returned, and any
other is clean when what is left on it is executed. -/
theorem Holds.drop {t : Task ε A γ α} {ln ln' : Line Q ω ι} (h : Holds R fatal i t armed ln)
    (hdrop : ln' = ({ ln with queue := ln.queue ++ t.unread i }.dropTransaction i).dropPooled i
      armed) :
    (ln'.place = .closed i ∧ t.begun = false ∧ Doomed ln'.queue ln'.tx) ∨
      (ln'.place = .returning ∧ ln'.counted = false ∧ Settling R ln'.queue ln'.tx) := by
  obtain ⟨stage, pooled, begun⟩ := t
  obtain ⟨place, counted, queue, tx⟩ := ln
  obtain ⟨ph, hout, hcounted, hbegun, hstage⟩ := h
  cases hcounted
  cases hbegun
  cases hdrop
  cases stage with
  | gone => exact hstage.elim
  | calls p =>
    obtain ⟨rfl, _, ⟨rfl, hfits⟩ | ⟨rfl, rfl, hown⟩⟩ := hstage
    · cases ph with
      | outside => exact absurd rfl hout
      | holding =>
        cases hfits
        exact .inr ⟨rfl, rfl, .nothing⟩
      | doubtful => exact .inl ⟨rfl, rfl, .nothing⟩
      | inside => exact .inr ⟨rfl, rfl, .dropped hfits.owned⟩
      | broken => exact .inr ⟨rfl, rfl, .dropped hfits.owned⟩
      | ended =>
        cases hfits
        exact .inr ⟨rfl, rfl, .nothing⟩
    · exact .inr ⟨rfl, rfl, .dropped hown⟩
  | awaits c k =>
    obtain ⟨rfl, hasks, rfl, hfits, _⟩ := hstage
    cases hasks with
    | begin =>
      cases hfits
      exact .inl ⟨rfl, rfl, .begin⟩
    | read hq =>
      cases hfits
      exact .inr ⟨rfl, rfl, .read hq⟩
    | stmt =>
      obtain ⟨ws, rfl, hws⟩ := hfits
      exact .inr ⟨rfl, rfl, .statement hws⟩
    | commit => exact .inr ⟨rfl, rfl, .commit hfits.owned⟩
    | rollback => exact .inr ⟨rfl, rfl, .rollback hfits.owned⟩
    | rollbackAgain => exact .inr ⟨rfl, rfl, .rollback hfits.owned⟩
  | answered c r k =>
    obtain ⟨rfl, hasks, rfl, next, hnext, _, hfits⟩ := hstage
    cases hasks with
    | begin => exact .inl ⟨rfl, rfl, .nothing⟩
    | read hq =>
      rw [after, if_pos hq] at hnext
      cases hnext
      cases hfits
      exact .inr ⟨rfl, rfl, .nothing⟩
    | stmt => exact .inr ⟨rfl, rfl, .dropped hfits.owned⟩
    | commit => exact .inr ⟨rfl, rfl, .dropped hfits.owned⟩
    | rollback => exact .inr ⟨rfl, rfl, .dropped hfits.owned⟩
    | rollbackAgain => exact .inr ⟨rfl, rfl, .dropped hfits.owned⟩

theorem dropTransaction_place (i : ι) (ln : Line Q ω ι) :
    (ln.dropTransaction i).place = ln.place := by
  unfold Line.dropTransaction
  split_ifs <;> rfl

theorem count_place (ln : Line Q ω ι) (c : Cmd Q) (r : Cmd.Reply ε A c) :
    (ln.count c r).place = ln.place := by
  unfold Line.count
  split <;> rfl

theorem Holds.close {t : Task ε A γ α} {ln : Line Q ω ι}
    {k : Cmd.Reply ε A .close → Prog (Cmd.Reply ε A) α} (h : Holds R fatal i t armed ln)
    (hcalls : t.stage = .calls (.ask .close k)) :
    Holds R fatal i { t with stage := .calls (k ()) } armed (ln.dropTransaction i) := by
  obtain ⟨ph, _, hcounted, hbegun, hstage⟩ := h
  rw [hcalls] at hstage
  obtain ⟨harmed, hkeeps, hrest⟩ := hstage
  obtain ⟨next, hnext, hk⟩ := hkeeps ()
  have hopen : ph.counted = true → ph.Fits i ln.tx → ln.queue = [] → next = .ended →
      ph.armed = false → ph.begun = true →
      Holds R fatal i { t with stage := .calls (k ()) } armed (ln.dropTransaction i) := by
    intro hc hfits hqueue hended ha hb
    subst hended
    have hdrop : ln.dropTransaction i =
        { ln with counted := false, queue := [(i, .close)] } := by
      rw [Line.dropTransaction, if_pos (hcounted.trans hc), hqueue]
      rfl
    rw [hdrop]
    exact ⟨.ended, nofun, rfl, hbegun.trans hb, harmed.trans ha, hk, .inr ⟨rfl, rfl, hfits.owned⟩⟩
  cases ph with
  | inside =>
    cases hnext
    rcases hrest with ⟨hqueue, hfits⟩ | ⟨hph, _⟩
    · exact hopen rfl hfits hqueue rfl rfl rfl
    · cases hph
  | broken =>
    cases hnext
    rcases hrest with ⟨hqueue, hfits⟩ | ⟨hph, _⟩
    · exact hopen rfl hfits hqueue rfl rfl rfl
    · cases hph
  | ended =>
    cases hnext
    have hdrop : ln.dropTransaction i = ln := by
      rw [Line.dropTransaction, if_neg (by rw [hcounted]; nofun)]
    rw [hdrop]
    exact ⟨.ended, nofun, hcounted, hbegun, harmed, hk, hrest⟩
  | _ => cases hnext

theorem Asks.live {ph : Phase} {c : Cmd Q} (h : Asks R ph c) :
    ph ≠ .outside ∧ ph ≠ .ended ∧ ph.armed = false := by
  cases h <;> exact ⟨nofun, nofun, rfl⟩

theorem Holds.awaiting {t t' : Task ε A γ α} {ln : Line Q ω ι} {c : Cmd Q}
    {k : Cmd.Reply ε A c → Prog (Cmd.Reply ε A) α} (h : Holds R fatal i t armed ln)
    (hcalls : t.stage = .calls (.ask c k)) (hclose : c ≠ .close)
    (hawaits : t'.stage = .awaits c k) (hsame : t'.begun = t.begun) :
    Holds R fatal i t' (arms c) ln := by
  obtain ⟨ph, hout, hcounted, hbegun, hstage⟩ := h
  rw [hcalls] at hstage
  obtain ⟨_, hkeeps, hrest⟩ := hstage
  have hasks := asks_of_keeps hkeeps hout hclose
  refine ⟨ph, hout, hcounted, hsame.trans hbegun, ?_⟩
  rw [hawaits]
  rcases hrest with ⟨hqueue, hfits⟩ | ⟨hph, _⟩
  · exact ⟨rfl, hasks, hqueue, hfits, hkeeps⟩
  · exact absurd hph hasks.live.2.1

theorem Holds.send {t : Task ε A γ α} {ln : Line Q ω ι} {c : Cmd Q} {p : Pooled γ}
    {k : Cmd.Reply ε A c → Prog (Cmd.Reply ε A) α} (h : Holds R fatal i t p.armed ln)
    (hp : t.pooled = some p) (hcalls : t.stage = .calls (.ask c k)) (hclose : c ≠ .close) :
    ∃ p', (t.send p c k).pooled = some p' ∧ p'.conn = p.conn ∧
      Holds R fatal i (t.send p c k) p'.armed ln := by
  have harmed : p.armed = false := by
    obtain ⟨ph, hout, _, _, hstage⟩ := h
    rw [hcalls] at hstage
    exact hstage.1.trans (asks_of_keeps hstage.2.1 hout hclose).live.2.2
  cases c with
  | begin => exact ⟨⟨p.conn, true⟩, rfl, rfl, h.awaiting hcalls hclose rfl rfl⟩
  | close => exact absurd rfl hclose
  | _ =>
    refine ⟨p, hp, rfl, ?_⟩
    rw [harmed]
    exact h.awaiting hcalls hclose rfl rfl

theorem Holds.answer (hread : ∀ t q s, R.nonlocking q = true → (R.exec t q s).2 = [])
    {t : Task ε A γ α} {ln : Line Q ω ι} {c : Cmd Q}
    {k : Cmd.Reply ε A c → Prog (Cmd.Reply ε A) α} (h : Holds R fatal i t armed ln)
    (hawaits : t.stage = .awaits c k) (x : Chance T) (log : List (List (ι × ω))) :
    Visible i c (execute R fatal s₀ x log i ln.tx c).commits ∧
      Holds R fatal i
        { t with stage := .answered c (execute R fatal s₀ x log i ln.tx c).reply k } armed
        { ln with tx := (execute R fatal s₀ x log i ln.tx c).tx } := by
  obtain ⟨ph, hout, hcounted, hbegun, hstage⟩ := h
  rw [hawaits] at hstage
  obtain ⟨harmed, hasks, hqueue, hfits, hkeeps⟩ := hstage
  obtain ⟨hvisible, next, hnext, hfits'⟩ := execute_fits hread hasks hfits x log
  obtain ⟨next', hnext', hk⟩ := hkeeps (execute R fatal s₀ x log i ln.tx c).reply
  rw [hnext] at hnext'
  cases hnext'
  exact ⟨hvisible, ph, hout, hcounted, hbegun, harmed, hasks, hqueue, next, hnext, hk, hfits'⟩

/-- A handler that reads its reply: the client counts, and a `BEGIN` that returned disarms. -/
theorem Holds.receive {t : Task ε A γ α} {ln : Line Q ω ι} {c : Cmd Q} {p : Pooled γ}
    {r : Cmd.Reply ε A c} {k : Cmd.Reply ε A c → Prog (Cmd.Reply ε A) α}
    (h : Holds R fatal i t p.armed ln) (hp : t.pooled = some p)
    (hanswered : t.stage = .answered c r k) :
    ∃ p', (t.receive p c r k).pooled = some p' ∧ p'.conn = p.conn ∧
      (ln.count c r).place = ln.place ∧
      Holds R fatal i (t.receive p c r k) p'.armed (ln.count c r) := by
  obtain ⟨ph, hout, hcounted, hbegun, hstage⟩ := h
  rw [hanswered] at hstage
  obtain ⟨harmed, hasks, hqueue, next, hnext, hk, hfits⟩ := hstage
  cases hasks with
  | begin =>
    cases r with
    | ok u =>
      cases hnext
      exact ⟨⟨p.conn, false⟩, rfl, rfl, rfl, .inside, nofun, rfl, rfl, rfl, hk,
        .inl ⟨hqueue, hfits⟩⟩
    | error e =>
      cases hnext
      exact ⟨p, hp, rfl, rfl, .doubtful, nofun, hcounted, hbegun, harmed, hk,
        .inl ⟨hqueue, hfits⟩⟩
  | read hq =>
    rw [after, if_pos hq] at hnext
    cases hnext
    exact ⟨p, hp, rfl, rfl, .holding, nofun, hcounted, hbegun, harmed, hk, .inl ⟨hqueue, hfits⟩⟩
  | @stmt q =>
    simp only [after, Option.some.injEq] at hnext
    cases hfatal : fatal q r with
    | true =>
      rw [hfatal] at hnext
      cases hnext
      exact ⟨p, hp, rfl, rfl, .broken, nofun, hcounted, hbegun, harmed, hk, .inl ⟨hqueue, hfits⟩⟩
    | false =>
      rw [hfatal] at hnext
      cases hnext
      exact ⟨p, hp, rfl, rfl, .inside, nofun, hcounted, hbegun, harmed, hk, .inl ⟨hqueue, hfits⟩⟩
  | commit =>
    cases r with
    | ok u =>
      cases hnext
      exact ⟨p, hp, rfl, rfl, .ended, nofun, rfl, hbegun, harmed, hk, .inl ⟨hqueue, hfits⟩⟩
    | error e =>
      cases hnext
      exact ⟨p, hp, rfl, rfl, .broken, nofun, hcounted, hbegun, harmed, hk, .inl ⟨hqueue, hfits⟩⟩
  | rollback =>
    cases r with
    | ok u =>
      cases hnext
      exact ⟨p, hp, rfl, rfl, .ended, nofun, rfl, hbegun, harmed, hk, .inl ⟨hqueue, hfits⟩⟩
    | error e =>
      cases hnext
      exact ⟨p, hp, rfl, rfl, .broken, nofun, hcounted, hbegun, harmed, hk, .inl ⟨hqueue, hfits⟩⟩
  | rollbackAgain =>
    cases r with
    | ok u =>
      cases hnext
      exact ⟨p, hp, rfl, rfl, .ended, nofun, rfl, hbegun, harmed, hk, .inl ⟨hqueue, hfits⟩⟩
    | error e =>
      cases hnext
      exact ⟨p, hp, rfl, rfl, .broken, nofun, hcounted, hbegun, harmed, hk, .inl ⟨hqueue, hfits⟩⟩

theorem Holds.flush {t : Task ε A γ α} {ln : Line Q ω ι} (h : Holds R fatal i t armed ln)
    (hqueue : ln.queue = (j, c) :: rest) : j = i ∧ c = .close ∧ rest = [] ∧
      Holds R fatal i t armed { ln with queue := [], tx := none } := by
  obtain ⟨ph, hout, hcounted, hbegun, hstage⟩ := h
  rw [hqueue] at hstage
  cases hs : t.stage with
  | gone =>
    rw [hs] at hstage
    exact hstage.elim
  | calls p =>
    rw [hs] at hstage
    obtain ⟨harmed, hkeeps, ⟨hnone, _⟩ | ⟨rfl, hclose, _⟩⟩ := hstage
    · cases hnone
    · cases hclose
      refine ⟨rfl, rfl, rfl, .ended, hout, hcounted, hbegun, ?_⟩
      rw [hs]
      exact ⟨harmed, hkeeps, .inl ⟨rfl, rfl⟩⟩
  | awaits c k =>
    rw [hs] at hstage
    obtain ⟨_, _, hnone, _⟩ := hstage
    cases hnone
  | answered c r k =>
    rw [hs] at hstage
    obtain ⟨_, _, hnone, _⟩ := hstage
    cases hnone

end ProjectDb.Pool
