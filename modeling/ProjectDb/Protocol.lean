import ProjectDb.Prog

namespace Prog
set_option autoImplicit true

variable {Op Φ : Type} {Reply : Op → Type}

/-- From a phase on, the program asks only for what the protocol allows there, and whatever the
replies, its result fits the phase that it ends in. -/
def Obeys (after : Φ → (op : Op) → Reply op → Option Φ) (post : Φ → α → Prop) :
    Φ → Prog Reply α → Prop
  | ph, .done a => post ph a
  | ph, .ask op k => ∀ r, ∃ next, after ph op r = some next ∧ (k r).Obeys after post next

variable {after : Φ → (op : Op) → Reply op → Option Φ} {post : Φ → α → Prop}

theorem obeys_mono {post' : Φ → α → Prop} (hpost : ∀ ph a, post ph a → post' ph a)
    {p : Prog Reply α} (h : p.Obeys after post ph) : p.Obeys after post' ph := by
  induction p generalizing ph with
  | done a => exact hpost ph a h
  | ask op k ih =>
    intro r
    obtain ⟨next, hnext, hk⟩ := h r
    exact ⟨next, hnext, ih r hk⟩

/-- A program keeps to every protocol that allows what one it keeps to allows. -/
theorem obeys_simulated {Φ' : Type} {after' : Φ' → (op : Op) → Reply op → Option Φ'}
    {post' : Φ' → α → Prop} (Rel : Φ → Φ' → Prop) {ph : Φ} {ph' : Φ'}
    (hafter : ∀ ph ph' op r next, Rel ph ph' → after ph op r = some next →
      ∃ next', after' ph' op r = some next' ∧ Rel next next')
    (hpost : ∀ ph ph' a, Rel ph ph' → post ph a → post' ph' a) {p : Prog Reply α}
    (h : p.Obeys after post ph) (hRel : Rel ph ph') : p.Obeys after' post' ph' := by
  induction p generalizing ph ph' with
  | done a => exact hpost ph ph' a hRel h
  | ask op k ih =>
    intro r
    obtain ⟨next, hnext, hk⟩ := h r
    obtain ⟨next', hnext', hRel'⟩ := hafter ph ph' op r next hRel hnext
    exact ⟨next', hnext', ih r hk hRel'⟩

theorem obeys_bind {post' : Φ → β → Prop} {p : Prog Reply α} {f : α → Prog Reply β}
    (h : p.Obeys after post ph) (hf : ∀ ph a, post ph a → (f a).Obeys after post' ph) :
    (p.bind f).Obeys after post' ph := by
  induction p generalizing ph with
  | done a => exact hf ph a h
  | ask op k ih =>
    intro r
    obtain ⟨next, hnext, hk⟩ := h r
    exact ⟨next, hnext, ih r hk⟩

/-- A program carried over to a larger set of operations keeps to the larger protocol where each of
its operations does. -/
theorem obeys_embed {Op' : Type} {Reply' : Op' → Type}
    {after' : Φ → (op : Op') → Reply' op → Option Φ} {f : (op : Op') → Prog Reply (Reply' op)}
    (hf : ∀ op ph, (∀ r, ∃ next, after' ph op r = some next) →
      (f op).Obeys after (fun next r => after' ph op r = some next) ph)
    {p : Prog Reply' α} (h : p.Obeys after' post ph) : (p.embed f).Obeys after post ph := by
  induction p generalizing ph with
  | done a => exact h
  | ask op k ih =>
    apply obeys_bind (hf op ph fun r => (h r).imp fun _ hnext => hnext.1)
    intro ph' r hr
    obtain ⟨next, hnext, hk⟩ := h r
    rw [hr] at hnext
    cases hnext
    exact ih r hk

/-- `?` inside a program: what follows is run on a value, and an error is the result. -/
theorem obeys_try {x : ExceptT ε (Prog Reply) α} {f : α → ExceptT ε (Prog Reply) β}
    {post : Φ → Except ε α → Prop} {post' : Φ → Except ε β → Prop}
    (h : x.run.Obeys after post ph)
    (hok : ∀ ph a, post ph (.ok a) → (f a).run.Obeys after post' ph)
    (herror : ∀ ph e, post ph (.error e) → post' ph (.error e)) :
    (x >>= f).run.Obeys after post' ph := by
  apply obeys_bind h
  intro ph r hr
  cases r with
  | ok a => exact hok ph a hr
  | error e => exact herror ph e hr

end Prog
