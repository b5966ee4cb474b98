import Mathlib.Logic.Basic

/-- A program that asks an outer system to serve its operations one after another. -/
inductive Prog {Op : Type} (Reply : Op → Type) (α : Type) : Type
  | done : α → Prog Reply α
  | ask : (op : Op) → (Reply op → Prog Reply α) → Prog Reply α

namespace Prog
set_option autoImplicit true

variable {Op : Type} {Reply : Op → Type}

def bind : Prog Reply α → (α → Prog Reply β) → Prog Reply β
  | .done a, f => f a
  | .ask op k, f => .ask op (fun r => (k r).bind f)

instance : Monad (Prog Reply) where
  pure := .done
  bind := bind

/-- The program that asks for one operation and returns its reply. -/
def call (op : Op) : Prog Reply (Reply op) := .ask op .done

/-- Serve every operation of a program in turn from a state. -/
def run {σ : Type} (serve : (op : Op) → σ → Reply op × σ) : Prog Reply α → σ → α × σ
  | .done a, s => (a, s)
  | .ask op k, s => (k (serve op s).1).run serve (serve op s).2

/-- Carry a program over to a larger set of operations. -/
def embed {Op' : Type} {Reply' : Op' → Type} (f : (op : Op) → Prog Reply' (Reply op)) :
    Prog Reply α → Prog Reply' α
  | .done a => .done a
  | .ask op k => (f op).bind (fun r => (k r).embed f)

@[simp] theorem pure_eq (a : α) : (pure a : Prog Reply α) = .done a := rfl

@[simp] theorem bind_eq (p : Prog Reply α) (f : α → Prog Reply β) : (p >>= f) = p.bind f := rfl

@[simp] theorem done_bind (a : α) (f : α → Prog Reply β) :
    (Prog.done a : Prog Reply α).bind f = f a := rfl

@[simp] theorem ask_bind (op : Op) (k : Reply op → Prog Reply α) (f : α → Prog Reply β) :
    (Prog.ask op k).bind f = .ask op (fun r => (k r).bind f) := rfl

@[simp] theorem call_bind (op : Op) (f : Reply op → Prog Reply β) :
    (call op).bind f = .ask op f := rfl

variable {σ : Type} (serve : (op : Op) → σ → Reply op × σ)

@[simp] theorem run_done (a : α) (s : σ) : (Prog.done a).run serve s = (a, s) := rfl

theorem run_ask (op : Op) (k : Reply op → Prog Reply α) (s : σ) :
    (Prog.ask op k).run serve s = (k (serve op s).1).run serve (serve op s).2 := rfl

@[simp] theorem run_call (op : Op) (s : σ) : (call op).run serve s = serve op s := rfl

theorem run_bind (p : Prog Reply α) (f : α → Prog Reply β) (s : σ) :
    (p.bind f).run serve s = (f (p.run serve s).1).run serve (p.run serve s).2 := by
  induction p generalizing s with
  | done a => rfl
  | ask op k ih => exact ih _ _

/-- What every served operation keeps, the whole run keeps. -/
theorem run_invariant {I : σ → Prop} (h : ∀ op s, I s → I (serve op s).2)
    (p : Prog Reply α) {s : σ} (hs : I s) : I (p.run serve s).2 := by
  induction p generalizing s with
  | done a => exact hs
  | ask op k ih => exact ih _ (h op s hs)

theorem run_relates {R : σ → σ → Prop} (refl : ∀ s, R s s)
    (trans : ∀ {a b c}, R a b → R b c → R a c) (h : ∀ op s, R s (serve op s).2)
    (p : Prog Reply α) (s : σ) : R s (p.run serve s).2 := by
  induction p generalizing s with
  | done a => exact refl s
  | ask op k ih => exact trans (h op s) (ih _ _)

theorem run_embed {Op' σ' : Type} {Reply' : Op' → Type}
    {serve' : (op : Op') → σ' → Reply' op × σ'} {f : (op : Op) → Prog Reply' (Reply op)}
    {φ : σ → σ'}
    (h : ∀ op s, (f op).run serve' (φ s) = ((serve op s).1, φ (serve op s).2))
    (p : Prog Reply α) (s : σ) :
    (p.embed f).run serve' (φ s) = ((p.run serve s).1, φ (p.run serve s).2) := by
  induction p generalizing s with
  | done a => rfl
  | ask op k ih =>
    simp only [embed, run_bind, h]
    exact ih _ _

/-- Every operation that a run serves satisfies the condition in the state it is served in. -/
def Always (P : Op → σ → Prop) : Prog Reply α → σ → Prop
  | .done _, _ => True
  | .ask op k, s => P op s ∧ (k (serve op s).1).Always P (serve op s).2

variable {P : Op → σ → Prop}

theorem always_mono {P' : Op → σ → Prop} (hP : ∀ op s, P op s → P' op s) {p : Prog Reply α} {s : σ}
    (h : p.Always serve P s) : p.Always serve P' s := by
  induction p generalizing s with
  | done a => trivial
  | ask op k ih => exact ⟨hP op s h.1, ih _ h.2⟩

/-- Where a condition on states is kept by every operation and gives what is asked of each, all
operations have it. -/
theorem always_of_invariant {I : σ → Prop} (h : ∀ op s, I s → P op s ∧ I (serve op s).2)
    (p : Prog Reply α) {s : σ} (hs : I s) : p.Always serve P s := by
  induction p generalizing s with
  | done a => trivial
  | ask op k ih =>
    obtain ⟨hop, hnext⟩ := h op s hs
    exact ⟨hop, ih _ hnext⟩

theorem always_bind {p : Prog Reply α} {f : α → Prog Reply β} {s : σ} (h : p.Always serve P s)
    (hf : (f (p.run serve s).1).Always serve P (p.run serve s).2) :
    (p.bind f).Always serve P s := by
  induction p generalizing s with
  | done a => exact hf
  | ask op k ih => exact ⟨h.1, ih _ h.2 hf⟩

theorem always_embed {Op' σ' : Type} {Reply' : Op' → Type}
    {serve' : (op : Op') → σ' → Reply' op × σ'} {f : (op : Op) → Prog Reply' (Reply op)}
    {φ : σ → σ'} {P' : Op' → σ' → Prop}
    (hrun : ∀ op s, (f op).run serve' (φ s) = ((serve op s).1, φ (serve op s).2))
    (h : ∀ op s, P op s → (f op).Always serve' P' (φ s)) {p : Prog Reply α} {s : σ}
    (hp : p.Always serve P s) : (p.embed f).Always serve' P' (φ s) := by
  induction p generalizing s with
  | done a => trivial
  | ask op k ih =>
    apply always_bind
    · exact h op s hp.1
    · rw [hrun]
      exact ih _ hp.2

/-- Whatever the replies, every operation that the program asks for satisfies the condition. -/
def All (P : Op → Prop) : Prog Reply α → Prop
  | .done _ => True
  | .ask op k => P op ∧ ∀ r, (k r).All P

theorem all_bind {P : Op → Prop} {p : Prog Reply α} {f : α → Prog Reply β} (h : p.All P)
    (hf : ∀ a, (f a).All P) : (p.bind f).All P := by
  induction p with
  | done a => exact hf a
  | ask op k ih => exact ⟨h.1, fun r => ih r (h.2 r)⟩

/-- Two runs whose operations are answered alike, and keep two states related, answer alike. -/
theorem run_simulates {σ' : Type} {serve' : (op : Op) → σ' → Reply op × σ'} {R : σ → σ' → Prop}
    (h : ∀ op s s', R s s' → P op s →
      (serve op s).1 = (serve' op s').1 ∧ R (serve op s).2 (serve' op s').2)
    {p : Prog Reply α} {s : σ} {s' : σ'} (hp : p.Always serve P s) (hR : R s s') :
    (p.run serve s).1 = (p.run serve' s').1 ∧ R (p.run serve s).2 (p.run serve' s').2 := by
  induction p generalizing s s' with
  | done a => exact ⟨rfl, hR⟩
  | ask op k ih =>
    obtain ⟨hreply, hnext⟩ := h op s s' hR hp.1
    rw [run_ask, run_ask, ← hreply]
    exact ih _ hp.2 hnext

end Prog
