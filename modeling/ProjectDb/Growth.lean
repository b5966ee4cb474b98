import Mathlib.Data.List.Forall2
import Mathlib.Data.List.Nodup

set_option autoImplicit true

namespace List

theorem forall₂_split {R : α → β → Prop} {l₁ l₂ : List α} (h : Forall₂ R (l₁ ++ l₂) m) :
    ∃ m₁ m₂, m = m₁ ++ m₂ ∧ Forall₂ R l₁ m₁ ∧ Forall₂ R l₂ m₂ := by
  induction l₁ generalizing m with
  | nil => exact ⟨[], m, rfl, .nil, h⟩
  | cons a l₁ ih =>
    cases h with
    | cons hab h =>
      obtain ⟨m₁, m₂, rfl, h₁, h₂⟩ := ih h
      exact ⟨_ :: m₁, m₂, rfl, .cons hab h₁, h₂⟩

theorem Forall₂.comp {R : α → β → Prop} {S : β → γ → Prop} {U : α → γ → Prop}
    (H : ∀ a b c, R a b → S b c → U a c) (h : Forall₂ R l m) (h' : Forall₂ S m n) :
    Forall₂ U l n := by
  induction h generalizing n with
  | nil =>
    cases h'
    exact .nil
  | cons hab _ ih =>
    cases h' with
    | cons hbc h' => exact .cons (H _ _ _ hab hbc) (ih h')

theorem Forall₂.mem_left {R : α → β → Prop} (h : Forall₂ R l m) (ha : a ∈ l) : ∃ b ∈ m, R a b := by
  induction h with
  | nil => cases ha
  | cons hab _ ih =>
    rcases mem_cons.1 ha with rfl | ha
    · exact ⟨_, mem_cons_self, hab⟩
    · obtain ⟨b, hb, h⟩ := ih ha
      exact ⟨b, mem_cons_of_mem _ hb, h⟩

theorem Forall₂.mem_right {R : α → β → Prop} (h : Forall₂ R l m) (hb : b ∈ m) :
    ∃ a ∈ l, R a b := by
  induction h with
  | nil => cases hb
  | cons hab _ ih =>
    rcases mem_cons.1 hb with rfl | hb
    · exact ⟨_, mem_cons_self, hab⟩
    · obtain ⟨a, ha, h⟩ := ih hb
      exact ⟨a, mem_cons_of_mem _ ha, h⟩

theorem Forall₂.imp_mem {R S : α → β → Prop} (h : Forall₂ R l m)
    (H : ∀ a ∈ l, ∀ b ∈ m, R a b → S a b) : Forall₂ S l m := by
  induction h with
  | nil => exact .nil
  | cons hab _ ih =>
    refine .cons (H _ mem_cons_self _ mem_cons_self hab) (ih fun a ha b hb => ?_)
    exact H a (mem_cons_of_mem _ ha) b (mem_cons_of_mem _ hb)

end List

/-- The later list keeps each element up to `R`, in place, and adds elements of `P`. -/
def Grown (R : α → α → Prop) (P : α → Prop) (l l' : List α) : Prop :=
  ∃ kept news, l' = kept ++ news ∧ List.Forall₂ R l kept ∧ ∀ a ∈ news, P a

namespace Grown

variable {R S : α → α → Prop} {P Q : α → Prop}

theorem refl (H : ∀ a, R a a) (l : List α) : Grown R P l l :=
  ⟨l, [], (List.append_nil l).symm, List.forall₂_same.2 fun a _ => H a,
    fun _ h => absurd h List.not_mem_nil⟩

theorem comp {S' U : α → α → Prop} {V : α → Prop} (hR : ∀ a b c, R a b → S' b c → U a c)
    (hP : ∀ a b, P a → S' a b → V b) (hQ : ∀ a, Q a → V a) (h : Grown R P l m)
    (h' : Grown S' Q m n) : Grown U V l n := by
  obtain ⟨kept, news, rfl, hk, hn⟩ := h
  obtain ⟨kept', news', rfl, hk', hn'⟩ := h'
  obtain ⟨m₁, m₂, rfl, h₁, h₂⟩ := List.forall₂_split hk'
  refine ⟨m₁, m₂ ++ news', List.append_assoc _ _ _, hk.comp hR h₁, fun b hb => ?_⟩
  rcases List.mem_append.1 hb with hb | hb
  · obtain ⟨a, ha, hab⟩ := h₂.mem_right hb
    exact hP a b (hn a ha) hab
  · exact hQ b (hn' b hb)

theorem trans (hR : ∀ a b c, R a b → R b c → R a c) (hP : ∀ a b, P a → R a b → P b)
    (h : Grown R P l m) (h' : Grown R P m n) : Grown R P l n :=
  h.comp hR hP (fun _ ha => ha) h'

theorem mono (hR : ∀ a b, R a b → S a b) (hP : ∀ a, P a → Q a) (h : Grown R P l m) :
    Grown S Q l m := by
  obtain ⟨kept, news, rfl, hk, hn⟩ := h
  exact ⟨kept, news, rfl, hk.imp hR, fun a ha => hP a (hn a ha)⟩

theorem mem_left (h : Grown R P l m) (ha : a ∈ l) : ∃ b ∈ m, R a b := by
  obtain ⟨kept, news, rfl, hk, _⟩ := h
  obtain ⟨b, hb, hab⟩ := hk.mem_left ha
  exact ⟨b, List.mem_append_left _ hb, hab⟩

theorem mem_right (h : Grown R P l m) (hb : b ∈ m) : (∃ a ∈ l, R a b) ∨ P b := by
  obtain ⟨kept, news, rfl, hk, hn⟩ := h
  rcases List.mem_append.1 hb with hb | hb
  · exact .inl (hk.mem_right hb)
  · exact .inr (hn b hb)

theorem mem_right_fresh {f : α → β} (hR : ∀ a b, R a b → f b = f a) (hn : (l'.map f).Nodup)
    (h : Grown R P l l') (hb : b ∈ l') : (∃ a ∈ l, R a b) ∨ P b ∧ ∀ a ∈ l, f a ≠ f b := by
  obtain ⟨kept, news, rfl, hk, hp⟩ := h
  rcases List.mem_append.1 hb with hb | hb
  · exact .inl (hk.mem_right hb)
  · refine .inr ⟨hp b hb, fun a ha he => ?_⟩
    obtain ⟨c, hc, hac⟩ := hk.mem_left ha
    rw [List.map_append] at hn
    have hdisjoint := (List.nodup_append.1 hn).2.2
    apply hdisjoint (f c) (List.mem_map_of_mem hc) (f b) (List.mem_map_of_mem hb)
    rw [hR a c hac, he]

theorem related {f : α → β} (hR : ∀ a b, R a b → f b = f a) (hl : (l.map f).Nodup)
    (hn : (l'.map f).Nodup) (h : Grown R P l l') (ha : a ∈ l) (hb : b ∈ l') (he : f b = f a) :
    R a b := by
  rcases h.mem_right_fresh hR hn hb with ⟨c, hc, hcb⟩ | ⟨_, hfresh⟩
  · have hca : c = a := List.inj_on_of_nodup_map hl hc ha ((hR c b hcb).symm.trans he)
    exact hca ▸ hcb
  · exact absurd he.symm (hfresh a ha)

theorem added {f : α → β} (hR : ∀ a b, R a b → f b = f a) (h : Grown R P l l') (hb : b ∈ l')
    (hfresh : ∀ a ∈ l, f a ≠ f b) : P b := by
  rcases h.mem_right hb with ⟨a, ha, hab⟩ | hp
  · exact absurd (hR a b hab).symm (hfresh a ha)
  · exact hp

theorem map {f : α → α} (H : ∀ a ∈ l, R a (f a)) : Grown R P l (l.map f) :=
  ⟨l.map f, [], (List.append_nil _).symm,
    List.forall₂_map_right_iff.2 (List.forall₂_same.2 H), fun _ h => absurd h List.not_mem_nil⟩

theorem eq_append (h : Grown Eq P l l') : ∃ news, l' = l ++ news ∧ ∀ a ∈ news, P a := by
  obtain ⟨kept, news, rfl, hkept, hnews⟩ := h
  rw [List.forall₂_eq_eq_eq] at hkept
  exact ⟨news, hkept ▸ rfl, hnews⟩

theorem snoc (H : ∀ a, R a a) (h : P a) (l : List α) : Grown R P l (l ++ [a]) :=
  ⟨l, [a], rfl, List.forall₂_same.2 fun a _ => H a, fun _ hb => List.mem_singleton.1 hb ▸ h⟩

end Grown
