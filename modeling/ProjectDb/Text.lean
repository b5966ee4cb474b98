import Mathlib.Algebra.Group.Nat.Defs
import Mathlib.Algebra.GroupWithZero.Nat
import Mathlib.Data.List.Basic
import Mathlib.Data.List.Infix

namespace Text
set_option autoImplicit true

/-- A string is the sequence of its Unicode scalar values. -/
abbrev Str := List Char

/-- The length of the UTF-8 encoding, which is what `str::len` counts. -/
def byteLen (s : Str) : Nat := (s.map Char.utf8Size).sum

def toAsciiLowercase (s : Str) : Str := s.map Char.toLower

def eqIgnoreAsciiCase (a b : Str) : Bool := toAsciiLowercase a == toAsciiLowercase b

/-- Two spellings of one string under ASCII case folding. -/
def FoldsOnto (a b : Str) : Prop := toAsciiLowercase a = toAsciiLowercase b

instance : DecidableRel FoldsOnto := fun a b =>
  inferInstanceAs (Decidable (toAsciiLowercase a = toAsciiLowercase b))

/-- The pieces of a string between its slashes, as `str::split('/')` yields them. -/
def segments (s : Str) : List Str := s.splitOn '/'

/-- The index of the last occurrence of a character. -/
def rfind (c : Char) : Str → Option Nat
  | [] => none
  | x :: xs =>
    match rfind c xs with
    | some i => some (i + 1)
    | none => if x = c then some 0 else none

@[simp] theorem eqIgnoreAsciiCase_iff (a b : Str) :
    eqIgnoreAsciiCase a b = true ↔ FoldsOnto a b := by
  simp only [eqIgnoreAsciiCase, beq_iff_eq, FoldsOnto]

theorem FoldsOnto.refl (a : Str) : FoldsOnto a a := rfl

theorem FoldsOnto.symm (h : FoldsOnto a b) : FoldsOnto b a := Eq.symm h

theorem FoldsOnto.trans (h : FoldsOnto a b) (h' : FoldsOnto b c) : FoldsOnto a c := Eq.trans h h'

theorem toLower_eq_of_not_upper {c : Char} (h : ¬ (c.val ≥ 'A'.val ∧ c.val ≤ 'Z'.val)) :
    c.toLower = c := by
  exact dif_neg h

theorem toLower_val_of_upper {c : Char} (h : c.val ≥ 'A'.val ∧ c.val ≤ 'Z'.val) :
    c.toLower.val = c.val + ('a'.val - 'A'.val) := by
  have hlower : c.toLower = _ := dif_pos h
  rw [hlower]

theorem toLower_val_nat {c : Char} (h : c.val ≥ 'A'.val ∧ c.val ≤ 'Z'.val) :
    65 ≤ c.val.toNat ∧ c.val.toNat ≤ 90 ∧ c.toLower.val.toNat = c.val.toNat + 32 := by
  have h₁ : 65 ≤ c.val.toNat := UInt32.le_iff_toNat_le.1 h.1
  have h₂ : c.val.toNat ≤ 90 := UInt32.le_iff_toNat_le.1 h.2
  refine ⟨h₁, h₂, ?_⟩
  rw [toLower_val_of_upper h, UInt32.toNat_add]
  have h₃ : ('a'.val - 'A'.val).toNat = 32 := by decide
  omega

theorem toLower_eq_iff {c d : Char} (hd : ¬ (97 ≤ d.val.toNat ∧ d.val.toNat ≤ 122))
    (hd' : d.toLower = d) : c.toLower = d ↔ c = d := by
  constructor
  · intro h
    by_cases hc : c.val ≥ 'A'.val ∧ c.val ≤ 'Z'.val
    · obtain ⟨h₁, h₂, h₃⟩ := toLower_val_nat hc
      rw [h] at h₃
      omega
    · rwa [toLower_eq_of_not_upper hc] at h
  · intro h
    rw [h, hd']

@[simp] theorem toLower_eq_slash {c : Char} : c.toLower = '/' ↔ c = '/' :=
  toLower_eq_iff (by decide) (by decide)

@[simp] theorem toLower_toLower (c : Char) : c.toLower.toLower = c.toLower := by
  by_cases hc : c.val ≥ 'A'.val ∧ c.val ≤ 'Z'.val
  · obtain ⟨h₁, h₂, h₃⟩ := toLower_val_nat hc
    apply toLower_eq_of_not_upper
    rintro ⟨_, h⟩
    have h₄ : c.toLower.val.toNat ≤ 90 := UInt32.le_iff_toNat_le.1 h
    omega
  · rw [toLower_eq_of_not_upper hc, toLower_eq_of_not_upper hc]

theorem toUpper_eq_of_not_lower {c : Char} (h : ¬ ('a'.val ≤ c.val ∧ c.val ≤ 'z'.val)) :
    c.toUpper = c := by
  exact dif_neg h

theorem toUpper_val_of_lower {c : Char} (h : 'a'.val ≤ c.val ∧ c.val ≤ 'z'.val) :
    c.toUpper.val = c.val + ('A'.val - 'a'.val) := by
  have hupper : c.toUpper = _ := dif_pos h
  rw [hupper]

theorem toLower_toUpper (c : Char) : c.toUpper.toLower = c.toLower := by
  by_cases hc : 'a'.val ≤ c.val ∧ c.val ≤ 'z'.val
  · apply Char.ext
    have hval := toUpper_val_of_lower hc
    rw [toLower_val_of_upper, toLower_eq_of_not_upper, hval] <;> grind
  · rw [toUpper_eq_of_not_lower hc]

theorem toUpper_toLower (c : Char) : c.toLower.toUpper = c.toUpper := by
  by_cases hc : c.val ≥ 'A'.val ∧ c.val ≤ 'Z'.val
  · apply Char.ext
    have hval := toLower_val_of_upper hc
    rw [toUpper_val_of_lower, toUpper_eq_of_not_lower, hval] <;> grind
  · rw [toLower_eq_of_not_upper hc]

theorem utf8Size_of_lt {c : Char} (h : c.val.toNat ≤ 127) : c.utf8Size = 1 := by
  have h' : c.val ≤ 127 := UInt32.le_iff_toNat_le.2 h
  simp only [Char.utf8Size, UInt32.reduceOfNatLT, h', ↓reduceIte]

@[simp] theorem utf8Size_toLower (c : Char) : c.toLower.utf8Size = c.utf8Size := by
  by_cases hc : c.val ≥ 'A'.val ∧ c.val ≤ 'Z'.val
  · obtain ⟨h₁, h₂, h₃⟩ := toLower_val_nat hc
    rw [utf8Size_of_lt (by omega), utf8Size_of_lt (by omega)]
  · rw [toLower_eq_of_not_upper hc]

@[simp] theorem toAsciiLowercase_idem (s : Str) :
    toAsciiLowercase (toAsciiLowercase s) = toAsciiLowercase s := by
  simp only [toAsciiLowercase, List.map_map]
  exact List.map_congr_left fun c _ => toLower_toLower c

theorem FoldsOnto.toAsciiLowercase (s : Str) : FoldsOnto (Text.toAsciiLowercase s) s :=
  toAsciiLowercase_idem s

@[simp] theorem toAsciiLowercase_append (a b : Str) :
    toAsciiLowercase (a ++ b) = toAsciiLowercase a ++ toAsciiLowercase b :=
  List.map_append

@[simp] theorem toAsciiLowercase_length (s : Str) : (toAsciiLowercase s).length = s.length :=
  List.length_map _

theorem byteLen_toAsciiLowercase (s : Str) : byteLen (toAsciiLowercase s) = byteLen s := by
  simp only [byteLen, toAsciiLowercase, List.map_map]
  congr 1
  exact List.map_congr_left fun c _ => utf8Size_toLower c

theorem FoldsOnto.byteLen_eq (h : FoldsOnto a b) : byteLen a = byteLen b := by
  rw [← byteLen_toAsciiLowercase a, ← byteLen_toAsciiLowercase b, h]

theorem FoldsOnto.length_eq (h : FoldsOnto a b) : a.length = b.length := by
  rw [← toAsciiLowercase_length a, ← toAsciiLowercase_length b, h]

@[simp] theorem byteLen_append (a b : Str) : byteLen (a ++ b) = byteLen a + byteLen b := by
  simp only [byteLen, List.map_append, List.sum_append]

theorem length_le_byteLen (s : Str) : s.length ≤ byteLen s := by
  induction s with
  | nil => exact Nat.le_refl _
  | cons c s ih =>
    have hc : 0 < c.utf8Size := Char.utf8Size_pos c
    simp only [byteLen, List.map_cons, List.sum_cons, List.length_cons] at ih ⊢
    omega

theorem isPrefixOf?_eq_some {p s t : Str} : p.isPrefixOf? s = some t ↔ s = p ++ t := by
  induction p generalizing s with
  | nil =>
    simp only [List.isPrefixOf?, Option.some.injEq, List.nil_append]
  | cons c p ih =>
    cases s with
    | nil => simp only [List.isPrefixOf?, reduceCtorEq, List.cons_append]
    | cons x s =>
      simp only [List.isPrefixOf?, List.cons_append, List.cons.injEq]
      split
      · rename_i h
        rw [ih, beq_iff_eq.1 h]
        simp only [true_and]
      · rename_i h
        simp only [reduceCtorEq, false_iff, not_and]
        intro he
        exact absurd (beq_iff_eq.2 he.symm) h

theorem segments_ne_nil (s : Str) : segments s ≠ [] := List.splitOn_ne_nil _ _

theorem segments_inj {a b : Str} (h : segments a = segments b) : a = b := by
  have ha : ['/'].intercalate (segments a) = a := List.intercalate_splitOn '/'
  have hb : ['/'].intercalate (segments b) = b := List.intercalate_splitOn '/'
  rw [← ha, ← hb, h]

theorem segments_append_slash (a b : Str) :
    segments (a ++ '/' :: b) = segments a ++ segments b :=
  List.splitOn_append_cons_self _ _

theorem segments_of_not_mem {s : Str} (h : '/' ∉ s) : segments s = [s] :=
  List.splitOn_eq_singleton h

theorem segments_cons (c : Char) (s : Str) :
    segments (c :: s) =
      if c = '/' then [] :: segments s else (segments s).modifyHead (c :: ·) := by
  simp only [segments, List.splitOn_cons_eq_if_modifyHead, beq_iff_eq]

theorem splitOn_toAsciiLowercase {c : Char} (hc : ∀ d : Char, d.toLower = c ↔ d = c) (s : Str) :
    (toAsciiLowercase s).splitOn c = (s.splitOn c).map toAsciiLowercase := by
  induction s with
  | nil => rfl
  | cons d s ih =>
    change (d.toLower :: toAsciiLowercase s).splitOn c = _
    rw [List.splitOn_cons_eq_if_modifyHead, List.splitOn_cons_eq_if_modifyHead, ih]
    by_cases hd : d = c
    · simp only [beq_iff_eq, hc, hd, ↓reduceIte, List.map_cons]
      rfl
    · simp only [beq_iff_eq, hc, hd, ↓reduceIte]
      cases h : s.splitOn c with
      | nil => exact absurd h (List.splitOn_ne_nil _ _)
      | cons t ts => rfl

theorem segments_toAsciiLowercase (s : Str) :
    segments (toAsciiLowercase s) = (segments s).map toAsciiLowercase :=
  splitOn_toAsciiLowercase (fun _ => toLower_eq_slash) s

theorem FoldsOnto.segments (h : FoldsOnto a b) :
    (Text.segments a).map Text.toAsciiLowercase =
      (Text.segments b).map Text.toAsciiLowercase := by
  rw [← segments_toAsciiLowercase, ← segments_toAsciiLowercase, h]

theorem not_mem_of_mem_splitOn {c : Char} {s t : Str} (h : t ∈ s.splitOn c) : c ∉ t := by
  induction s generalizing t with
  | nil =>
    have ht : t = [] := List.mem_singleton.1 h
    rw [ht]
    exact List.not_mem_nil
  | cons d s ih =>
    rw [List.splitOn_cons_eq_if_modifyHead] at h
    cases hs : s.splitOn c with
    | nil => exact absurd hs (List.splitOn_ne_nil _ _)
    | cons u us =>
      rw [hs] at h ih
      by_cases hc : d = c
      · simp only [hc, beq_self_eq_true, ↓reduceIte, List.mem_cons] at h
        rcases h with h | h
        · rw [h]
          exact List.not_mem_nil
        · exact ih (List.mem_cons.2 h)
      · simp only [beq_iff_eq, hc, ↓reduceIte, List.modifyHead_cons, List.mem_cons] at h
        rcases h with h | h
        · rw [h]
          intro hm
          rcases List.mem_cons.1 hm with hm | hm
          · exact hc hm.symm
          · exact ih List.mem_cons_self hm
        · exact ih (List.mem_cons_of_mem _ h)

theorem slash_not_mem_segment {s t : Str} (h : t ∈ segments s) : '/' ∉ t :=
  not_mem_of_mem_splitOn h

theorem rfind_eq_none_iff (c : Char) (s : Str) : rfind c s = none ↔ c ∉ s := by
  induction s with
  | nil => simp only [rfind, List.not_mem_nil, not_false_eq_true]
  | cons x xs ih =>
    simp only [rfind, List.mem_cons, not_or]
    split
    · rename_i i hi
      have hm : c ∈ xs := by
        by_contra hm
        rw [ih.2 hm] at hi
        cases hi
      simp only [reduceCtorEq, false_iff, not_and, not_not]
      exact fun _ => hm
    · rename_i hi
      have hm := ih.1 hi
      by_cases hx : x = c
      · simp only [hx, ↓reduceIte, reduceCtorEq, not_true_eq_false, false_and]
      · simp only [hx, ↓reduceIte, true_iff]
        exact ⟨fun h => hx h.symm, hm⟩

theorem rfind_eq_some (c : Char) {s : Str} (h : rfind c s = some i) :
    s = s.take i ++ c :: s.drop (i + 1) ∧ c ∉ s.drop (i + 1) ∧ i < s.length := by
  induction s generalizing i with
  | nil => cases h
  | cons x xs ih =>
    simp only [rfind] at h
    split at h
    · rename_i j hj
      cases h
      obtain ⟨h₁, h₂, h₃⟩ := ih hj
      refine ⟨?_, h₂, Nat.succ_lt_succ h₃⟩
      simp only [List.take_succ_cons, List.drop_succ_cons, List.cons_append]
      exact congrArg _ h₁
    · rename_i hj
      by_cases hx : x = c
      · simp only [hx, ↓reduceIte, Option.some.injEq] at h
        subst h
        refine ⟨?_, (rfind_eq_none_iff _ _).1 hj, Nat.succ_pos _⟩
        simp only [hx, List.take_zero, Nat.zero_add, List.drop_succ_cons, List.drop_zero,
          List.nil_append]
      · simp only [hx, ↓reduceIte, reduceCtorEq] at h

theorem segments_of_rfind {s : Str} (h : rfind '/' s = some i) :
    segments s = segments (s.take i) ++ [s.drop (i + 1)] := by
  obtain ⟨h₁, h₂, _⟩ := rfind_eq_some '/' h
  have h₃ := congrArg segments h₁
  rwa [segments_append_slash, segments_of_not_mem h₂] at h₃

end Text
