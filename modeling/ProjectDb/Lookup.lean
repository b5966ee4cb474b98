import Mathlib.Data.List.Nodup
import Mathlib.Data.List.Perm.Basic

set_option autoImplicit true

/-- A map as the list of its insertions, the latest first. -/
abbrev HashMap (κ ν : Type) := List (κ × ν)

namespace HashMap

/-- A map collected from pairs, where a later pair replaces an earlier one with its key. -/
def collect (pairs : List (κ × ν)) : HashMap κ ν := pairs.reverse

def get [BEq κ] (m : HashMap κ ν) (k : κ) : Option ν := m.lookup k

def insert (m : HashMap κ ν) (k : κ) (v : ν) : HashMap κ ν := (k, v) :: m

variable [BEq κ] [LawfulBEq κ]

@[simp] theorem get_insert_self (m : HashMap κ ν) (k : κ) (v : ν) :
    (m.insert k v).get k = some v :=
  List.lookup_cons_self

theorem get_insert_of_ne (m : HashMap κ ν) (v : ν) (h : k' ≠ k) :
    (m.insert k v).get k' = m.get k' := by
  unfold get insert
  rw [List.lookup_cons, beq_eq_false_iff_ne.2 h]

theorem mem_of_get {m : HashMap κ ν} (h : m.get k = some v) : (k, v) ∈ m := by
  obtain ⟨l₁, l₂, he, _⟩ := List.lookup_eq_some_iff.1 h
  rw [he]
  exact List.mem_append_right _ List.mem_cons_self

theorem get_eq_none {m : HashMap κ ν} : m.get k = none ↔ ∀ v, (k, v) ∉ m := by
  unfold get
  rw [List.lookup_eq_none_iff]
  constructor
  · intro h v hm
    have hk := h _ hm
    simp only [bne_self_eq_false, Bool.false_eq_true] at hk
  · intro h p hp
    rw [bne_iff_ne]
    rintro rfl
    exact h p.2 hp

theorem get_collect {pairs : List (κ × ν)} (h : (pairs.map Prod.fst).Nodup) :
    (collect pairs).get k = some v ↔ (k, v) ∈ pairs := by
  constructor
  · intro hg
    exact List.mem_reverse.1 (mem_of_get hg)
  · intro hm
    cases hg : (collect pairs).get k with
    | none => exact absurd (List.mem_reverse.2 hm) (get_eq_none.1 hg v)
    | some v' =>
      have hm' := List.mem_reverse.1 (mem_of_get hg)
      have he := List.inj_on_of_nodup_map h hm hm' rfl
      rw [(Prod.mk.inj he).2]

theorem get_collect_none {pairs : List (κ × ν)} :
    (collect pairs).get k = none ↔ ∀ v, (k, v) ∉ pairs := by
  rw [get_eq_none]
  unfold collect
  simp only [List.mem_reverse]

end HashMap
