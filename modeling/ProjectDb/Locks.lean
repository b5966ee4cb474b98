import ProjectDb.Serial

namespace Mvcc
set_option autoImplicit true

theorem sublist_concat {l L : List α} (h : l.Sublist L) (hlast : L.getLast? = some a)
    (ha : a ∉ l) : (l ++ [a]).Sublist L := by
  obtain ⟨L', rfl⟩ := List.getLast?_eq_some_iff.1 hlast
  obtain ⟨l₁, l₂, rfl, h₁, h₂⟩ := List.sublist_append_iff.1 h
  rcases List.sublist_singleton.1 h₂ with rfl | rfl
  · rw [List.append_nil]
    exact h₁.append_right [a]
  · exact absurd (List.mem_append_right _ (List.mem_singleton.2 rfl)) ha

variable {σ ω κ ε Q ι α : Type} {A : Q → Type} {T : Type u} [DecidableEq κ]

/-- The handlers that were granted a record, in the order they were. -/
def World.grantsOf (w : World ε A ω κ ι α) (k : κ) : List ι :=
  (w.granted.filter fun x => x.2 == k).map Prod.fst

/-- Whoever holds a record was granted it last. -/
def World.Latest (w : World ε A ω κ ι α) : Prop :=
  ∀ i k, (i, k) ∈ w.held → (w.grantsOf k).getLast? = some i

namespace World
variable {w v : World ε A ω κ ι α}

theorem grantsOf_congr (h : v.granted = w.granted) (k : κ) : v.grantsOf k = w.grantsOf k := by
  unfold grantsOf
  rw [h]

theorem Latest.start (h : w.held = []) : w.Latest := by
  intro i k hi
  rw [h] at hi
  exact absurd hi List.not_mem_nil

theorem Latest.unique (h : w.Latest) (hi : (i, k) ∈ w.held) (hj : (j, k) ∈ w.held) : i = j :=
  Option.some.inj ((h i k hi).symm.trans (h j k hj))

theorem Latest.granted (h : w.Latest) (hi : (i, k) ∈ w.held) : i ∈ w.grantsOf k :=
  List.mem_of_getLast? (h i k hi)

theorem Latest.mono (h : w.Latest) (hgranted : v.granted = w.granted)
    (hheld : ∀ x ∈ v.held, x ∈ w.held) : v.Latest := by
  intro i k hi
  rw [grantsOf_congr hgranted]
  exact h i k (hheld _ hi)

theorem grantsOf_grant (w : World ε A ω κ ι α) (i : ι) (keys : List κ) (k : κ) :
    (w.grant i keys).grantsOf k =
      w.grantsOf k ++ List.replicate (keys.filter fun k' => k' == k).length i := by
  have hkeys : ((keys.map fun k' => (i, k')).filter fun x => x.2 == k).map Prod.fst =
      List.replicate (keys.filter fun k' => k' == k).length i := by
    rw [List.filter_map, List.map_map]
    exact List.map_const'
  unfold grantsOf
  rw [← hkeys, ← List.map_append, ← List.filter_append]
  rfl

variable [DecidableEq ι]

/-- What is granted to a handler was free of the others. -/
theorem Latest.grant {keys : List κ} (h : w.Latest) (hfree : w.blocked i keys = false) :
    (w.grant i keys).Latest := by
  intro j k hj
  rw [grantsOf_grant]
  by_cases hk : k ∈ keys
  · have hji : j = i := by
      rcases mem_grant.1 hj with hj | ⟨rfl, _⟩
      · by_contra hne
        exact not_held_of_unblocked hfree hk hne hj
      · rfl
    have hmem : k ∈ keys.filter fun k' => k' == k := List.mem_filter.2 ⟨hk, beq_self_eq_true k⟩
    obtain ⟨n, hn⟩ := Nat.exists_eq_succ_of_ne_zero (Nat.ne_of_gt (List.length_pos_of_mem hmem))
    rw [hn, List.replicate_succ', ← List.append_assoc, List.getLast?_concat, hji]
  · have hnone : keys.filter (fun k' => k' == k) = [] := by
      rw [List.filter_eq_nil_iff]
      intro k' hk' he
      exact hk (beq_iff_eq.1 he ▸ hk')
    rw [hnone, List.length_nil, List.replicate_zero, List.append_nil]
    exact h j k ((mem_grant.1 hj).resolve_right fun hnew => hk hnew.2)

end World

variable [DecidableEq ι] {R : Rules σ ω κ ε Q A T} {s₀ : σ} {env : ι → Nat → T}
  {w v : World ε A ω κ ι α}

theorem Serves.locks {c : Cmd Q} {r : Cmd.Reply ε A c} (h : Serves R s₀ t w i tx c r tx' v) :
    (v.granted = w.granted ∧ ∀ x ∈ v.held, x ∈ w.held) ∨
    ∃ keys, v = w.grant i keys ∧ w.blocked i keys = false ∧ tx'.isSome = true := by
  have hrelease : ∀ x ∈ (w.release i).held, x ∈ w.held := fun x hx => (World.mem_release.1 hx).2
  cases h with
  | commit => exact .inl ⟨rfl, hrelease⟩
  | rollback => exact .inl ⟨rfl, hrelease⟩
  | close => exact .inl ⟨rfl, hrelease⟩
  | lock _ _ _ _ hfree _ => exact .inr ⟨_, rfl, hfree, rfl⟩
  | _ => exact .inl ⟨rfl, fun _ hx => hx⟩

namespace World

/-- A step is one handler's. It grants locks within that handler's transaction, or it grants none
and takes none. -/
theorem step_locks {a : Act ι} (h : w.step R s₀ env a = some v) :
    ∃ i, (∀ j, j ≠ i → v.sess j = w.sess j) ∧
      ((v.granted = w.granted ∧ ∀ x ∈ v.held, x ∈ w.held) ∨
        (v.sess i).tx.isSome = true ∧ (w.Latest → v.Latest) ∧
          ∀ k, w.grantsOf k <+: v.grantsOf k) := by
  rcases step_cases h with ⟨i, c, k, r, tx, u, _, _, hserves, rfl⟩ | ⟨i, _, rfl⟩
  · refine ⟨i, fun j hj => ?_, ?_⟩
    · rw [put_sess_other _ _ hj, hserves.sess]
    · rcases hserves.locks with hsame | ⟨keys, rfl, hfree, htx⟩
      · exact .inl hsame
      · refine .inr ⟨?_, fun hlatest => hlatest.grant hfree, fun k' => ?_⟩
        · rw [put_sess_self]
          exact htx
        · exact ⟨_, (grantsOf_grant w i keys k').symm⟩
  · exact ⟨i, fun j hj => put_sess_other _ _ hj, .inl ⟨rfl, fun x hx => (mem_release.1 hx).2⟩⟩

theorem Latest.step (h : w.Latest) {a : Act ι} (hstep : w.step R s₀ env a = some v) :
    v.Latest := by
  obtain ⟨_, _, ⟨hgranted, hheld⟩ | ⟨_, hlatest, _⟩⟩ := step_locks hstep
  · exact h.mono hgranted hheld
  · exact hlatest h

end World

/-- What an open transaction wrote, its handler holds. -/
def World.Owned (R : Rules σ ω κ ε Q A T) (w : World ε A ω κ ι α) : Prop :=
  ∀ i x, (w.sess i).tx = some x → ∀ k ∈ x.own.flatMap R.writes, (i, k) ∈ w.held

theorem Serves.owned {c : Cmd Q} {r : Cmd.Reply ε A c} (h : Serves R s₀ t w i tx c r tx' v)
    (howned : ∀ x, tx = some x → ∀ k ∈ x.own.flatMap R.writes, (i, k) ∈ w.held) :
    ∀ x, tx' = some x → ∀ k ∈ x.own.flatMap R.writes, (i, k) ∈ v.held := by
  intro x hx k hk
  cases h with
  | begin =>
    cases hx
    exact absurd hk List.not_mem_nil
  | snapshot =>
    cases hx
    exact howned _ rfl k hk
  | lock _ _ _ hkeys _ _ =>
    cases hx
    rw [List.flatMap_append] at hk
    rcases List.mem_append.1 hk with hk | hk
    · exact World.mem_grant.2 (.inl (howned _ rfl k hk))
    · rw [hkeys]
      exact World.mem_grant.2 (.inr ⟨rfl, List.mem_append_right _ hk⟩)
  | acquire => exact howned x hx k hk
  | beginRefused => exact howned x hx k hk
  | commitRefused => exact howned x hx k hk
  | rollbackRefused => exact howned x hx k hk
  | stale => exact howned x hx k hk
  | _ => cases hx

/-- A command that commits writes no record that another handler holds. -/
theorem Serves.apart {c : Cmd Q} {r : Cmd.Reply ε A c} (h : Serves R s₀ t w i tx c r tx' v)
    (hexclusive : w.Exclusive)
    (howned : ∀ x, tx = some x → ∀ k ∈ x.own.flatMap R.writes, (i, k) ∈ w.held) :
    v.log = w.log ∨ ∃ ws, v.log = w.log ++ [(i, ws)] ∧
      ∀ j k, j ≠ i → (j, k) ∈ w.held → k ∉ ws.flatMap R.writes := by
  cases h with
  | commit =>
    refine .inr ⟨_, rfl, fun j k hj hheld hk => hj ?_⟩
    exact hexclusive j i k hheld (howned _ rfl k hk)
  | autocommit _ _ hfree =>
    refine .inr ⟨_, rfl, fun j k hj hheld hk => ?_⟩
    exact World.not_held_of_unblocked hfree (List.mem_append_right _ hk) hj hheld
  | _ => exact .inl rfl

namespace World

omit [DecidableEq ι] [DecidableEq κ] in
theorem Owned.start (h : ∀ i, (w.sess i).tx = none) : w.Owned R := by
  intro i x hx
  rw [h i] at hx
  cases hx

theorem Owned.step (h : w.Owned R) {a : Act ι} (hstep : w.step R s₀ env a = some v) :
    v.Owned R := by
  intro j x hx
  rcases step_cases hstep with ⟨i, c, k, r, tx, u, _, _, hserves, rfl⟩ | ⟨i, _, rfl⟩
  · by_cases hj : j = i
    · subst hj
      rw [put_sess_self] at hx
      exact hserves.owned (h j) x hx
    · rw [put_sess_other _ _ hj, hserves.sess] at hx
      exact fun k hk => hserves.held.1 j k hj (h j x hx k hk)
  · by_cases hj : j = i
    · subst hj
      rw [put_sess_self] at hx
      cases hx
    · rw [put_sess_other _ _ hj] at hx
      exact fun k hk => mem_release.2 ⟨hj, h j x hx k hk⟩

end World

end Mvcc
