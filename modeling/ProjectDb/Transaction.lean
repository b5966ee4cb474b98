import ProjectDb.Interleaving

namespace Mvcc
set_option autoImplicit true

variable {σ ω κ ε Q ι α : Type} {A : Q → Type} {T : Type u}

theorem Rules.patchAll_append (R : Rules σ ω κ ε Q A T) (ws ws' : List ω) (s : σ) :
    R.patchAll (ws ++ ws') s = R.patchAll ws' (R.patchAll ws s) := List.foldl_append

/-- What a handler comes to, served alone on a store. -/
inductive Comes (R : Rules σ ω κ ε Q A T) (env : Nat → T) (p : Prog (Cmd.Reply ε A) α) (s : σ) :
    Prog (Cmd.Reply ε A) α → Conn σ → Prop
  | start : Comes R env p s p ⟨s, none, 0⟩
  | serve : Comes R env p s (.ask c k) d →
      Comes R env p s (k (R.serve env c d).1) (R.serve env c d).2

/-- A statement that a transaction sent, after the writes it had made, and what it was answered. -/
structure Sent (ω : Type) (A : Q → Type) where
  count : Nat
  stmt : Q
  own : List ω
  reply : A stmt
  writes : List ω

/-- On this store the statement would be answered so. -/
def Sent.Fits (R : Rules σ ω κ ε Q A T) (env : Nat → T) (e : Sent ω A) (s : σ) : Prop :=
  R.exec (env e.count) e.stmt (R.patchAll e.own s) = (e.reply, e.writes)

/-- Statements sent one after another, from what was written before the first to what was written
after the last. -/
def Chained : List ω → List (Sent ω A) → List ω → Prop
  | before, [], own => own = before
  | before, e :: sent, own => e.own = before ∧ Chained (before ++ e.writes) sent own

/-- A handler in a transaction: on every store that answers as it was answered, it comes to where
it is. -/
structure InTx (R : Rules σ ω κ ε Q A T) (env : Nat → T) (p : Prog (Cmd.Reply ε A) α)
    (sent : List (Sent ω A)) (own : List ω) (rest : Prog (Cmd.Reply ε A) α) (n : Nat) : Prop where
  comes : ∀ s, (∀ e ∈ sent, e.Fits R env s) →
    Comes R env p s rest ⟨s, some (R.patchAll own s), n⟩
  asked : ∀ s, (∀ e ∈ sent, e.Fits R env s) → ∀ e ∈ sent, ∃ k,
    Comes R env p s (.ask (.stmt e.stmt) k) ⟨s, some (R.patchAll e.own s), e.count⟩
  told : ∀ s, (∀ e ∈ sent, e.Fits R env s) → ∀ q k d, Comes R env p s (.ask (.stmt q) k) d →
    2 ≤ d.count → d.count < n → ∃ e ∈ sent, e.count = d.count ∧ e.stmt = q
  chained : Chained [] sent own
  counted : ∀ e ∈ sent, 2 ≤ e.count ∧ e.count < n
  late : 2 ≤ n

/-- A handler opens at most one transaction, with its second command, and sends its statements
in it. -/
def oneTx : Cmd Q → Conn σ → Prop
  | .stmt _, d => d.work.isSome = true
  | .begin, d => d.count = 1
  | _, _ => True

variable {R : Rules σ ω κ ε Q A T} {env : Nat → T} {p rest : Prog (Cmd.Reply ε A) α} {s : σ}
  {d : Conn σ}

theorem Comes.run (h : Comes R env p s rest d) :
    p.run (R.serve env) ⟨s, none, 0⟩ = rest.run (R.serve env) d := by
  induction h with
  | start => rfl
  | serve _ ih => exact ih

theorem Comes.always {P : Cmd Q → Conn σ → Prop} (h : Comes R env p s rest d)
    (hp : p.Always (R.serve env) P ⟨s, none, 0⟩) : rest.Always (R.serve env) P d := by
  induction h with
  | start => exact hp
  | serve _ ih => exact ih.2

theorem Comes.next {P : Cmd Q → Conn σ → Prop} {c : Cmd Q}
    {k : Cmd.Reply ε A c → Prog (Cmd.Reply ε A) α} (h : Comes R env p s (.ask c k) d)
    (hp : p.Always (R.serve env) P ⟨s, none, 0⟩) : P c d := (h.always hp).1

theorem Rules.serve_count (c : Cmd Q) (d : Conn σ) : (R.serve env c d).2.count = d.count + 1 := by
  cases c with
  | acquire => rfl
  | close => rfl
  | begin =>
    simp only [Rules.serve]
    split <;> rfl
  | commit =>
    simp only [Rules.serve]
    split <;> rfl
  | rollback =>
    simp only [Rules.serve]
    split <;> rfl
  | stmt q =>
    simp only [Rules.serve]
    split <;> rfl

theorem Comes.unique {rest' : Prog (Cmd.Reply ε A) α} {d' : Conn σ} (h : Comes R env p s rest d)
    (h' : Comes R env p s rest' d') (hcount : d.count = d'.count) : rest = rest' ∧ d = d' := by
  induction h generalizing rest' d' with
  | start =>
    cases h' with
    | start => exact ⟨rfl, rfl⟩
    | serve _ =>
      rw [R.serve_count] at hcount
      exact absurd hcount (Nat.succ_ne_zero _).symm
  | serve _ ih =>
    rw [R.serve_count] at hcount
    cases h' with
    | start => exact absurd hcount (Nat.succ_ne_zero _)
    | serve h' =>
      rw [R.serve_count] at hcount
      obtain ⟨hask, rfl⟩ := ih h' (Nat.succ.inj hcount)
      cases hask
      exact ⟨rfl, rfl⟩

theorem Comes.before (h : Comes R env p s rest d) (hm : m < d.count) :
    ∃ c k d', Comes R env p s (.ask c k) d' ∧ d'.count = m := by
  induction h with
  | start => exact absurd hm (Nat.not_lt_zero m)
  | @serve c k d h ih =>
    rw [R.serve_count] at hm
    rcases Nat.lt_succ_iff_lt_or_eq.1 hm with hm | rfl
    · exact ih hm
    · exact ⟨c, k, d, h, rfl⟩

theorem Chained.snoc {sent : List (Sent ω A)} (h : Chained before sent e.own) :
    Chained before (sent ++ [e]) (e.own ++ e.writes) := by
  induction sent generalizing before with
  | nil =>
    have he : e.own = before := h
    rw [he]
    exact ⟨he, rfl⟩
  | cons f sent ih => exact ⟨h.1, ih h.2⟩

theorem Chained.writes {sent : List (Sent ω A)} (h : Chained before sent own) :
    own = before ++ sent.flatMap Sent.writes := by
  induction sent generalizing before with
  | nil => exact h.trans (List.append_nil before).symm
  | cons e sent ih => rw [ih h.2, List.append_assoc, List.flatMap_cons]

theorem Chained.mem_writes {sent : List (Sent ω A)} (h : Chained before sent own) (hu : u ∈ own) :
    u ∈ before ∨ ∃ e ∈ sent, u ∈ e.writes := by
  rw [h.writes] at hu
  exact (List.mem_append.1 hu).imp_right List.mem_flatMap.1

theorem Chained.own_subset {sent : List (Sent ω A)} (h : Chained before sent own)
    (he : e ∈ sent) (hu : u ∈ e.own) : u ∈ own := by
  induction sent generalizing before with
  | nil => exact absurd he List.not_mem_nil
  | cons f sent ih =>
    obtain ⟨hown, hrest⟩ := h
    rcases List.mem_cons.1 he with rfl | he
    · rw [hrest.writes, ← hown]
      exact List.mem_append_left _ (List.mem_append_left _ hu)
    · exact ih hrest he

/-- Statements that a relation of stores keeps from telling them apart are answered alike. -/
theorem Chained.fits (Rel : σ → σ → Prop) {sent : List (Sent ω A)} {s' : σ}
    (h : Chained before sent own) (hrel : Rel (R.patchAll before s) (R.patchAll before s'))
    (hfits : ∀ e ∈ sent, e.Fits R env s)
    (hresp : ∀ e ∈ sent, ∀ a b, Rel a b → R.exec (env e.count) e.stmt a = (e.reply, e.writes) →
      R.exec (env e.count) e.stmt b = (e.reply, e.writes) ∧
        Rel (R.patchAll e.writes a) (R.patchAll e.writes b)) :
    (∀ e ∈ sent, e.Fits R env s') ∧ Rel (R.patchAll own s) (R.patchAll own s') := by
  induction sent generalizing before with
  | nil =>
    have hown : own = before := h
    rw [hown]
    exact ⟨fun _ he => absurd he List.not_mem_nil, hrel⟩
  | cons e sent ih =>
    obtain ⟨hown, hrest⟩ := h
    have hfit : R.exec (env e.count) e.stmt (R.patchAll e.own s) = (e.reply, e.writes) :=
      hfits e List.mem_cons_self
    rw [hown] at hfit
    obtain ⟨hexec, hnext⟩ := hresp e List.mem_cons_self _ _ hrel hfit
    rw [← R.patchAll_append, ← R.patchAll_append] at hnext
    obtain ⟨hall, hlast⟩ := ih hrest hnext (fun f hf => hfits f (List.mem_cons_of_mem _ hf))
      fun f hf => hresp f (List.mem_cons_of_mem _ hf)
    refine ⟨fun f hf => ?_, hlast⟩
    rcases List.mem_cons.1 hf with rfl | hf
    · unfold Sent.Fits
      rw [hown]
      exact hexec
    · exact hall f hf

namespace InTx

variable {sent : List (Sent ω A)} {own : List ω}

theorem start {k : Except ε Unit → Prog (Cmd.Reply ε A) α}
    (h : ∀ s, Comes R env p s (.ask .begin k) ⟨s, none, 1⟩) (hr : R.refused (env 1) = none) :
    InTx R env p [] [] (k (.ok ())) 2 where
  comes s _ := by
    have hcomes := (h s).serve
    simp only [Rules.serve, hr] at hcomes
    exact hcomes
  asked _ _ _ he := absurd he List.not_mem_nil
  told _ _ _ _ _ _ hlate hn := absurd hn (Nat.not_lt.2 hlate)
  chained := rfl
  counted _ he := absurd he List.not_mem_nil
  late := Nat.le_refl 2

theorem stmt {k : A q → Prog (Cmd.Reply ε A) α} (h : InTx R env p sent own (.ask (.stmt q) k) n)
    (a : A q) (ws : List ω) :
    InTx R env p (sent ++ [⟨n, q, own, a, ws⟩]) (own ++ ws) (k a) (n + 1) where
  comes s hfits := by
    have hcomes := (h.comes s fun e he => hfits e (List.mem_append_left _ he)).serve
    have hlast : R.exec (env n) q (R.patchAll own s) = (a, ws) :=
      hfits ⟨n, q, own, a, ws⟩ (List.mem_append_right _ (List.mem_singleton.2 rfl))
    simp only [Rules.serve, hlast, ← R.patchAll_append] at hcomes
    exact hcomes
  asked s hfits e he := by
    have hbefore : ∀ e ∈ sent, e.Fits R env s := fun e he => hfits e (List.mem_append_left _ he)
    rcases List.mem_append.1 he with he | he
    · exact h.asked s hbefore e he
    · rw [List.mem_singleton.1 he]
      exact ⟨k, h.comes s hbefore⟩
  told s hfits q' k' d hcomes hlate hn := by
    have hbefore : ∀ e ∈ sent, e.Fits R env s := fun e he => hfits e (List.mem_append_left _ he)
    rcases Nat.lt_succ_iff_lt_or_eq.1 hn with hn | hn
    · obtain ⟨e, he, hsame⟩ := h.told s hbefore q' k' d hcomes hlate hn
      exact ⟨e, List.mem_append_left _ he, hsame⟩
    · obtain ⟨hask, _⟩ := hcomes.unique (h.comes s hbefore) hn
      cases hask
      exact ⟨_, List.mem_append_right _ (List.mem_singleton.2 rfl), hn.symm, rfl⟩
  chained := h.chained.snoc (e := ⟨n, q, own, a, ws⟩)
  counted e he := by
    rcases List.mem_append.1 he with he | he
    · exact (h.counted e he).imp_right Nat.lt_succ_of_lt
    · rw [List.mem_singleton.1 he]
      exact ⟨h.late, Nat.lt_succ_self n⟩
  late := Nat.le_succ_of_le h.late

theorem idle {c : Cmd Q} {k : Cmd.Reply ε A c → Prog (Cmd.Reply ε A) α} {r : Cmd.Reply ε A c}
    (h : InTx R env p sent own (.ask c k) n) (hc : ∀ q, c ≠ .stmt q)
    (hserve : ∀ s w : σ, R.serve env c ⟨s, some w, n⟩ = (r, ⟨s, some w, n + 1⟩)) :
    InTx R env p sent own (k r) (n + 1) where
  comes s hfits := by
    have hcomes := (h.comes s hfits).serve
    rw [hserve] at hcomes
    exact hcomes
  asked := h.asked
  told s hfits q' k' d hcomes hlate hn := by
    rcases Nat.lt_succ_iff_lt_or_eq.1 hn with hn | hn
    · exact h.told s hfits q' k' d hcomes hlate hn
    · obtain ⟨hask, _⟩ := hcomes.unique (h.comes s hfits) hn
      cases hask
      exact absurd rfl (hc q')
  chained := h.chained
  counted e he := (h.counted e he).imp_right Nat.lt_succ_of_lt
  late := Nat.le_succ_of_le h.late

end InTx

theorem store_of_over (h : rest.Always (R.serve env) oneTx ⟨s, none, n⟩) (hn : 2 ≤ n) :
    (rest.run (R.serve env) ⟨s, none, n⟩).2.store = s := by
  induction rest generalizing n with
  | done a => rfl
  | ask c k ih =>
    obtain ⟨hc, hrest⟩ := h
    have hserve : (R.serve env c ⟨s, none, n⟩).2 = ⟨s, none, n + 1⟩ := by
      cases c with
      | stmt q => cases hc
      | begin =>
        have hone : n = 1 := hc
        exact absurd hn (by omega)
      | acquire => rfl
      | close => rfl
      | commit =>
        simp only [Rules.serve]
        split <;> rfl
      | rollback =>
        simp only [Rules.serve]
        split <;> rfl
    rw [Prog.run_ask]
    rw [hserve] at hrest ⊢
    exact ih _ hrest (Nat.le_succ_of_le hn)

end Mvcc
