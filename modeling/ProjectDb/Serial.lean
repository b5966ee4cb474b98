import ProjectDb.Protocol
import ProjectDb.Transaction

namespace Mvcc
set_option autoImplicit true

variable {σ ω κ ε Q ι α : Type} {A : Q → Type} {T : Type u}

/-- The store after handlers served alone, one after another. -/
def Rules.after (R : Rules σ ω κ ε Q A T) (env : ι → Nat → T) (p : ι → Prog (Cmd.Reply ε A) α)
    (s : σ) (turns : List ι) : σ :=
  turns.foldl (fun s i => ((p i).run (R.serve (env i)) ⟨s, none, 0⟩).2.store) s

/-- The records of a statement, which its transaction has locked. -/
def Sent.Holds (R : Rules σ ω κ ε Q A T) (env : Nat → T) (held : List (ι × κ)) (i : ι)
    (e : Sent ω A) : Prop :=
  (∀ k ∈ e.writes.flatMap R.writes, (i, k) ∈ held) ∧
    (R.nonlocking e.stmt = false → ∃ s, ∀ k ∈ R.locks (env e.count) e.stmt s, (i, k) ∈ held)

/-- A transaction in flight that every statement answered as the store would, and that holds the
records of them. -/
structure Open (R : Rules σ ω κ ε Q A T) (env : Nat → T) (p : Prog (Cmd.Reply ε A) α) (s : σ)
    (held : List (ι × κ)) (i : ι) (sent : List (Sent ω A)) (own : List ω)
    (rest : Prog (Cmd.Reply ε A) α) (n : Nat) : Prop where
  tx : InTx R env p sent own rest n
  fits : ∀ e ∈ sent, e.Fits R env s
  holds : ∀ e ∈ sent, e.Holds R env held i

/-- The rest of a handler that only gives back what it had begun, and what it answers then. -/
def Ends (R : Rules σ ω κ ε Q A T) (env : Nat → T) (D : α → Prop) :
    Prog (Cmd.Reply ε A) α → Nat → Prop
  | .done a, _ => D a
  | .ask .rollback k, n => Ends R env D (k (R.control (env n))) (n + 1)
  | .ask .close k, n => Ends R env D (k ()) (n + 1)
  | _, _ => False

/-- A handler that has not ended: cut off, outside its transaction, in it with every answer as the
store would give it, or lost. -/
inductive Live (R : Rules σ ω κ ε Q A T) (env : Nat → T) (p : Prog (Cmd.Reply ε A) α)
    (D : α → Prop) (s : σ) (held : List (ι × κ)) (i : ι) : Session ε A ω α → Prop
  | cut : Live R env p D s held i ⟨none, n, none⟩
  | idle : (∀ s, Comes R env p s rest ⟨s, none, n⟩) → Live R env p D s held i ⟨some rest, n, none⟩
  | inTx : Open R env p s held i sent own rest n →
      Live R env p D s held i ⟨some rest, n, some ⟨view, own⟩⟩
  | lost : Ends R env D rest n → Live R env p D s held i ⟨some rest, n, tx⟩

/-- A handler that ended in its turn: cut off since, or where serving it alone in its turn leads. -/
def Ended (R : Rules σ ω κ ε Q A T) (env : Nat → T) (p : Prog (Cmd.Reply ε A) α) (s s' : σ)
    (x : Session ε A ω α) : Prop :=
  x.tx = none ∧ ∀ rest, x.rest = some rest → 2 ≤ x.count ∧ Comes R env p s rest ⟨s', none, x.count⟩

/-- No two handlers hold a lock on one record. -/
def World.Exclusive (w : World ε A ω κ ι α) : Prop :=
  ∀ i j k, (i, k) ∈ w.held → (j, k) ∈ w.held → i = j

/-- The handlers that ended did so as if served alone in these turns. -/
structure Serializes (R : Rules σ ω κ ε Q A T) (s₀ : σ) (env : ι → Nat → T)
    (p : ι → Prog (Cmd.Reply ε A) α) (P : ι → Prop) (D : ι → α → Prop) (turns : List ι)
    (w : World ε A ω κ ι α) : Prop where
  nodup : turns.Nodup
  followed : ∀ i ∈ turns, P i
  exclusive : w.Exclusive
  ended : ∀ l i r, turns = l ++ i :: r →
    Ended R (env i) (p i) (R.after env p s₀ l) (R.after env p s₀ (l ++ [i])) (w.sess i)
  live : ∀ i, P i → i ∉ turns →
    Live R (env i) (p i) (D i) (R.after env p s₀ turns) w.held i (w.sess i)
  logged : ∀ i ws, P i → (i, ws) ∈ w.log → ∃ l r k n, turns = l ++ i :: r ∧
    Comes R (env i) (p i) (R.after env p s₀ l) (.ask .commit k)
      ⟨R.after env p s₀ l, some (R.patchAll ws (R.after env p s₀ l)), n⟩ ∧
    R.unserved (env i n) = none

/-- A handler has a command to be served. -/
def World.Waiting (w : World ε A ω κ ι α) (i : ι) : Prop :=
  ∃ c k, (w.sess i).rest = some (.ask c k)

/-- A handler in its transaction that has a command other than a statement to be served. -/
def Ending (R : Rules σ ω κ ε Q A T) (env : Nat → T) (p : Prog (Cmd.Reply ε A) α) (s : σ)
    (w : World ε A ω κ ι α) (i : ι) : Prop :=
  ∃ c k n view own sent, w.sess i = ⟨some (.ask c k), n, some ⟨view, own⟩⟩ ∧
    Open R env p s w.held i sent own (.ask c k) n ∧ ∀ q, c ≠ .stmt q

/-- What a step does to the log and to the turns. -/
inductive Moves (R : Rules σ ω κ ε Q A T) (s₀ : σ) (env : ι → Nat → T)
    (p : ι → Prog (Cmd.Reply ε A) α) (P : ι → Prop) (turns : List ι) (w v : World ε A ω κ ι α) :
    List ι → Prop
  | still : v.log = w.log → R.after env p s₀ (turns ++ late) = R.after env p s₀ turns →
      (∀ i ∈ late, Ending R (env i) (p i) (R.after env p s₀ turns) w i) →
      Moves R s₀ env p P turns w v late
  | apart : ¬ P i → v.log = w.log ++ [(i, ws)] → Moves R s₀ env p P turns w v []
  | commit : P i → i ∉ turns → w.sess i = ⟨some (.ask .commit k), n, some ⟨view, own⟩⟩ →
      Open R (env i) (p i) (R.after env p s₀ turns) w.held i sent own (.ask .commit k) n →
      v.log = w.log ++ [(i, own)] →
      R.after env p s₀ (turns ++ [i]) = R.patchAll own (R.after env p s₀ turns) →
      Moves R s₀ env p P turns w v [i]

section
variable {R : Rules σ ω κ ε Q A T} {s₀ : σ} {env : ι → Nat → T} {p : ι → Prog (Cmd.Reply ε A) α}
  {P : ι → Prop} {D : ι → α → Prop} {w v : World ε A ω κ ι α} {turns : List ι}

theorem Rules.after_snoc (turns : List ι) (i : ι) : R.after env p s₀ (turns ++ [i]) =
    ((p i).run (R.serve (env i)) ⟨R.after env p s₀ turns, none, 0⟩).2.store := by
  unfold after
  rw [List.foldl_append]
  rfl

theorem after_of_comes
    (honce : (p i).Always (R.serve (env i)) oneTx ⟨R.after env p s₀ turns, none, 0⟩)
    (h : Comes R (env i) (p i) (R.after env p s₀ turns) rest ⟨s, none, n⟩) (hn : 2 ≤ n) :
    R.after env p s₀ (turns ++ [i]) = s := by
  rw [R.after_snoc, h.run, store_of_over (h.always honce) hn]

theorem Open.mono {p : Prog (Cmd.Reply ε A) α} {env : Nat → T} {held held' : List (ι × κ)}
    (h : Open R env p s held i sent own rest n) (hfits : ∀ e ∈ sent, e.Fits R env s')
    (hheld : ∀ k, (i, k) ∈ held → (i, k) ∈ held') : Open R env p s' held' i sent own rest n where
  tx := h.tx
  fits := hfits
  holds e he := by
    obtain ⟨hwrites, hlocks⟩ := h.holds e he
    refine ⟨fun k hk => hheld k (hwrites k hk), fun hq => ?_⟩
    obtain ⟨s, hs⟩ := hlocks hq
    exact ⟨s, fun k hk => hheld k (hs k hk)⟩

theorem Open.asked {p : Prog (Cmd.Reply ε A) α} {env : Nat → T} {held : List (ι × κ)}
    {C : Cmd Q → Conn σ → Prop} (h : Open R env p s held i sent own rest n)
    (hp : p.Always (R.serve env) C ⟨s, none, 0⟩) (he : e ∈ sent) :
    C (.stmt e.stmt) ⟨s, some (R.patchAll e.own s), e.count⟩ := by
  obtain ⟨k, hk⟩ := h.tx.asked s h.fits e he
  exact hk.next hp

theorem Open.next {p : Prog (Cmd.Reply ε A) α} {env : Nat → T} {held : List (ι × κ)}
    {C : Cmd Q → Conn σ → Prop} {c : Cmd Q} {k : Cmd.Reply ε A c → Prog (Cmd.Reply ε A) α}
    (h : Open R env p s held i sent own (.ask c k) n)
    (hp : p.Always (R.serve env) C ⟨s, none, 0⟩) : C c ⟨s, some (R.patchAll own s), n⟩ :=
  (h.tx.comes s h.fits).next hp

theorem Open.holds_own {p : Prog (Cmd.Reply ε A) α} {env : Nat → T} {held : List (ι × κ)}
    (h : Open R env p s held i sent own rest n) : ∀ k ∈ own.flatMap R.writes, (i, k) ∈ held := by
  intro k hk
  obtain ⟨u, hu, hk⟩ := List.mem_flatMap.1 hk
  rcases h.tx.chained.mem_writes hu with hu | ⟨e, he, hu⟩
  · exact absurd hu List.not_mem_nil
  · exact (h.holds e he).1 k (List.mem_flatMap.2 ⟨u, hu, hk⟩)

theorem Live.mono {x : Session ε A ω α} {held held' : List (ι × κ)} {p : Prog (Cmd.Reply ε A) α}
    {env : Nat → T} {D : α → Prop} (h : Live R env p D s held i x)
    (hfits : ∀ sent own rest n view, x = ⟨some rest, n, some ⟨view, own⟩⟩ →
      Open R env p s held i sent own rest n → ∀ e ∈ sent, e.Fits R env s')
    (hheld : ∀ k, (i, k) ∈ held → (i, k) ∈ held') : Live R env p D s' held' i x := by
  cases h with
  | cut => exact .cut
  | idle h => exact .idle h
  | inTx h => exact .inTx (h.mono (hfits _ _ _ _ _ rfl h) hheld)
  | lost h => exact .lost h

namespace World

theorem committed_snoc {ws : List ω} (hlog : v.log = w.log ++ [(i, ws)]) :
    v.committed R s₀ = R.patchAll ws (w.committed R s₀) := by
  unfold committed
  rw [hlog, List.flatMap_append, R.patchAll_append, List.flatMap_singleton]

theorem committed_congr (hlog : v.log = w.log) : v.committed R s₀ = w.committed R s₀ := by
  unfold committed
  rw [hlog]

theorem rest_of_answer (h : w.answer i = some a) : (w.sess i).rest = some (.done a) := by
  unfold answer at h
  split at h
  · rename_i b hrest
    cases h
    exact hrest
  · cases h

theorem mem_grant {keys : List κ} {k : κ} :
    (j, k) ∈ (w.grant i keys).held ↔ (j, k) ∈ w.held ∨ j = i ∧ k ∈ keys := by
  simp only [grant, List.mem_append, List.mem_map, Prod.mk.injEq]
  apply or_congr_right
  constructor
  · intro ⟨_, hk, hj, he⟩
    exact ⟨hj.symm, he ▸ hk⟩
  · intro ⟨hj, hk⟩
    exact ⟨k, hk, hj.symm, rfl⟩

end World

namespace Serializes

theorem start (hlog : w.log = []) (hheld : w.held = [])
    (hsess : ∀ i, w.sess i = ⟨some (p i), 0, none⟩) :
    Serializes R s₀ env p P D [] w where
  nodup := List.nodup_nil
  followed _ hi := absurd hi List.not_mem_nil
  exclusive i j k hi := by
    rw [hheld] at hi
    exact absurd hi List.not_mem_nil
  ended l i r hturns := by
    cases l <;> cases hturns
  live i _ _ := by
    rw [hsess]
    exact .idle fun _ => .start
  logged i ws _ hi := by
    rw [hlog] at hi
    exact absurd hi List.not_mem_nil

/-- A handler that had its turn answers what it answers alone in its turn. -/
theorem answer_of_turn (h : Serializes R s₀ env p P D (l ++ i :: r) w) (ha : w.answer i = some a) :
    ((p i).run (R.serve (env i)) ⟨R.after env p s₀ l, none, 0⟩).1 = a := by
  obtain ⟨_, hended⟩ := h.ended l i r rfl
  obtain ⟨_, hcomes⟩ := hended _ (World.rest_of_answer ha)
  rw [hcomes.run]
  rfl

/-- A handler that committed has had its turn, which its writes are what became of, and its commit
was as all of its commands are. -/
theorem turn_of_logged (h : Serializes R s₀ env p P D turns w) (hP : P i) (hlog : (i, ws) ∈ w.log)
    (honce : ∀ s, (p i).Always (R.serve (env i)) oneTx ⟨s, none, 0⟩) :
    ∃ l r, turns = l ++ i :: r ∧
      R.after env p s₀ (l ++ [i]) = R.patchAll ws (R.after env p s₀ l) ∧
      ∀ C : Cmd Q → Conn σ → Prop,
        (p i).Always (R.serve (env i)) C ⟨R.after env p s₀ l, none, 0⟩ →
          ∃ n, C .commit ⟨R.after env p s₀ l, some (R.patchAll ws (R.after env p s₀ l)), n⟩ := by
  obtain ⟨l, r, k, n, hturns, hcomes, hr⟩ := h.logged i ws hP hlog
  have hn : 2 ≤ n + 1 := by
    rcases Nat.eq_zero_or_pos n with rfl | hn
    · cases (hcomes.unique .start rfl).2
    · exact Nat.succ_le_succ hn
  have hcommit : R.serve (env i) .commit
      ⟨R.after env p s₀ l, some (R.patchAll ws (R.after env p s₀ l)), n⟩ =
        (R.control (env i n), ⟨R.patchAll ws (R.after env p s₀ l), none, n + 1⟩) := by
    simp only [Rules.serve, hr, Option.getD_some]
    rfl
  have hserved := hcomes.serve
  rw [hcommit] at hserved
  exact ⟨l, r, hturns, after_of_comes (honce _) hserved hn, fun C hC => ⟨n, hcomes.next hC⟩⟩

/-- A handler that answered without a turn answers so on every store, or was lost. -/
theorem answer_of_live (h : Serializes R s₀ env p P D turns w) (hP : P i) (hi : i ∉ turns)
    (hclosed : ∀ s, ((p i).run (R.serve (env i)) ⟨s, none, 0⟩).2.work = none)
    (ha : w.answer i = some a) :
    (∀ s, (p i).run (R.serve (env i)) ⟨s, none, 0⟩ = (a, ⟨s, none, (w.sess i).count⟩)) ∨ D i a := by
  have hlive := h.live i hP hi
  have hrest := World.rest_of_answer ha
  generalize w.sess i = x at hlive hrest ⊢
  cases hlive with
  | cut => cases hrest
  | idle hcomes =>
    cases hrest
    exact .inl fun s => (hcomes s).run
  | inTx hopen =>
    cases hrest
    have hwork := hclosed (R.after env p s₀ turns)
    rw [(hopen.tx.comes _ hopen.fits).run] at hwork
    cases hwork
  | lost hends =>
    cases hrest
    exact .inr hends

theorem quiet (h : Serializes R s₀ env p P D turns w) (i : ι)
    (hlog : ∀ j ws, P j → (j, ws) ∈ v.log → (j, ws) ∈ w.log) (hexclusive : v.Exclusive)
    (hsess : ∀ j, j ≠ i → v.sess j = w.sess j)
    (hheld : ∀ j k, j ≠ i → (j, k) ∈ w.held → (j, k) ∈ v.held)
    (hlive : P i → i ∉ turns →
      Live R (env i) (p i) (D i) (R.after env p s₀ turns) v.held i (v.sess i))
    (hended : ∀ l r, turns = l ++ i :: r →
      Ended R (env i) (p i) (R.after env p s₀ l) (R.after env p s₀ (l ++ [i])) (v.sess i)) :
    Serializes R s₀ env p P D turns v where
  nodup := h.nodup
  followed := h.followed
  exclusive := hexclusive
  ended l j r hturns := by
    by_cases hj : j = i
    · subst hj
      exact hended l r hturns
    · rw [hsess j hj]
      exact h.ended l j r hturns
  live j hP hj := by
    by_cases hi : j = i
    · subst hi
      exact hlive hP hj
    · rw [hsess j hi]
      exact (h.live j hP hj).mono (fun _ _ _ _ _ _ hopen => hopen.fits) fun k => hheld j k hi
  logged j ws hP hj := h.logged j ws hP (hlog j ws hP hj)

theorem elsewhere (h : Serializes R s₀ env p P D turns w) (i : ι) (hP : P i) (hi : i ∉ turns)
    (hexclusive : v.Exclusive)
    (hsess : ∀ j, j ≠ i → v.sess j = w.sess j)
    (hheld : ∀ j k, j ≠ i → (j, k) ∈ w.held → (j, k) ∈ v.held)
    (hended : Ended R (env i) (p i) (R.after env p s₀ turns) (R.after env p s₀ (turns ++ [i]))
      (v.sess i))
    (hfits : ∀ j sent own rest m view, P j → j ∉ turns → j ≠ i →
      w.sess j = ⟨some rest, m, some ⟨view, own⟩⟩ →
      Open R (env j) (p j) (R.after env p s₀ turns) w.held j sent own rest m →
        ∀ e ∈ sent, e.Fits R (env j) (R.after env p s₀ (turns ++ [i])))
    (hlogged : ∀ j ws, P j → (j, ws) ∈ v.log → (j, ws) ∈ w.log ∨ j = i ∧ ∃ k n,
      Comes R (env i) (p i) (R.after env p s₀ turns) (.ask .commit k)
        ⟨R.after env p s₀ turns, some (R.patchAll ws (R.after env p s₀ turns)), n⟩ ∧
      R.unserved (env i n) = none) :
    Serializes R s₀ env p P D (turns ++ [i]) v where
  nodup := by
    have hlast : [i].Nodup := List.nodup_cons.2 ⟨List.not_mem_nil, List.nodup_nil⟩
    refine List.nodup_append.2 ⟨h.nodup, hlast, fun a ha b hb he => ?_⟩
    rw [List.mem_singleton.1 hb] at he
    exact hi (he ▸ ha)
  followed j hj := by
    rcases List.mem_append.1 hj with hj | hj
    · exact h.followed j hj
    · rw [List.mem_singleton.1 hj]
      exact hP
  exclusive := hexclusive
  ended l j r hturns := by
    rcases List.eq_nil_or_concat r with rfl | ⟨r', b, rfl⟩
    · obtain ⟨rfl, hj⟩ := List.append_inj' hturns rfl
      cases hj
      exact hended
    · have hsplit : turns ++ [i] = (l ++ j :: r') ++ [b] := by
        rw [hturns, List.concat_eq_append, List.append_assoc, List.cons_append]
      obtain ⟨rfl, _⟩ := List.append_inj' hsplit rfl
      have hj : j ≠ i := fun he => hi (he ▸ List.mem_append_right _ List.mem_cons_self)
      rw [hsess j hj]
      exact h.ended l j r' rfl
  live j hPj hj := by
    rw [List.mem_append, List.mem_singleton, not_or] at hj
    rw [hsess j hj.2]
    apply (h.live j hPj hj.1).mono _ fun k => hheld j k hj.2
    intro sent own rest m view
    exact hfits j sent own rest m view hPj hj.1 hj.2
  logged j ws hPj hj := by
    rcases hlogged j ws hPj hj with hj | ⟨rfl, k, n, hcomes, hr⟩
    · obtain ⟨l, r, k, n, rfl, hcomes, hr⟩ := h.logged j ws hPj hj
      exact ⟨l, r ++ [i], k, n, by rw [List.append_assoc, List.cons_append], hcomes, hr⟩
    · exact ⟨turns, [], k, n, rfl, hcomes, hr⟩

end Serializes

end

variable [DecidableEq ι] [DecidableEq κ]

omit [DecidableEq ι] in
/-- A view that is out of date misses a commit to one of the records. -/
theorem World.outdated_cases {R : Rules σ ω κ ε Q A T} {w : World ε A ω κ ι α} {keys : List κ}
    (h : w.outdated R view keys = true) :
    ∃ v, view = some v ∧ ∃ e ∈ w.log.drop v, ∃ k ∈ e.2.flatMap R.writes, k ∈ keys := by
  unfold outdated at h
  cases view with
  | none => cases h
  | some v =>
    obtain ⟨e, he, h⟩ := List.any_eq_true.1 h
    obtain ⟨k, hk, h⟩ := List.any_eq_true.1 h
    exact ⟨v, rfl, e, he, k, hk, List.contains_iff_mem.1 h⟩

variable {R : Rules σ ω κ ε Q A T} {s₀ : σ} {env : ι → Nat → T} {p : ι → Prog (Cmd.Reply ε A) α}
  {P : ι → Prop} {D : ι → α → Prop} {w v : World ε A ω κ ι α} {turns : List ι}

namespace World

omit [DecidableEq κ] in
theorem mem_release {k : κ} : (j, k) ∈ (w.release i).held ↔ j ≠ i ∧ (j, k) ∈ w.held := by
  simp only [release, List.mem_filter, bne_iff_ne, ne_eq, and_comm]

theorem not_held_of_unblocked {keys : List κ} {k : κ} (h : w.blocked i keys = false) (hk : k ∈ keys)
    (hj : j ≠ i) : (j, k) ∉ w.held := by
  intro hheld
  have hblocked : w.blocked i keys = true := by
    rw [blocked, List.any_eq_true]
    refine ⟨(j, k), hheld, ?_⟩
    rw [Bool.and_eq_true]
    exact ⟨bne_iff_ne.2 hj, List.contains_iff_mem.2 hk⟩
  rw [h] at hblocked
  cases hblocked

omit [DecidableEq κ] in
theorem Exclusive.release (h : w.Exclusive) (i : ι) : (w.release i).Exclusive :=
  fun _ _ k ha hb => h _ _ k (mem_release.1 ha).2 (mem_release.1 hb).2

theorem Exclusive.grant {keys : List κ} (h : w.Exclusive) (hfree : w.blocked i keys = false) :
    (w.grant i keys).Exclusive := by
  intro a b k ha hb
  rcases mem_grant.1 ha with hka | ⟨rfl, hka⟩
  · rcases mem_grant.1 hb with hkb | ⟨rfl, hkb⟩
    · exact h a b k hka hkb
    · by_contra hne
      exact not_held_of_unblocked hfree hkb hne hka
  · rcases mem_grant.1 hb with hkb | ⟨rfl, _⟩
    · by_contra hne
      exact not_held_of_unblocked hfree hka (Ne.symm hne) hkb
    · rfl

end World

theorem Serves.held {c : Cmd Q} {r : Cmd.Reply ε A c} (h : Serves R s₀ t w i tx c r tx' v) :
    (∀ j k, j ≠ i → (j, k) ∈ w.held → (j, k) ∈ v.held) ∧ (w.Exclusive → v.Exclusive) := by
  have hsame : (∀ j k, j ≠ i → (j, k) ∈ w.held → (j, k) ∈ w.held) ∧
      (w.Exclusive → w.Exclusive) := ⟨fun _ _ _ h => h, fun h => h⟩
  have hreleased : (∀ j k, j ≠ i → (j, k) ∈ w.held → (j, k) ∈ (w.release i).held) ∧
      (w.Exclusive → (w.release i).Exclusive) :=
    ⟨fun j k hj h => World.mem_release.2 ⟨hj, h⟩, fun h => h.release i⟩
  cases h with
  | commit => exact hreleased
  | rollback => exact hreleased
  | close => exact hreleased
  | lock _ _ _ _ hfree _ =>
    exact ⟨fun _ _ _ h => World.mem_grant.2 (.inl h), fun h => h.grant hfree⟩
  | _ => exact hsame

theorem Serves.log_cases {c : Cmd Q} {r : Cmd.Reply ε A c}
    (h : Serves R s₀ t w i tx c r tx' v) : v.log = w.log ∨ ∃ ws, v.log = w.log ++ [(i, ws)] := by
  cases h with
  | commit => exact .inr ⟨_, rfl⟩
  | autocommit => exact .inr ⟨_, rfl⟩
  | _ => exact .inl rfl

theorem Serves.outside {c : Cmd Q} {r : Cmd.Reply ε A c} {env : Nat → T}
    (h : Serves R s₀ (env n) w i none c r tx v) (hc : oneTx c (⟨s, none, n⟩ : Conn σ))
    (hbegin : c ≠ .begin) : tx = none ∧ v.log = w.log ∧
      R.serve env c ⟨s, none, n⟩ = (r, ⟨s, none, n + 1⟩) := by
  cases h with
  | acquire => exact ⟨rfl, rfl, rfl⟩
  | beginRefused _ => exact absurd rfl hbegin
  | begin _ => exact absurd rfl hbegin
  | commitRefused hr => exact ⟨rfl, rfl, by simp only [Rules.serve, hr]⟩
  | commitNothing hr => exact ⟨rfl, rfl, by simp only [Rules.serve, hr, Option.getD_none]⟩
  | rollbackRefused hr => exact ⟨rfl, rfl, by simp only [Rules.serve, hr]⟩
  | rollback hr => exact ⟨rfl, rfl, by simp only [Rules.serve, hr]⟩
  | close => exact ⟨rfl, rfl, rfl⟩
  | read _ => cases hc
  | autocommit _ _ _ => cases hc

end Mvcc
