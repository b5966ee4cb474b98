import ProjectDb.Serial

namespace Mvcc
set_option autoImplicit true

variable {σ ω κ ε Q ι α : Type} {A : Q → Type} {T : Type u}

variable [DecidableEq ι] [DecidableEq κ]

/-- What the followed handlers must be promised at a world: that what a statement sees is what the
store of the turns holds, that one which finds its records changed ends its handler, and that a
commit changes nothing that another's answers rest on. -/
structure Calm (R : Rules σ ω κ ε Q A T) (s₀ : σ) (env : ι → Nat → T)
    (p : ι → Prog (Cmd.Reply ε A) α) (P : ι → Prop) (D : ι → α → Prop) (turns : List ι)
    (w : World ε A ω κ ι α) : Prop where
  sees : ∀ i sent own q k n view, P i → i ∉ turns →
    w.sess i = ⟨some (.ask (.stmt q) k), n, some ⟨view, own⟩⟩ →
    Open R (env i) (p i) (R.after env p s₀ turns) w.held i sent own (.ask (.stmt q) k) n →
    R.nonlocking q = true →
    R.exec (env i n) q (R.patchAll own (w.storeAt R s₀ (view.getD w.log.length))) =
      R.exec (env i n) q (R.patchAll own (R.after env p s₀ turns))
  meets : ∀ i sent own q k n view, P i → i ∉ turns →
    w.sess i = ⟨some (.ask (.stmt q) k), n, some ⟨view, own⟩⟩ →
    Open R (env i) (p i) (R.after env p s₀ turns) w.held i sent own (.ask (.stmt q) k) n →
    R.nonlocking q = false →
    R.exec (env i n) q (R.patchAll own (w.committed R s₀)) =
      R.exec (env i n) q (R.patchAll own (R.after env p s₀ turns))
  stale : ∀ i sent own q k n view, P i → i ∉ turns →
    w.sess i = ⟨some (.ask (.stmt q) k), n, some ⟨view, own⟩⟩ →
    Open R (env i) (p i) (R.after env p s₀ turns) w.held i sent own (.ask (.stmt q) k) n →
    R.nonlocking q = false →
    w.outdated R view ((R.exec (env i n) q (R.patchAll own
      (R.after env p s₀ turns))).2.flatMap R.revises) = true →
      Ends R (env i) (D i) (k (R.stale q)) (n + 1)
  stable : ∀ i sent own k n view j sent' own' rest m view', P i → i ∉ turns →
    w.sess i = ⟨some (.ask .commit k), n, some ⟨view, own⟩⟩ →
    Open R (env i) (p i) (R.after env p s₀ turns) w.held i sent own (.ask .commit k) n →
    R.after env p s₀ (turns ++ [i]) = R.patchAll own (R.after env p s₀ turns) →
    P j → j ∉ turns → j ≠ i → w.sess j = ⟨some rest, m, some ⟨view', own'⟩⟩ →
    Open R (env j) (p j) (R.after env p s₀ turns) w.held j sent' own' rest m →
    ∀ e ∈ sent', e.Fits R (env j) (R.patchAll own (R.after env p s₀ turns))

variable {R : Rules σ ω κ ε Q A T} {s₀ : σ} {env : ι → Nat → T} {p : ι → Prog (Cmd.Reply ε A) α}
  {P : ι → Prop} {D : ι → α → Prop} {w v : World ε A ω κ ι α} {turns : List ι}

namespace Serializes

theorem command {c : Cmd Q} {k : Cmd.Reply ε A c → Prog (Cmd.Reply ε A) α} {r : Cmd.Reply ε A c}
    (h : Serializes R s₀ env p P D turns w)
    (hserves : Serves R s₀ (env i (w.sess i).count) w i (w.sess i).tx c r tx v)
    (hlog : P i → v.log = w.log)
    (hlive : P i → i ∉ turns → Live R (env i) (p i) (D i) (R.after env p s₀ turns) v.held i
      ⟨some (k r), (w.sess i).count + 1, tx⟩)
    (hended : ∀ l r', turns = l ++ i :: r' → Ended R (env i) (p i) (R.after env p s₀ l)
      (R.after env p s₀ (l ++ [i])) (⟨some (k r), (w.sess i).count + 1, tx⟩ : Session ε A ω α)) :
    Serializes R s₀ env p P D turns (v.put i ⟨some (k r), (w.sess i).count + 1, tx⟩) := by
  obtain ⟨hheld, hexclusive⟩ := hserves.held
  have hsess : ∀ j, j ≠ i →
      (v.put i ⟨some (k r), (w.sess i).count + 1, tx⟩).sess j = w.sess j := by
    intro j hj
    rw [World.put_sess_other _ _ hj, hserves.sess]
  have hlogged : ∀ j ws, P j → (j, ws) ∈ v.log → (j, ws) ∈ w.log := by
    intro j ws hP hj
    rcases hserves.log_cases with he | ⟨ws', he⟩
    · rwa [he] at hj
    · rw [he] at hj
      rcases List.mem_append.1 hj with hj | hj
      · exact hj
      · cases List.mem_singleton.1 hj
        rw [← hlog hP, he]
        exact List.mem_append_right _ (List.mem_singleton.2 rfl)
  apply h.quiet (v := v.put i ⟨some (k r), (w.sess i).count + 1, tx⟩) i hlogged
    (hexclusive h.exclusive) hsess hheld
  · rw [World.put_sess_self]
    exact hlive
  · rw [World.put_sess_self]
    exact hended

omit [DecidableEq κ] in
theorem cut (h : Serializes R s₀ env p P D turns w) (i : ι) :
    Serializes R s₀ env p P D turns ((w.release i).put i ⟨none, (w.sess i).count, none⟩) := by
  apply h.quiet (v := (w.release i).put i ⟨none, (w.sess i).count, none⟩) i
    (fun _ _ _ hj => hj) (h.exclusive.release i) (fun j hj => World.put_sess_other _ _ hj)
    (fun j k hj hk => World.mem_release.2 ⟨hj, hk⟩)
  · intro _ _
    rw [World.put_sess_self]
    exact .cut
  · intro l r _
    rw [World.put_sess_self]
    exact ⟨rfl, fun _ hrest => by cases hrest⟩

theorem served_ended {c : Cmd Q} {k : Cmd.Reply ε A c → Prog (Cmd.Reply ε A) α}
    {r : Cmd.Reply ε A c} (h : Serializes R s₀ env p P D turns w)
    (honce : ∀ i, P i → ∀ s, (p i).Always (R.serve (env i)) oneTx ⟨s, none, 0⟩) (hi : i ∈ turns)
    (hrest : (w.sess i).rest = some (.ask c k))
    (hserves : Serves R s₀ (env i (w.sess i).count) w i (w.sess i).tx c r tx v) :
    v.log = w.log ∧
      Serializes R s₀ env p P D turns (v.put i ⟨some (k r), (w.sess i).count + 1, tx⟩) := by
  have hP := h.followed i hi
  have hstep : ∀ l r', turns = l ++ i :: r' → tx = none ∧ v.log = w.log ∧
      2 ≤ (w.sess i).count + 1 ∧ Comes R (env i) (p i) (R.after env p s₀ l) (k r)
        ⟨R.after env p s₀ (l ++ [i]), none, (w.sess i).count + 1⟩ := by
    intro l r' hturns
    obtain ⟨htx, hended⟩ := h.ended l i r' hturns
    obtain ⟨hlate, hcomes⟩ := hended _ hrest
    rw [htx] at hserves
    have hone := hcomes.next (honce i hP _)
    have hbegin : c ≠ .begin := by
      rintro rfl
      have hcount : (w.sess i).count = 1 := hone
      omega
    obtain ⟨htx', hlog, hserve⟩ := hserves.outside hone hbegin
    have hnext := hcomes.serve
    rw [hserve] at hnext
    exact ⟨htx', hlog, Nat.le_succ_of_le hlate, hnext⟩
  obtain ⟨l, r', hturns⟩ := List.append_of_mem hi
  have hlog := (hstep l r' hturns).2.1
  refine ⟨hlog, h.command hserves (fun _ => hlog) (fun _ hnot => absurd hi hnot) ?_⟩
  intro m m' hm
  obtain ⟨rfl, _, hlate, hcomes⟩ := hstep m m' hm
  refine ⟨rfl, fun rest he => ?_⟩
  cases he
  exact ⟨hlate, hcomes⟩

theorem served_idle {c : Cmd Q} {k : Cmd.Reply ε A c → Prog (Cmd.Reply ε A) α} {r : Cmd.Reply ε A c}
    (h : Serializes R s₀ env p P D turns w)
    (honce : ∀ s, (p i).Always (R.serve (env i)) oneTx ⟨s, none, 0⟩) (hi : i ∉ turns)
    (hsess : w.sess i = ⟨some (.ask c k), n, none⟩)
    (hcomes : ∀ s, Comes R (env i) (p i) s (.ask c k) ⟨s, none, n⟩)
    (hserves : Serves R s₀ (env i (w.sess i).count) w i (w.sess i).tx c r tx v) :
    v.log = w.log ∧
      Serializes R s₀ env p P D turns (v.put i ⟨some (k r), (w.sess i).count + 1, tx⟩) := by
  have hone := (hcomes s₀).next (honce s₀)
  have hnone : i ∉ turns → ∀ l r', turns = l ++ i :: r' → False := fun hi l r' hturns =>
    hi (hturns ▸ List.mem_append_right _ List.mem_cons_self)
  have hserves' := hserves
  rw [hsess] at hserves'
  obtain ⟨hlog, hlive⟩ : v.log = w.log ∧ Live R (env i) (p i) (D i) (R.after env p s₀ turns) v.held
      i ⟨some (k r), n + 1, tx⟩ := by
    by_cases hbegin : c = .begin
    · subst hbegin
      have hcount : n = 1 := hone
      subst hcount
      cases hserves' with
      | beginRefused hr =>
        refine ⟨rfl, .idle fun s => ?_⟩
        have hnext := (hcomes s).serve
        simp only [Rules.serve, hr] at hnext
        exact hnext
      | begin hr =>
        exact ⟨rfl, .inTx ⟨.start hcomes hr, fun _ he => absurd he List.not_mem_nil,
          fun _ he => absurd he List.not_mem_nil⟩⟩
    · obtain ⟨rfl, hlog, _⟩ := hserves'.outside hone hbegin
      refine ⟨hlog, .idle fun s => ?_⟩
      have hnext := (hcomes s).serve
      obtain ⟨_, _, hserve⟩ := hserves'.outside ((hcomes s).next (honce s)) hbegin
      rw [hserve] at hnext
      exact hnext
  refine ⟨hlog, h.command hserves (fun _ => hlog) (fun _ _ => ?_) ?_⟩
  · rw [hsess]
    exact hlive
  · exact fun l r' hturns => absurd (hnone hi l r' hturns) id

theorem served_lost {c : Cmd Q} {k : Cmd.Reply ε A c → Prog (Cmd.Reply ε A) α} {r : Cmd.Reply ε A c}
    (h : Serializes R s₀ env p P D turns w) (hi : i ∉ turns)
    (hends : Ends R (env i) (D i) (.ask c k) (w.sess i).count)
    (hserves : Serves R s₀ (env i (w.sess i).count) w i (w.sess i).tx c r tx v) :
    v.log = w.log ∧
      Serializes R s₀ env p P D turns (v.put i ⟨some (k r), (w.sess i).count + 1, tx⟩) := by
  obtain ⟨hlog, hrest⟩ : v.log = w.log ∧ Ends R (env i) (D i) (k r) ((w.sess i).count + 1) := by
    generalize (w.sess i).tx = x at hserves
    cases hserves with
    | rollbackRefused hr =>
      have hcontrol := Rules.control_of_refused hr
      exact ⟨rfl, hcontrol ▸ hends⟩
    | rollback hr =>
      have hcontrol := Rules.control_of_executed hr
      exact ⟨rfl, hcontrol ▸ hends⟩
    | close => exact ⟨rfl, hends⟩
    | _ => exact hends.elim
  refine ⟨hlog, h.command hserves (fun _ => hlog) (fun _ _ => .lost hrest) ?_⟩
  exact fun l r' hturns => absurd (hturns ▸ List.mem_append_right _ List.mem_cons_self) hi

omit [DecidableEq κ] in
/-- A transaction that is rolled back takes its turn, and changes nothing. -/
theorem rolled {c : Cmd Q} {k : Cmd.Reply ε A c → Prog (Cmd.Reply ε A) α} {r : Cmd.Reply ε A c}
    (h : Serializes R s₀ env p P D turns w)
    (honce : ∀ s, (p i).Always (R.serve (env i)) oneTx ⟨s, none, 0⟩) (hP : P i) (hi : i ∉ turns)
    (hopen : Open R (env i) (p i) (R.after env p s₀ turns) w.held i sent own (.ask c k) n)
    (hserve : ∀ s d : σ, R.serve (env i) c ⟨s, some d, n⟩ = (r, ⟨s, none, n + 1⟩)) :
    R.after env p s₀ (turns ++ [i]) = R.after env p s₀ turns ∧
      Serializes R s₀ env p P D (turns ++ [i])
        ((w.release i).put i ⟨some (k r), n + 1, none⟩) := by
  have hcomes := (hopen.tx.comes _ hopen.fits).serve
  rw [hserve] at hcomes
  have hlate := Nat.le_succ_of_le hopen.tx.late
  have hafter := after_of_comes (honce _) hcomes hlate
  refine ⟨hafter, h.elsewhere i hP hi (h.exclusive.release i)
    (fun j hj => World.put_sess_other _ _ hj)
    (fun j k hj hk => World.mem_release.2 ⟨hj, hk⟩) ?_ ?_ ?_⟩
  · rw [World.put_sess_self, hafter]
    refine ⟨rfl, fun rest he => ⟨hlate, ?_⟩⟩
    cases he
    exact hcomes
  · intro j sent own rest m view _ _ _ _ hopen'
    rw [hafter]
    exact hopen'.fits
  · exact fun j ws _ hj => .inl hj

omit [DecidableEq κ] in
/-- A transaction that commits takes its turn, as if it had been served alone in it. -/
theorem committed {k : Except ε Unit → Prog (Cmd.Reply ε A) α}
    (h : Serializes R s₀ env p P D turns w)
    (honce : ∀ s, (p i).Always (R.serve (env i)) oneTx ⟨s, none, 0⟩) (hP : P i) (hi : i ∉ turns)
    (hopen : Open R (env i) (p i) (R.after env p s₀ turns) w.held i sent own (.ask .commit k) n)
    (hr : R.unserved (env i n) = none)
    (hstable : R.after env p s₀ (turns ++ [i]) = R.patchAll own (R.after env p s₀ turns) →
      ∀ j sent own' rest m view, P j → j ∉ turns → j ≠ i →
      w.sess j = ⟨some rest, m, some ⟨view, own'⟩⟩ →
      Open R (env j) (p j) (R.after env p s₀ turns) w.held j sent own' rest m →
        ∀ e ∈ sent, e.Fits R (env j) (R.patchAll own (R.after env p s₀ turns))) :
    R.after env p s₀ (turns ++ [i]) = R.patchAll own (R.after env p s₀ turns) ∧
      Serializes R s₀ env p P D (turns ++ [i])
        ({ (w.release i) with log := w.log ++ [(i, own)] }.put i
          ⟨some (k (R.control (env i n))), n + 1, none⟩) := by
  have hbefore := hopen.tx.comes _ hopen.fits
  have hcomes := hbefore.serve
  simp only [Rules.serve, hr, Option.getD_some] at hcomes
  have hlate := Nat.le_succ_of_le hopen.tx.late
  have hafter := after_of_comes (honce _) hcomes hlate
  refine ⟨hafter, h.elsewhere i hP hi ?_ (fun j hj => World.put_sess_other _ _ hj)
    (fun j k hj hk => World.mem_release.2 ⟨hj, hk⟩) ?_ ?_ ?_⟩
  · exact h.exclusive.release i
  · rw [World.put_sess_self, hafter]
    refine ⟨rfl, fun rest he => ⟨hlate, ?_⟩⟩
    cases he
    exact hcomes
  · intro j sent own' rest m view hPj hj hne hsess hopen'
    rw [hafter]
    exact hstable hafter j sent own' rest m view hPj hj hne hsess hopen'
  · intro j ws _ hj
    rcases List.mem_append.1 hj with hj | hj
    · exact .inl hj
    · cases List.mem_singleton.1 hj
      exact .inr ⟨rfl, k, n, hbefore, hr⟩

end Serializes

omit [DecidableEq ι] [DecidableEq κ] in
theorem Open.idle {p : Prog (Cmd.Reply ε A) α} {env : Nat → T} {held : List (ι × κ)} {c : Cmd Q}
    {k : Cmd.Reply ε A c → Prog (Cmd.Reply ε A) α} {r : Cmd.Reply ε A c}
    (h : Open R env p s held i sent own (.ask c k) n) (hc : ∀ q, c ≠ .stmt q)
    (hserve : ∀ s d : σ, R.serve env c ⟨s, some d, n⟩ = (r, ⟨s, some d, n + 1⟩)) :
    Open R env p s held i sent own (k r) (n + 1) :=
  ⟨h.tx.idle hc hserve, h.fits, h.holds⟩

omit [DecidableEq ι] [DecidableEq κ] in
theorem Open.stmt {p : Prog (Cmd.Reply ε A) α} {env : Nat → T} {held held' : List (ι × κ)}
    {k : A q → Prog (Cmd.Reply ε A) α} (h : Open R env p s held i sent own (.ask (.stmt q) k) n)
    (hexec : R.exec (env n) q (R.patchAll own s) = (a, ws))
    (hheld : ∀ k, (i, k) ∈ held → (i, k) ∈ held') (hwrites : ∀ k ∈ ws.flatMap R.writes,
      (i, k) ∈ held')
    (hlocks : R.nonlocking q = false → ∃ s, ∀ k ∈ R.locks (env n) q s, (i, k) ∈ held') :
    Open R env p s held' i (sent ++ [⟨n, q, own, a, ws⟩]) (own ++ ws) (k a) (n + 1) := by
  have hbefore := h.mono h.fits hheld
  refine ⟨h.tx.stmt a ws, fun e he => ?_, fun e he => ?_⟩
  · rcases List.mem_append.1 he with he | he
    · exact h.fits e he
    · rw [List.mem_singleton.1 he]
      exact hexec
  · rcases List.mem_append.1 he with he | he
    · exact hbefore.holds e he
    · rw [List.mem_singleton.1 he]
      exact ⟨hwrites, hlocks⟩

namespace Serializes

omit [DecidableEq ι] [DecidableEq κ] in
theorem still_of (h : Serializes R s₀ env p P D turns v ∧ Moves R s₀ env p P turns w v []) :
    ∃ late, Serializes R s₀ env p P D (turns ++ late) v ∧ Moves R s₀ env p P turns w v late :=
  ⟨[], by rw [List.append_nil]; exact h.1, h.2⟩

omit [DecidableEq ι] [DecidableEq κ] in
theorem moves_still (hlog : v.log = w.log) : Moves R s₀ env p P turns w v [] :=
  .still hlog (by rw [List.append_nil]) fun _ hi => absurd hi List.not_mem_nil

section
variable {c : Cmd Q} {k : Cmd.Reply ε A c → Prog (Cmd.Reply ε A) α} {r : Cmd.Reply ε A c}
  {sent : List (Sent ω A)} {own : List ω} {n : Nat} {view : Option Nat}

theorem served_inTx (h : Serializes R s₀ env p P D turns w) (hi : i ∉ turns)
    (hsess : w.sess i = ⟨some (.ask c k), n, some ⟨view, own⟩⟩)
    (hserves : Serves R s₀ (env i n) w i (some ⟨view, own⟩) c r (some ⟨view', own'⟩) v)
    (hlog : v.log = w.log)
    (hopen : Open R (env i) (p i) (R.after env p s₀ turns) v.held i sent own' (k r) (n + 1)) :
    ∃ late, Serializes R s₀ env p P D (turns ++ late)
        (v.put i ⟨some (k r), n + 1, some ⟨view', own'⟩⟩) ∧
      Moves R s₀ env p P turns w (v.put i ⟨some (k r), n + 1, some ⟨view', own'⟩⟩) late := by
  have hserved : Serves R s₀ (env i (w.sess i).count) w i (w.sess i).tx c r
      (some ⟨view', own'⟩) v := by
    rw [hsess]
    exact hserves
  have hnext := h.command (k := k) hserved (fun _ => hlog)
    (fun _ _ => .inTx (by rw [hsess]; exact hopen))
    fun l r' hturns => absurd (hturns ▸ List.mem_append_right _ List.mem_cons_self) hi
  rw [hsess] at hnext
  exact still_of ⟨hnext, moves_still hlog⟩

theorem served_control (h : Serializes R s₀ env p P D turns w) (hcalm : Calm R s₀ env p P D turns w)
    (honce : ∀ s, (p i).Always (R.serve (env i)) oneTx ⟨s, none, 0⟩) (hP : P i) (hi : i ∉ turns)
    (hsess : w.sess i = ⟨some (.ask c k), n, some ⟨view, own⟩⟩)
    (hopen : Open R (env i) (p i) (R.after env p s₀ turns) w.held i sent own (.ask c k) n)
    (hc : ∀ q, c ≠ .stmt q) (hserves : Serves R s₀ (env i n) w i (some ⟨view, own⟩) c r tx v) :
    ∃ late, Serializes R s₀ env p P D (turns ++ late) (v.put i ⟨some (k r), n + 1, tx⟩) ∧
      Moves R s₀ env p P turns w (v.put i ⟨some (k r), n + 1, tx⟩) late := by
  have hone := hopen.next (honce _)
  have hending : ∀ j ∈ [i], Ending R (env j) (p j) (R.after env p s₀ turns) w j := by
    intro j hj
    rw [List.mem_singleton.1 hj]
    exact ⟨_, _, n, view, own, sent, hsess, hopen, hc⟩
  cases hserves with
  | acquire => exact h.served_inTx hi hsess .acquire rfl (hopen.idle hc fun _ _ => rfl)
  | beginRefused _ =>
    have hcount : n = 1 := hone
    exact absurd hopen.tx.late (by omega)
  | begin _ =>
    have hcount : n = 1 := hone
    exact absurd hopen.tx.late (by omega)
  | commitRefused hr =>
    apply h.served_inTx hi hsess (.commitRefused hr) rfl
    exact hopen.idle hc fun _ _ => by simp only [Rules.serve, hr]
  | commit hr =>
    obtain ⟨hafter, hnext⟩ := h.committed honce hP hi hopen hr
      fun hafter j sent' own' rest m view' => hcalm.stable i sent own k n view j sent' own'
        rest m view' hP hi hsess hopen hafter
    exact ⟨[i], hnext, .commit hP hi hsess hopen rfl hafter⟩
  | rollbackRefused hr =>
    apply h.served_inTx hi hsess (.rollbackRefused hr) rfl
    exact hopen.idle hc fun _ _ => by simp only [Rules.serve, hr]
  | rollback hr =>
    have hserve : ∀ s d : σ, R.serve (env i) .rollback ⟨s, some d, n⟩ =
        (.ok (), ⟨s, none, n + 1⟩) := fun _ _ => by simp only [Rules.serve, hr]
    obtain ⟨hafter, hnext⟩ := h.rolled honce hP hi hopen hserve
    exact ⟨[i], hnext, .still rfl hafter hending⟩
  | close =>
    obtain ⟨hafter, hnext⟩ := h.rolled honce hP hi hopen fun _ _ => rfl
    exact ⟨[i], hnext, .still rfl hafter hending⟩
  | snapshot => exact absurd rfl (hc _)
  | stale => exact absurd rfl (hc _)
  | lock => exact absurd rfl (hc _)

end

section
variable {q : Q} {k : A q → Prog (Cmd.Reply ε A) α} {a : A q} {sent : List (Sent ω A)}
  {own : List ω} {n : Nat} {view : Option Nat}

/-- A statement of a handler in its transaction is answered as in its turn, or the handler is
lost. -/
theorem served_stmt (h : Serializes R s₀ env p P D turns w) (hcalm : Calm R s₀ env p P D turns w)
    (hselect : ∀ t q s, R.nonlocking q = true → (R.exec t q s).2 = []) (hP : P i) (hi : i ∉ turns)
    (hsess : w.sess i = ⟨some (.ask (.stmt q) k), n, some ⟨view, own⟩⟩)
    (hopen : Open R (env i) (p i) (R.after env p s₀ turns) w.held i sent own (.ask (.stmt q) k) n)
    (hserves : Serves R s₀ (env i n) w i (some ⟨view, own⟩) (.stmt q) a tx v) :
    ∃ late, Serializes R s₀ env p P D (turns ++ late) (v.put i ⟨some (k a), n + 1, tx⟩) ∧
      Moves R s₀ env p P turns w (v.put i ⟨some (k a), n + 1, tx⟩) late := by
  have hsame := hserves
  cases hserves with
  | snapshot hq hv =>
    have hsees := hcalm.sees i sent own q k n view hP hi hsess hopen hq
    have hexec : R.exec (env i n) q (R.patchAll own (R.after env p s₀ turns)) =
        ((R.exec (env i n) q (R.patchAll own
          (w.storeAt R s₀ (view.getD w.log.length)))).1, []) :=
      Prod.ext (congrArg Prod.fst hsees).symm (hselect _ _ _ hq)
    subst hv
    have hopen' := hopen.stmt hexec (fun _ hk => hk) (fun _ hk => absurd hk List.not_mem_nil)
      fun hlocking => by
        rw [hq] at hlocking
        cases hlocking
    rw [List.append_nil] at hopen'
    exact h.served_inTx hi hsess hsame rfl hopen'
  | stale hq hr ho =>
    have hmeets := hcalm.meets i sent own q k n view hP hi hsess hopen hq
    rw [hr, hmeets] at ho
    have hends := hcalm.stale i sent own q k n view hP hi hsess hopen hq ho
    have hserved : Serves R s₀ (env i (w.sess i).count) w i (w.sess i).tx (.stmt q) (R.stale q)
        (some ⟨view, own⟩) w := by
      rw [hsess]
      exact hsame
    have hnext := h.command hserved (fun _ => rfl) (fun _ _ => .lost (by rw [hsess]; exact hends))
      fun l r' hturns => absurd (hturns ▸ List.mem_append_right _ List.mem_cons_self) hi
    rw [hsess] at hnext
    exact still_of ⟨hnext, moves_still rfl⟩
  | @lock _ s r keys _ hq hs hr hkeys hfree _ =>
    subst hs
    have hmeets := hcalm.meets i sent own q k n view hP hi hsess hopen hq
    have hgranted : ∀ k ∈ keys, (i, k) ∈ (w.grant i keys).held :=
      fun k hk => World.mem_grant.2 (.inr ⟨rfl, hk⟩)
    have hwrites : ∀ k ∈ r.2.flatMap R.writes, k ∈ keys := by
      rw [hkeys]
      exact fun k hk => List.mem_append_right _ hk
    have hlocks : ∀ k ∈ R.locks (env i n) q (R.patchAll own (w.committed R s₀)), k ∈ keys := by
      rw [hkeys]
      exact fun k hk => List.mem_append_left _ hk
    exact h.served_inTx hi hsess hsame rfl (hopen.stmt (hmeets.symm.trans hr.symm)
      (fun _ hk => World.mem_grant.2 (.inl hk)) (fun k hk => hgranted k (hwrites k hk))
      fun _ => ⟨_, fun k hk => hgranted k (hlocks k hk)⟩)

end

theorem served_live {c : Cmd Q} {k : Cmd.Reply ε A c → Prog (Cmd.Reply ε A) α}
    {r : Cmd.Reply ε A c} (h : Serializes R s₀ env p P D turns w)
    (hcalm : Calm R s₀ env p P D turns w)
    (honce : ∀ s, (p i).Always (R.serve (env i)) oneTx ⟨s, none, 0⟩)
    (hselect : ∀ t q s, R.nonlocking q = true → (R.exec t q s).2 = []) (hP : P i) (hi : i ∉ turns)
    (hrest : (w.sess i).rest = some (.ask c k))
    (hserves : Serves R s₀ (env i (w.sess i).count) w i (w.sess i).tx c r tx v) :
    ∃ late, Serializes R s₀ env p P D (turns ++ late)
        (v.put i ⟨some (k r), (w.sess i).count + 1, tx⟩) ∧
      Moves R s₀ env p P turns w (v.put i ⟨some (k r), (w.sess i).count + 1, tx⟩) late := by
  have hlive := h.live i hP hi
  generalize hx : w.sess i = x at hlive
  cases hlive with
  | cut =>
    rw [hx] at hrest
    cases hrest
  | idle hcomes =>
    rw [hx] at hrest
    cases hrest
    obtain ⟨hlog, hnext⟩ := h.served_idle honce hi hx hcomes hserves
    rw [hx] at hnext
    exact still_of ⟨hnext, moves_still hlog⟩
  | lost hends =>
    rw [hx] at hrest
    cases hrest
    obtain ⟨hlog, hnext⟩ := h.served_lost hi (by rw [hx]; exact hends) hserves
    rw [hx] at hnext
    exact still_of ⟨hnext, moves_still hlog⟩
  | inTx hopen =>
    rw [hx] at hrest hserves
    cases hrest
    cases c with
    | stmt q => exact h.served_stmt hcalm hselect hP hi hx hopen hserves
    | _ => exact h.served_control hcalm honce hP hi hx hopen (fun _ hc => by cases hc) hserves

/-- One step of the server: what ends in it takes the next turn. -/
theorem step (h : Serializes R s₀ env p P D turns w) (hcalm : Calm R s₀ env p P D turns w)
    (honce : ∀ i, P i → ∀ s, (p i).Always (R.serve (env i)) oneTx ⟨s, none, 0⟩)
    (hselect : ∀ t q s, R.nonlocking q = true → (R.exec t q s).2 = []) {a : Act ι}
    (hstep : w.step R s₀ env a = some v) :
    ∃ late, Serializes R s₀ env p P D (turns ++ late) v ∧ Moves R s₀ env p P turns w v late := by
  rcases World.step_cases hstep with ⟨i, c, k, r, tx, u, rfl, hrest, hserves, rfl⟩ | ⟨i, rfl, rfl⟩
  · by_cases hP : P i
    · by_cases hi : i ∈ turns
      · obtain ⟨hlog, hnext⟩ := h.served_ended honce hi hrest hserves
        exact still_of ⟨hnext, moves_still hlog⟩
      · exact h.served_live hcalm (honce i hP) hselect hP hi hrest hserves
    · have hnext := h.command (k := k) hserves (fun hP' => absurd hP' hP)
        (fun hP' => absurd hP' hP)
        fun l r' hturns => absurd (h.followed i (hturns ▸ List.mem_append_right _
          List.mem_cons_self)) hP
      rcases hserves.log_cases with hlog | ⟨ws, hlog⟩
      · exact still_of ⟨hnext, moves_still hlog⟩
      · exact still_of ⟨hnext, .apart hP hlog⟩
  · exact still_of ⟨h.cut i, moves_still rfl⟩

end Serializes

omit [DecidableEq ι] [DecidableEq κ] in
theorem Moves.ending {late : List ι} (h : Moves R s₀ env p P turns w v late) :
    ∀ i ∈ late, Ending R (env i) (p i) (R.after env p s₀ turns) w i := by
  cases h with
  | still _ _ hending => exact hending
  | apart => exact fun _ hi => absurd hi List.not_mem_nil
  | commit _ _ hsess hopen =>
    intro j hj
    rw [List.mem_singleton.1 hj]
    exact ⟨_, _, _, _, _, _, hsess, hopen, fun _ hc => by cases hc⟩

omit [DecidableEq ι] [DecidableEq κ] in
theorem Moves.waiting {late : List ι} (h : Moves R s₀ env p P turns w v late) :
    ∀ i ∈ late, w.Waiting i := by
  intro i hi
  obtain ⟨c, k, _, _, _, _, hsess, _⟩ := h.ending i hi
  exact ⟨c, k, congrArg Session.rest hsess⟩

theorem World.step_waiting {a : Act ι} (h : w.step R s₀ env a = some v) (hi : v.Waiting i) :
    w.Waiting i := by
  obtain ⟨c, k, hrest⟩ := hi
  rcases World.step_cases h with ⟨j, c', k', r, tx, u, rfl, hask, hserves, rfl⟩ | ⟨j, rfl, rfl⟩
  · by_cases hj : i = j
    · subst hj
      exact ⟨c', k', hask⟩
    · rw [World.put_sess_other _ _ hj, hserves.sess] at hrest
      exact ⟨c, k, hrest⟩
  · by_cases hj : i = j
    · subst hj
      rw [World.put_sess_self] at hrest
      cases hrest
    · rw [World.put_sess_other _ _ hj] at hrest
      exact ⟨c, k, hrest⟩

end Mvcc
