import ProjectDb.Queue

namespace ProjectDb
open Text ProjectDb.Path Mvcc Sync
set_option autoImplicit true

section
variable [ServerCollation] {env : Nat → Tick}

namespace Sync

/-- A sync that fails at its lock sends nothing after it. -/
theorem syncAs_unlocked (caller : Option Str) (req : SyncProjectsRequest)
    (hf : (env 2).fault = some f) (s : Store) :
    (syncAs caller req).Sends (fun _ q _ => q = .selectSyncLockForUpdate) env ⟨s, none, 0⟩ := by
  apply Rpc.sends_bind (Rpc.sends_ofExcept _ _)
  intro actor c hc
  cases (Prod.mk.inj hc).2
  apply Rpc.sends_bind (Rpc.sends_ofExcept _ _)
  intro declared c hc
  cases (Prod.mk.inj hc).2
  apply Rpc.sends_open
  apply Rpc.sends_closing
  apply Rpc.sends_bind
  · apply Rpc.sends_inTxn s
    apply Txn.sends_bind (Txn.sends_query rfl)
    intro _ w h
    simp only [Txn.eval_query, hf] at h
    cases h
  · intro r _ _
    cases r with
    | ok response =>
      apply Rpc.sends_bind (Rpc.sends_commit _)
      intro _ _ _
      exact Rpc.sends_pure _ _
    | error e =>
      apply Rpc.sends_bind (Rpc.sends_rollback _)
      intro _ _ _
      exact Rpc.sends_ofExcept _ _

/-- And so it answers the same on every store, and leaves it alone. -/
theorem serve_unlocked (caller : Option Str) (req : SyncProjectsRequest)
    (hf : (env 2).fault = some f) (s s' : Store) :
    ((syncAs caller req).serve env s).1 = ((syncAs caller req).serve env s').1 ∧
      ((syncAs caller req).serve env s).2 = s := by
  have hsends := syncAs_unlocked caller req hf s
  constructor
  · refine (Rpc.simulates (R := fun _ _ => True) (hsends.mono ?_) trivial).1
    rintro t _ s rfl s' _
    exact ⟨rfl, fun _ _ _ => trivial⟩
  · refine Rpc.keeps (I := fun s' => s' = s) (hsends.mono ?_) rfl
    rintro t _ s' rfl hs a ws hx
    cases hx
    exact hs

omit [ServerCollation] in
theorem verdict_ne_internal (s : Store) (caller : Option Str) (req : SyncProjectsRequest) :
    verdict s caller req ≠ some .internal := by
  have hrefusal : ∀ declared guards, refusal s declared guards ≠ some .internal := by
    intro declared guards
    unfold refusal
    split_ifs <;> decide
  unfold verdict
  split
  · decide
  · split
    · decide
    · split
      · decide
      · exact hrefusal _ _

omit [ServerCollation] in
theorem Decided.not_internal {x : Except Status α} (h : Decided v x) (hv : v ≠ some .internal) :
    ∀ e, x = .error e → e.code ≠ .internal := by
  rintro e rfl
  cases v with
  | none =>
    obtain ⟨_, h⟩ := h
    cases h
  | some code =>
    obtain ⟨_, h, hcode⟩ := h
    cases h
    exact fun he => hv (congrArg some (hcode.symm.trans he))

end Sync

variable [UuidCrate] [Idem.Sha256] [Message RegisterProjectRequest]
  [Message RegisterProjectResponse] {ι : Type} {own : Str → Prop} {calls : ι → Request}
  {env : ι → Nat → Tick} {s₀ : Store} {M : Server ι → Prop} {turns late : List ι}
  {w v : Server ι}

/-- What a sync reads and writes: the organisation's rows, the former paths and the grants. -/
structure SameOrganisation (s s' : Store) : Prop where
  rows : s.orgRows = s'.orgRows
  aliases : s.projectAlias = s'.projectAlias
  grants : s.projectGrant = s'.projectGrant

theorem alone_sync (hcall : calls i = .sync caller req) (env : ι → Nat → Tick) (s : Store) :
    (calls i).alone (env i) s =
      (.synced ((syncAs caller req).serve (env i) s).1,
        ((syncAs caller req).serve (env i) s).2) := by
  rw [hcall, Request.alone, Request.handler, handler_answer, handler_store]

/-- A sync that is not granted its lock answers the same on every store, and leaves it alone. -/
theorem alone_unlocked (hsync : (calls i).isSync = true) (hasks : asksLock calls env i = false)
    (s s' : Store) : ((calls i).alone (env i) s).1 = ((calls i).alone (env i) s').1 ∧
      ((calls i).alone (env i) s).2 = s := by
  rw [asksLock, hsync, Bool.true_and] at hasks
  obtain ⟨f, hf⟩ := Option.isSome_iff_exists.1 (Option.isNone_eq_false_iff.1 hasks)
  cases hcall : calls i with
  | sync caller req =>
    rw [← hcall, alone_sync hcall, alone_sync hcall]
    obtain ⟨hanswer, hstore⟩ := serve_unlocked caller req hf s s'
    exact ⟨congrArg Answer.synced hanswer, hstore⟩
  | _ =>
    rw [hcall] at hsync
    cases hsync

theorem inTurn_alone (turns : List ι) (i : ι) : inTurn calls env s₀ (turns ++ [i]) =
    ((calls i).alone (env i) (inTurn calls env s₀ turns)).2 := inTurn_snoc calls env s₀ turns i

theorem alone_confined (ha : Assigned own calls env s₀) (hsync : (calls i).isSync = true)
    {s s' : Store} (hs : ∀ r ∈ s.orgRows, own r.id) (h : OrgAlike own s s') :
    ((calls i).alone (env i) s).1 = ((calls i).alone (env i) s').1 ∧
      OrgAlike own ((calls i).alone (env i) s).2 ((calls i).alone (env i) s').2 := by
  have hmint := ha.syncs i hsync
  cases hcall : calls i with
  | sync caller req =>
    rw [← hcall, alone_sync hcall, alone_sync hcall]
    obtain ⟨hanswer, halike⟩ := syncAs_confined caller req hmint hs h
    exact ⟨congrArg Answer.synced hanswer, halike⟩
  | _ =>
    rw [hcall] at hsync
    cases hsync

/-- Of the turns, only those of the syncs that were granted their lock make the organisation's part
of the store. -/
theorem inTurn_syncs (ha : Assigned own calls env s₀)
    (hwrites : ∀ i ∈ turns, (calls i).writes = true) :
    OrgAlike own (inTurn calls env s₀ turns)
      (inTurn calls env s₀ (turns.filter (asksLock calls env))) := by
  induction turns using List.reverseRecOn with
  | nil => exact ⟨rfl, rfl, rfl, ha.parted, ha.parted⟩
  | append_singleton turns i ih =>
    have hbefore : ∀ j ∈ turns, (calls j).writes = true :=
      fun j hj => hwrites j (List.mem_append_left _ hj)
    have halike := ih hbefore
    obtain ⟨hparted, hrows⟩ := ha.turns hbefore
    rw [List.filter_append]
    rcases Request.writes_cases
      (hwrites i (List.mem_append_right _ (List.mem_singleton.2 rfl))) with hregister | hsync
    · have hskips : asksLock calls env i = false := by
        rw [asksLock, Request.sync_of_register hregister, Bool.false_and]
      rw [List.filter_singleton, hskips, Bool.cond_false, List.append_nil]
      exact (ha.unmoved hbefore hregister).symm.trans halike
    · cases hasks : asksLock calls env i with
      | false =>
        rw [List.filter_singleton, hasks, Bool.cond_false, List.append_nil, inTurn_alone,
          (alone_unlocked hsync hasks _ s₀).2]
        exact halike
      | true =>
        rw [List.filter_singleton, hasks, Bool.cond_true, inTurn_alone, inTurn_alone]
        exact (alone_confined ha hsync hrows halike).2

/-- Where no flush is in flight, the store is that of the turns, and not only but for what was last
seen. -/
theorem Orderly.step_exact (h' : Orderly own calls env s₀ M (turns ++ late) v)
    (hflush : ∀ j, (calls j).isTouch = false)
    (hmoves : Moves engine s₀ env (fun i => (calls i).handler) (fun i => (calls i).writes = true)
      turns w v late) (hexact : w.committed engine s₀ = inTurn calls env s₀ turns) :
    v.committed engine s₀ = inTurn calls env s₀ (turns ++ late) := by
  cases hmoves with
  | still hlog hafter _ =>
    rw [World.committed_congr hlog, hexact]
    exact hafter.symm
  | @apart i us hw hlog =>
    have hmem : (i, us) ∈ v.log := hlog ▸ List.mem_append_right _ (List.mem_singleton.2 rfl)
    have hnone : us = [] := by
      rw [List.eq_nil_iff_forall_not_mem]
      intro u hu
      have htouch := h'.touched hmem hu
        (Bool.eq_false_iff.2 fun hregister => hw (Request.writes_of_register hregister))
        (Bool.eq_false_iff.2 fun hsync => hw (Request.writes_of_sync hsync))
      rw [hflush i] at htouch
      cases htouch
    rw [World.committed_snoc hlog, hexact, hnone, List.append_nil]
    rfl
  | commit _ _ _ _ hlog hafter =>
    rw [World.committed_snoc hlog, hexact]
    exact hafter.symm

/-- What a sync that had its turn answered, it answers after only the syncs before it in the order
of their lock. -/
theorem Orderly.answer_in_order (h : Orderly own calls env s₀ M turns w)
    (ha : Assigned own calls env s₀) (hsync : (calls i).isSync = true)
    (hturns : turns = l ++ i :: r)
    (halone : ((calls i).alone (env i) (inTurn calls env s₀ l)).1 = a) :
    (∃ l' r', turns.filter (asksLock calls env) = l' ++ i :: r' ∧
      ((calls i).alone (env i) (inTurn calls env s₀ l')).1 = a) ∨
    i ∉ turns.filter (asksLock calls env) ∧ ∀ s, (calls i).alone (env i) s = (a, s) := by
  have hbefore : ∀ j ∈ l, (calls j).writes = true := fun j hj =>
    h.serializes.followed j (hturns ▸ List.mem_append_left _ hj)
  cases hasks : asksLock calls env i with
  | true =>
    refine .inl ⟨l.filter (asksLock calls env), r.filter (asksLock calls env), ?_, ?_⟩
    · rw [hturns, List.filter_append, List.filter_cons_of_pos hasks]
    · rw [← halone]
      have halike := inTurn_syncs ha hbefore
      exact (alone_confined ha hsync (ha.turns hbefore).2 halike).1.symm
  | false =>
    refine .inr ⟨fun hmem => ?_, fun s => ?_⟩
    · rw [(List.mem_filter.1 hmem).2] at hasks
      cases hasks
    · obtain ⟨hanswer, hstore⟩ := alone_unlocked hsync hasks s (inTurn calls env s₀ l)
      exact Prod.ext (hanswer.trans halone) hstore

variable [DecidableEq ι]

/-- However syncs, registrations and reads interleave, whatever fails and wherever calls are cut
off: the organisation's part of the store, and what each sync answers, are those of the syncs served
one after another in the order of their lock, and the whole store is that of the calls one after
another with the syncs in that order. No sync that meets no failure answers an internal error, and
what a sync has read no other sync has changed since. -/
theorem syncs_serialise (hfresh : FreshIds calls env s₀) (hmints : MintsApart calls env)
    (hflush : ∀ j, (calls j).isTouch = false) {acts : List (Act ι)}
    (h : (Server.start calls).run engine s₀ env acts = some w) :
    (∃ order turns : List ι, order.Nodup ∧ order.Sublist (w.grantsOf .syncLock) ∧
      (∀ i ∈ order, (calls i).isSync = true) ∧
      SameOrganisation (w.committed engine s₀) (inTurn calls env s₀ order) ∧
      (∀ i a, (calls i).isSync = true → w.answer i = some a →
        (∃ l r, order = l ++ i :: r ∧
          ((calls i).alone (env i) (inTurn calls env s₀ l)).1 = a) ∨
        i ∉ order ∧ ∀ s, (calls i).alone (env i) s = (a, s)) ∧
      order.Sublist turns ∧ turns.Nodup ∧ w.committed engine s₀ = inTurn calls env s₀ turns) ∧
    (∀ i caller req x, calls i = .sync caller req → Faultless (env i) →
      w.answer i = some (.synced x) → ∀ e, x = .error e → e.code ≠ .internal) ∧
    ∀ i, (calls i).isSync = true → ∀ view ws, (w.sess i).tx = some ⟨some view, ws⟩ →
      (w.grantsOf .syncLock).getLast? = some i ∧ (i, .syncLock) ∈ w.held ∧
        ∀ e ∈ w.log.drop view, (calls e.1).isSync = false := by
  have ha := hfresh.assigned
  obtain ⟨turns, hend, hqueued, hexact⟩ := Orderly.induct
    (P := fun turns w => Queued calls env turns w ∧
      w.committed engine s₀ = inTurn calls env s₀ turns) ha
    (fun _ ho' hmoves hstep hp => ⟨hp.1.step ho' hmoves hstep, ho'.step_exact hflush hmoves hp.2⟩)
    Orderly.start ⟨Queued.start, rfl⟩ (fun _ hu => hu) h
  rw [List.nil_append] at hend hqueued hexact
  have halike := inTurn_syncs ha hend.serializes.followed
  refine ⟨⟨turns.filter (asksLock calls env), turns, hend.serializes.nodup.filter _,
    hqueued.order, fun i hi => ?_, ?_, fun i a hsync hanswer => ?_, List.filter_sublist,
    hend.serializes.nodup, hexact⟩, fun i caller req x hcall hf hanswer => ?_,
    fun i hsync view ws hview => ?_⟩
  · exact (Bool.and_eq_true_iff.1 (List.mem_filter.1 hi).2).1
  · rw [hexact]
    exact ⟨halike.rows, halike.aliases, halike.grants⟩
  · rcases hend.answers (Request.writes_of_sync hsync) hanswer with
      ⟨l, r, hturns, halone⟩ | ⟨hi, hany | hlost⟩
    · exact hend.answer_in_order ha hsync hturns halone
    · exact .inr ⟨fun hmem => hi (List.mem_of_mem_filter hmem), hany⟩
    · exact absurd hlost (unlost hflush)
  · obtain ⟨_, _, _, _, hdecided⟩ := hend.decided hfresh hmints hflush hcall hf hanswer
    exact hdecided.not_internal (verdict_ne_internal _ caller req)
  · have hsince := hend.views i hsync view ws hview
    exact ⟨hqueued.latest i _ hsince.lock, hsince.lock, hsince.apart⟩

end

section
open scoped Reference

/-- Two syncs of one declaration, and a registration beside them. -/
def syncsAndRegister : Option Bool → Request
  | some b => sameSyncs b
  | none => .register (some Register.registerCaller) adaHome

def syncsAndRegisterEnv : Option Bool → Nat → Tick
  | some b => sameSyncsEnv b
  | none => fun _ => .quiet 1 100

/-- The registration runs whole while one sync has read, and the other one waits for its lock. -/
def registerBetween : List (Act (Option Bool)) :=
  List.replicate 5 (.run (some true)) ++ List.replicate 7 (.run none) ++
    List.replicate 2 (.run (some false)) ++ List.replicate 5 (.run (some true)) ++
    List.replicate 6 (.run (some false))

theorem sameSyncsEnv_apart (b : Bool) (n : Nat) : (sameSyncsEnv b n).uuid ≠ uuidOf 100 := by
  have hne : ∀ n < 8, uuidOf (2 * n) ≠ uuidOf 100 ∧ uuidOf (2 * n + 1) ≠ uuidOf 100 := by
    decide +kernel
  have hn := hne (n % 8) (Nat.mod_lt n (by decide))
  cases b with
  | false => exact hn.1
  | true => exact hn.2

theorem syncsAndRegister_fresh :
    FreshIds syncsAndRegister syncsAndRegisterEnv Read.renamed where
  schema := renamed_schema
  unused i _ := renamed_unminted (syncsAndRegisterEnv i)
  apart i j hi hj _ m := by
    cases i with
    | some => exact absurd hi Bool.false_ne_true
    | none =>
      cases j with
      | some b => exact (sameSyncsEnv_apart b m).symm
      | none => exact absurd hj Bool.false_ne_true

theorem syncsAndRegister_mintsApart : MintsApart syncsAndRegister syncsAndRegisterEnv where
  distinct i caller req hcall := by
    cases i with
    | some b => exact sameSyncs_mintsApart.distinct b caller req hcall
    | none => cases hcall
  others i j hi _ hne n m := by
    cases i with
    | none => exact absurd hi Bool.false_ne_true
    | some b =>
      cases j with
      | none => exact (sameSyncsEnv_apart b m).symm
      | some b' => exact sameSyncs_mintsApart.others b b' rfl rfl (fun he => hne (he ▸ rfl)) n m

theorem syncs_serialise_acme : ∃ w order, (Server.start syncsAndRegister).run engine Read.renamed
      syncsAndRegisterEnv registerBetween = some w ∧
    w.grantsOf .syncLock = [some true, some false] ∧ order.Sublist [some true, some false] ∧
    w.answer (some false) = some (.synced (.ok ⟨0, 0, 0, 0, 1, 1, 0, 0, 1⟩)) ∧
    SameOrganisation (w.committed engine Read.renamed)
      (inTurn syncsAndRegister syncsAndRegisterEnv Read.renamed order) := by
  have hrun : ((Server.start syncsAndRegister).run engine Read.renamed syncsAndRegisterEnv
      registerBetween).map (fun w => (w.grantsOf .syncLock, w.answer (some false))) =
        some ([some true, some false], some (.synced (.ok ⟨0, 0, 0, 0, 1, 1, 0, 0, 1⟩))) := by
    decide +kernel
  obtain ⟨w, hw, hfacts⟩ := Option.map_eq_some_iff.1 hrun
  obtain ⟨hgrants, ha⟩ := Prod.mk.inj hfacts
  obtain ⟨⟨order, _, _, horder, _, hsame, _⟩, _⟩ := syncs_serialise syncsAndRegister_fresh
    syncsAndRegister_mintsApart (fun i => by cases i <;> rfl) hw
  exact ⟨w, order, hw, hgrants, hgrants ▸ horder, ha, hsame⟩

end

end ProjectDb
