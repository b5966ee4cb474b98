import ProjectDb.Acceptance
import ProjectDb.History
import ProjectDb.Locks

namespace ProjectDb
open Text ProjectDb.Path Mvcc Sync
set_option autoImplicit true

section
variable [ServerCollation] [UuidCrate] [Idem.Sha256] [Message RegisterProjectRequest]
  [Message RegisterProjectResponse] {ι : Type} {own : Str → Prop} {calls : ι → Request}
  {env : ι → Nat → Tick} {s₀ : Store} {M : Server ι → Prop} {turns late : List ι} {w v : Server ι}

/-- A sync whose third command, the one for its lock, the engine does not fail. -/
def asksLock (calls : ι → Request) (env : ι → Nat → Tick) (i : ι) : Bool :=
  (calls i).isSync && (env i 2).fault.isNone

/-- The turns of the syncs are in the order of their lock. -/
structure Queued (calls : ι → Request) (env : ι → Nat → Tick) (turns : List ι) (w : Server ι) :
    Prop where
  latest : w.Latest
  order : (turns.filter (asksLock calls env)).Sublist (w.grantsOf .syncLock)

theorem Sync.ending_locked (hasks : asksLock calls env i = true)
    (h : Ending engine (env i) (calls i).handler s w i) : (i, .syncLock) ∈ w.held := by
  obtain ⟨hsync, hfault⟩ := Bool.and_eq_true_iff.1 hasks
  obtain ⟨c, k, n, view, ws, sent, _, hopen, hc⟩ := h
  obtain ⟨hfirst, _⟩ := hopen.next (Request.handler_lockFirst hsync s)
  rcases Nat.eq_or_lt_of_le hopen.tx.late with hn | hn
  · exact absurd (hfirst hn.symm) (hc _)
  · exact Sync.locked hsync hopen hn (Option.isNone_iff_eq_none.1 hfault)

namespace Queued

omit [ServerCollation] in
theorem start : Queued calls env [] (Server.start calls) :=
  ⟨.start rfl, List.nil_sublist _⟩

variable [DecidableEq ι]

/-- Whoever takes its turn in a step is the one whose step it is. -/
theorem late_cases (h : Orderly own calls env s₀ M (turns ++ late) v)
    (hmoves : Moves engine s₀ env (fun i => (calls i).handler) (fun i => (calls i).writes = true)
      turns w v late) (hother : ∀ j, j ≠ i → v.sess j = w.sess j) :
    late = [] ∨ late = [i] ∧ (v.sess i).tx = none := by
  have hacting : ∀ j ∈ late, j = i ∧ (v.sess j).tx = none := by
    intro j hj
    obtain ⟨l, r, hsplit⟩ := List.append_of_mem hj
    have hended : (v.sess j).tx = none := by
      refine (h.serializes.ended (turns ++ l) j r ?_).1
      rw [hsplit, List.append_assoc]
    refine ⟨?_, hended⟩
    by_contra hne
    obtain ⟨c, k, n, view, ws, sent, hsess, _⟩ := hmoves.ending j hj
    rw [hother j hne, hsess] at hended
    cases hended
  have hnodup : late.Nodup := (List.nodup_append.1 h.serializes.nodup).2.1
  cases late with
  | nil => exact .inl rfl
  | cons j rest =>
    obtain ⟨rfl, htx⟩ := hacting j List.mem_cons_self
    refine .inr ⟨?_, htx⟩
    cases rest with
    | nil => rfl
    | cons k rest =>
      have hk : k = j := (hacting k (List.mem_cons_of_mem _ List.mem_cons_self)).1
      exact absurd hk ((List.pairwise_cons.1 hnodup).1 k List.mem_cons_self).symm

/-- One step of the server keeps the order: who ends its transaction was granted the lock last. -/
theorem step (hq : Queued calls env turns w)
    (h' : Orderly own calls env s₀ M (turns ++ late) v)
    (hmoves : Moves engine s₀ env (fun i => (calls i).handler) (fun i => (calls i).writes = true)
      turns w v late) {a : Act ι} (hstep : w.step engine s₀ env a = some v) :
    Queued calls env (turns ++ late) v := by
  refine ⟨hq.latest.step hstep, ?_⟩
  obtain ⟨i, hother, hlocks⟩ := World.step_locks hstep
  have hgrows : (w.grantsOf .syncLock).Sublist (v.grantsOf .syncLock) := by
    rcases hlocks with ⟨hgranted, _⟩ | ⟨_, _, hgrows⟩
    · rw [World.grantsOf_congr hgranted]
    · exact (hgrows _).sublist
  rcases late_cases h' hmoves hother with rfl | ⟨rfl, htx⟩
  · rw [List.append_nil]
    exact hq.order.trans hgrows
  · rw [List.filter_append]
    cases hasks : asksLock calls env i with
    | false =>
      rw [List.filter_singleton, hasks, Bool.cond_false, List.append_nil]
      exact hq.order.trans hgrows
    | true =>
      rw [List.filter_singleton, hasks, Bool.cond_true]
      have hlock := Sync.ending_locked hasks (hmoves.ending i (List.mem_singleton.2 rfl))
      have hnew : i ∉ turns.filter (asksLock calls env) := by
        intro hi
        have hturn := List.mem_of_mem_filter hi
        exact (List.nodup_append.1 h'.serializes.nodup).2.2 i hturn i
          (List.mem_singleton.2 rfl) rfl
      exact (sublist_concat hq.order (hq.latest i _ hlock) hnew).trans hgrows

theorem run {acts : List (Act ι)} (hq : Queued calls env turns w)
    (h : Orderly own calls env s₀ M turns w) (ha : Assigned own calls env s₀)
    (hM : ∀ u, w.Moment engine s₀ env acts u → M u) (hrun : w.run engine s₀ env acts = some v) :
    ∃ late, Orderly own calls env s₀ M (turns ++ late) v ∧ Queued calls env (turns ++ late) v :=
  Orderly.induct ha (fun _ h' hmoves hstep hq => hq.step h' hmoves hstep) h hq hM hrun

end Queued

section
variable {r : ProjectRow}

omit [UuidCrate] [Idem.Sha256] [Message RegisterProjectRequest] [Message RegisterProjectResponse] in
theorem Sync.serve_ids (caller : Option Str) (req : SyncProjectsRequest) (env : Nat → Tick)
    (hs : s.Schema) (hr : r ∈ ((syncAs caller req).serve env s).2.project) :
    (∃ r₀ ∈ s.project, r₀.id = r.id) ∨ ∃ n, r.id = projectIdPrefix ++ (env n).uuid := by
  have hs' : ((syncAs caller req).serve env s).2.Schema := Rpc.serve_schema _ hs
  cases hprivate : isPrivateClass r.path with
  | true => exact .inl ⟨r, ((serve_personally caller req env hs).rows r hprivate).2 hr, rfl⟩
  | false =>
    have horg := Store.mem_orgRows.2 ⟨hr, (hs'.isOrg_iff hr).2 hprivate⟩
    let own : Str → Prop := fun id =>
      (∃ r₀ ∈ s.project, r₀.id = id) ∨ ∃ n, id = projectIdPrefix ++ (env n).uuid
    have hmint : ∀ n, own (projectIdPrefix ++ (env n).uuid) := fun n => .inr ⟨n, rfl⟩
    have hrows : ∀ r₀ ∈ s.orgRows, own r₀.id :=
      fun r₀ hr₀ => .inl ⟨r₀, (Store.mem_orgRows.1 hr₀).1, rfl⟩
    exact syncAs_own caller req hmint hrows r horg

theorem Register.serve_ids (caller : Option Str) (req : RegisterProjectRequest) (env : Nat → Tick)
    (hr : r ∈ ((registerAs caller req).serve env s).2.project) :
    (∃ r₀ ∈ s.project, r₀.id = r.id) ∨ ∃ n, r.id = projectIdPrefix ++ (env n).uuid := by
  have hconfines : Region.personal.Confines env s ((registerAs caller req).serve env s).2 :=
    Region.registerAs_confines caller (fun _ _ hc => ⟨(checked_ok hc).2.2.2.1, trivial⟩) env s
  rcases hconfines.rows.mem_right hr with ⟨r₀, hr₀, rfl⟩ | ⟨_, n, hid⟩
  · exact .inl ⟨r₀, hr₀, rfl⟩
  · exact .inr ⟨n, hid⟩

theorem inTurn_ids (hs : s₀.Schema) (hwrites : ∀ i ∈ turns, (calls i).writes = true)
    (hr : r ∈ (inTurn calls env s₀ turns).project) : (∃ r₀ ∈ s₀.project, r₀.id = r.id) ∨
      ∃ j ∈ turns, ∃ n, r.id = projectIdPrefix ++ (env j n).uuid := by
  induction turns using List.reverseRecOn generalizing r with
  | nil => exact .inl ⟨r, hr, rfl⟩
  | append_singleton turns i ih =>
    have hbefore : ∀ j ∈ turns, (calls j).writes = true :=
      fun j hj => hwrites j (List.mem_append_left _ hj)
    have hi := hwrites i (List.mem_append_right _ (List.mem_singleton.2 rfl))
    have hcases : (∃ r₀ ∈ (inTurn calls env s₀ turns).project, r₀.id = r.id) ∨
        ∃ n, r.id = projectIdPrefix ++ (env i n).uuid := by
      rw [inTurn_snoc] at hr
      cases hcall : calls i with
      | register caller req =>
        rw [hcall, Request.handler, handler_store] at hr
        exact Register.serve_ids caller req _ hr
      | sync caller req =>
        rw [hcall, Request.handler, handler_store] at hr
        exact Sync.serve_ids caller req _ (inTurn_carries hs hbefore).1 hr
      | _ =>
        rw [hcall] at hi
        cases hi
    rcases hcases with ⟨r₀, hr₀, hid⟩ | ⟨n, hid⟩
    · rcases ih hbefore hr₀ with ⟨r₁, hr₁, hid'⟩ | ⟨j, hj, n, hid'⟩
      · exact .inl ⟨r₁, hr₁, hid'.trans hid⟩
      · exact .inr ⟨j, List.mem_append_left _ hj, n, hid.symm.trans hid'⟩
    · exact .inr ⟨i, List.mem_append_right _ (List.mem_singleton.2 rfl), n, hid⟩

end

/-- An answer that a verdict lets be: a response, or an error with the code of the verdict. -/
def Sync.Decided : Option Code → Except Status α → Prop
  | none, x => ∃ response, x = .ok response
  | some code, x => ∃ e, x = .error e ∧ e.code = code

/-- What a sync mints is new at each of its statements, and no other call mints it. -/
structure MintsApart (calls : ι → Request) (env : ι → Nat → Tick) : Prop where
  distinct : ∀ i caller req, calls i = .sync caller req →
    Set.InjOn (fun n => (env i n).uuid) (Set.Ico 0 (6 + 2 * (rows req).length))
  others : ∀ i j, (calls i).isSync = true → (calls j).writes = true → j ≠ i →
    ∀ n m, (env j n).uuid ≠ (env i m).uuid

theorem MintsApart.fresh (h : MintsApart calls env) (hfresh : FreshIds calls env s₀)
    (hcall : calls i = .sync caller req) (hwrites : ∀ j ∈ turns, (calls j).writes = true)
    (hi : i ∉ turns) : Fresh (env i) projectIdPrefix 0 (6 + 2 * (rows req).length)
      (inTurn calls env s₀ turns) where
  distinct := h.distinct i caller req hcall
  unused := by
    have hsync : (calls i).isSync = true := by
      rw [hcall]
      rfl
    intro m _ r hr hid
    rcases inTurn_ids hfresh.schema hwrites hr with ⟨r₀, hr₀, hid₀⟩ | ⟨j, hj, n, hid'⟩
    · exact hfresh.unused i (Request.writes_of_sync hsync) r₀ hr₀ m (hid₀.trans hid)
    · have hne : j ≠ i := fun he => hi (he ▸ hj)
      exact h.others i j hsync (hwrites j hj) hne n m
        (List.append_cancel_left (hid'.symm.trans hid))

/-- A sync that meets no failure, served alone after other calls' turns, is decided. -/
theorem MintsApart.decided (h : MintsApart calls env) (hfresh : FreshIds calls env s₀)
    (hcall : calls i = .sync caller req) (hf : Faultless (env i))
    (hwrites : ∀ j ∈ turns, (calls j).writes = true) (hi : i ∉ turns)
    (ha : ((calls i).alone (env i) (inTurn calls env s₀ turns)).1 = .synced x) :
    Decided (verdict (inTurn calls env s₀ turns) caller req) x := by
  rw [hcall, Request.alone, Request.handler, handler_answer] at ha
  cases ha
  have hdecides := sync_decides (inTurn_carries hfresh.schema hwrites).1 hf
    (h.fresh hfresh hcall hwrites hi) caller
  cases hv : verdict (inTurn calls env s₀ turns) caller req with
  | none =>
    rw [hv] at hdecides
    obtain ⟨response, s', hserve⟩ := hdecides
    exact ⟨response, congrArg Prod.fst hserve⟩
  | some code =>
    rw [hv] at hdecides
    obtain ⟨e, hserve, hcode⟩ := hdecides
    exact ⟨e, congrArg Prod.fst hserve, hcode⟩

omit [UuidCrate] [Idem.Sha256] [Message RegisterProjectRequest] [Message RegisterProjectResponse] in
theorem unlost (hflush : ∀ j, (calls j).isTouch = false) : ¬ Lost calls env s₀ M i a := by
  rintro ⟨_, _, _, ⟨_, _, _, _, j, _, _, _, hj, _⟩, _⟩
  rw [hflush j] at hj
  cases hj

/-- Where no flush is in flight, a sync that meets no failure answers by its verdict on the store of
its turn. -/
theorem Orderly.decided (h : Orderly own calls env s₀ M turns w) (hfresh : FreshIds calls env s₀)
    (hmints : MintsApart calls env) (hflush : ∀ j, (calls j).isTouch = false)
    (hcall : calls i = .sync caller req) (hf : Faultless (env i))
    (ha : w.answer i = some (.synced x)) : ∃ l r, turns = l ++ r ∧ (i ∈ turns → r.head? = some i) ∧
      Decided (verdict (inTurn calls env s₀ l) caller req) x := by
  have hw : (calls i).writes = true := by
    rw [hcall]
    rfl
  have hwrites := h.serializes.followed
  rcases h.answers hw ha with ⟨l, r, hturns, halone⟩ | ⟨hi, hany | hlost⟩
  · rw [hturns] at hwrites
    have hnodup := h.serializes.nodup
    rw [hturns] at hnodup
    have hi : i ∉ l := fun hmem =>
      (List.nodup_append.1 hnodup).2.2 i hmem i List.mem_cons_self rfl
    exact ⟨l, i :: r, hturns, fun _ => rfl,
      hmints.decided hfresh hcall hf (fun j hj => hwrites j (List.mem_append_left _ hj)) hi halone⟩
  · have halone := congrArg Prod.fst (hany (inTurn calls env s₀ []))
    exact ⟨[], turns, rfl, fun hmem => absurd hmem hi,
      hmints.decided hfresh hcall hf (fun _ hj => absurd hj List.not_mem_nil) List.not_mem_nil
        halone⟩
  · exact absurd hlost (unlost hflush)

variable [DecidableEq ι]

/-- However calls in flight interleave, whatever fails and wherever calls are cut off: the syncs
take their turns in the order they were granted their lock. Each call that writes answers what it
answers alone in its turn, or what it answers on any store, or is a sync that a flush overtook. A
sync that has its read view was granted the lock last and holds it, and no other sync has
committed since. -/
theorem syncs_in_lock_order (hfresh : FreshIds calls env s₀) {acts : List (Act ι)}
    (h : (Server.start calls).run engine s₀ env acts = some w) :
    (∃ turns : List ι, turns.Nodup ∧
      (w.committed engine s₀).unseen = (inTurn calls env s₀ turns).unseen ∧
      (∀ i a, (calls i).writes = true → w.answer i = some a →
        (∃ l r, turns = l ++ i :: r ∧
          ((calls i).alone (env i) (inTurn calls env s₀ l)).1 = a) ∨
        i ∉ turns ∧ ((∀ s, (calls i).alone (env i) s = (a, s)) ∨
          Lost calls env s₀ ((Server.start calls).Moment engine s₀ env acts) i a)) ∧
      (turns.filter (asksLock calls env)).Sublist (w.grantsOf .syncLock)) ∧
    ∀ i, (calls i).isSync = true → ∀ view ws, (w.sess i).tx = some ⟨some view, ws⟩ →
      (w.grantsOf .syncLock).getLast? = some i ∧ (i, .syncLock) ∈ w.held ∧
        ∀ e ∈ w.log.drop view, (calls e.1).isSync = false := by
  obtain ⟨turns, hend, hqueued⟩ := Queued.start.run Orderly.start hfresh.assigned (fun _ hu => hu) h
  rw [List.nil_append] at hend hqueued
  refine ⟨⟨turns, hend.serializes.nodup, hend.committed, fun i a hw ha => hend.answers hw ha,
    hqueued.order⟩, fun i hsync view ws hview => ?_⟩
  have hsince := hend.views i hsync view ws hview
  exact ⟨hqueued.latest i _ hsince.lock, hsince.lock, hsince.apart⟩

/-- Where no flush is in flight, each sync that meets no failure answers by its verdict on the store
of its turn, and so never an internal error: the syncs before it in the order of the lock are in
that store, and those after it are not. -/
theorem syncs_decide (hfresh : FreshIds calls env s₀) (hmints : MintsApart calls env)
    (hflush : ∀ j, (calls j).isTouch = false) {acts : List (Act ι)}
    (h : (Server.start calls).run engine s₀ env acts = some w) :
    ∃ turns : List ι, turns.Nodup ∧
      (w.committed engine s₀).unseen = (inTurn calls env s₀ turns).unseen ∧
      (turns.filter (asksLock calls env)).Sublist (w.grantsOf .syncLock) ∧
      ∀ i caller req x, calls i = .sync caller req → Faultless (env i) →
        w.answer i = some (.synced x) → ∃ l r, turns = l ++ r ∧ (i ∈ turns → r.head? = some i) ∧
          Decided (verdict (inTurn calls env s₀ l) caller req) x := by
  obtain ⟨turns, hend, hqueued⟩ := Queued.start.run Orderly.start hfresh.assigned (fun _ hu => hu) h
  rw [List.nil_append] at hend hqueued
  exact ⟨turns, hend.serializes.nodup, hend.committed, hqueued.order,
    fun i caller req x hcall hf ha => hend.decided hfresh hmints hflush hcall hf ha⟩

end

section
open scoped Reference

/-- Two syncs of one declaration. -/
def sameSyncs : Bool → Request := fun _ => .sync (some syncCaller) acmeOnly

def sameSyncsEnv : Bool → Nat → Tick
  | false => fun n => .quiet 2 (2 * (n % 8))
  | true => fun n => .quiet 3 (2 * (n % 8) + 1)

/-- One has its lock when the other one begins, and so it runs whole before it. -/
def lockedFirst : List (Act Bool) :=
  List.replicate 3 (.run true) ++ List.replicate 2 (.run false) ++ List.replicate 7 (.run true) ++
    List.replicate 6 (.run false)

theorem sameSyncs_fresh : FreshIds sameSyncs sameSyncsEnv Read.renamed where
  schema := renamed_schema
  unused i _ := renamed_unminted (sameSyncsEnv i)
  apart _ _ hi := absurd hi Bool.false_ne_true

theorem sameSyncs_mintsApart : MintsApart sameSyncs sameSyncsEnv where
  distinct := by
    have heven : ∀ n < 8, ∀ m < 8, uuidOf (2 * (n % 8)) = uuidOf (2 * (m % 8)) → n = m := by
      decide +kernel
    have hodd : ∀ n < 8, ∀ m < 8, uuidOf (2 * (n % 8) + 1) = uuidOf (2 * (m % 8) + 1) → n = m := by
      decide +kernel
    rintro i _ _ ⟨⟩ n ⟨_, hn⟩ m ⟨_, hm⟩ he
    cases i with
    | false => exact heven n hn m hm he
    | true => exact hodd n hn m hm he
  others := by
    have hne : ∀ n < 8, ∀ m < 8, uuidOf (2 * n) ≠ uuidOf (2 * m + 1) := by decide +kernel
    have hmod : ∀ n, n % 8 < 8 := fun n => Nat.mod_lt n (by decide)
    intro i j _ _ hji n m
    cases i with
    | false =>
      cases j with
      | false => exact absurd rfl hji
      | true => exact (hne _ (hmod m) _ (hmod n)).symm
    | true =>
      cases j with
      | false => exact hne _ (hmod n) _ (hmod m)
      | true => exact absurd rfl hji

theorem syncs_in_lock_order_acme : ∃ w, (Server.start sameSyncs).run engine Read.renamed
      sameSyncsEnv lockedFirst = some w ∧ w.grantsOf .syncLock = [true, false] ∧
    ∃ turns : List Bool, turns.Nodup ∧ (w.committed engine Read.renamed).unseen =
        (inTurn sameSyncs sameSyncsEnv Read.renamed turns).unseen ∧
      (turns.filter (asksLock sameSyncs sameSyncsEnv)).Sublist [true, false] := by
  have hrun : ((Server.start sameSyncs).run engine Read.renamed sameSyncsEnv lockedFirst).map
      (fun w => w.grantsOf .syncLock) = some [true, false] := by decide +kernel
  obtain ⟨w, hw, hgrants⟩ := Option.map_eq_some_iff.1 hrun
  obtain ⟨⟨turns, hnodup, hcommitted, _, horder⟩, _⟩ := syncs_in_lock_order sameSyncs_fresh hw
  exact ⟨w, hw, hgrants, turns, hnodup, hcommitted, hgrants ▸ horder⟩

theorem syncs_decide_acme : ∃ w x, (Server.start sameSyncs).run engine Read.renamed
      sameSyncsEnv lockedFirst = some w ∧ w.answer false = some (.synced x) ∧
    ∃ turns : List Bool, ∃ l r, turns = l ++ r ∧
      Decided (verdict (inTurn sameSyncs sameSyncsEnv Read.renamed l) (some syncCaller)
        acmeOnly) x := by
  have hrun : ((Server.start sameSyncs).run engine Read.renamed sameSyncsEnv lockedFirst).map
      (fun w => w.answer false) = some (some (.synced (.ok ⟨0, 0, 0, 0, 1, 1, 0, 0, 1⟩))) := by
    decide +kernel
  obtain ⟨w, hw, ha⟩ := Option.map_eq_some_iff.1 hrun
  obtain ⟨turns, _, _, _, hdecided⟩ :=
    syncs_decide sameSyncs_fresh sameSyncs_mintsApart (fun _ => rfl) hw
  obtain ⟨l, r, hturns, _, hx⟩ := hdecided false _ _ _ rfl (fun _ => rfl) ha
  exact ⟨w, _, hw, ha, turns, l, r, hturns, hx⟩

end

end ProjectDb
