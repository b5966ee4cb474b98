import ProjectDb.Flushing
import ProjectDb.History

namespace ProjectDb
open Text ProjectDb.Path Mvcc
set_option autoImplicit true

section
variable [ServerCollation] [UuidCrate] [Idem.Sha256] [Message RegisterProjectRequest]
  [Message RegisterProjectResponse] {ι : Type} {own : Str → Prop} {calls : ι → Request}
  {env : ι → Nat → Tick} {s₀ base ref : Store} {M : Server ι → Prop} {refs : ι → Store}
  {turns late : List ι}
  {w v : Server ι} {k : Nat}

/-- A moment of a row that it had before, or that a flush of the row has committed since. -/
def Brought (calls : ι → Request) (base s : Store) (since : List (ι × List Write)) (r : ProjectRow)
    (t : Time) : Prop :=
  (∃ r₀ ∈ base.project, r₀.id = r.id ∧ r₀.lastSeenAt = some t) ∨
    ∃ i req us paths, (i, us) ∈ since ∧ calls i = .touch req ∧
      Touch.checked req = .ok (t, paths) ∧ matchesPaths s paths r = true

/-- What a step commits: the moment of some rows, and nothing to a record that another holds. -/
inductive Commits (calls : ι → Request) (s₀ : Store) (w v : Server ι) (i : ι) : Prop
  | nothing : v.log = w.log → Commits calls s₀ w v i
  | commit (us : List Write) (ids : List Str) (t : Time) : v.log = w.log ++ [(i, us)] →
      (∀ j k, j ≠ i → (j, k) ∈ w.held → k ∉ us.flatMap Write.records) →
      Advances ids t (· ∈ us.flatMap Write.records) (w.committed engine s₀)
        (v.committed engine s₀) →
      (∀ id ∈ ids, .project id ∈ us.flatMap Write.records) →
      (∀ r ∈ (w.committed engine s₀).project, r.id ∈ ids → r.lastSeenAt.all (· < t) = true ∧
        ∃ req paths, calls i = .touch req ∧ Touch.checked req = .ok (t, paths) ∧
          matchesPaths (w.committed engine s₀) paths r = true) → Commits calls s₀ w v i

/-- What holds of the flushes at every moment since one when a store was the committed one. Each
flush has a store that was committed before its write. -/
structure Flushed (calls : ι → Request) (env : ι → Nat → Tick) (s₀ base : Store) (k : Nat)
    (refs : ι → Store) (w : Server ι) : Prop where
  owned : w.Owned engine
  le : k ≤ w.log.length
  refused : ∀ i req e, calls i = .touch req → Touch.checked req = .error e →
    ∀ p, (w.sess i).rest = some p → p = .done (.touched (.error e))
  stands : ∀ i req seconds paths, calls i = .touch req → Touch.checked req = .ok (seconds, paths) →
    ∀ p, (w.sess i).rest = some p → ∃ ph, p.Obeys (Touch.sends seconds paths) Touch.Ends ph ∧
      Touch.Stands seconds paths (refs i) (w.committed engine s₀) (w.sess i) ph ∧
      (Faultless (env i) → ph ≠ .failed)
  before : ∀ i, Forward (refs i) (w.committed engine s₀)
  forward : Forward base (w.committed engine s₀)
  brought : ∀ r ∈ (w.committed engine s₀).project, ∀ t, r.lastSeenAt = some t →
    Brought calls base (w.committed engine s₀) (w.log.drop k) r t

namespace Commits

omit [UuidCrate] [Idem.Sha256] [Message RegisterProjectRequest] [Message RegisterProjectResponse] in
theorem forward (h : Commits calls s₀ w v i) :
    Forward (w.committed engine s₀) (v.committed engine s₀) := by
  cases h with
  | nothing hlog =>
    rw [World.committed_congr hlog]
    exact .refl _
  | commit us ids t _ _ hadvances _ hpending =>
    exact hadvances.forward fun r hr hid => (hpending r hr hid).1

omit [UuidCrate] [Idem.Sha256] [Message RegisterProjectRequest] [Message RegisterProjectResponse] in
theorem stands (h : Commits calls s₀ w v i) (howned : w.Owned engine) (hj : j ≠ i)
    (hsess : v.sess j = w.sess j)
    (hstands : Touch.Stands seconds paths ref (w.committed engine s₀) (w.sess j) ph) :
    Touch.Stands seconds paths ref (v.committed engine s₀) (v.sess j) ph := by
  rw [hsess]
  cases ph with
  | wrote =>
    obtain ⟨hn, view, ids, htx, hpending⟩ := hstands
    refine ⟨hn, view, ids, htx, ?_⟩
    have hforward := h.forward
    cases h with
    | nothing hlog =>
      rw [World.committed_congr hlog]
      exact hpending
    | commit us ids' t _ hapart hadvances hids' _ =>
      refine hpending.beside hadvances hids' (fun id hid => ?_) hforward
      apply hapart j _ hj
      apply howned j _ htx
      rw [List.flatMap_singleton]
      exact List.mem_map_of_mem hid
  | done => exact ⟨hstands.1, hstands.2.forward h.forward⟩
  | _ => exact hstands

omit [UuidCrate] [Idem.Sha256] [Message RegisterProjectRequest] [Message RegisterProjectResponse] in
theorem brought (h : Commits calls s₀ w v i) (hle : k ≤ w.log.length)
    (hbrought : ∀ r ∈ (w.committed engine s₀).project, ∀ t, r.lastSeenAt = some t →
      Brought calls base (w.committed engine s₀) (w.log.drop k) r t)
    (hr : r ∈ (v.committed engine s₀).project) (ht : r.lastSeenAt = some t) :
    Brought calls base (v.committed engine s₀) (v.log.drop k) r t := by
  cases h with
  | nothing hlog =>
    rw [World.committed_congr hlog] at hr ⊢
    rw [hlog]
    exact hbrought r hr t ht
  | commit us ids m hlog _ hadvances _ hpending =>
    rw [hlog, List.drop_append_of_le_length hle]
    obtain ⟨r', hr', hid, hpath, hseen | ⟨hmem, rfl⟩⟩ := hadvances.back hr ht
    · rcases hbrought r' hr' t hseen with ⟨r₀, hr₀, hid₀, hseen₀⟩ |
        ⟨j, req, us', paths, hlogged, hcall, hc, hm⟩
      · exact .inl ⟨r₀, hr₀, hid₀.trans hid.symm, hseen₀⟩
      · refine .inr ⟨j, req, us', paths, List.mem_append_left _ hlogged, hcall, hc, ?_⟩
        rw [matchesPaths_congr hadvances.aliases hid hpath]
        exact hm
    · obtain ⟨_, req, paths, hcall, hc, hm⟩ := hpending r' hr' hmem
      refine .inr ⟨i, req, us, paths, ?_, hcall, hc, ?_⟩
      · exact List.mem_append_right _ (List.mem_singleton.2 rfl)
      · rw [matchesPaths_congr hadvances.aliases hid hpath]
        exact hm

end Commits

theorem Request.unseeing (h : Orderly own calls env s₀ M turns w) (ha : Assigned own calls env s₀)
    (hw : (calls i).writes = true)
    (hopen : Open engine (env i) (calls i).handler (inTurn calls env s₀ turns) w.held i sent us
      rest n) : ∀ u ∈ us, u.Unseeing := by
  intro u hu
  rcases hopen.tx.chained.mem_writes hu with hu' | ⟨e, he, hu'⟩
  · exact absurd hu' List.not_mem_nil
  obtain ⟨q, x, hstmt, hq⟩ := Op.exec_ok (hopen.fits e he) hu'
  refine exec_unseeing (fun seconds paths hflush => ?_) hq hu'
  subst hflush
  rcases Request.writes_cases hw with hregister | hsync
  · have hpersonal := hopen.asked (Request.handler_personal hregister _) he
    rw [hstmt] at hpersonal
    exact hpersonal
  · have honorg := hopen.asked
      (Request.handler_onOrg hsync (ha.syncs i hsync) (h.parted ha).2) he
    rw [hstmt] at honorg
    exact honorg

theorem Orderly.schema (h : Orderly own calls env s₀ M turns w) (hs : s₀.Schema) :
    (w.committed engine s₀).Schema := by
  apply Store.Schema.of_unseen
  rw [h.committed]
  exact (inTurn_carries hs h.serializes.followed).1.unseen

theorem Orderly.unseeing (h : Orderly own calls env s₀ M turns w) (ha : Assigned own calls env s₀)
    (hwithin : v.Within (fun i => (calls i).Asks) fun i => (calls i).Writes)
    (hmoves : Moves engine s₀ env (fun i => (calls i).handler) (fun i => (calls i).writes = true)
      turns w v late) (hlog : v.log = w.log ++ [(i, us)]) (htouch : (calls i).isTouch = false) :
    ∀ u ∈ us, u.Unseeing := by
  cases hmoves with
  | still hsame _ _ =>
    cases List.self_eq_append_right.1 (hsame.symm.trans hlog)
  | apart hw hlog' =>
    have hentry := List.append_cancel_left (hlog.symm.trans hlog')
    cases hentry
    intro u hu
    have hmem : (i, us) ∈ v.log := hlog ▸ List.mem_append_right _ (List.mem_singleton.2 rfl)
    have hwrites := hwithin.log i us hmem u hu
    cases hcall : calls i with
    | touch =>
      rw [hcall] at htouch
      cases htouch
    | register => exact absurd (by rw [hcall]; rfl) hw
    | sync => exact absurd (by rw [hcall]; rfl) hw
    | _ =>
      rw [hcall] at hwrites
      exact hwrites.elim
  | commit hw _ _ hopen hlog' _ =>
    have hentry := List.append_cancel_left (hlog.symm.trans hlog')
    cases hentry
    exact Request.unseeing h ha hw hopen

namespace Flushed

theorem start : Flushed calls env s₀ s₀ 0 (fun _ => s₀) (Server.start calls) where
  owned := .start fun _ => rfl
  le := Nat.le_refl 0
  refused i req e hcall hc p hp := by
    cases hp
    rw [hcall, Request.handler]
    exact Touch.touch_refused hc
  stands i req seconds paths hcall hc p hp := by
    cases hp
    refine ⟨.idle, ?_, rfl, fun _ => Touch.Phase.noConfusion⟩
    rw [hcall, Request.handler]
    exact Touch.touch_sends hc
  before _ := .refl s₀
  forward := .refl s₀
  brought r hr _ ht := .inl ⟨r, hr, rfl, ht⟩

omit [UuidCrate] [Idem.Sha256] [Message RegisterProjectRequest] [Message RegisterProjectResponse] in
/-- The moment may be taken to be the present one, for the flushes that have not written yet. -/
theorem rebase (h : Flushed calls env s₀ base k refs w) :
    Flushed calls env s₀ (w.committed engine s₀) w.log.length
      (fun i => if (w.sess i).count < 3 then w.committed engine s₀ else refs i) w where
  owned := h.owned
  le := Nat.le_refl _
  refused := h.refused
  stands i req seconds paths hcall hc p hp := by
    obtain ⟨ph, hobeys, hstands, hcalm⟩ := h.stands i req seconds paths hcall hc p hp
    refine ⟨ph, hobeys, ?_, hcalm⟩
    cases ph with
    | wrote =>
      rw [if_neg (Nat.not_lt.2 hstands.1)]
      exact hstands
    | done =>
      rw [if_neg (Nat.not_lt.2 hstands.1)]
      exact hstands
    | _ => exact hstands
  before i := by
    split
    · exact .refl _
    · exact h.before i
  forward := .refl _
  brought r hr _ ht := .inl ⟨r, hr, rfl, ht⟩

variable [DecidableEq ι] {u : Server ι} {c : Cmd Op} {r : Cmd.Reply SqlError Op.Reply c}
  {f : Cmd.Reply SqlError Op.Reply c → Handler}

theorem commits (h : Flushed calls env s₀ base k refs w) (ho : Orderly own calls env s₀ M turns w)
    (hs : s₀.Schema) (hrest : (w.sess i).rest = some (.ask c f))
    (hserves : Serves engine s₀ (env i (w.sess i).count) w i (w.sess i).tx c r tx u)
    (hunseeing : ∀ us, u.log = w.log ++ [(i, us)] → (calls i).isTouch = false →
      ∀ x ∈ us, x.Unseeing) : Commits calls s₀ w u i := by
  rcases hserves.apart ho.serializes.exclusive (h.owned i) with hlog | ⟨us, hlog, hapart⟩
  · exact .nothing hlog
  cases htouch : (calls i).isTouch with
  | false =>
    refine .commit us [] 0 hlog hapart ?_ (fun _ hid => absurd hid List.not_mem_nil)
      fun _ _ hid => absurd hid List.not_mem_nil
    rw [World.committed_snoc hlog]
    exact (Advances.refl _).patchAll (hunseeing us hlog htouch) fun _ hk => hk
  | true =>
    cases hcall : calls i with
    | touch req =>
      cases hc : Touch.checked req with
      | error e => cases h.refused i req e hcall hc _ hrest
      | ok x =>
        obtain ⟨seconds, paths⟩ := x
        obtain ⟨ph, hobeys, hstands, _⟩ := h.stands i req seconds paths hcall hc _ hrest
        obtain ⟨next, hsends, _⟩ := hobeys r
        rcases (hstands.serves hsends hserves (ho.schema hs) (h.before i)).commits with
          hsame | ⟨ids, hlog', hpending⟩
        · cases List.self_eq_append_right.1 (hsame.symm.trans hlog)
        · cases List.append_cancel_left (hlog.symm.trans hlog')
          refine .commit _ ids seconds hlog hapart ?_ (fun id hid => ?_) fun r hr hid => ?_
          · rw [World.committed_snoc hlog]
            exact Advances.lastSeen ids seconds _ _
          · rw [List.flatMap_singleton]
            exact List.mem_map_of_mem hid
          · exact ⟨hpending.older r hr hid, req, paths, hcall, hc, hpending.named r hr hid⟩
    | _ =>
      rw [hcall] at htouch
      cases htouch

theorem step (h : Flushed calls env s₀ base k refs w) (ho : Orderly own calls env s₀ M turns w)
    (ha : Assigned own calls env s₀) (hs : s₀.Schema)
    (hwithin : v.Within (fun i => (calls i).Asks) fun i => (calls i).Writes)
    (hmoves : Moves engine s₀ env (fun i => (calls i).handler) (fun i => (calls i).writes = true)
      turns w v late) {a : Act ι} (hstep : w.step engine s₀ env a = some v) :
    Flushed calls env s₀ base k refs v := by
  have howned : v.Owned engine := h.owned.step hstep
  have hle : k ≤ v.log.length := Nat.le_trans h.le (World.step_log hstep).length_le
  rcases World.step_cases hstep with ⟨i, c, f, r, tx, u, _, hrest, hserves, rfl⟩ | ⟨i, _, rfl⟩
  · have hcommits : Commits calls s₀ w u i :=
      h.commits ho hs hrest hserves fun us hlog => ho.unseeing ha hwithin hmoves hlog
    refine ⟨howned, hle, fun j req e hcall hc p hp => ?_,
      fun j req seconds paths hcall hc p hp => ?_,
      fun j => (h.before j).trans hcommits.forward, h.forward.trans hcommits.forward,
      fun r hr t ht => hcommits.brought h.le h.brought hr ht⟩
    · by_cases hj : j = i
      · subst hj
        cases h.refused j req e hcall hc _ hrest
      · rw [World.put_sess_other _ _ hj, hserves.sess] at hp
        exact h.refused j req e hcall hc p hp
    · by_cases hj : j = i
      · subst hj
        rw [World.put_sess_self] at hp ⊢
        cases hp
        obtain ⟨ph, hobeys, hstands, hcalm⟩ := h.stands j req seconds paths hcall hc _ hrest
        obtain ⟨next, hsends, hnext⟩ := hobeys r
        have hleads := hstands.serves hsends hserves (ho.schema hs) (h.before j)
        exact ⟨next, hnext, hleads.stands _, fun hf => hleads.calm (hf _) (hcalm hf)⟩
      · have hsess : (u.put i ⟨some (f r), (w.sess i).count + 1, tx⟩).sess j = w.sess j := by
          rw [World.put_sess_other _ _ hj, hserves.sess]
        rw [hsess] at hp
        obtain ⟨ph, hobeys, hstands, hcalm⟩ := h.stands j req seconds paths hcall hc p hp
        rw [hsess]
        have hsess' : u.sess j = w.sess j := congrFun hserves.sess j
        exact ⟨ph, hobeys, hsess' ▸ hcommits.stands h.owned hj hsess' hstands, hcalm⟩
  · refine ⟨howned, hle, fun j req e hcall hc p hp => ?_,
      fun j req seconds paths hcall hc p hp => ?_,
      h.before, h.forward, h.brought⟩
    · by_cases hj : j = i
      · subst hj
        rw [World.put_sess_self] at hp
        cases hp
      · rw [World.put_sess_other _ _ hj] at hp
        exact h.refused j req e hcall hc p hp
    · by_cases hj : j = i
      · subst hj
        rw [World.put_sess_self] at hp
        cases hp
      · rw [World.put_sess_other _ _ hj] at hp ⊢
        exact h.stands j req seconds paths hcall hc p hp

theorem run {acts : List (Act ι)} (h : Flushed calls env s₀ base k refs w)
    (ho : Orderly own calls env s₀ M turns w) (ha : Assigned own calls env s₀) (hs : s₀.Schema)
    (hM : ∀ u, w.Moment engine s₀ env acts u → M u) (hrun : w.run engine s₀ env acts = some v) :
    Flushed calls env s₀ base k refs v := by
  obtain ⟨_, _, hv⟩ := Orderly.induct (P := fun _ w => Flushed calls env s₀ base k refs w) ha
    (fun ho ho' hmoves hstep hw => hw.step ho ha hs ho'.within hmoves hstep) ho h hM hrun
  exact hv

omit [UuidCrate] [Idem.Sha256] [Message RegisterProjectRequest] [Message RegisterProjectResponse]
  [DecidableEq ι] in
/-- A flush that answers a response has reached the rows that its paths named before its write. -/
theorem answered (h : Flushed calls env s₀ base k refs w) (hcall : calls i = .touch req)
    (ha : w.answer i = some (.touched (.ok x))) : ∃ seconds paths,
      Touch.checked req = .ok (seconds, paths) ∧
      Touch.Reached seconds paths (refs i) (w.committed engine s₀) := by
  have hp := World.rest_of_answer ha
  cases hc : Touch.checked req with
  | error e => cases h.refused i req e hcall hc _ hp
  | ok y =>
    obtain ⟨seconds, paths⟩ := y
    obtain ⟨ph, hobeys, hstands, _⟩ := h.stands i req seconds paths hcall hc _ hp
    cases ph with
    | done => exact ⟨seconds, paths, rfl, hstands.2⟩
    | failed =>
      obtain ⟨e, he⟩ := hobeys
      cases he
    | _ => exact hobeys.elim

omit [UuidCrate] [Idem.Sha256] [Message RegisterProjectRequest] [Message RegisterProjectResponse]
  [DecidableEq ι] in
/-- The same in the words of its request. -/
theorem reached (h : Flushed calls env s₀ base k refs w) (hcall : calls i = .touch req)
    (ha : w.answer i = some (.touched (.ok x))) : ∃ t, req.seenAt = some ⟨t⟩ ∧
      ∀ r ∈ (refs i).project, Touch.Named (refs i) req.paths r →
        ∃ r' ∈ (w.committed engine s₀).project, r'.id = r.id ∧ r'.SeenSince t := by
  obtain ⟨t, paths, hc, hreached⟩ := h.answered hcall ha
  obtain ⟨_, hseen, rfl⟩ := Touch.checked_ok_iff.1 hc
  exact ⟨t, hseen, fun r hr hnamed => hreached r hr (Touch.matchesPaths_deduplicated.2 hnamed)⟩

omit [UuidCrate] [Idem.Sha256] [Message RegisterProjectRequest] [Message RegisterProjectResponse]
  [DecidableEq ι] in
/-- A moment that a row has is one that it had, or that of a committed flush which names it. -/
theorem comes {r' : ProjectRow} (h : Flushed calls env s₀ base k refs w)
    (hr' : r' ∈ (w.committed engine s₀).project) (ht : r'.lastSeenAt = some t) :
    (∃ r ∈ base.project, r.id = r'.id ∧ r.lastSeenAt = some t) ∨
    ∃ i req us, (i, us) ∈ w.log.drop k ∧ calls i = .touch req ∧ req.seenAt = some ⟨t⟩ ∧
      Touch.Named (w.committed engine s₀) req.paths r' := by
  apply (h.brought r' hr' t ht).imp_right
  rintro ⟨i, req, us, paths, hlogged, hcall, hc, hm⟩
  obtain ⟨_, hseen, rfl⟩ := Touch.checked_ok_iff.1 hc
  exact ⟨i, req, us, hlogged, hcall, hseen, Touch.matchesPaths_deduplicated.1 hm⟩

omit [UuidCrate] [Idem.Sha256] [Message RegisterProjectRequest] [Message RegisterProjectResponse]
  [DecidableEq ι] in
theorem succeeds (h : Flushed calls env s₀ base k refs w) (hcall : calls i = .touch req)
    (hreq : Touch.Flushable req) (hf : Faultless (env i)) (ha : w.answer i = some a) :
    ∃ x, a = .touched (.ok x) := by
  obtain ⟨t, hseen, _⟩ := hreq.seen
  have hc := Touch.checked_ok_iff.2 ⟨hreq, hseen, rfl⟩
  obtain ⟨ph, hobeys, _, hcalm⟩ := h.stands i req _ _ hcall hc _ (World.rest_of_answer ha)
  cases ph with
  | done => exact hobeys
  | failed => exact absurd rfl (hcalm hf)
  | _ => exact hobeys.elim

end Flushed

variable [DecidableEq ι] {u : Server ι}

/-- However calls in flight interleave, whatever fails and wherever calls are cut off: from a moment
on no row goes back to an earlier `last_seen_at`, a row was last seen when it had been at that
moment or when a flush that has committed since and names it says, and a flush that had not written
by then and answers a response has brought its moment to every row that it named. -/
theorem flushes_reach (hfresh : FreshIds calls env s₀) {before rest : List (Act ι)}
    (hbefore : (Server.start calls).run engine s₀ env before = some u)
    (hrest : u.run engine s₀ env rest = some w) :
    (∀ r ∈ (u.committed engine s₀).project, ∃ r' ∈ (w.committed engine s₀).project,
      r'.id = r.id ∧ r'.path = r.path ∧ ∀ t, r.SeenSince t → r'.SeenSince t) ∧
    (∀ r' ∈ (w.committed engine s₀).project, ∀ t, r'.lastSeenAt = some t →
      (∃ r ∈ (u.committed engine s₀).project, r.id = r'.id ∧ r.lastSeenAt = some t) ∨
      ∃ i req us, (i, us) ∈ w.log.drop u.log.length ∧ calls i = .touch req ∧
        req.seenAt = some ⟨t⟩ ∧ Touch.Named (w.committed engine s₀) req.paths r') ∧
    ∀ i req x, calls i = .touch req → (u.sess i).count < 3 →
      w.answer i = some (.touched (.ok x)) → ∃ t, req.seenAt = some ⟨t⟩ ∧
        ∀ r ∈ (u.committed engine s₀).project, Touch.Named (u.committed engine s₀) req.paths r →
          ∃ r' ∈ (w.committed engine s₀).project, r'.id = r.id ∧ r'.SeenSince t := by
  have hany : ∀ u : Server ι, True := fun _ => trivial
  obtain ⟨turns, horderly, _, _⟩ :=
    Orderly.start.run hfresh.assigned (fun u _ => hany u) hbefore
  have hearly := Flushed.start.run Orderly.start hfresh.assigned hfresh.schema
    (fun u _ => hany u) hbefore
  have hend := hearly.rebase.run horderly hfresh.assigned hfresh.schema (fun u _ => hany u) hrest
  refine ⟨hend.forward.rows, fun r' hr' t ht => hend.comes hr' ht,
    fun i req x hcall hcount ha => ?_⟩
  have hreached := hend.reached hcall ha
  rw [if_pos hcount] at hreached
  exact hreached

/-- A flush that carries what it must and meets no failure answers a response, however the others
interleave with it. -/
theorem flushes_succeed (hfresh : FreshIds calls env s₀) {acts : List (Act ι)}
    (h : (Server.start calls).run engine s₀ env acts = some w) (hcall : calls i = .touch req)
    (hreq : Touch.Flushable req) (hf : Faultless (env i)) (ha : w.answer i = some a) :
    ∃ x, a = .touched (.ok x) :=
  (Flushed.start.run Orderly.start hfresh.assigned hfresh.schema (fun _ hu => hu) h).succeeds
    hcall hreq hf ha

end

section
open scoped Reference

/-- A sync of a root, and a flush of it in another spelling. -/
def syncAndFlush : Bool → Request
  | false => .sync (some Sync.syncCaller) Sync.acmeOnly
  | true => .touch ⟨some ⟨ada, []⟩, ["ACME".toList], some ⟨7⟩⟩

def syncAndFlushEnv : Bool → Nat → Tick
  | false => fun _ => .quiet 2 4
  | true => fun _ => .quiet 1 3

/-- The flush has begun when the sync runs whole. -/
def syncAmid : List (Act Bool) := List.replicate 2 (.run true) ++ List.replicate 11 (.run false)

/-- And the flush goes on. -/
def flushAfter : List (Act Bool) := List.replicate 4 (.run true)

theorem syncAndFlush_fresh : FreshIds syncAndFlush syncAndFlushEnv Store.empty where
  schema := aliasOnly_schema List.nodup_nil
  unused _ _ _ hr := absurd hr List.not_mem_nil
  apart i _ hi := by
    cases i with
    | false => exact absurd hi Bool.false_ne_true
    | true => exact absurd hi Bool.false_ne_true

theorem flushes_reach_acme : ∃ u w x, (Server.start syncAndFlush).run engine Store.empty
      syncAndFlushEnv syncAmid = some u ∧
    u.run engine Store.empty syncAndFlushEnv flushAfter = some w ∧
    w.answer true = some (.touched (.ok x)) ∧
    ∃ r' ∈ (w.committed engine Store.empty).project, r'.SeenSince 7 := by
  have hrun : ((Server.start syncAndFlush).run engine Store.empty syncAndFlushEnv syncAmid).bind
      (fun u => (u.run engine Store.empty syncAndFlushEnv flushAfter).map fun w =>
        ((u.sess true).count, (u.committed engine Store.empty).project.any (fun r =>
          decide (Touch.Named (u.committed engine Store.empty) ["ACME".toList] r)),
          w.answer true)) = some (2, true, some (.touched (.ok (⟨⟩, false)))) := by
    decide +kernel
  obtain ⟨u, hu, hrest⟩ := Option.bind_eq_some_iff.1 hrun
  obtain ⟨w, hw, hfacts⟩ := Option.map_eq_some_iff.1 hrest
  obtain ⟨hcount, hfacts⟩ := Prod.mk.inj hfacts
  obtain ⟨hany, ha⟩ := Prod.mk.inj hfacts
  obtain ⟨r, hr, hnamed⟩ := List.any_eq_true.1 hany
  obtain ⟨_, _, hreach⟩ := flushes_reach syncAndFlush_fresh hu hw
  obtain ⟨t, hseen, hall⟩ := hreach true _ _ rfl (hcount ▸ by decide) ha
  cases hseen
  obtain ⟨r', hr', _, hsince⟩ := hall r hr (of_decide_eq_true hnamed)
  exact ⟨u, w, _, hu, hw, ha, r', hr', hsince⟩

theorem flushes_succeed_acme : ∃ w x, (Server.start syncAndFlush).run engine Store.empty
      syncAndFlushEnv (syncAmid ++ flushAfter) = some w ∧
    w.answer true = some (.touched (.ok x)) := by
  have hrun : ((Server.start syncAndFlush).run engine Store.empty syncAndFlushEnv
      (syncAmid ++ flushAfter)).map (fun w => (w.answer true).isSome) = some true := by
    decide +kernel
  obtain ⟨w, hw, hsome⟩ := Option.map_eq_some_iff.1 hrun
  obtain ⟨a, ha⟩ := Option.isSome_iff_exists.1 hsome
  have hreq : Touch.Flushable ⟨some ⟨ada, []⟩, ["ACME".toList], some ⟨7⟩⟩ :=
    ⟨rfl, ⟨⟨7⟩, rfl, by decide, by decide⟩, List.cons_ne_nil _ _, by decide,
      (Touch.forM_validate_ok_iff "paths" _).1 (by decide +kernel)⟩
  obtain ⟨x, rfl⟩ := flushes_succeed syncAndFlush_fresh hw rfl hreq (fun _ => rfl) ha
  exact ⟨w, x, hw, ha⟩

end

end ProjectDb
