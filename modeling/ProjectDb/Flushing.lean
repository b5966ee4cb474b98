import ProjectDb.Concurrent
import ProjectDb.Locks
import ProjectDb.Seen

namespace ProjectDb
open Text ProjectDb.Path Mvcc
set_option autoImplicit true

namespace Touch

/-- How far a flush has come. -/
inductive Phase
  | idle
  | acquired
  | begun
  | wrote
  | done
  | failed
  deriving DecidableEq

/-- The phase that a command leads to where it succeeds. -/
def Phase.after (ph : Phase) : Except SqlError α → Phase
  | .ok _ => ph
  | .error _ => .failed

/-- A flush sends its one write before anything else of its transaction, and commits after it. -/
def sends (seconds : Int) (paths : List Str) :
    Phase → (c : Cmd Op) → Cmd.Reply SqlError Op.Reply c → Option Phase
  | .idle, .acquire, r => some (Phase.after .acquired r)
  | .acquired, .begin, r => some (Phase.after .begun r)
  | .begun, .stmt (.sql (.updateLastSeen n ps)), r =>
    if n = seconds ∧ ps = paths then some (Phase.after .wrote r) else none
  | .wrote, .stmt (.sql (.countMatching _)), r => some (Phase.after .wrote r)
  | .wrote, .commit, r => some (Phase.after .done r)
  | .done, .close, _ => some .done
  | .failed, .close, _ => some .failed
  | _, _, _ => none

/-- What a flush answers in the phase that it ends in. -/
def Ends : Phase → Answer → Prop
  | .done, a => ∃ x, a = .touched (.ok x)
  | .failed, a => ∃ e, a = .touched (.error e)
  | _, _ => False

theorem touch_sends {req : TouchProjectsRequest} (h : checked req = .ok (seconds, paths)) :
    ((touch req).answering .touched).Obeys (sends seconds paths) Ends .idle := by
  have hclosed : ∀ e : Status, (Prog.ask .close fun _ : Unit => .done (Answer.touched (.error e)) :
      Handler).Obeys (sends seconds paths) Ends .failed := fun e _ => ⟨.failed, rfl, e, rfl⟩
  unfold touch
  rw [h]
  intro r
  refine ⟨_, rfl, ?_⟩
  cases r with
  | error e =>
    cases e with
    | fault f => cases f <;> exact ⟨_, rfl⟩
    | _ => exact ⟨_, rfl⟩
  | ok _ =>
    intro r
    refine ⟨_, rfl, ?_⟩
    cases r with
    | error e => exact ⟨_, rfl⟩
    | ok _ =>
      intro r
      refine ⟨_, if_pos ⟨rfl, rfl⟩, ?_⟩
      cases r with
      | error e => exact hclosed _
      | ok _ =>
        intro r
        refine ⟨_, rfl, ?_⟩
        cases r with
        | error e => exact hclosed _
        | ok matched =>
          intro r
          refine ⟨_, rfl, ?_⟩
          cases r with
          | error e => exact hclosed _
          | ok _ => exact fun _ => ⟨.done, rfl, _, rfl⟩

theorem touch_refused {req : TouchProjectsRequest} (h : checked req = .error e) :
    ((touch req).answering .touched) = .done (.touched (.error e)) := by
  unfold touch
  rw [h]
  rfl

variable {seconds : Int} {paths : List Str} {ref s s' : Store} {ids : List Str}

/-- The rows that the paths named once were seen at the moment or later. -/
def Reached (seconds : Int) (paths : List Str) (ref s : Store) : Prop :=
  ∀ r ∈ ref.project, matchesPaths ref paths r = true →
    ∃ r' ∈ s.project, r'.id = r.id ∧ r'.SeenSince seconds

/-- The rows that a flush is about to commit the moment of are older and named, and those that the
paths named once are among them, or were seen at the moment or later. -/
structure Pending (seconds : Int) (paths : List Str) (ref s : Store) (ids : List Str) : Prop where
  older : ∀ r ∈ s.project, r.id ∈ ids → r.lastSeenAt.all (· < seconds) = true
  named : ∀ r ∈ s.project, r.id ∈ ids → matchesPaths s paths r = true
  covers : ∀ r ∈ ref.project, matchesPaths ref paths r = true →
    ∃ r' ∈ s.project, r'.id = r.id ∧ (r'.id ∈ ids ∨ r'.SeenSince seconds)

theorem Reached.forward (h : Reached seconds paths ref s) (hf : Forward s s') :
    Reached seconds paths ref s' := by
  intro r hr hm
  obtain ⟨r', hr', hid, hseen⟩ := h r hr hm
  obtain ⟨r'', hr'', hid', _, hforward⟩ := hf.rows r' hr'
  exact ⟨r'', hr'', hid'.trans hid, hforward _ hseen⟩

namespace Pending

theorem of_exec [ServerCollation] (hs : s.Schema) (hf : Forward ref s) :
    Pending seconds paths ref s ((s.project.filter fun r =>
      matchesPaths s paths r && r.lastSeenAt.all (· < seconds)).map ProjectRow.id) := by
  have hhit : ∀ r ∈ s.project, r.id ∈ ((s.project.filter fun r =>
      matchesPaths s paths r && r.lastSeenAt.all (· < seconds)).map ProjectRow.id) →
      (matchesPaths s paths r && r.lastSeenAt.all (· < seconds)) = true := by
    intro r hr hid
    rw [← List.contains_iff_mem, contains_hits hs _ hr] at hid
    exact hid
  refine ⟨fun r hr hid => (Bool.and_eq_true_iff.1 (hhit r hr hid)).2,
    fun r hr hid => (Bool.and_eq_true_iff.1 (hhit r hr hid)).1, fun r hr hm => ?_⟩
  obtain ⟨r', hr', hid, hpath, _⟩ := hf.rows r hr
  have hm' : matchesPaths s paths r' = true := by
    rw [matchesPaths_congr hf.aliases hid hpath]
    exact hm
  refine ⟨r', hr', hid, ?_⟩
  cases holder : r'.lastSeenAt.all (· < seconds) with
  | false => exact .inr (ProjectRow.seenSince_of_not_older holder)
  | true =>
    refine .inl (List.mem_map_of_mem (List.mem_filter.2 ⟨hr', ?_⟩))
    rw [hm', holder]
    rfl

theorem beside {ids' : List Str} {t : Time} {K : Record → Prop}
    (h : Pending seconds paths ref s ids) (ha : Advances ids' t K s s')
    (hids' : ∀ id ∈ ids', K (.project id)) (hfree : ∀ id ∈ ids, ¬ K (.project id))
    (hf : Forward s s') : Pending seconds paths ref s' ids where
  older r' hr' hid := by
    obtain ⟨r, hr, hsame, _, hseen⟩ := ha.untouched hids' hr' (hfree _ hid)
    rw [hseen]
    exact h.older r hr (hsame ▸ hid)
  named r' hr' hid := by
    obtain ⟨r, hr, hsame, hpath, _⟩ := ha.untouched hids' hr' (hfree _ hid)
    rw [matchesPaths_congr ha.aliases hsame hpath]
    exact h.named r hr (hsame ▸ hid)
  covers r hr hm := by
    obtain ⟨r', hr', hid, hcovered⟩ := h.covers r hr hm
    obtain ⟨r'', hr'', hid', _, hseen⟩ := hf.rows r' hr'
    refine ⟨r'', hr'', hid'.trans hid, ?_⟩
    rw [hid']
    exact hcovered.imp_right (hseen _)

theorem commit {K : Record → Prop} (h : Pending seconds paths ref s ids)
    (ha : Advances ids seconds K s s') : Reached seconds paths ref s' := by
  intro r hr hm
  obtain ⟨r', hr', hid, hcovered⟩ := h.covers r hr hm
  rcases hcovered with hmem | hseen
  · obtain ⟨r'', hr'', hseen⟩ := ha.rows.mem_left hr'
    exact ⟨r'', hr'', hseen.id.trans hid, seconds, hseen.seen.trans (if_pos hmem), Int.le_refl _⟩
  · obtain ⟨r'', hr'', hid', _, hforward⟩ := (ha.forward h.older).rows r' hr'
    exact ⟨r'', hr'', hid'.trans hid, hforward _ hseen⟩

end Pending

/-- Where a flush stands in a phase: what its transaction holds, and what has become of the rows
that its paths named once. -/
def Stands (seconds : Int) (paths : List Str) (ref s : Store)
    (x : Session SqlError Op.Reply Write Answer) : Phase → Prop
  | .idle => x.tx = none
  | .acquired => x.tx = none ∧ 1 ≤ x.count
  | .begun => x.tx = some ⟨none, []⟩ ∧ 2 ≤ x.count
  | .wrote => 3 ≤ x.count ∧ ∃ view ids, x.tx = some ⟨view, [.updateLastSeen ids seconds]⟩ ∧
      Pending seconds paths ref s ids
  | .done => 3 ≤ x.count ∧ Reached seconds paths ref s
  | .failed => True

section
variable [ServerCollation] {ι : Type} [DecidableEq ι] {w v : Server ι}
  {x : Session SqlError Op.Reply Write Answer}

theorem exec_updateLastSeen (t : Tick) (s : Store) (seconds : Int) (paths : List Str) :
    (∃ f, t.fault = some f ∧
      engine.exec t (.sql (.updateLastSeen seconds paths)) s = (.error (.fault f), [])) ∨
    engine.exec t (.sql (.updateLastSeen seconds paths)) s = (.ok (),
      [.updateLastSeen ((s.project.filter fun r =>
        matchesPaths s paths r && r.lastSeenAt.all (· < seconds)).map ProjectRow.id) seconds]) := by
  simp only [engine, Op.exec]
  cases t.fault with
  | some f => exact .inl ⟨f, rfl, rfl⟩
  | none => exact .inr rfl

theorem exec_countMatching (t : Tick) (s : Store) (paths : List Str) :
    (∃ f, t.fault = some f ∧
      (engine.exec t (.sql (.countMatching paths)) s).1 = .error (.fault f)) ∨
    ∃ n, (engine.exec t (.sql (.countMatching paths)) s).1 = .ok n := by
  simp only [engine, Op.exec]
  cases t.fault with
  | some f => exact .inl ⟨f, rfl, rfl⟩
  | none => exact .inr ⟨_, rfl⟩

theorem fault_of_refused {t : Tick} (h : engine.refused t = some e) :
    t.fault ≠ none := by
  intro hnone
  simp only [engine, hnone, Option.map_none] at h
  cases h

/-- What a command of a flush comes to: where the flush then stands, with no failure of its own, and
nothing committed or what was pending. -/
structure Leads (seconds : Int) (paths : List Str) (ref s₀ : Store) (t : Tick) (w v : Server ι)
    (i : ι) (count : Nat) (tx : Option (Tx Write)) (ph next : Phase) : Prop where
  stands : ∀ rest, Stands seconds paths ref (v.committed engine s₀) ⟨rest, count + 1, tx⟩ next
  calm : t.fault = none → ph ≠ .failed → next ≠ .failed
  commits : v.log = w.log ∨ ∃ ids, v.log = w.log ++ [(i, [.updateLastSeen ids seconds])] ∧
    Pending seconds paths ref (w.committed engine s₀) ids

section
variable {s₀ : Store} {t : Tick} {i : ι} {tx : Option (Tx Write)} {view : Option Nat} {n : Nat}

omit [DecidableEq ι] in
theorem Leads.failed (hfault : t.fault ≠ none) (hlog : v.log = w.log) :
    Leads seconds paths ref s₀ t w v i n tx ph .failed :=
  ⟨fun _ => trivial, fun hnone => absurd hnone hfault, .inl hlog⟩

theorem leads_acquire {r : Except SqlError Unit}
    (h : Serves engine s₀ t w i none .acquire r tx v) :
    Leads seconds paths ref s₀ t w v i n tx .idle (Phase.after .acquired r) := by
  cases h
  cases hr : engine.refused t with
  | some e =>
    rw [Rules.control_of_refused hr]
    exact .failed (fault_of_refused hr) rfl
  | none =>
    rw [Rules.control_of_executed hr]
    exact ⟨fun _ => ⟨rfl, Nat.succ_pos n⟩, fun _ _ => Phase.noConfusion, .inl rfl⟩

theorem leads_begin (hn : 1 ≤ n) {r : Except SqlError Unit}
    (h : Serves engine s₀ t w i none .begin r tx v) :
    Leads seconds paths ref s₀ t w v i n tx .acquired (Phase.after .begun r) := by
  cases h with
  | beginRefused hr => exact .failed (fault_of_refused hr) rfl
  | begin => exact ⟨fun _ => ⟨rfl, Nat.succ_le_succ hn⟩, fun _ _ => Phase.noConfusion, .inl rfl⟩

/-- The write of a flush comes before any plain read, so it finds no record changed. -/
theorem leads_write (hn : 2 ≤ n) (hs : (w.committed engine s₀).Schema)
    (hf : Forward ref (w.committed engine s₀))
    {r : Cmd.Reply SqlError Op.Reply (.stmt (.sql (.updateLastSeen seconds paths)))}
    (h : Serves engine s₀ t w i (some ⟨none, []⟩) _ r tx v) :
    Leads seconds paths ref s₀ t w v i n tx .begun (Phase.after (α := Unit) .wrote r) := by
  cases h with
  | snapshot hplain => cases hplain
  | stale _ _ hout => cases hout
  | lock _ hcur hexec _ _ _ =>
    subst hcur hexec
    rcases exec_updateLastSeen t (engine.patchAll [] (w.committed engine s₀)) seconds paths with
      ⟨f, hfault, hexec⟩ | hexec
    · rw [hexec]
      exact .failed (hfault ▸ Option.some_ne_none f) rfl
    · rw [hexec]
      exact ⟨fun _ => ⟨Nat.succ_le_succ hn, none, _, rfl, .of_exec hs hf⟩,
        fun _ _ => Phase.noConfusion, .inl rfl⟩

theorem leads_count (hn : 3 ≤ n) (hpending : Pending seconds paths ref (w.committed engine s₀) ids)
    {r : Cmd.Reply SqlError Op.Reply (.stmt (.sql (.countMatching ps)))}
    (h : Serves engine s₀ t w i (some ⟨view, [.updateLastSeen ids seconds]⟩) _ r tx v) :
    Leads seconds paths ref s₀ t w v i n tx .wrote (Phase.after (α := Nat) .wrote r) := by
  cases h with
  | snapshot _ hview =>
    rcases exec_countMatching t (engine.patchAll [.updateLastSeen ids seconds]
      (w.storeAt engine s₀ (view.getD w.log.length))) ps with ⟨f, hfault, hexec⟩ | ⟨m, hexec⟩
    · rw [hview, hexec]
      exact .failed (hfault ▸ Option.some_ne_none f) rfl
    · rw [hview, hexec]
      exact ⟨fun _ => ⟨Nat.le_succ_of_le hn, _, ids, rfl, hpending⟩, fun _ _ => Phase.noConfusion,
        .inl rfl⟩
  | stale hlocking => cases hlocking
  | lock hlocking => cases hlocking

theorem leads_commit (hn : 3 ≤ n)
    (hpending : Pending seconds paths ref (w.committed engine s₀) ids) {r : Except SqlError Unit}
    (h : Serves engine s₀ t w i (some ⟨view, [.updateLastSeen ids seconds]⟩) .commit r tx v) :
    Leads seconds paths ref s₀ t w v i n tx .wrote (Phase.after .done r) := by
  cases h with
  | commitRefused hr => exact .failed (fault_of_refused (Rules.refused_of_unserved hr)) rfl
  | commit _ =>
    cases hr : engine.refused t with
    | some e =>
      -- what was pending is committed, and only the reply is lost
      rw [Rules.control_of_refused hr]
      exact ⟨fun _ => trivial, fun hnone => absurd hnone (fault_of_refused hr),
        .inr ⟨ids, rfl, hpending⟩⟩
    | none =>
      rw [Rules.control_of_executed hr]
      refine ⟨fun _ => ⟨Nat.le_succ_of_le hn, ?_⟩, fun _ _ => Phase.noConfusion,
        .inr ⟨ids, rfl, hpending⟩⟩
      rw [World.committed_snoc (i := i) rfl]
      exact hpending.commit (Advances.lastSeen ids seconds (fun _ => True) _)

end

/-- One command of a flush takes it to where it then stands. Where nothing fails it does not
fail, and it commits nothing or what was pending. -/
theorem Stands.serves {c : Cmd Op} {r : Cmd.Reply SqlError Op.Reply c}
    (h : Stands seconds paths ref (w.committed engine s₀) x ph)
    (hsends : sends seconds paths ph c r = some next)
    (hserves : Serves engine s₀ t w i x.tx c r tx v)
    (hs : (w.committed engine s₀).Schema) (hf : Forward ref (w.committed engine s₀)) :
    Leads seconds paths ref s₀ t w v i x.count tx ph next := by
  obtain ⟨_, n, tx₀⟩ := x
  cases ph with
  | idle =>
    cases h
    cases c with
    | acquire =>
      cases hsends
      exact leads_acquire hserves
    | _ => cases hsends
  | acquired =>
    obtain ⟨rfl, hn⟩ := h
    cases c with
    | begin =>
      cases hsends
      exact leads_begin hn hserves
    | _ => cases hsends
  | begun =>
    obtain ⟨rfl, hn⟩ := h
    cases c with
    | stmt o =>
      cases o with
      | sql q =>
        cases q with
        | updateLastSeen m ps =>
          simp only [sends] at hsends
          split_ifs at hsends with hsame
          obtain ⟨rfl, rfl⟩ := hsame
          cases hsends
          exact leads_write hn hs hf hserves
        | _ => cases hsends
      | nowV7 => cases hsends
    | _ => cases hsends
  | wrote =>
    obtain ⟨hn, view, ids, rfl, hpending⟩ := h
    cases c with
    | stmt o =>
      cases o with
      | sql q =>
        cases q with
        | countMatching ps =>
          cases hsends
          exact leads_count hn hpending hserves
        | _ => cases hsends
      | nowV7 => cases hsends
    | commit =>
      cases hsends
      exact leads_commit hn hpending hserves
    | _ => cases hsends
  | done =>
    cases c with
    | close =>
      cases hsends
      cases hserves
      exact ⟨fun _ => ⟨Nat.le_succ_of_le h.1, h.2⟩, fun _ _ => Phase.noConfusion, .inl rfl⟩
    | _ => cases hsends
  | failed =>
    cases c with
    | close =>
      cases hsends
      cases hserves
      exact ⟨fun _ => trivial, fun _ h => absurd rfl h, .inl rfl⟩
    | _ => cases hsends

end

end Touch

end ProjectDb
