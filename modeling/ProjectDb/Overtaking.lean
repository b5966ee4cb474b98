import ProjectDb.Flushes
import ProjectDb.LockOrder

namespace ProjectDb
open Text ProjectDb.Path Mvcc Sync
set_option autoImplicit true

section
variable [ServerCollation] [UuidCrate] [Idem.Sha256] [Message RegisterProjectRequest]
  [Message RegisterProjectResponse] {ι : Type} {own : Str → Prop} {calls : ι → Request}
  {env : ι → Nat → Tick} {s₀ : Store} {M : Server ι → Prop} {turns : List ι} {w : Server ι}

/-- The rows of a store as flushes leave them: none is back at an earlier moment, each flush that
answers has brought its moment to the rows that it names, and no moment comes from elsewhere. -/
structure FlushedSince (calls : ι → Request) (s₀ : Store) (w : Server ι) : Prop where
  rows : ∀ r ∈ s₀.project, ∃ r' ∈ (w.committed engine s₀).project, r'.id = r.id ∧
    (∀ t, r.SeenSince t → r'.SeenSince t) ∧
    ∀ j req t x, calls j = .touch req → req.seenAt = some ⟨t⟩ → Touch.Named s₀ req.paths r →
      w.answer j = some (.touched (.ok x)) → r'.SeenSince t
  moments : ∀ r' ∈ (w.committed engine s₀).project, ∀ t, r'.lastSeenAt = some t →
    (∃ r ∈ s₀.project, r.id = r'.id ∧ r.lastSeenAt = some t) ∨
    ∃ j req us, (j, us) ∈ w.log ∧ calls j = .touch req ∧ req.seenAt = some ⟨t⟩ ∧
      Touch.Named (w.committed engine s₀) req.paths r'

omit [UuidCrate] [Idem.Sha256] [Message RegisterProjectRequest] [Message RegisterProjectResponse] in
theorem Flushed.since (h : Flushed calls env s₀ s₀ 0 (fun _ => s₀) w)
    (hs : (w.committed engine s₀).Schema) : FlushedSince calls s₀ w where
  rows r hr := by
    obtain ⟨r', hr', hid, _, hseen⟩ := h.forward.rows r hr
    refine ⟨r', hr', hid, hseen, fun j req t x hcall ht hnamed ha => ?_⟩
    obtain ⟨_, hseen, hreached⟩ := h.reached hcall ha
    cases ht.symm.trans hseen
    obtain ⟨r'', hr'', hid', hsince⟩ := hreached r hr hnamed
    cases List.inj_on_of_nodup_map hs.id_key hr'' hr' (hid'.trans hid.symm)
    exact hsince
  moments r' hr' t ht := h.comes hr' ht

/-- The only call that writes the registry has the first turn, or none. -/
theorem Orderly.first_turn (h : Orderly own calls env s₀ M turns w)
    (hothers : ∀ j, j ≠ i → (calls j).writes = false) : turns = [] ∨ turns = [i] := by
  have hall : ∀ j ∈ turns, j = i := by
    intro j hj
    by_contra hne
    have hw := h.serializes.followed j hj
    rw [hothers j hne] at hw
    cases hw
  have hnodup := h.serializes.nodup
  cases turns with
  | nil => exact .inl rfl
  | cons j rest =>
    cases hall j List.mem_cons_self
    cases rest with
    | nil => exact .inr rfl
    | cons k rest =>
      cases hall k (List.mem_cons_of_mem _ List.mem_cons_self)
      exact absurd List.mem_cons_self (List.nodup_cons.1 hnodup).1

/-- Beside calls that do not write the registry, a call leaves it alone or as it does alone. -/
theorem Orderly.beside_store (h : Orderly own calls env s₀ M turns w)
    (hothers : ∀ j, j ≠ i → (calls j).writes = false) :
    (w.committed engine s₀).unseen = s₀.unseen ∨
      (w.committed engine s₀).unseen = ((calls i).alone (env i) s₀).2.unseen := by
  rw [h.committed]
  rcases h.first_turn hothers with rfl | rfl
  · exact .inl rfl
  · exact .inr rfl

theorem Orderly.beside_answer (h : Orderly own calls env s₀ M turns w)
    (hw : (calls i).writes = true) (hothers : ∀ j, j ≠ i → (calls j).writes = false)
    (ha : w.answer i = some a) :
    ((calls i).alone (env i) s₀).1 = a ∧
      (w.committed engine s₀).unseen = ((calls i).alone (env i) s₀).2.unseen ∨
    Lost calls env s₀ M i a := by
  have hfirst := h.first_turn hothers
  rcases h.answers hw ha with ⟨l, r, hturns, halone⟩ | ⟨hi, hany | hlost⟩
  · have hone : turns = [i] := by
      apply hfirst.resolve_left
      intro hnone
      cases (List.append_eq_nil_iff.1 (hturns.symm.trans hnone)).2
    rcases List.append_eq_singleton_iff.1 (hturns.symm.trans hone) with ⟨rfl, _⟩ | ⟨_, hnil⟩
    case inr => cases hnil
    refine .inl ⟨halone, ?_⟩
    rw [h.committed, hone]
    rfl
  · have hnone : turns = [] := by
      apply hfirst.resolve_right
      rintro rfl
      exact hi (List.mem_singleton.2 rfl)
    refine .inl ⟨congrArg Prod.fst (hany s₀), ?_⟩
    rw [h.committed, hnone, hany s₀]
    rfl
  · exact .inr hlost

variable [DecidableEq ι]

/-- A sync beside any flushes and reads that is never overtaken: it answers the response that it
answers alone, the store is what it is alone except for what was last seen, and the flushes reach
their rows. Neither it nor a flush that meets no failure answers an internal error. -/
theorem sync_beside_flushes (hfresh : FreshIds calls env s₀) (hcall : calls i = .sync caller req)
    (halone : (calls i).alone (env i) s₀ = (.synced (.ok response), s'))
    (hothers : ∀ j, j ≠ i → (calls j).writes = false) {acts : List (Act ι)}
    (h : (Server.start calls).run engine s₀ env acts = some w)
    (hcalm : ∀ u n, (Server.start calls).Moment engine s₀ env acts u →
      ¬ Overtaken calls env s₀ u i n) :
    ((w.committed engine s₀).unseen = s₀.unseen ∨ (w.committed engine s₀).unseen = s'.unseen) ∧
    (∀ a, w.answer i = some a →
      a = .synced (.ok response) ∧ (w.committed engine s₀).unseen = s'.unseen) ∧
    (∀ j flush a, calls j = .touch flush → Faultless (env j) → w.answer j = some a →
      (Touch.Flushable flush → ∃ x, a = .touched (.ok x)) ∧
        ∀ e, a = .touched (.error e) → e.code = .invalidArgument) ∧
    FlushedSince calls s₀ w := by
  have ha := hfresh.assigned
  have hw : (calls i).writes = true := by
    rw [hcall]
    rfl
  obtain ⟨turns, hend, _⟩ := Orderly.start.run ha (fun _ hu => hu) h
  have hflushed := Flushed.start.run Orderly.start ha hfresh.schema (fun _ hu => hu) h
  have hstore := hend.beside_store hothers
  rw [halone] at hstore
  refine ⟨hstore, fun a hanswer => ?_, fun j flush a hflush hf hanswer => ⟨fun hreq => ?_, ?_⟩,
    hflushed.since (hend.schema hfresh.schema)⟩
  · rcases hend.beside_answer hw hothers hanswer with ⟨hsame, hcommitted⟩ | hlost
    · rw [halone] at hsame hcommitted
      exact ⟨hsame.symm, hcommitted⟩
    · obtain ⟨u, n, hmoment, hovertaken, _⟩ := hlost
      exact absurd hovertaken (hcalm u n hmoment)
  · exact hflushed.succeeds hflush hreq hf hanswer
  · rintro e rfl
    cases hc : Touch.checked flush with
    | error e' =>
      cases hflushed.refused j flush e' hflush hc _ (World.rest_of_answer hanswer)
      exact Touch.checked_code hc
    | ok x =>
      obtain ⟨seconds, paths⟩ := x
      obtain ⟨_, hx⟩ := hflushed.succeeds hflush (Touch.checked_ok_iff.1 hc).1 hf hanswer
      cases hx

end

section
variable {ι : Type} {calls : ι → Request} {env : ι → Nat → Tick} {s₀ : Store} {u : Server ι}

/-- Since a call's read view opened, no flush has committed. -/
def unpassed (calls : ι → Request) (u : Server ι) (i : ι) : Bool :=
  match (u.sess i).tx with
  | some ⟨some view, _⟩ => (u.log.drop view).all fun e => !(calls e.1).isTouch
  | _ => true

theorem not_overtaken [ServerCollation] (h : unpassed calls u i = true) :
    ¬ Overtaken calls env s₀ u i n := by
  rintro ⟨_, _, view, _, j, us, _, hsess, htouch, hlogged, _⟩
  rw [unpassed, hsess] at h
  have hnone := List.all_eq_true.1 h (j, us) hlogged
  rw [htouch] at hnone
  cases hnone

/-- What a test finds after each of a schedule's first steps holds at all its moments. -/
theorem moments_all [ServerCollation] [DecidableEq ι] {w : Server ι} {acts : List (Act ι)}
    {p : Server ι → Bool} (h : (List.range (acts.length + 1)).all (fun k =>
      (w.run engine s₀ env (acts.take k)).all p) = true) (hu : w.Moment engine s₀ env acts u) :
    p u = true := by
  obtain ⟨before, rest, rfl, hbefore⟩ := hu
  have hk : before.length ∈ List.range ((before ++ rest).length + 1) := by
    rw [List.mem_range, List.length_append]
    omega
  have hall := List.all_eq_true.1 h _ hk
  rw [List.take_left, hbefore] at hall
  exact hall

end

section
open scoped Reference

/-- A sync that renames a root and grants it, and a flush of that root. -/
def renameAndFlush : Bool → Request
  | false => .sync (some Sync.syncCaller) Sync.acmeOnly
  | true => .touch ⟨some ⟨ada, []⟩, ["acme".toList], some ⟨7⟩⟩

def renameAndFlushEnv : Bool → Nat → Tick
  | false => fun n => .quiet 2 (n % 8)
  | true => fun _ => .quiet 1 3

/-- The flush runs whole when the sync has read the rows, and then the sync goes on. -/
def flushAfterRead : List (Act Bool) :=
  List.replicate 6 (.run false) ++ List.replicate 6 (.run true) ++ List.replicate 3 (.run false)

/-- The flush runs whole when the sync has its lock, before it reads. -/
def flushBeforeRead : List (Act Bool) :=
  List.replicate 3 (.run false) ++ List.replicate 6 (.run true) ++ List.replicate 7 (.run false)

/-- Alone the sync answers a response. With the flush after its read it answers an internal
error. -/
theorem sync_overtaken : ((renameAndFlush false).alone (renameAndFlushEnv false) Read.renamed).1 =
      .synced (.ok ⟨0, 1, 0, 0, 0, 1, 1, 0, 0⟩) ∧
    ∃ w, (Server.start renameAndFlush).run engine Read.renamed renameAndFlushEnv flushAfterRead =
      some w ∧ w.answer false = some (.synced (.error (.internal ["storage error"]))) ∧
      w.answer true = some (.touched (.ok (⟨⟩, false))) := by
  constructor
  · decide +kernel
  · have hrun : ((Server.start renameAndFlush).run engine Read.renamed renameAndFlushEnv
        flushAfterRead).map (fun w => (w.answer false, w.answer true)) =
          some (some (.synced (.error (.internal ["storage error"]))),
            some (.touched (.ok (⟨⟩, false)))) := by decide +kernel
    obtain ⟨w, hw, hanswers⟩ := Option.map_eq_some_iff.1 hrun
    obtain ⟨hsync, hflush⟩ := Prod.mk.inj hanswers
    exact ⟨w, hw, hsync, hflush⟩

theorem renameAndFlush_fresh : FreshIds renameAndFlush renameAndFlushEnv Read.renamed where
  schema := renamed_schema
  unused i _ := renamed_unminted (renameAndFlushEnv i)
  apart i _ hi := by
    cases i with
    | false => exact absurd hi Bool.false_ne_true
    | true => exact absurd hi Bool.false_ne_true

theorem sync_beside_flushes_acme : ∃ w s', (Server.start renameAndFlush).run engine Read.renamed
      renameAndFlushEnv flushBeforeRead = some w ∧
    (renameAndFlush false).alone (renameAndFlushEnv false) Read.renamed =
      (.synced (.ok ⟨0, 1, 0, 0, 0, 1, 1, 0, 0⟩), s') ∧
    w.answer false = some (.synced (.ok ⟨0, 1, 0, 0, 0, 1, 1, 0, 0⟩)) ∧
    (w.committed engine Read.renamed).unseen = s'.unseen ∧
    ∃ r' ∈ (w.committed engine Read.renamed).project, r'.id = Read.acmeRoot.id ∧
      r'.SeenSince 7 := by
  have hrun : ((Server.start renameAndFlush).run engine Read.renamed renameAndFlushEnv
      flushBeforeRead).map (fun w => ((w.answer false).isSome, w.answer true)) =
        some (true, some (.touched (.ok (⟨⟩, false)))) := by decide +kernel
  obtain ⟨w, hw, hfacts⟩ := Option.map_eq_some_iff.1 hrun
  obtain ⟨hsome, hflush⟩ := Prod.mk.inj hfacts
  obtain ⟨a, ha⟩ := Option.isSome_iff_exists.1 hsome
  have halone : ((renameAndFlush false).alone (renameAndFlushEnv false) Read.renamed).1 =
      .synced (.ok ⟨0, 1, 0, 0, 0, 1, 1, 0, 0⟩) := by decide +kernel
  have hcalm : ∀ u n, (Server.start renameAndFlush).Moment engine Read.renamed renameAndFlushEnv
      flushBeforeRead u → ¬ Overtaken renameAndFlush renameAndFlushEnv Read.renamed u false n :=
    fun u n hu => not_overtaken
      (moments_all (p := fun u => unpassed renameAndFlush u false) (by decide +kernel) hu)
  obtain ⟨_, hanswers, _, hsince⟩ := sync_beside_flushes renameAndFlush_fresh (i := false) rfl
    (Prod.ext halone rfl) (fun j hj => by cases j <;> first | rfl | exact absurd rfl hj) hw hcalm
  obtain ⟨rfl, hstore⟩ := hanswers a ha
  have hnamed : Touch.Named Read.renamed ["acme".toList] Read.acmeRoot := by decide +kernel
  obtain ⟨r', hr', hid, _, hreached⟩ := hsince.rows Read.acmeRoot List.mem_cons_self
  exact ⟨w, _, hw, Prod.ext halone rfl, ha, hstore, r', hr', hid,
    hreached true _ 7 _ rfl rfl hnamed hflush⟩

end

end ProjectDb
