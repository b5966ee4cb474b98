import ProjectDb.Coherence
import ProjectDb.Replays
import ProjectDb.Serialization

namespace Mvcc.World
set_option autoImplicit true

variable {σ ω κ ε Q ι α : Type} {A : Q → Type} {T : Type u} {R : Rules σ ω κ ε Q A T} {s₀ : σ}
  {env : ι → Nat → T} {w v : World ε A ω κ ι α}

theorem storeAt_of_le (h : w.log.length ≤ n) : w.storeAt R s₀ n = w.committed R s₀ := by
  unfold storeAt
  rw [List.take_of_length_le h]
  rfl

variable [DecidableEq ι] [DecidableEq κ]

theorem step_log_length {a : Act ι} (h : w.step R s₀ env a = some v) :
    v.log.length ≤ w.log.length + 1 := by
  rcases step_cases h with ⟨i, c, k, r, tx, x, rfl, _, hserves, rfl⟩ | ⟨i, rfl, rfl⟩
  · rw [put_log]
    rcases hserves.log_cases with hlog | ⟨ws, hlog⟩
    · rw [hlog]
      exact Nat.le_succ _
    · rw [hlog, List.length_append]
      exact Nat.le_refl _
  · exact Nat.le_succ _

theorem run_append {before rest : List (Act ι)} (h : w.run R s₀ env before = some v) :
    w.run R s₀ env (before ++ rest) = v.run R s₀ env rest := by
  induction before generalizing w with
  | nil =>
    cases h
    rfl
  | cons a before ih =>
    obtain ⟨x, hstep, hrest⟩ := Option.bind_eq_some_iff.1 h
    rw [List.cons_append, run, hstep]
    exact ih hrest

theorem run_moment {acts : List (Act ι)} (h : w.run R s₀ env acts = some v)
    (hw : w.log.length ≤ n) (hn : n ≤ v.log.length) : ∃ before rest u, acts = before ++ rest ∧
      w.run R s₀ env before = some u ∧ u.run R s₀ env rest = some v ∧ u.log.length = n := by
  induction acts generalizing w with
  | nil =>
    cases h
    exact ⟨[], [], v, rfl, rfl, rfl, Nat.le_antisymm hw hn⟩
  | cons a acts ih =>
    rcases Nat.eq_or_lt_of_le hw with he | hlt
    · exact ⟨[], a :: acts, w, rfl, rfl, h, he⟩
    · obtain ⟨x, hstep, hrest⟩ := Option.bind_eq_some_iff.1 h
      obtain ⟨before, rest, u, rfl, hbefore, hafter, hlength⟩ :=
        ih hrest (Nat.le_trans (step_log_length hstep) hlt)
      refine ⟨a :: before, rest, u, rfl, ?_, hafter, hlength⟩
      rw [run, hstep]
      exact hbefore

theorem run_storeAt {acts : List (Act ι)} (h : w.run R s₀ env acts = some v)
    (hw : w.log = []) (n : Nat) : ∃ before rest u, acts = before ++ rest ∧
      w.run R s₀ env before = some u ∧ u.run R s₀ env rest = some v ∧
      u.log.length = min n v.log.length ∧ v.storeAt R s₀ n = u.committed R s₀ := by
  have hfirst : w.log.length ≤ min n v.log.length := by
    rw [hw]
    exact Nat.zero_le _
  obtain ⟨before, rest, u, hacts, hbefore, hrest, hlength⟩ :=
    run_moment h hfirst (Nat.min_le_right _ _)
  refine ⟨before, rest, u, hacts, hbefore, hrest, hlength, ?_⟩
  have hstore : v.storeAt R s₀ u.log.length = u.committed R s₀ :=
    World.storeAt_of_prefix (run_log hrest) (Nat.le_refl _) |>.trans u.storeAt_length
  rcases Nat.le_total n v.log.length with hn | hn
  · rw [hlength, Nat.min_eq_left hn] at hstore
    exact hstore
  · rw [hlength, Nat.min_eq_right hn] at hstore
    rw [← hstore, storeAt_of_le hn, v.storeAt_length]

end Mvcc.World

namespace ProjectDb
open Text ProjectDb.Path Mvcc Sync
set_option autoImplicit true

theorem Store.Schema.of_unseen [ServerCollation] {s : Store} (h : s.unseen.Schema) :
    s.Schema where
  id_key := by
    have hids := map_unseen (g := ProjectRow.id) (fun _ => rfl) s.project
    exact hids ▸ h.id_key
  path_key := by
    have hpaths := map_unseen (g := fun r => toAsciiLowercase r.path) (fun _ => rfl) s.project
    exact hpaths ▸ h.path_key
  row_fits r hr := by
    have hfits := h.row_fits r.unseen (List.mem_map_of_mem hr)
    exact hfits
  alias_key := h.alias_key
  write_key := h.write_key
  grant_key := h.grant_key
  grant_fits := h.grant_fits
  grant_project g hg := by
    obtain ⟨r, hr, hid⟩ := h.grant_project g hg
    obtain ⟨r₀, hr₀, rfl⟩ := List.mem_map.1 hr
    exact ⟨r₀, hr₀, hid⟩

theorem Coherent.of_unseen [UuidCrate] {s t : Store} (h : t.unseen = s.unseen)
    (hc : Coherent s) : Coherent t := by
  obtain ⟨haliases, hgrants, _⟩ := tables_of_unseen h
  have hrow : ∀ {P : ProjectRow → Prop} {a b : ProjectRow}, a.unseen = b.unseen →
      P a.unseen → P b.unseen := fun he hp => he ▸ hp
  have hfrom : ∀ r ∈ t.project, ∃ r₀ ∈ s.project, r₀.unseen = r.unseen := by
    intro r hr
    have hmem : r.unseen ∈ s.unseen.project := h ▸ List.mem_map_of_mem hr
    exact List.mem_map.1 hmem
  have hto : ∀ r₀ ∈ s.project, ∃ r ∈ t.project, r.unseen = r₀.unseen := by
    intro r₀ hr₀
    have hmem : r₀.unseen ∈ t.unseen.project := h ▸ List.mem_map_of_mem hr₀
    exact List.mem_map.1 hmem
  refine ⟨fun r hr => ?_, fun r hr => ?_, fun r hr a ha => ?_, fun r hr ho => ?_,
    fun r hr ho => ?_, fun r hr ho ha => ?_, fun g hg => ?_⟩
  · obtain ⟨r₀, hr₀, he⟩ := hfrom r hr
    exact hrow (P := fun r => Grammatical r.path) he (hc.grammar r₀ hr₀)
  · obtain ⟨r₀, hr₀, he⟩ := hfrom r hr
    exact hrow (P := fun r => ¬ FoldsOnto r.path reservedRoot) he (hc.unreserved r₀ hr₀)
  · obtain ⟨r₀, hr₀, he⟩ := hfrom r hr
    have hfree := hc.unaliased r₀ hr₀ a (haliases ▸ ha)
    exact hrow (P := fun r => ¬ FoldsOnto r.path a.aliasPath) he hfree
  · obtain ⟨r₀, hr₀, he⟩ := hfrom r hr
    exact hrow (P := fun r => r.isOrg = false → Personal r) he (hc.personal r₀ hr₀) ho
  · obtain ⟨r₀, hr₀, he⟩ := hfrom r hr
    exact hrow (P := fun r => r.isOrg = true → r.visibility = Visibility.org.toI8 ∧
      (Active r ∨ r.status = ProjectStatus.archived.toI8)) he (hc.org r₀ hr₀) ho
  · obtain ⟨r₀, hr₀, he⟩ := hfrom r hr
    obtain ⟨root₀, hroot₀, hanchors⟩ := hrow (P := fun r => r.isOrg = true → Active r →
      ∃ root ∈ s.project, Anchors root r) he (hc.rooted r₀ hr₀) ho ha
    obtain ⟨root, hroot, he'⟩ := hto root₀ hroot₀
    exact ⟨root, hroot, hrow (P := fun root => Anchors root r) he'.symm hanchors⟩
  · obtain ⟨r₀, hr₀, hgrant⟩ := hc.grants g (hgrants ▸ hg)
    obtain ⟨r, hr, he⟩ := hto r₀ hr₀
    exact ⟨r, hr, hrow (P := fun r => r.id = g.projectId ∧ r.isOrg = true ∧ Active r) he.symm
      hgrant⟩

section
variable [ServerCollation] [UuidCrate] [Idem.Sha256] [Message RegisterProjectRequest]
  [Message RegisterProjectResponse] {ι : Type} {own : Str → Prop} {calls : ι → Request}
  {env : ι → Nat → Tick} {s₀ : Store} {turns : List ι} {w v : Server ι}

theorem inTurn_served (hw : (calls i).writes = true) (turns : List ι) : ∃ c : Call,
    inTurn calls env s₀ (turns ++ [i]) = c.served (env i) (inTurn calls env s₀ turns) := by
  rw [inTurn_snoc]
  cases hcall : calls i with
  | register caller req => exact ⟨.register caller req, handler_store _ _ _ _⟩
  | sync caller req => exact ⟨.sync caller req, handler_store _ _ _ _⟩
  | _ =>
    rw [hcall] at hw
    cases hw

/-- The stores of the turns are reached by calls served one after another. -/
theorem inTurn_reaches (hwrites : ∀ i ∈ turns, (calls i).writes = true) :
    Reaches s₀ (inTurn calls env s₀ turns) := by
  induction turns using List.reverseRecOn with
  | nil => exact .start
  | append_singleton turns i ih =>
    obtain ⟨c, hc⟩ :=
      inTurn_served (hwrites i (List.mem_append_right _ (List.mem_singleton.2 rfl))) turns
    rw [hc]
    exact (ih fun j hj => hwrites j (List.mem_append_left _ hj)).call c (env i)

theorem inTurn_append (l m : List ι) : inTurn calls env s₀ (l ++ m) =
    inTurn calls env (inTurn calls env s₀ l) m := List.foldl_append

/-- What a turn of a call that writes makes of the store. -/
inductive Turned (s : Store) : Store → Prop
  | refused : Turned s s
  | registered : Register.Result req s r s' → Turned s s'
  | synced : Converged (rows req) actor s s' → Turned s s'

theorem Turned.carries {s s' : Store} (h : Turned s s') : Carries s s' := by
  cases h with
  | refused => exact .refl s
  | registered hresult => exact hresult.carries
  | synced hconv => exact hconv.carries

theorem inTurn_turned (hw : (calls i).writes = true) (hs : (inTurn calls env s₀ turns).Schema) :
    (inTurn calls env s₀ (turns ++ [i])).Schema ∧
      Turned (inTurn calls env s₀ turns) (inTurn calls env s₀ (turns ++ [i])) := by
  rw [inTurn_snoc]
  cases hcall : calls i with
  | register caller req =>
    rw [Request.handler, handler_store]
    exact ⟨Rpc.serve_schema _ hs, .registered (Register.serve_result caller req (env i) _)⟩
  | sync caller req =>
    rw [Request.handler, handler_store]
    refine ⟨Rpc.serve_schema _ hs, ?_⟩
    rcases serve_syncAs caller req (env i) (inTurn calls env s₀ turns) with
      ⟨e, he⟩ | ⟨actor, response, s', n, _, hwell, happly, hok⟩
    · rw [he]
      exact .refused
    · rw [hok]
      exact .synced (apply_ok (validation_sound hwell) hs happly).1
  | _ =>
    rw [hcall] at hw
    cases hw

theorem inTurn_induct {P : Store → Prop} (hs : s₀.Schema)
    (hwrites : ∀ i ∈ turns, (calls i).writes = true) (start : P s₀)
    (step : ∀ s s', Turned s s' → P s → P s') :
    (inTurn calls env s₀ turns).Schema ∧ P (inTurn calls env s₀ turns) := by
  induction turns using List.reverseRecOn with
  | nil => exact ⟨hs, start⟩
  | append_singleton turns i ih =>
    obtain ⟨hschema, hp⟩ := ih fun j hj => hwrites j (List.mem_append_left _ hj)
    have hw := hwrites i (List.mem_append_right _ (List.mem_singleton.2 rfl))
    obtain ⟨hschema', hturned⟩ := inTurn_turned hw hschema
    exact ⟨hschema', step _ _ hturned hp⟩

theorem inTurn_carries (hs : s₀.Schema) (hwrites : ∀ i ∈ turns, (calls i).writes = true) :
    (inTurn calls env s₀ turns).Schema ∧ Carries s₀ (inTurn calls env s₀ turns) :=
  inTurn_induct hs hwrites (.refl s₀) fun _ _ hturned hcarries => hcarries.trans hturned.carries

theorem inTurn_later (hs : s₀.Schema) {l m : List ι}
    (hwrites : ∀ i ∈ l ++ m, (calls i).writes = true) : (inTurn calls env s₀ (l ++ m)).Schema ∧
      Carries (inTurn calls env s₀ l) (inTurn calls env s₀ (l ++ m)) := by
  have hschema : (inTurn calls env s₀ l).Schema :=
    (inTurn_carries hs fun i hi => hwrites i (List.mem_append_left m hi)).1
  rw [inTurn_append]
  exact inTurn_carries hschema fun i hi => hwrites i (List.mem_append_right l hi)

variable [DecidableEq ι]

/-- Each store of a run is, but for what was last seen, the one after the first turns. -/
theorem moments_inTurn (hfresh : FreshIds calls env s₀) {acts : List (Act ι)}
    (h : (Server.start calls).run engine s₀ env acts = some w) (hnm : n ≤ m) :
    ∃ early late, (∀ i ∈ early ++ late, (calls i).writes = true) ∧
      (w.storeAt engine s₀ n).unseen = (inTurn calls env s₀ early).unseen ∧
      (w.storeAt engine s₀ m).unseen = (inTurn calls env s₀ (early ++ late)).unseen := by
  obtain ⟨before, rest, u, rfl, hbefore, hrest, hlength, hlast⟩ := World.run_storeAt h rfl m
  obtain ⟨before', rest', x, rfl, hbefore', hrest', hlength', hfirst⟩ :=
    World.run_storeAt hbefore rfl n
  have hsame : w.storeAt engine s₀ n = u.storeAt engine s₀ n := by
    by_cases hn : n ≤ u.log.length
    · exact World.storeAt_of_prefix (World.run_log hrest) hn
    · -- the later store is the last one then
      have hall : u.log.length = w.log.length := by omega
      have hequal : u.log = w.log := (World.run_log hrest).eq_of_length hall
      rw [World.storeAt_of_le (by omega), World.storeAt_of_le (by omega),
        World.committed_congr hequal]
  obtain ⟨turns, hend, _, hmoments⟩ := Orderly.start.run hfresh.assigned (fun _ hu => hu) hbefore
  obtain ⟨early, late, rfl, hearly, _⟩ := hmoments before' rest' x rfl hbefore'
  rw [List.nil_append] at hend hearly
  exact ⟨early, late, hend.serializes.followed, hsame ▸ hfirst ▸ hearly.committed,
    hlast ▸ hend.committed⟩

/-- However calls in flight interleave, whatever fails and wherever calls are cut off: every store
that they ever commit keeps the schema and is coherent. -/
theorem moments_coherent (hfresh : FreshIds calls env s₀) (hcoherent : Coherent s₀)
    {acts : List (Act ι)} (h : (Server.start calls).run engine s₀ env acts = some w) (n : Nat) :
    (w.storeAt engine s₀ n).Schema ∧ Coherent (w.storeAt engine s₀ n) := by
  obtain ⟨early, _, hwrites, hearly, _⟩ := moments_inTurn hfresh h (Nat.le_refl n)
  have hreached : Reaches s₀ (inTurn calls env s₀ early) :=
    inTurn_reaches fun i hi => hwrites i (List.mem_append_left _ hi)
  obtain ⟨hschema, hcoherent⟩ := hreached.induct (P := Coherent) hfresh.schema hcoherent
    fun _ _ hs hs' hc he => hc.effect hs hs' he
  exact ⟨.of_unseen (hearly ▸ hschema.unseen), hcoherent.of_unseen hearly⟩

/-- And nothing that they commit is ever lost: a later store has every row of an earlier one, with
its id, path and owner and no earlier version, every ledger row and every former path. -/
theorem moments_carry (hfresh : FreshIds calls env s₀) {acts : List (Act ι)}
    (h : (Server.start calls).run engine s₀ env acts = some w) (hnm : n ≤ m) :
    Carries (w.storeAt engine s₀ n) (w.storeAt engine s₀ m) := by
  obtain ⟨early, late, hwrites, hearly, hlate⟩ := moments_inTurn hfresh h hnm
  exact (inTurn_later hfresh.schema hwrites).2.of_unseen hearly hlate

end

section
open scoped Reference

theorem renamed_coherent : Coherent Read.renamed := by
  have hrow : ∀ r ∈ Read.renamed.project, r = Read.acmeRoot := fun _ hr => List.mem_singleton.1 hr
  refine ⟨fun r hr => ?_, by decide, by decide, fun r hr horg => ?_, fun r hr _ => ?_,
    fun r hr _ _ => ?_, fun _ hg => absurd hg List.not_mem_nil⟩
  · rw [hrow r hr]
    exact (validate_ok_iff "" _).1 (by decide)
  · rw [hrow r hr] at horg
    cases horg
  · rw [hrow r hr]
    exact ⟨rfl, .inl rfl⟩
  · rw [hrow r hr]
    exact ⟨Read.acmeRoot, List.mem_singleton.2 rfl, by decide, rfl, by decide⟩

theorem moments_coherent_acme : ∃ w, (Server.start registerAndSync).run engine Read.renamed
      registerAndSyncEnv registerAmid = some w ∧ w.log.length = 2 ∧
    ∀ n, Coherent (w.storeAt engine Read.renamed n) := by
  have hrun : ((Server.start registerAndSync).run engine Read.renamed registerAndSyncEnv
      registerAmid).map (fun w => w.log.length) = some 2 := by decide +kernel
  obtain ⟨w, hw, hlength⟩ := Option.map_eq_some_iff.1 hrun
  exact ⟨w, hw, hlength, fun n =>
    (moments_coherent registerAndSync_fresh renamed_coherent hw n).2⟩

theorem moments_carry_acme : ∃ w, (Server.start registerAndSync).run engine Read.renamed
      registerAndSyncEnv registerAmid = some w ∧
    (w.storeAt engine Read.renamed 1).project.length = 2 ∧
    Carries (w.storeAt engine Read.renamed 1) (w.storeAt engine Read.renamed 2) := by
  have hrun : ((Server.start registerAndSync).run engine Read.renamed registerAndSyncEnv
      registerAmid).map (fun w => (w.storeAt engine Read.renamed 1).project.length) = some 2 := by
    decide +kernel
  obtain ⟨w, hw, hlength⟩ := Option.map_eq_some_iff.1 hrun
  exact ⟨w, hw, hlength, moments_carry registerAndSync_fresh hw (Nat.le_succ 1)⟩

end

end ProjectDb
