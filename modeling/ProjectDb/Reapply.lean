import ProjectDb.Acceptance

namespace ProjectDb
open Text ProjectDb.Path Mvcc
set_option autoImplicit true

namespace Grants

theorem GrantsOk.perm (h : GrantsOk gs seen) (hp : gs'.Perm gs) : GrantsOk gs' seen where
  levels := fun g hg => h.levels g (hp.mem_iff.1 hg)
  teams := fun g hg => h.teams g (hp.mem_iff.1 hg)
  once := (hp.map _).nodup_iff.2 h.once
  unseen := fun g hg => h.unseen g (hp.mem_iff.1 hg)

end Grants

namespace Sync
open Grants

/-- One wire row written again: its path in another case, its grants in another order. -/
structure Respelled (d d' : DeclaredProject) : Prop where
  path : FoldsOnto d'.path d.path
  displayName : d'.displayName = d.displayName
  sourceRepo : d'.sourceRepo = d.sourceRepo
  grants : d'.grants.Perm d.grants

/-- Wire rows written again in any order. -/
def Restated (ds ds' : List DeclaredProject) : Prop :=
  ∃ l, ds.Perm l ∧ List.Forall₂ Respelled l ds'

theorem Restated.mem (h : Restated ds ds') (hd : d' ∈ ds') : ∃ d ∈ ds, Respelled d d' := by
  obtain ⟨l, hp, hl⟩ := h
  obtain ⟨d, hm, hr⟩ := hl.mem_right hd
  exact ⟨d, hp.mem_iff.2 hm, hr⟩

theorem Restated.mem_of (h : Restated ds ds') (hd : d ∈ ds) : ∃ d' ∈ ds', Respelled d d' := by
  obtain ⟨l, hp, hl⟩ := h
  exact hl.mem_left (hp.mem_iff.1 hd)

theorem Restated.append (h : Restated as as') (h' : Restated bs bs') :
    Restated (as ++ bs) (as' ++ bs') := by
  obtain ⟨l, hp, hl⟩ := h
  obtain ⟨m, hq, hm⟩ := h'
  exact ⟨l ++ m, hp.append hq, List.rel_append hl hm⟩

theorem Restated.keys (h : Restated ds ds') :
    (ds'.map fun d => toAsciiLowercase d.path).Perm (ds.map fun d => toAsciiLowercase d.path) := by
  obtain ⟨l, hp, hl⟩ := h
  have hsame : (l.map fun d => toAsciiLowercase d.path) =
      ds'.map fun d => toAsciiLowercase d.path := by
    clear hp
    induction hl with
    | nil => rfl
    | cons hr _ ih => rw [List.map_cons, List.map_cons, ih, hr.path]
  rw [← hsame]
  exact (hp.map _).symm

theorem RowOk.respelled (h : RowOk d) (hr : Respelled d d') : RowOk d' where
  grammar := h.grammar.congr hr.path.symm
  unreserved := fun hf => h.unreserved (hr.path.symm.trans hf)
  org := by
    rw [isPrivateClass_congr hr.path]
    exact h.org
  repo := by
    rw [hr.sourceRepo]
    exact h.repo
  repo_width := by
    rw [hr.sourceRepo]
    exact h.repo_width
  name_width := by
    rw [hr.displayName]
    exact h.name_width
  grants := h.grants.perm hr.grants

theorem slash_mem_toAsciiLowercase (s : Str) : '/' ∈ toAsciiLowercase s ↔ '/' ∈ s := by
  simp only [toAsciiLowercase, List.mem_map, toLower_eq_slash, exists_eq_right]

theorem WellFormed.restated {req req' : SyncProjectsRequest} (h : WellFormed req)
    (hroots : Restated req.roots req'.roots) (hprojects : Restated req.projects req'.projects) :
    WellFormed req' where
  roots_ne := by
    intro he
    obtain ⟨d, ds, hd⟩ := List.exists_cons_of_ne_nil h.roots_ne
    have hm : d ∈ req.roots := by
      rw [hd]
      exact List.mem_cons_self
    obtain ⟨d', hd', _⟩ := hroots.mem_of hm
    rw [he] at hd'
    cases hd'
  roots := by
    intro d' hd'
    obtain ⟨d, hd, hr⟩ := hroots.mem hd'
    obtain ⟨hrow, hslash⟩ := h.roots d hd
    refine ⟨hrow.respelled hr, fun hm => hslash ?_⟩
    rw [← slash_mem_toAsciiLowercase, ← hr.path, slash_mem_toAsciiLowercase]
    exact hm
  projects := by
    intro d' hd'
    obtain ⟨d, hd, hr⟩ := hprojects.mem hd'
    obtain ⟨hrow, hslash, hroot⟩ := h.projects d hd
    have hpath : toAsciiLowercase d'.path = toAsciiLowercase d.path := hr.path
    refine ⟨hrow.respelled hr, ?_, ?_⟩
    · rw [hpath]
      exact hslash
    · rw [hpath]
      exact hroots.keys.mem_iff.2 hroot
  distinct := (hroots.append hprojects).keys.nodup_iff.2 h.distinct

theorem Respelled.names (h : Respelled d d') (r : ProjectRow) :
    (Declared.of d').Names r ↔ (Declared.of d).Names r := by
  have hk : (Declared.of d').key = (Declared.of d).key := h.path
  unfold Declared.Names
  rw [hk]

theorem Respelled.agrees (h : Respelled d d') (r : Stored) :
    (Declared.of d').Agrees r ↔ (Declared.of d).Agrees r := by
  unfold Declared.Agrees Declared.of
  rw [h.displayName, h.sourceRepo]

theorem Respelled.grant (h : Respelled d d') (g : Str × Int) :
    g ∈ (Declared.of d').grants ↔ g ∈ (Declared.of d).grants :=
  (h.grants.map _).mem_iff

/-- What a sync leaves behind: its declaration asks for nothing more of the store. -/
structure Standing (declared : List Declared) (s : Store) : Prop where
  active : ∀ r ∈ s.project, r.isOrg = true → r.status = ProjectStatus.active.toI8 →
    ∃ d ∈ declared, d.Names r
  present : ∀ d ∈ declared, ∃ r ∈ s.project, d.Names r ∧ d.Agrees (.of r)
  grants : ∀ r ∈ s.project, r.isOrg = true → ∀ team level,
    ⟨r.id, team, level⟩ ∈ s.projectGrant ↔ ∃ d ∈ declared, d.Names r ∧ (team, level) ∈ d.grants

theorem InForce.standing (h : InForce declared s s') : Standing declared s' where
  active := h.active
  present := by
    intro d hd
    obtain ⟨r, hr, hn, ha, _⟩ := h.present d hd
    exact ⟨r, hr, hn, ha⟩
  grants := h.grants

theorem Standing.restated {req req' : SyncProjectsRequest} (h : Standing (rows req) s)
    (hrows : Restated (req.roots ++ req.projects) (req'.roots ++ req'.projects)) :
    Standing (rows req') s where
  active := by
    intro r hr ho hst
    obtain ⟨d, hd, hn⟩ := h.active r hr ho hst
    obtain ⟨p, hp, rfl⟩ := List.mem_map.1 hd
    obtain ⟨p', hp', hre⟩ := hrows.mem_of hp
    exact ⟨_, List.mem_map_of_mem hp', (hre.names r).2 hn⟩
  present := by
    intro d' hd'
    obtain ⟨p', hp', rfl⟩ := List.mem_map.1 hd'
    obtain ⟨p, hp, hre⟩ := hrows.mem hp'
    obtain ⟨r, hr, hn, ha⟩ := h.present _ (List.mem_map_of_mem hp)
    exact ⟨r, hr, (hre.names r).2 hn, (hre.agrees _).2 ha⟩
  grants := by
    intro r hr ho team level
    rw [h.grants r hr ho]
    constructor
    · rintro ⟨d, hd, hn, hg⟩
      obtain ⟨p, hp, rfl⟩ := List.mem_map.1 hd
      obtain ⟨p', hp', hre⟩ := hrows.mem_of hp
      exact ⟨_, List.mem_map_of_mem hp', (hre.names r).2 hn, (hre.grant _).2 hg⟩
    · rintro ⟨d', hd', hn, hg⟩
      obtain ⟨p', hp', rfl⟩ := List.mem_map.1 hd'
      obtain ⟨p, hp, hre⟩ := hrows.mem hp'
      exact ⟨_, List.mem_map_of_mem hp, (hre.names r).1 hn, (hre.grant _).1 hg⟩

section
variable {declared : List Declared} {s : Store}

theorem archivable_standing (h : Standing declared s) : archivable s declared = [] := by
  rw [List.eq_nil_iff_forall_not_mem]
  intro r hr
  obtain ⟨hm, ho, hst, hnone⟩ := mem_archivable.1 hr
  obtain ⟨d, hd, hn⟩ := h.active r hm ho hst
  exact hnone d hd hn

theorem declares_of_stored (h : Standing declared s) (hg : g ∈ orgGrants s) :
    Declares declared (pairOf g) g.level := by
  obtain ⟨g₀, hg₀, r, hr, ho, hid, rfl⟩ := mem_orgGrants.1 hg
  have hm : (⟨r.id, g₀.teamId, g₀.level⟩ : GrantRow) ∈ s.projectGrant := by
    rw [hid]
    exact hg₀
  obtain ⟨d, hd, hn, hdm⟩ := (h.grants r hr ho _ _).1 hm
  exact ⟨d, hd, hn.2.symm, hdm⟩

theorem stored_of_declared (h : Standing declared s) (hd : d ∈ declared) (hg : g ∈ d.grants) :
    (d.key, g.1) ∈ (orgGrants s).map pairOf := by
  obtain ⟨r, hr, hn, _⟩ := h.present d hd
  have hm := (h.grants r hr hn.1 g.1 g.2).2 ⟨d, hd, hn, hg⟩
  exact List.mem_map.2 ⟨_, mem_orgGrants.2 ⟨_, hm, r, hr, hn.1, rfl, rfl⟩, Prod.ext hn.2 rfl⟩

variable [ServerCollation]

theorem orgGrants_pairs_nodup (hs : s.Schema) : ((orgGrants s).map pairOf).Nodup := by
  unfold orgGrants
  rw [List.map_flatMap]
  apply List.nodup_flatMap.2
  constructor
  · intro g _
    have hsub : (s.orgRows.filter fun r => r.id == g.projectId).Sublist s.project :=
      List.filter_sublist.trans List.filter_sublist
    have hn := (hsub.map fun r => toAsciiLowercase r.path).nodup hs.path_key
    have hp := hn.map (f := fun k => (k, g.teamId)) fun a b h => (Prod.mk.inj h).1
    rw [List.map_map] at hp ⊢
    exact hp
  · apply (List.pairwise_map.1 hs.grant_key).imp_of_mem
    intro g g' _ _ hne pair hm hm'
    simp only [List.mem_map, List.mem_filter, Store.mem_orgRows, beq_iff_eq] at hm hm'
    obtain ⟨_, ⟨r, ⟨⟨hr, _⟩, hid⟩, rfl⟩, rfl⟩ := hm
    obtain ⟨_, ⟨r', ⟨⟨hr', _⟩, hid'⟩, rfl⟩, he⟩ := hm'
    obtain ⟨hpath, hteam⟩ := Prod.mk.inj he
    have hrr := List.inj_on_of_nodup_map hs.path_key hr' hr hpath
    subst hrr
    exact hne (Prod.ext (hid.symm.trans hid') hteam.symm)

theorem orgGrants_length (h : Standing declared s) (hd : Sound declared) (hs : s.Schema) :
    (orgGrants s).length = (declared.map fun d => d.grants.length).sum := by
  have hpairs : ((orgGrants s).map pairOf).Perm
      (declared.flatMap fun d => d.grants.map fun g => (d.key, g.1)) := by
    apply (List.perm_ext_iff_of_nodup (orgGrants_pairs_nodup hs) (pairs_nodup hd)).2
    intro pair
    constructor
    · intro hm
      obtain ⟨g, hg, rfl⟩ := List.mem_map.1 hm
      obtain ⟨d, hdm, hk, hgm⟩ := declares_of_stored h hg
      exact List.mem_flatMap.2 ⟨d, hdm, List.mem_map.2 ⟨_, hgm, Prod.ext hk rfl⟩⟩
    · intro hm
      obtain ⟨d, hdm, hpair⟩ := List.mem_flatMap.1 hm
      obtain ⟨g, hg, rfl⟩ := List.mem_map.1 hpair
      exact stored_of_declared h hdm hg
  have hl := hpairs.length_eq
  simpa only [List.length_map, List.length_flatMap] using hl

theorem plan_standing (h : Standing declared s) (hd : Sound declared) (hs : s.Schema)
    (hp : stored.Perm (orgGrants s)) :
    Grants.plan declared stored = ⟨[], [], [], (declared.map fun d => d.grants.length).sum⟩ := by
  have hget : ∀ g ∈ stored, (wanted declared).get (pairOf g) = some g.level := fun g hg =>
    (get_wanted hd).2 (declares_of_stored h (hp.mem_iff.1 hg))
  rw [plan_eq]
  have hmissing : missing (kept stored) declared = [] := by
    rw [List.eq_nil_iff_forall_not_mem]
    intro i hi
    obtain ⟨d, hdm, g, hg, hk, _⟩ := mem_missing.1 hi
    exact hk ((hp.map pairOf).mem_iff.2 (stored_of_declared h hdm hg))
  have hrelevelled : relevelled (wanted declared) stored = [] := by
    unfold relevelled
    rw [List.filterMap_eq_nil_iff]
    intro g hg
    rw [hget g hg]
    simp only [Option.bind_some, ↓reduceIte]
  have hrevoked : revoked (wanted declared) stored = [] := by
    unfold revoked
    rw [List.map_eq_nil_iff, List.filter_eq_nil_iff]
    intro g hg
    rw [hget g hg]
    simp only [Option.isNone_some, Bool.false_eq_true, not_false_eq_true]
  have hunchanged : (stored.countP fun g => (wanted declared).get (pairOf g) == some g.level) =
      (declared.map fun d => d.grants.length).sum := by
    rw [← orgGrants_length h hd hs, ← hp.length_eq, List.countP_eq_length]
    intro g hg
    rw [hget g hg]
    exact beq_self_eq_true _
  rw [hmissing, hrelevelled, hrevoked, hunchanged]

variable {env : Nat → Tick}

theorem writeAll_agrees {m : HashMap Str Stored} (w : Store × Nat)
    (response : SyncProjectsResponse) (ids : HashMap Str Str)
    (h : ∀ d ∈ ds, ∃ p, m.get d.key = some p ∧ d.Agrees p) :
    ∃ ids', (writeAll m actor ds response ids).eval env w =
      (.ok ({ response with unchanged := response.unchanged + ds.length }, ids'), w) := by
  induction ds generalizing response ids with
  | nil => exact ⟨ids, rfl⟩
  | cons d ds ih =>
    obtain ⟨p, hp, ha⟩ := h d List.mem_cons_self
    have htail : ∀ d' ∈ ds, ∃ p, m.get d'.key = some p ∧ d'.Agrees p :=
      fun d' hd' => h d' (List.mem_cons_of_mem _ hd')
    obtain ⟨ids', hrest⟩ := ih { response with unchanged := response.unchanged + 1 }
      (HashMap.insert ids d.key p.id) htail
    refine ⟨ids', ?_⟩
    have hone : (writeOne d (m.get d.key) actor response).eval env w =
        (.ok (p.id, { response with unchanged := response.unchanged + 1 }), w) := by
      rw [hp]
      simp only [writeOne, (agrees_iff d p).2 ha, ↓reduceIte]
      rfl
    unfold writeAll
    rw [Txn.eval_bind_of_ok hone]
    simp only [hrest, List.length_cons, Nat.add_assoc, Nat.add_comm 1]

/-- A standing declaration is written without a statement. -/
theorem writing_standing (env : Nat → Tick) (actor : Str) (w : Store × Nat)
    (h : Standing declared w.1) (hd : Sound declared) (hs : w.1.Schema)
    (hp : stored.Perm (w.1.orgRows.map Stored.of)) (hpg : grants.Perm (orgGrants w.1)) :
    (writing declared actor stored (Grants.plan declared grants)).eval env w =
      (.ok { SyncProjectsResponse.default with
        unchanged := declared.length
        grantsDeclared := (declared.map fun d => d.grants.length).sum
        grantsUnchanged := (declared.map fun d => d.grants.length).sum }, w) := by
  have hagree : ∀ d ∈ declared, ∃ p, (byKey stored).get d.key = some p ∧ d.Agrees p := by
    intro d hdm
    obtain ⟨r, hr, hn, ha⟩ := h.present d hdm
    rw [get_byKey hs.path_key hp, (rowAt_names hs).2 ⟨hr, hn⟩]
    exact ⟨_, rfl, ha⟩
  have harchive : toArchive declared stored = [] := by
    apply List.eq_nil_of_length_eq_zero
    rw [(toArchive_perm hp).length_eq, archivable_standing h]
    rfl
  obtain ⟨ids, hall⟩ : ∃ ids, (writeAll (byKey stored) actor declared .default []).eval env w =
      (.ok ({ SyncProjectsResponse.default with unchanged := 0 + declared.length }, ids), w) :=
    writeAll_agrees w .default [] hagree
  unfold writing
  rw [plan_standing h hd hs hpg, harchive, Txn.eval_bind_of_ok hall]
  simp only [SyncProjectsResponse.default, Nat.zero_add]
  rfl

omit [ServerCollation] in
theorem accepted_standing (h : Standing declared s)
    (haliases : ∀ d ∈ declared, ∀ a ∈ s.projectAlias, ¬ FoldsOnto d.path a.aliasPath)
    (guards : Guards) : Accepted s declared guards where
  unaliased := haliases
  archive := by
    rw [archivable_standing h]
    exact .inr (Nat.zero_le _)
  revoke := by
    have hrevocable : revocable s declared = [] := by
      unfold revocable
      rw [List.filter_eq_nil_iff]
      intro g hg
      rw [declaresTeam_iff.2 ⟨_, declares_of_stored h hg⟩]
      exact Bool.false_ne_true
    rw [hrevocable]
    exact .inr (Nat.zero_le _)

end

/-- Whoever sends it, however its rows are ordered and cased and whatever it allows, a declaration
that was applied once is found in force: the store is left as it is, row for row. -/
theorem sync_reapplies [ServerCollation] {env env' : Nat → Tick} {caller caller' : Option Str}
    {req req' : SyncProjectsRequest} {response : SyncProjectsResponse} {s s' : Store}
    (hs : s.Schema) (h : (syncAs caller req).serve env s = (.ok response, s'))
    (hf : Faultless env') (ha : admitted caller' req'.scope = .ok actor)
    (hroots : Restated req.roots req'.roots) (hprojects : Restated req.projects req'.projects) :
    (syncAs caller' req').serve env' s' =
      (.ok { SyncProjectsResponse.default with
        unchanged := (rows req').length
        grantsDeclared := ((rows req').map fun d => d.grants.length).sum
        grantsUnchanged := ((rows req').map fun d => d.grants.length).sum }, s') := by
  rcases serve_syncAs caller req env s with ⟨e, he⟩ | ⟨actor₁, response₁, s₁, n, _, hw, happly, hok⟩
  · rw [he] at h
    cases h
  rw [hok] at h
  obtain ⟨_, rfl⟩ := Prod.mk.inj h.symm
  have hd := validation_sound hw
  have hs' := schema_of_eval hs happly
  obtain ⟨hconv, haccepted, _⟩ := apply_ok hd hs happly
  have hw' := hw.restated hroots hprojects
  have hd' := validation_sound hw'
  have hrows := hroots.append hprojects
  have hstanding := (hconv.inForce hd hs hs').standing.restated hrows
  have hunaliased : ∀ d' ∈ rows req', ∀ a ∈ s'.projectAlias, ¬ FoldsOnto d'.path a.aliasPath := by
    intro d' hd' a halias hfold
    obtain ⟨p', hp', rfl⟩ := List.mem_map.1 hd'
    obtain ⟨p, hp, hre⟩ := hrows.mem hp'
    rw [hconv.aliases] at halias
    exact haccepted.unaliased _ (List.mem_map_of_mem hp) a halias (hre.path.symm.trans hfold)
  have hnone := refusal_eq_none.2 (accepted_standing hstanding hunaliased
    ⟨req'.allowMassArchive, req'.allowMassRevoke⟩)
  rw [serve_syncAs_faultless hf ha hw']
  rcases apply_decides hf (rows req') actor ⟨req'.allowMassArchive, req'.allowMassRevoke⟩ (s', 2)
    with ⟨code, hcode, _⟩ | ⟨_, stored, grants, hp, hpg, heval⟩
  · rw [hnone] at hcode
    cases hcode
  · have hwriting := writing_standing env' actor (s', 6) hstanding hd' hs' hp hpg
    rw [heval, hwriting]

/-- The declaration of one root, its path shouted. -/
def acmeShouted : SyncProjectsRequest :=
  { acmeOnly with
    roots := [⟨"ACME".toList, "Acme".toList, "git".toList, [⟨"yadgar:team:dev".toList, 1⟩]⟩] }

theorem sync_reapplies_acme :
    letI := ServerCollation.ascii
    ∃ response s', (syncAs (some syncCaller) acmeOnly).serve (fun n => .quiet 1 n) strayStore =
        (.ok response, s') ∧
      (syncAs (some syncCaller) acmeShouted).serve (fun n => .quiet 2 n) s' =
        (.ok ⟨0, 0, 0, 0, 1, 1, 0, 0, 1⟩, s') := by
  let _ := ServerCollation.ascii
  obtain ⟨response, s', h⟩ := acmeOnly_answers
  refine ⟨response, s', h, ?_⟩
  apply sync_reapplies strayStore_schema h (fun _ => rfl) rfl
  · exact ⟨_, .refl _, .cons ⟨by decide, rfl, rfl, .refl _⟩ .nil⟩
  · exact ⟨_, .refl _, .nil⟩

end Sync

end ProjectDb
