import ProjectDb.Calls

namespace ProjectDb.Sync
open Text ProjectDb.Path Mvcc
set_option autoImplicit true

/-- The declaration is in force: what a sync owes every row and grant of the store. -/
structure InForce (declared : List Declared) (s s' : Store) : Prop where
  active : ∀ r ∈ s'.project, r.isOrg = true → r.status = ProjectStatus.active.toI8 →
    ∃ d ∈ declared, d.Names r
  present : ∀ d ∈ declared, ∃ r ∈ s'.project, d.Names r ∧ d.Agrees (.of r) ∧
    ∀ r' ∈ s'.project, d.Names r' → r' = r
  kept : ∀ d ∈ declared, ∀ r ∈ s.project, d.Names r → ∃ r' ∈ s'.project, r'.id = r.id ∧
    r'.path = r.path ∧ r'.createdBy = r.createdBy ∧ r'.lastSeenAt = r.lastSeenAt
  others : ∀ r ∈ s.project, r.isOrg = true → (∀ d ∈ declared, ¬ d.Names r) →
    ∃ r' ∈ s'.project, r'.id = r.id ∧ r'.path = r.path ∧
      (r.status = ProjectStatus.active.toI8 → r'.status = ProjectStatus.archived.toI8) ∧
      (r.status ≠ ProjectStatus.active.toI8 → r' = r)
  undeleted : ∀ r ∈ s.project, ∃ r' ∈ s'.project, r'.id = r.id
  grants : ∀ r ∈ s'.project, r.isOrg = true → ∀ team level,
    ⟨r.id, team, level⟩ ∈ s'.projectGrant ↔ ∃ d ∈ declared, d.Names r ∧ (team, level) ∈ d.grants
  personal : ∀ r, r.isOrg = false → (r ∈ s'.project ↔ r ∈ s.project)
  personal_grants : ∀ r ∈ s.project, r.isOrg = false → ∀ g : GrantRow, g.projectId = r.id →
    (g ∈ s'.projectGrant ↔ g ∈ s.projectGrant)
  aliases : s'.projectAlias = s.projectAlias
  writes : s'.projectWrite = s.projectWrite

theorem Minted.agrees (h : Minted actor d r) : d.Agrees (.of r) := by
  obtain ⟨uuid, now, rfl⟩ := h
  exact ⟨rfl, rfl, rfl⟩

theorem overwrite_agrees (actor : Str) (d : Declared) (now : Time) (r : ProjectRow) :
    d.Agrees (.of (overwrite actor d now r)) := ⟨rfl, rfl, rfl⟩

theorem Settled.names (h : Settled declared actor r r') (d : Declared) :
    d.Names r' ↔ d.Names r := by
  unfold Declared.Names
  rw [h.path_eq, h.isOrg_eq]

section
variable {declared : List Declared}

theorem Settled.agrees (hk : (declared.map Declared.key).Nodup) (h : Settled declared actor r r')
    (hd : d ∈ declared) (hn : d.Names r) : d.Agrees (.of r') := by
  have huniq : ∀ d' ∈ declared, d'.Names r → d' = d := fun d' hd' hn' =>
    List.inj_on_of_nodup_map hk hd' hd (hn'.2.symm.trans hn.2)
  cases h with
  | personal ho => exact absurd (hn.1.symm.trans ho) Bool.noConfusion
  | kept hd' hn' ha => exact huniq _ hd' hn' ▸ ha
  | overwritten hd' hn' _ =>
    rw [← huniq _ hd' hn']
    exact overwrite_agrees actor _ _ r
  | archived _ hnone _ => exact absurd hn (hnone d hd)
  | dormant _ hnone _ => exact absurd hn (hnone d hd)

theorem Settled.eq_of_personal (h : Settled declared actor r r') (ho : r.isOrg = false) :
    r' = r := by
  have hne : r.isOrg ≠ true := fun h => Bool.noConfusion (h.symm.trans ho)
  cases h with
  | personal _ => rfl
  | kept _ _ _ => rfl
  | overwritten _ hn _ => exact absurd hn.1 hne
  | archived hb _ _ => exact absurd hb hne
  | dormant _ _ _ => rfl

theorem Settled.stamps (h : Settled declared actor r r') :
    r'.createdBy = r.createdBy ∧ r'.lastSeenAt = r.lastSeenAt := by
  cases h <;> exact ⟨rfl, rfl⟩

end

variable [ServerCollation]

theorem Converged.inForce {s s' : Store} (hd : Sound declared) (hs : s.Schema) (hs' : s'.Schema)
    (h : Converged declared actor s s') : InForce declared s s' where
  active := by
    intro r hr ho hst
    rcases h.rows.mem_right hr with ⟨r₀, hr₀, hset⟩ | ⟨d, hdm, _, hm⟩
    · cases hset with
      | personal ho' => exact absurd (ho.symm.trans ho') Bool.noConfusion
      | kept hdm hn _ => exact ⟨_, hdm, hn⟩
      | overwritten hdm hn _ => exact ⟨_, hdm, hn⟩
      | archived _ _ _ => cases hst
      | dormant _ _ hne => exact absurd hst hne
    · exact ⟨d, hdm, hm.names (hd.folded d hdm)⟩
  present := by
    intro d hdm
    obtain ⟨r, hr, hn⟩ := h.named d hdm
    refine ⟨r, hr, hn, ?_, fun r' hr' hn' => names_inj hs' hr' hr hn' hn⟩
    rcases h.rows.mem_right hr with ⟨r₀, hr₀, hset⟩ | ⟨d', hdm', _, hm⟩
    · exact hset.agrees hd.keys hdm ((hset.names d).1 hn)
    · have hn' := hm.names (hd.folded d' hdm')
      rw [List.inj_on_of_nodup_map hd.keys hdm hdm' (hn.2.symm.trans hn'.2)]
      exact hm.agrees
  kept := by
    intro d _ r hr _
    obtain ⟨r', hr', hset⟩ := h.rows.mem_left hr
    exact ⟨r', hr', hset.id_eq, hset.path_eq, hset.stamps⟩
  others := by
    intro r hr ho hnone
    obtain ⟨r', hr', hset⟩ := h.rows.mem_left hr
    refine ⟨r', hr', hset.id_eq, hset.path_eq, ?_⟩
    cases hset with
    | personal ho' => exact absurd (ho.symm.trans ho') Bool.noConfusion
    | kept hdm hn _ => exact absurd hn (hnone _ hdm)
    | overwritten hdm hn _ => exact absurd hn (hnone _ hdm)
    | archived _ _ hst => exact ⟨fun _ => rfl, fun hne => absurd hst hne⟩
    | dormant _ _ hne => exact ⟨fun hst => absurd hst hne, fun _ => rfl⟩
  undeleted := by
    intro r hr
    obtain ⟨r', hr', hset⟩ := h.rows.mem_left hr
    exact ⟨r', hr', hset.id_eq⟩
  grants := by
    intro r hr ho team level
    rw [h.grants]
    constructor
    · rintro (⟨hg, hnot⟩ | ⟨d, hdm, r', hr', hn, hid, hmem⟩)
      · obtain ⟨r₀, hr₀, hid⟩ := hs.grant_project _ hg
        obtain ⟨r₁, hr₁, hset⟩ := h.rows.mem_left hr₀
        have he : r₁ = r := List.inj_on_of_nodup_map hs'.id_key hr₁ hr (hset.id_eq.trans hid)
        subst he
        exact absurd ⟨r₀, hr₀, hset.isOrg_eq.symm.trans ho, hid⟩ hnot
      · rw [List.inj_on_of_nodup_map hs'.id_key hr hr' hid.symm]
        exact ⟨d, hdm, hn, hmem⟩
    · rintro ⟨d, hdm, hn, hmem⟩
      exact .inr ⟨d, hdm, r, hr, hn, rfl, hmem⟩
  personal := by
    intro r ho
    constructor
    · intro hr
      rcases h.rows.mem_right hr with ⟨r₀, hr₀, hset⟩ | ⟨d, hdm, _, hm⟩
      · rw [hset.eq_of_personal (hset.isOrg_eq.symm.trans ho)]
        exact hr₀
      · exact absurd ((hm.names (hd.folded d hdm)).1.symm.trans ho) Bool.noConfusion
    · intro hr
      obtain ⟨r', hr', hset⟩ := h.rows.mem_left hr
      rwa [hset.eq_of_personal ho] at hr'
  personal_grants := by
    intro r hr ho g hid
    rw [h.grants]
    constructor
    · rintro (⟨hg, _⟩ | ⟨d, hdm, r', hr', hn, hid', _⟩)
      · exact hg
      · obtain ⟨r₁, hr₁, hset⟩ := h.rows.mem_left hr
        have he := List.inj_on_of_nodup_map hs'.id_key hr₁ hr'
          (hset.id_eq.trans (hid.symm.trans hid'.symm))
        subst he
        exact absurd (hn.1.symm.trans (hset.isOrg_eq.trans ho)) Bool.noConfusion
    · intro hg
      refine .inl ⟨hg, ?_⟩
      rintro ⟨r', hr', ho', hid'⟩
      have he := List.inj_on_of_nodup_map hs.id_key hr' hr (hid'.trans hid)
      subst he
      exact absurd (ho'.symm.trans ho) Bool.noConfusion
  aliases := h.aliases
  writes := h.writes

variable {env : Nat → Tick}

/-- A sync that answers has put its declaration in force, and its counts are exact. -/
theorem sync_converges {caller : Option Str} {req : SyncProjectsRequest}
    {response : SyncProjectsResponse} {s s' : Store} (hs : s.Schema)
    (h : (syncAs caller req).serve env s = (.ok response, s')) :
    InForce (rows req) s s' ∧ response = report s (rows req) ∧
      response.inserted + response.updated + response.reactivated + response.unchanged =
        (rows req).length := by
  rcases serve_syncAs caller req env s with ⟨e, he⟩ | ⟨actor, response', s₁, n, _, hw, ha, hok⟩
  · rw [he] at h
    cases h
  · rw [hok] at h
    obtain ⟨hanswer, rfl⟩ := Prod.mk.inj h
    cases Tick.acked_ok hanswer
    have hd := validation_sound hw
    obtain ⟨hconv, _, rfl⟩ := apply_ok hd hs ha
    exact ⟨hconv.inForce hd hs (schema_of_eval hs ha), rfl, report_partition s (rows req)⟩

/-- One root with one grant. -/
def acmeOnly : SyncProjectsRequest where
  scope := some ⟨"ops".toList, []⟩
  roots := [⟨"acme".toList, "Acme".toList, "git".toList, [⟨"yadgar:team:dev".toList, 1⟩]⟩]
  projects := []
  allowMassArchive := false
  allowMassRevoke := false

/-- An organisation row of the status the proto calls unspecified. -/
def stray : ProjectRow :=
  NewProject.row ⟨"1".toList, "zeta".toList, [], 0, some "git".toList, none, 3, "ops".toList,
    "ops".toList⟩ 1

def strayStore : Store := { Store.empty with project := [stray] }

theorem strayStore_schema : strayStore.Schema where
  id_key := by decide
  path_key := by decide
  row_fits := by decide
  alias_key := by decide
  write_key := List.nodup_nil
  grant_key := by decide
  grant_fits := by decide
  grant_project := by decide

omit [ServerCollation] in
theorem acmeOnly_answers :
    letI := ServerCollation.ascii
    ∃ response s', (syncAs (some syncCaller) acmeOnly).serve (fun n => .quiet 1 n) strayStore =
      (.ok response, s') :=
  ⟨_, _, rfl⟩

omit [ServerCollation] in
theorem sync_converges_acme :
    letI := ServerCollation.ascii
    ∃ response s', (syncAs (some syncCaller) acmeOnly).serve (fun n => .quiet 1 n) strayStore =
        (.ok response, s') ∧
      InForce (rows acmeOnly) strayStore s' ∧ response = report strayStore (rows acmeOnly) ∧
      response.inserted + response.updated + response.reactivated + response.unchanged =
        (rows acmeOnly).length := by
  let _ := ServerCollation.ascii
  obtain ⟨response, s', h⟩ := acmeOnly_answers
  exact ⟨response, s', h, sync_converges strayStore_schema h⟩

omit [ServerCollation] in
/-- The archive statement takes ACTIVE rows, so a row of another status is left as it is. -/
theorem sync_leaves_unspecified :
    letI := ServerCollation.ascii
    (strayStore.project.map fun r => toAsciiLowercase r.path).Nodup ∧
    (∀ r ∈ strayStore.project, ckProjectClass r = true ∧ ckProjectClassPath r = true) ∧
    ∃ response s', (syncAs (some syncCaller) acmeOnly).serve (fun n => .quiet 1 n) strayStore =
        (.ok response, s') ∧
      ∃ r ∈ s'.project, r.isOrg = true ∧ (∀ d ∈ rows acmeOnly, ¬ d.Names r) ∧
        r.status ≠ ProjectStatus.archived.toI8 := by
  let _ := ServerCollation.ascii
  refine ⟨by decide, by decide, _, _, rfl, stray, ?_, by decide, by decide, by decide⟩
  exact List.mem_cons_self

end ProjectDb.Sync
