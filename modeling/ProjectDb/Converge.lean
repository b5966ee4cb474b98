import ProjectDb.Regrant

namespace ProjectDb.Sync
open Text ProjectDb.Path Grants Mvcc
set_option autoImplicit true

/-- What a sync makes of a stored row. -/
inductive Settled (declared : List Declared) (actor : Str) (r : ProjectRow) : ProjectRow → Prop
  | personal : r.isOrg = false → Settled declared actor r r
  | kept : d ∈ declared → d.Names r → d.Agrees (.of r) → Settled declared actor r r
  | overwritten : d ∈ declared → d.Names r → ¬ d.Agrees (.of r) →
      Settled declared actor r (overwrite actor d now r)
  | archived : r.isOrg = true → (∀ d ∈ declared, ¬ d.Names r) →
      r.status = ProjectStatus.active.toI8 →
      Settled declared actor r (r.archived ProjectStatus.archived.toI8 actor now)
  | dormant : r.isOrg = true → (∀ d ∈ declared, ¬ d.Names r) →
      r.status ≠ ProjectStatus.active.toI8 → Settled declared actor r r

/-- The store after a sync, as the declaration asks for it. -/
structure Converged (declared : List Declared) (actor : Str) (s s' : Store) : Prop where
  rows : Grown (Settled declared actor)
    (fun r => ∃ d ∈ declared, s.rowAt d.key = none ∧ Minted actor d r) s.project s'.project
  named : ∀ d ∈ declared, ∃ r ∈ s'.project, d.Names r
  grants : ∀ g, g ∈ s'.projectGrant ↔ (g ∈ s.projectGrant ∧ ¬ OrgGrant s g) ∨
    ∃ d ∈ declared, ∃ r ∈ s'.project, d.Names r ∧ r.id = g.projectId ∧
      (g.teamId, g.level) ∈ d.grants
  aliases : s'.projectAlias = s.projectAlias
  writes : s'.projectWrite = s.projectWrite

theorem Settled.id_eq (h : Settled declared actor r r') : r'.id = r.id := by
  cases h <;> rfl

theorem Settled.path_eq (h : Settled declared actor r r') : r'.path = r.path := by
  cases h <;> rfl

theorem Settled.isOrg_eq (h : Settled declared actor r r') : r'.isOrg = r.isOrg := by
  cases h <;> rfl

def isActiveRow (r : ProjectRow) : Bool := r.status == ProjectStatus.active.toI8

def undeclared (declared : List Declared) (r : ProjectRow) : Bool :=
  !(declared.map Declared.key).contains (toAsciiLowercase r.path)

/-- The organisation rows a declaration archives. -/
def archivable (s : Store) (declared : List Declared) : List ProjectRow :=
  s.orgRows.filter fun r => isActiveRow r && undeclared declared r

def declaresTeam (declared : List Declared) (pair : Str × Str) : Bool :=
  declared.any fun d => d.key == pair.1 && d.grants.any fun g => g.1 == pair.2

def declaresLevel (declared : List Declared) (pair : Str × Str) (level : Int) : Bool :=
  declared.any fun d => d.key == pair.1 && d.grants.contains (pair.2, level)

/-- The grants on organisation rows a declaration deletes. -/
def revocable (s : Store) (declared : List Declared) : List StoredGrant :=
  (orgGrants s).filter fun g => !declaresTeam declared (pairOf g)

/-- The counts a declaration owes a store. -/
def report (s : Store) (declared : List Declared) : SyncProjectsResponse where
  inserted := declared.countP fun d => (s.rowAt d.key).isNone
  updated := declared.countP fun d => (s.rowAt d.key).any fun r =>
    isActiveRow r && !decide (d.Agrees (.of r))
  archived := (archivable s declared).length
  reactivated := declared.countP fun d => (s.rowAt d.key).any fun r => !isActiveRow r
  unchanged := declared.countP fun d => (s.rowAt d.key).any fun r => decide (d.Agrees (.of r))
  grantsDeclared := (declared.map fun d => d.grants.length).sum
  grantsInserted := (declared.map fun d => d.grants.countP fun g =>
    !((orgGrants s).map pairOf).contains (d.key, g.1)).sum
  grantsDeleted := (revocable s declared).length
  grantsUnchanged := (orgGrants s).countP fun g => declaresLevel declared (pairOf g) g.level

theorem report_partition (s : Store) (declared : List Declared) :
    (report s declared).inserted + (report s declared).updated +
      (report s declared).reactivated + (report s declared).unchanged = declared.length := by
  simp only [report]
  induction declared with
  | nil => rfl
  | cons d ds ih =>
    simp only [List.countP_cons, List.length_cons]
    cases h : s.rowAt d.key with
    | none => simp; omega
    | some r =>
      by_cases ha : d.Agrees (.of r)
      · have hs : isActiveRow r = true := beq_iff_eq.2 ha.2.2
        simp [ha, hs]
        omega
      · cases hs : isActiveRow r <;> simp [ha, hs] <;> omega

theorem declaresTeam_iff {declared : List Declared} {pair : Str × Str} :
    declaresTeam declared pair = true ↔ ∃ l, Declares declared pair l := by
  simp only [declaresTeam, List.any_eq_true, Bool.and_eq_true, beq_iff_eq, Declares]
  constructor
  · rintro ⟨d, hd, hk, g, hg, he⟩
    exact ⟨g.2, d, hd, hk, by rwa [← he]⟩
  · rintro ⟨l, d, hd, hk, hg⟩
    exact ⟨d, hd, hk, _, hg, rfl⟩

theorem declaresLevel_iff {declared : List Declared} {pair : Str × Str} {l : Int} :
    declaresLevel declared pair l = true ↔ Declares declared pair l := by
  simp only [declaresLevel, List.any_eq_true, Bool.and_eq_true, beq_iff_eq, Declares,
    List.contains_iff_mem]

theorem undeclared_iff {declared : List Declared} {r : ProjectRow} (ho : r.isOrg = true) :
    undeclared declared r = true ↔ ∀ d ∈ declared, ¬ d.Names r := by
  simp only [undeclared, Bool.not_eq_true', ← Bool.not_eq_true, List.contains_iff_mem,
    List.mem_map, not_exists, not_and, Declared.Names, ho, true_and]
  exact ⟨fun h d hd he => h d hd he.symm, fun h d hd he => h d hd he.symm⟩

theorem mem_archivable {s : Store} {declared : List Declared} :
    r ∈ archivable s declared ↔ r ∈ s.project ∧ r.isOrg = true ∧
      r.status = ProjectStatus.active.toI8 ∧ ∀ d ∈ declared, ¬ d.Names r := by
  simp only [archivable, List.mem_filter, Store.mem_orgRows, Bool.and_eq_true, and_assoc,
    isActiveRow, beq_iff_eq]
  constructor
  · rintro ⟨hr, ho, hs, hu⟩
    exact ⟨hr, ho, hs, (undeclared_iff ho).1 hu⟩
  · rintro ⟨hr, ho, hs, hn⟩
    exact ⟨hr, ho, hs, (undeclared_iff ho).2 hn⟩

section
variable {s : Store} {declared : List Declared}

theorem toArchive_perm {stored : List Stored} (hp : stored.Perm (s.orgRows.map Stored.of)) :
    (toArchive declared stored).Perm ((archivable s declared).map ProjectRow.id) := by
  have hf := (hp.filter fun st =>
    isActive st && !(declared.map Declared.key).contains (toAsciiLowercase st.path)).map Stored.id
  rw [List.filter_map, List.map_map] at hf
  exact hf

theorem activeCount_eq {stored : List Stored} (hp : stored.Perm (s.orgRows.map Stored.of)) :
    (stored.filter isActive).length = s.orgRows.countP isActiveRow := by
  rw [(hp.filter isActive).length_eq, List.filter_map, List.length_map,
    ← List.countP_eq_length_filter]
  rfl

theorem deletes_length {stored : List StoredGrant} (hp : stored.Perm (orgGrants s)) :
    (Grants.plan declared stored).deletes.length = (revocable s declared).length := by
  rw [plan_eq]
  simp only [revoked, List.length_map, revocable]
  have hc : (fun g => (HashMap.get (wanted declared) (pairOf g)).isNone) =
      fun g => !declaresTeam declared (pairOf g) := by
    funext g
    rw [Bool.eq_iff_iff, Option.isNone_iff_eq_none, get_wanted_none, Bool.not_eq_true',
      ← Bool.not_eq_true, declaresTeam_iff, not_exists]
  rw [hc]
  exact (hp.filter _).length_eq

theorem unchanged_eq (hd : Sound declared) {stored : List StoredGrant}
    (hp : stored.Perm (orgGrants s)) : (Grants.plan declared stored).unchanged =
      (orgGrants s).countP fun g => declaresLevel declared (pairOf g) g.level := by
  rw [plan_eq]
  have hc : (fun g : StoredGrant => HashMap.get (wanted declared) (pairOf g) == some g.level) =
      fun g => declaresLevel declared (pairOf g) g.level := by
    funext g
    rw [Bool.eq_iff_iff, beq_iff_eq, get_wanted hd, declaresLevel_iff]
  simp only [hc]
  exact hp.countP_eq _

theorem inserts_length {stored : List StoredGrant} (hp : stored.Perm (orgGrants s)) :
    (Grants.plan declared stored).inserts.length =
      (declared.map fun d => d.grants.countP fun g =>
        !((orgGrants s).map pairOf).contains (d.key, g.1)).sum := by
  have hc : ∀ k, (kept stored).contains k = ((orgGrants s).map pairOf).contains k := by
    intro k
    rw [Bool.eq_iff_iff, List.contains_iff_mem, List.contains_iff_mem]
    exact (hp.map pairOf).mem_iff
  rw [plan_eq]
  simp only [missing, List.length_flatMap, List.length_map, List.countP_eq_length_filter, hc]

theorem tally_report (hs : (s.project.map fun r => toAsciiLowercase r.path).Nodup)
    {stored : List Stored} (hp : stored.Perm (s.orgRows.map Stored.of)) :
    tally (byKey stored) declared .default =
      { SyncProjectsResponse.default with
        inserted := (report s declared).inserted
        updated := (report s declared).updated
        reactivated := (report s declared).reactivated
        unchanged := (report s declared).unchanged } := by
  simp only [tally, report, SyncProjectsResponse.default, Nat.zero_add, get_byKey hs hp,
    Option.isNone_map, Option.any_map, SyncProjectsResponse.mk.injEq, true_and]
  refine ⟨?_, rfl, ?_, trivial⟩
  · apply List.countP_congr
    intro d _
    cases s.rowAt d.key with
    | none => rfl
    | some r =>
      simp only [Option.any_some, Bool.and_eq_true, Bool.not_eq_true', decide_eq_false_iff_not,
        ← agrees_iff]
      simp only [reactivating, isActiveRow, Stored.of, bne]
      cases hst : r.status == ProjectStatus.active.toI8 <;> simp
  · apply List.countP_congr
    intro d _
    cases s.rowAt d.key with
    | none => rfl
    | some r =>
      simp only [Option.any_some, decide_eq_true_iff]
      rw [agrees_iff]

end

/-- The store's conditions on a declaration: no former path in it, and both guards. -/
structure Accepted (s : Store) (declared : List Declared) (guards : Guards) : Prop where
  unaliased : ∀ d ∈ declared, ∀ a ∈ s.projectAlias, ¬ FoldsOnto d.path a.aliasPath
  archive : guards.allowMassArchive = true ∨
    2 * (archivable s declared).length ≤ s.orgRows.countP isActiveRow
  revoke : guards.allowMassRevoke = true ∨
    2 * (revocable s declared).length ≤ (orgGrants s).length

theorem guard_ok_iff (archiving active : Nat) (allowed : Bool) :
    guard archiving active allowed = .ok () ↔ allowed = true ∨ 2 * archiving ≤ active := by
  unfold guard
  rw [Nat.mul_comm 2]
  split
  · rename_i h
    simpa only [Bool.or_eq_true, decide_eq_true_iff, true_iff] using h
  · rename_i h
    simpa only [Bool.or_eq_true, decide_eq_true_iff, reduceCtorEq, false_iff] using h

theorem revokeGuard_ok_iff (deleting stored : Nat) (allowed : Bool) :
    revokeGuard deleting stored allowed = .ok () ↔ allowed = true ∨ 2 * deleting ≤ stored := by
  unfold revokeGuard
  rw [Nat.mul_comm 2]
  split
  · rename_i h
    simpa only [Bool.or_eq_true, decide_eq_true_iff, true_iff] using h
  · rename_i h
    simpa only [Bool.or_eq_true, decide_eq_true_iff, reduceCtorEq, false_iff] using h

variable [ServerCollation] {env : Nat → Tick}

theorem refuseAliases_ok {w : Store × Nat}
    (h : (refuseAliases declared).eval env w = (.ok (), w')) :
    w'.1 = w.1 ∧ ∀ d ∈ declared, ∀ a ∈ w.1.projectAlias, ¬ FoldsOnto d.path a.aliasPath := by
  obtain ⟨found, w₁, hq, h⟩ := Txn.eval_bind_ok h
  obtain ⟨ws, hx, rfl⟩ := Txn.eval_query_ok hq
  cases hx
  split at h
  · rename_i hnone
    cases h
    refine ⟨rfl, fun d hd a ha hf => ?_⟩
    have hnil := List.head?_eq_none_iff.1 hnone
    have hp := (env w.2).order_perm ((w.1.projectAlias.filter fun a =>
      pathIn a.aliasPath (declared.map Declared.path)).map AliasRow.aliasPath)
    rw [hnil] at hp
    have hmem : a.aliasPath ∈ (w.1.projectAlias.filter fun a =>
        pathIn a.aliasPath (declared.map Declared.path)).map AliasRow.aliasPath := by
      apply List.mem_map_of_mem
      refine List.mem_filter.2 ⟨ha, List.any_eq_true.2 ⟨d.path, List.mem_map_of_mem hd, ?_⟩⟩
      exact (eqIgnoreAsciiCase_iff _ _).2 hf.symm
    rw [← hp.mem_iff] at hmem
    cases hmem
  · cases h

/-- The rows after the loop and the archive statement. -/
theorem settled_rows {s w : Store} {ids : List Str} (hs : s.Schema) (hw : w.Schema)
    (hup : Grown (Written declared actor)
      (fun r => ∃ d ∈ declared, s.rowAt d.key = none ∧ Minted actor d r) s.project w.project)
    (hids : ids.Perm ((archivable s declared).map ProjectRow.id)) (now : Time) :
    Grown (Settled declared actor)
      (fun r => ∃ d ∈ declared, s.rowAt d.key = none ∧ Minted actor d r) s.project
      (updateRows (fun r => ids.contains r.id)
        (.archived ProjectStatus.archived.toI8 actor now) w.project) := by
  have hmem : ∀ r ∈ s.project, ids.contains r.id = true ↔ r ∈ archivable s declared := by
    intro r hr
    rw [List.contains_iff_mem, hids.mem_iff, List.mem_map]
    constructor
    · rintro ⟨r', hr', he⟩
      rw [← List.inj_on_of_nodup_map hs.id_key (mem_archivable.1 hr').1 hr he]
      exact hr'
    · exact fun h => ⟨r, h, rfl⟩
  obtain ⟨kept, news, hsplit, hkept, hnews⟩ := hup
  have hdisjoint : ∀ r ∈ news, ids.contains r.id = false := by
    intro r hr
    apply eq_false_of_ne_true
    rw [List.contains_iff_mem, hids.mem_iff, List.mem_map]
    rintro ⟨r₀, hr₀, he⟩
    obtain ⟨r₁, hr₁, hwritten⟩ := hkept.mem_left (mem_archivable.1 hr₀).1
    have hn := hw.id_key
    rw [hsplit, List.map_append, List.nodup_append] at hn
    exact hn.2.2 _ (List.mem_map_of_mem hr₁) _ (List.mem_map_of_mem hr) (hwritten.id_eq.trans he)
  refine ⟨updateRows (fun r => ids.contains r.id)
    (.archived ProjectStatus.archived.toI8 actor now) kept, news, ?_, ?_, hnews⟩
  · rw [hsplit]
    unfold updateRows
    rw [List.map_append]
    have hsame := updateRows_congr (q := fun _ => false) hdisjoint
      (.archived ProjectStatus.archived.toI8 actor now)
    unfold updateRows at hsame
    rw [hsame]
    simp only [Bool.false_eq_true, ↓reduceIte, List.map_id']
  · apply List.forall₂_map_right_iff.2
    apply hkept.imp_mem
    intro r hr r' _ hwritten
    have hc : ids.contains r'.id = true ↔ r ∈ archivable s declared := by
      rw [hwritten.id_eq]
      exact hmem r hr
    split
    · rename_i h
      obtain ⟨_, ho, hst, hnone⟩ := mem_archivable.1 (hc.1 h)
      rw [hwritten.eq_of_other hnone]
      exact .archived ho hnone hst
    · rename_i h
      cases hwritten with
      | kept hd hn ha => exact .kept hd hn ha
      | overwritten hd hn ha => exact .overwritten hd hn ha
      | other hnone =>
        cases ho : r.isOrg with
        | false => exact .personal ho
        | true =>
          refine .dormant ho hnone fun hst => h (hc.2 ?_)
          exact mem_archivable.2 ⟨hr, ho, hst, hnone⟩

theorem selectSyncLock_ok {w : Store × Nat}
    (h : (Txn.query .selectSyncLockForUpdate).eval env w = (.ok (), w')) : w'.1 = w.1 := by
  obtain ⟨ws, hx, rfl⟩ := Txn.eval_query_ok h
  cases hx
  rfl

theorem selectOrgProjects_ok {w : Store × Nat} {stored : List Stored}
    (h : (Txn.query .selectOrgProjects).eval env w = (.ok stored, w')) :
    stored.Perm (w.1.orgRows.map Stored.of) ∧ w'.1 = w.1 := by
  obtain ⟨ws, hx, rfl⟩ := Txn.eval_query_ok h
  cases hx
  exact ⟨(env w.2).order_perm _, rfl⟩

theorem selectOrgGrants_ok {w : Store × Nat} {stored : List StoredGrant}
    (h : (Txn.query .selectOrgGrants).eval env w = (.ok stored, w')) :
    stored.Perm (orgGrants w.1) ∧ w'.1 = w.1 := by
  obtain ⟨ws, hx, rfl⟩ := Txn.eval_query_ok h
  cases hx
  exact ⟨(env w.2).order_perm _, rfl⟩

/-- A sync that is applied converges the store, was accepted by it, and reports what it did. -/
theorem apply_ok {w : Store × Nat} (hd : Sound declared) (hs : w.1.Schema)
    (h : (apply declared actor guards).eval env w = (.ok response, w')) :
    Converged declared actor w.1 w'.1 ∧ Accepted w.1 declared guards ∧
      response = report w.1 declared := by
  have haliases : ((apply declared actor guards).eval env w).2.1.projectAlias = w.1.projectAlias :=
    Txn.eval_projectAlias _ w
  rw [h] at haliases
  obtain ⟨_, w₁, hlock, h⟩ := Txn.eval_bind_ok h
  have hw₁ := selectSyncLock_ok hlock
  obtain ⟨stored, w₂, hread, h⟩ := Txn.eval_bind_ok h
  obtain ⟨hp, hw₂⟩ := selectOrgProjects_ok hread
  obtain ⟨_, w₃, halias, h⟩ := Txn.eval_bind_ok h
  obtain ⟨hw₃, hunaliased⟩ := refuseAliases_ok halias
  obtain ⟨_, w₄, hguard, h⟩ := Txn.eval_bind_ok h
  obtain ⟨hpassed, rfl⟩ := Prod.mk.inj hguard
  obtain ⟨grants, w₅, hgrants, h⟩ := Txn.eval_bind_ok h
  obtain ⟨hpg, hw₅⟩ := selectOrgGrants_ok hgrants
  rw [hw₁] at hp hw₂
  rw [hw₂] at hw₃ hunaliased
  rw [hw₃] at hpg hw₅
  obtain ⟨_, w₆, hrevoke, h⟩ := Txn.eval_bind_ok h
  obtain ⟨hspared, rfl⟩ := Prod.mk.inj hrevoke
  obtain ⟨⟨response₁, ids⟩, w₇, hall, h⟩ := Txn.eval_bind_ok h
  obtain ⟨_, w₈, harchive, h⟩ := Txn.eval_bind_ok h
  obtain ⟨_, w₉, hwrite, h⟩ := Txn.eval_bind_ok h
  cases h
  rw [← hw₅] at hs hp hpg hunaliased haliases ⊢
  obtain ⟨hup, hresponse⟩ := writeAll_ok hd hs (fun d _ => get_byKey hs.path_key hp d.key) hall
  have hs₇ := schema_of_eval hs hall
  have hs₈ := schema_of_eval hs₇ harchive
  obtain ⟨now, hw₈⟩ := archive_ok harchive
  have hw₉ := write_ok hwrite
  have hrows := settled_rows hs hs₇ hup.rows (toArchive_perm hp) now
  have hnamed : ∀ d ∈ declared, ∃ r ∈ w₈.1.project, d.Names r ∧ ids.get d.key = some r.id := by
    intro d hdm
    obtain ⟨r, hr, hn, hid⟩ := hup.named d hdm
    rw [hw₈]
    refine ⟨_, mem_updateRows.2 ⟨r, hr, rfl⟩, ?_⟩
    split
    · exact ⟨hn, hid⟩
    · exact ⟨hn, hid⟩
  have hproject₈ : w₈.1.project = updateRows (fun r => (toArchive declared stored).contains r.id)
      (.archived ProjectStatus.archived.toI8 actor now) w₇.1.project := congrArg Store.project hw₈
  rw [← hproject₈] at hrows
  have hgrant₈ : w₈.1.projectGrant = w₅.1.projectGrant := by
    rw [hw₈]
    exact hup.grants
  have hkeep : ∀ r ∈ w₅.1.project, ∃ r' ∈ w₈.1.project, r'.id = r.id ∧ r'.path = r.path ∧
      r'.isOrg = r.isOrg := by
    intro r hr
    obtain ⟨r', hr', hset⟩ := hrows.mem_left hr
    exact ⟨r', hr', hset.id_eq, hset.path_eq, hset.isOrg_eq⟩
  have hproject₉ : w'.1.project = w₈.1.project := by
    rw [hw₉]
  have harch : (toArchive declared stored).length = (archivable w₅.1 declared).length := by
    rw [(toArchive_perm hp).length_eq, List.length_map]
  refine ⟨⟨?_, ?_, ?_, ?_, ?_⟩, ⟨hunaliased, ?_, ?_⟩, ?_⟩
  · rw [hproject₉]
    exact hrows
  · intro d hdm
    obtain ⟨r, hr, hn, _⟩ := hnamed d hdm
    rw [hproject₉]
    exact ⟨r, hr, hn⟩
  · intro g
    rw [congrArg Store.projectGrant hw₉, hproject₉, hgrant₈]
    exact mem_regranted hd hs hs₈ hpg hkeep hnamed g
  · exact haliases
  · rw [congrArg Store.projectWrite hw₉, congrArg Store.projectWrite hw₈]
    exact hup.writes
  · have hg := (guard_ok_iff _ _ _).1 hpassed
    rwa [harch, activeCount_eq hp] at hg
  · have hg := (revokeGuard_ok_iff _ _ _).1 hspared
    rwa [deletes_length hpg, hpg.length_eq] at hg
  · rw [hresponse, tally_report hs.path_key hp]
    simp only [report, harch, inserts_length hpg,
      deletes_length hpg, unchanged_eq hd hpg]

end ProjectDb.Sync
