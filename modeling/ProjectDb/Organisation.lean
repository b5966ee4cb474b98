import ProjectDb.Confinement

namespace ProjectDb
open Text ProjectDb.Path Mvcc
set_option autoImplicit true

theorem filter_updateRows {p q : ProjectRow → Bool} {f : ProjectRow → ProjectRow}
    (hq : ∀ r, q (f r) = q r) (rows : List ProjectRow) :
    (updateRows p f rows).filter q = updateRows p f (rows.filter q) := by
  unfold updateRows
  rw [List.filter_map]
  congr 1
  apply List.filter_congr
  intro r _
  simp only [Function.comp_apply]
  split
  · exact hq r
  · rfl

section
variable [ServerCollation]

/-- A statement of a sync, on organisation rows by ids of its own. -/
def Stmt.OnOrg (own : Str → Prop) : Stmt → Prop
  | .selectSyncLockForUpdate => True
  | .selectOrgProjects => True
  | .selectAliasIn _ => True
  | .selectOrgGrants => True
  | .updateDeclared _ _ _ _ id => own id
  | .insertProject n => own n.id ∧ isPrivateClass n.path = false ∧ n.ownerUserId = none
  | .updateArchived _ _ ids => ∀ id ∈ ids, own id
  | .deleteGrant .. => True
  | .updateGrant .. => True
  | .insertGrant g => own g.projectId
  | _ => False

/-- No private row has an id that the sync may name. -/
structure Parted (own : Str → Prop) (s : Store) : Prop where
  schema : s.Schema
  personal : ∀ r ∈ s.project, r.isOrg = false → ¬ own r.id

/-- Two stores that a sync sees as one. -/
structure OrgAlike (own : Str → Prop) (s s' : Store) : Prop where
  rows : s.orgRows = s'.orgRows
  aliases : s.projectAlias = s'.projectAlias
  grants : s.projectGrant = s'.projectGrant
  left : Parted own s
  right : Parted own s'

variable {own : Str → Prop}

theorem Parted.org {s : Store} (h : Parted own s) (hr : r ∈ s.project) (hid : own r.id) :
    r.isOrg = true := by
  cases ho : r.isOrg with
  | true => rfl
  | false => exact absurd hid (h.personal r hr ho)

omit [ServerCollation] in
theorem filter_org {s : Store} {p : ProjectRow → Bool}
    (h : ∀ r ∈ s.project, p r = true → r.isOrg = true) :
    s.project.filter p = s.orgRows.filter p := by
  unfold Store.orgRows
  rw [List.filter_filter]
  apply List.filter_congr
  intro r hr
  cases hp : p r with
  | false => rfl
  | true => rw [h r hr hp]; rfl

omit [ServerCollation] in
theorem any_org {s : Store} {p : ProjectRow → Bool}
    (h : ∀ r ∈ s.project, p r = true → r.isOrg = true) : s.project.any p = s.orgRows.any p := by
  rw [Bool.eq_iff_iff, List.any_eq_true, List.any_eq_true]
  apply exists_congr
  intro r
  rw [Store.mem_orgRows, and_assoc]
  apply and_congr_right
  intro hr
  exact ⟨fun hp => ⟨h r hr hp, hp⟩, And.right⟩

theorem Parted.setRows {s : Store} {p : ProjectRow → Bool} {f : ProjectRow → ProjectRow}
    (h : Parted own s) (hid : ∀ r, (f r).id = r.id) (horg : ∀ r, (f r).isOrg = r.isOrg)
    (hs : Store.Schema { s with project := updateRows p f s.project }) :
    Parted own { s with project := updateRows p f s.project } where
  schema := hs
  personal := by
    intro r hr ho
    obtain ⟨r₀, hr₀, rfl⟩ := mem_updateRows.1 hr
    have hsame : (if p r₀ then f r₀ else r₀).isOrg = r₀.isOrg ∧
        (if p r₀ then f r₀ else r₀).id = r₀.id := by
      split
      · exact ⟨horg r₀, hid r₀⟩
      · exact ⟨rfl, rfl⟩
    rw [hsame.1] at ho
    rw [hsame.2]
    exact h.personal r₀ hr₀ ho

theorem personal_snoc {s : Store} {row : ProjectRow} (h : Parted own s) (ho : row.isOrg = true) :
    ∀ r ∈ s.project ++ [row], r.isOrg = false → ¬ own r.id := by
  intro r hr hp
  rcases List.mem_append.1 hr with hr | hr
  · exact h.personal r hr hp
  · rw [List.mem_singleton.1 hr, ho] at hp
    cases hp

theorem OrgAlike.setRows {s s' : Store} {p : ProjectRow → Bool} {f : ProjectRow → ProjectRow}
    (h : OrgAlike own s s') (hid : ∀ r, (f r).id = r.id) (horg : ∀ r, (f r).isOrg = r.isOrg)
    (hs : Store.Schema { s with project := updateRows p f s.project })
    (hs' : Store.Schema { s' with project := updateRows p f s'.project }) :
    OrgAlike own { s with project := updateRows p f s.project }
      { s' with project := updateRows p f s'.project } where
  rows := by
    have hrows : (updateRows p f s.project).filter ProjectRow.isOrg =
        (updateRows p f s'.project).filter ProjectRow.isOrg := by
      rw [filter_updateRows horg, filter_updateRows horg]
      exact congrArg (updateRows p f) h.rows
    exact hrows
  aliases := h.aliases
  grants := h.grants
  left := h.left.setRows hid horg hs
  right := h.right.setRows hid horg hs'

theorem OrgAlike.setGrants {s s' : Store} (h : OrgAlike own s s')
    (f : List GrantRow → List GrantRow)
    (hs : Store.Schema { s with projectGrant := f s.projectGrant })
    (hs' : Store.Schema { s' with projectGrant := f s'.projectGrant }) :
    OrgAlike own { s with projectGrant := f s.projectGrant }
      { s' with projectGrant := f s'.projectGrant } where
  rows := h.rows
  aliases := h.aliases
  grants := congrArg f h.grants
  left := ⟨hs, h.left.personal⟩
  right := ⟨hs', h.right.personal⟩

theorem OrgAlike.insertProject {s s' : Store} {row : ProjectRow} (h : OrgAlike own s s')
    (ho : row.isOrg = true) (hs : Store.Schema { s with project := s.project ++ [row] })
    (hs' : Store.Schema { s' with project := s'.project ++ [row] }) :
    OrgAlike own { s with project := s.project ++ [row] }
      { s' with project := s'.project ++ [row] } where
  rows := by
    have hrows : (s.project ++ [row]).filter ProjectRow.isOrg =
        (s'.project ++ [row]).filter ProjectRow.isOrg := by
      rw [List.filter_append, List.filter_append]
      exact congrArg (fun rows => rows ++ _) h.rows
    exact hrows
  aliases := h.aliases
  grants := h.grants
  left := ⟨hs, personal_snoc h.left ho⟩
  right := ⟨hs', personal_snoc h.right ho⟩

theorem respects_org {t : Tick} {q : Stmt} {s : Store}
    (hexec : ∀ s', OrgAlike own s s' → q.exec t s' = q.exec t s)
    (hpatch : ∀ s', OrgAlike own s s' → ∀ a ws, q.exec t s = .ok (a, ws) →
      (engine.patchAll ws s).Schema → (engine.patchAll ws s').Schema →
        OrgAlike own (engine.patchAll ws s) (engine.patchAll ws s')) :
    q.Respects (OrgAlike own) t s := by
  intro s' h
  refine ⟨hexec s' h, fun a ws hx => ?_⟩
  have hx' : q.exec t s' = .ok (a, ws) := (hexec s' h).trans hx
  exact hpatch s' h a ws hx (exec_schema h.left.schema hx) (exec_schema h.right.schema hx')

theorem OrgAlike.filter_ids {s s' : Store} {ids : List Str} (h : OrgAlike own s s')
    (hown : ∀ id ∈ ids, own id) : (s'.project.filter fun r => ids.contains r.id) =
      s.project.filter fun r => ids.contains r.id := by
  have horg : ∀ {s : Store}, Parted own s → ∀ r ∈ s.project, ids.contains r.id = true →
      r.isOrg = true :=
    fun hs r hr hc => hs.org hr (hown r.id (List.contains_iff_mem.1 hc))
  rw [filter_org (horg h.left), filter_org (horg h.right), h.rows]

theorem respects_updateDeclared (hown : own rowId) (t : Tick) (s : Store) :
    (Stmt.updateDeclared displayName sourceRepo status actor rowId).Respects (OrgAlike own) t
      s := by
  apply respects_org
  · intro s' h
    have hhits : (s'.project.filter fun r => r.id == rowId) =
        s.project.filter fun r => r.id == rowId := by
      have horg : ∀ {s : Store}, Parted own s → ∀ r ∈ s.project, (r.id == rowId) = true →
          r.isOrg = true :=
        fun hs r hr he => hs.org hr ((beq_iff_eq.1 he).symm ▸ hown)
      rw [filter_org (horg h.left), filter_org (horg h.right), h.rows]
    simp only [Stmt.exec, hhits]
  · intro s' h a ws hx hs hs'
    simp only [Stmt.exec] at hx
    split at hx
    · cases hx
      exact h.setRows (fun _ => rfl) (fun _ => rfl) hs hs'
    · cases hx

theorem respects_updateArchived (hown : ∀ id ∈ ids, own id) (t : Tick) (s : Store) :
    (Stmt.updateArchived status actor ids).Respects (OrgAlike own) t s := by
  apply respects_org
  · intro s' h
    simp only [Stmt.exec, h.filter_ids hown]
  · intro s' h a ws hx hs hs'
    simp only [Stmt.exec] at hx
    split at hx
    · cases hx
      exact h.setRows (fun _ => rfl) (fun _ => rfl) hs hs'
    · cases hx

theorem respects_insertOrg {n : NewProject} (hid : own n.id) (hp : isPrivateClass n.path = false)
    (ho : n.ownerUserId = none) (t : Tick) (s : Store) :
    (Stmt.insertProject n).Respects (OrgAlike own) t s := by
  apply respects_org
  · intro s' h
    have horg : ∀ {s : Store}, Parted own s → ∀ r ∈ s.project,
        (r.id == n.id || eqIgnoreAsciiCase r.path n.path) = true → r.isOrg = true := by
      intro s hs r hr he
      rw [Bool.or_eq_true, beq_iff_eq, eqIgnoreAsciiCase_iff] at he
      rcases he with he | he
      · exact hs.org hr (he ▸ hid)
      · have hsome : r.ownerUserId.isSome = false := by
          rw [Bool.eq_false_iff]
          intro hsome
          have hprivate := (hs.schema.classed hr).2.1 hsome
          rw [isPrivateClass_congr he, hp] at hprivate
          cases hprivate
        rw [ProjectRow.isOrg, ← Option.not_isSome, hsome]
        rfl
    have hany : (s'.project.any fun r => r.id == n.id || eqIgnoreAsciiCase r.path n.path) =
        s.project.any fun r => r.id == n.id || eqIgnoreAsciiCase r.path n.path := by
      rw [any_org (horg h.left), any_org (horg h.right), h.rows]
    have hrow : (n.row t.now).id = n.id ∧ (n.row t.now).path = n.path := ⟨rfl, rfl⟩
    simp only [Stmt.exec, hrow, hany]
  · intro s' h a ws hx hs hs'
    obtain ⟨_, _, _, rfl⟩ := exec_insertProject_ok hx
    have horg : (n.row t.now).isOrg = true := by
      rw [ProjectRow.isOrg, NewProject.row, ho]
      rfl
    exact h.insertProject horg hs hs'

theorem respects_insertGrant {g : GrantRow} (hown : own g.projectId) (t : Tick) (s : Store) :
    (Stmt.insertGrant g).Respects (OrgAlike own) t s := by
  apply respects_org
  · intro s' h
    have horg : ∀ {s : Store}, Parted own s → ∀ r ∈ s.project, (r.id == g.projectId) = true →
        r.isOrg = true :=
      fun hs r hr he => hs.org hr ((beq_iff_eq.1 he).symm ▸ hown)
    have hany : (s'.project.any fun r => r.id == g.projectId) =
        s.project.any fun r => r.id == g.projectId := by
      rw [any_org (horg h.left), any_org (horg h.right), h.rows]
    simp only [Stmt.exec, hany, h.grants]
  · intro s' h a ws hx hs hs'
    obtain ⟨_, _, _, rfl⟩ := exec_insertGrant_ok hx
    exact h.setGrants (fun grants => grants ++ [g]) hs hs'

/-- A statement on organisation rows reads and writes the organisation's part alone. -/
theorem onOrg_respects {q : Stmt} (hq : q.OnOrg own) (t : Tick) (s : Store) :
    q.Respects (OrgAlike own) t s := by
  cases q with
  | updateDeclared displayName sourceRepo status actor id => exact respects_updateDeclared hq t s
  | insertProject n => exact respects_insertOrg hq.1 hq.2.1 hq.2.2 t s
  | updateArchived status actor ids => exact respects_updateArchived hq t s
  | insertGrant g => exact respects_insertGrant hq t s
  | deleteGrant projectId teamId =>
    apply respects_org
    · exact fun _ _ => rfl
    · intro s' h a ws hx hs hs'
      cases hx
      exact h.setGrants (fun grants => grants.filter _) hs hs'
  | updateGrant level projectId teamId =>
    apply respects_org
    · exact fun _ _ => rfl
    · intro s' h a ws hx hs hs'
      simp only [Stmt.exec] at hx
      split at hx
      · cases hx
        exact h.setGrants (fun grants => grants.map _) hs hs'
      · cases hx
  | selectSyncLockForUpdate =>
    apply respects_org
    · exact fun _ _ => rfl
    · intro s' h a ws hx hs hs'
      cases hx
      exact h
  | selectOrgProjects =>
    apply respects_org
    · intro s' h
      simp only [Stmt.exec, h.rows]
    · intro s' h a ws hx hs hs'
      cases hx
      exact h
  | selectAliasIn paths =>
    apply respects_org
    · intro s' h
      simp only [Stmt.exec, h.aliases]
    · intro s' h a ws hx hs hs'
      cases hx
      exact h
  | selectOrgGrants =>
    apply respects_org
    · intro s' h
      simp only [Stmt.exec, orgGrants, h.grants, h.rows]
    · intro s' h a ws hx hs hs'
      cases hx
      exact h
  | _ => exact absurd hq id

omit [ServerCollation] in
theorem own_updateRows {s : Store} {p : ProjectRow → Bool} {f : ProjectRow → ProjectRow}
    (h : ∀ r ∈ s.orgRows, own r.id) (hid : ∀ r, (f r).id = r.id)
    (horg : ∀ r, (f r).isOrg = r.isOrg) :
    ∀ r ∈ Store.orgRows { s with project := updateRows p f s.project }, own r.id := by
  intro r hr
  have hrows : Store.orgRows { s with project := updateRows p f s.project } =
      updateRows p f s.orgRows := filter_updateRows horg _
  rw [hrows] at hr
  obtain ⟨r₀, hr₀, rfl⟩ := mem_updateRows.1 hr
  split
  · rw [hid]
    exact h r₀ hr₀
  · exact h r₀ hr₀

theorem onOrg_keeps {q : Stmt} (hq : q.OnOrg own) (t : Tick) (s : Store) :
    q.Keeps (fun s => ∀ r ∈ s.orgRows, own r.id) t s := by
  intro h a ws hx
  cases q with
  | updateDeclared displayName sourceRepo status actor id =>
    simp only [Stmt.exec] at hx
    split at hx
    · cases hx
      exact own_updateRows h (fun _ => rfl) fun _ => rfl
    · cases hx
  | insertProject n =>
    obtain ⟨_, _, _, rfl⟩ := exec_insertProject_ok hx
    intro r hr
    obtain ⟨hr, ho⟩ := Store.mem_orgRows.1 hr
    rcases List.mem_append.1 hr with hr | hr
    · exact h r (Store.mem_orgRows.2 ⟨hr, ho⟩)
    · rw [List.mem_singleton.1 hr]
      exact hq.1
  | updateArchived status actor ids =>
    simp only [Stmt.exec] at hx
    split at hx
    · cases hx
      exact own_updateRows h (fun _ => rfl) fun _ => rfl
    · cases hx
  | insertGrant g =>
    obtain ⟨_, _, _, rfl⟩ := exec_insertGrant_ok hx
    exact h
  | deleteGrant projectId teamId =>
    cases hx
    exact h
  | updateGrant level projectId teamId =>
    simp only [Stmt.exec] at hx
    split at hx
    · cases hx
      exact h
    · cases hx
  | selectSyncLockForUpdate =>
    cases hx
    exact h
  | selectOrgProjects =>
    cases hx
    exact h
  | selectAliasIn paths =>
    cases hx
    exact h
  | selectOrgGrants =>
    cases hx
    exact h
  | _ => exact absurd hq id

end

end ProjectDb
