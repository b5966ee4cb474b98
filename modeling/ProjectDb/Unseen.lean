import ProjectDb.Simulation

namespace ProjectDb
open Text Mvcc
set_option autoImplicit true

def ProjectRow.unseen (r : ProjectRow) : ProjectRow := { r with lastSeenAt := none }

def Store.unseen (s : Store) : Store := { s with project := s.project.map ProjectRow.unseen }

theorem tables_of_unseen {s s' : Store} (h : s.unseen = s'.unseen) :
    s.projectAlias = s'.projectAlias ∧ s.projectGrant = s'.projectGrant ∧
      s.projectWrite = s'.projectWrite := by
  have haliases := congrArg Store.projectAlias h
  have hgrants := congrArg Store.projectGrant h
  have hwrites := congrArg Store.projectWrite h
  exact ⟨haliases, hgrants, hwrites⟩

/-- A statement that neither looks at the last-seen column nor writes it. -/
def Stmt.blind : Stmt → Bool
  | .updateLastSeen .. => false
  | .selectProject _ => false
  | .selectPage .. => false
  | _ => true

theorem filter_unseen {p : ProjectRow → Bool} (hp : ∀ r, p r.unseen = p r)
    (rows : List ProjectRow) :
    (rows.map ProjectRow.unseen).filter p = (rows.filter p).map ProjectRow.unseen := by
  rw [List.filter_map]
  congr 1
  exact List.filter_congr fun r _ => hp r

theorem map_unseen {g : ProjectRow → β} (hg : ∀ r, g r.unseen = g r) (rows : List ProjectRow) :
    (rows.map ProjectRow.unseen).map g = rows.map g := by
  rw [List.map_map]
  exact List.map_congr_left fun r _ => hg r

theorem any_unseen {p : ProjectRow → Bool} (hp : ∀ r, p r.unseen = p r) (rows : List ProjectRow) :
    (rows.map ProjectRow.unseen).any p = rows.any p := by
  rw [List.any_map]
  exact congrArg rows.any (funext hp)

theorem all_unseen {p : ProjectRow → Bool} (hp : ∀ r, p r.unseen = p r) (rows : List ProjectRow) :
    (rows.map ProjectRow.unseen).all p = rows.all p := by
  rw [List.all_map]
  exact congrArg rows.all (funext hp)

theorem orgRows_unseen (s : Store) : s.unseen.orgRows = s.orgRows.map ProjectRow.unseen :=
  filter_unseen (fun _ => rfl) s.project

theorem orgGrants_unseen (s : Store) : orgGrants s.unseen = orgGrants s := by
  unfold orgGrants
  apply List.flatMap_congr
  intro g _
  rw [orgRows_unseen, filter_unseen fun _ => rfl, map_unseen fun _ => rfl]

theorem ancestorRows_unseen (s : Store) (chain : List Str) :
    ancestorRows s.unseen chain = ancestorRows s chain := by
  have hlive : (s.unseen.project.filter fun p => pathIn p.path chain).map
      (fun p => (⟨p.path, p.path, p.status, 0, p.sourceRepo⟩ : Found)) =
      (s.project.filter fun p => pathIn p.path chain).map
        fun p => ⟨p.path, p.path, p.status, 0, p.sourceRepo⟩ :=
    (congrArg (List.map _) (filter_unseen (fun _ => rfl) s.project)).trans
      (map_unseen (fun _ => rfl) _)
  unfold ancestorRows
  rw [hlive]
  congr 1
  apply List.flatMap_congr
  intro a _
  exact (congrArg (List.map _) (filter_unseen (fun _ => rfl) s.project)).trans
    (map_unseen (fun _ => rfl) _)

theorem updateRows_unseen {p : ProjectRow → Bool} {f : ProjectRow → ProjectRow}
    (hp : ∀ r, p r.unseen = p r) (hf : ∀ r, (f r.unseen).unseen = (f r).unseen)
    (rows : List ProjectRow) :
    (updateRows p f (rows.map ProjectRow.unseen)).map ProjectRow.unseen =
      (updateRows p f rows).map ProjectRow.unseen := by
  unfold updateRows
  rw [List.map_map, List.map_map, List.map_map]
  apply List.map_congr_left
  intro r _
  simp only [Function.comp_apply, hp]
  split
  · exact hf r
  · rfl

section
variable [ServerCollation]

theorem exec_unseen {q : Stmt} (h : q.blind = true) (t : Tick) (s : Store) :
    q.exec t s.unseen = q.exec t s := by
  cases q with
  | selectOrgProjects =>
    have hstored : s.unseen.orgRows.map Stored.of = s.orgRows.map Stored.of := by
      rw [orgRows_unseen]
      exact map_unseen (fun _ => rfl) _
    simp only [Stmt.exec, hstored]
  | selectOrgGrants => simp only [Stmt.exec, orgGrants_unseen]
  | updateDeclared displayName sourceRepo status actor id =>
    have hhits : s.unseen.project.filter (fun r => r.id == id) =
        (s.project.filter fun r => r.id == id).map ProjectRow.unseen :=
      filter_unseen (fun _ => rfl) _
    have hids := map_unseen (g := ProjectRow.id) (fun _ => rfl)
      (s.project.filter fun r => r.id == id)
    have hfits := all_unseen
      (p := fun r => (r.declared displayName sourceRepo status actor t.now).fits)
      (fun _ => rfl) (s.project.filter fun r => r.id == id)
    simp only [Stmt.exec, hhits, hids, hfits]
  | insertProject n =>
    have hany := any_unseen (p := fun r => r.id == (n.row t.now).id ||
      eqIgnoreAsciiCase r.path (n.row t.now).path) (fun _ => rfl) s.project
    simp only [Stmt.exec, Store.unseen, hany]
  | updateArchived status actor ids =>
    have hhits : s.unseen.project.filter (fun r => ids.contains r.id) =
        (s.project.filter fun r => ids.contains r.id).map ProjectRow.unseen :=
      filter_unseen (fun _ => rfl) _
    have hids := map_unseen (g := ProjectRow.id) (fun _ => rfl)
      (s.project.filter fun r => ids.contains r.id)
    have hfits := all_unseen (p := fun r => (r.archived status actor t.now).fits) (fun _ => rfl)
      (s.project.filter fun r => ids.contains r.id)
    simp only [Stmt.exec, hhits, hids, hfits]
  | insertGrant g =>
    have hany := any_unseen (p := fun r => r.id == g.projectId) (fun _ => rfl) s.project
    simp only [Stmt.exec, Store.unseen, hany]
    rfl
  | countMatching paths =>
    have hhits : s.unseen.project.filter (matchesPaths s.unseen paths) =
        (s.project.filter (matchesPaths s paths)).map ProjectRow.unseen :=
      filter_unseen (fun _ => rfl) _
    simp only [Stmt.exec, hhits, List.length_map]
  | selectAncestors chain => simp only [Stmt.exec, ancestorRows_unseen]
  | selectGrants ids =>
    have hjoin : ∀ g : GrantRow, ((s.unseen.orgRows.filter fun p =>
        p.id == g.projectId && ids.contains g.projectId).map fun _ => g) =
        (s.orgRows.filter fun p => p.id == g.projectId && ids.contains g.projectId).map
          fun _ => g := by
      intro g
      rw [orgRows_unseen]
      exact (congrArg (List.map _) (filter_unseen (fun _ => rfl) _)).trans
        (map_unseen (fun _ => rfl) _)
    simp only [Stmt.exec, hjoin]
    rfl
  | updateLastSeen seconds paths => cases h
  | selectProject path => cases h
  | selectPage under status after limit => cases h
  | _ => rfl

theorem patch_unseen (w : Write) (s : Store) : (w.patch s.unseen).unseen = (w.patch s).unseen := by
  have hrows : ∀ {rows rows' : List ProjectRow},
      rows.map ProjectRow.unseen = rows'.map ProjectRow.unseen →
        ({ s with project := rows } : Store).unseen =
          ({ s with project := rows' } : Store).unseen :=
    fun h => congrArg (fun rows => ({ s with project := rows } : Store)) h
  have hsame : s.unseen.project.map ProjectRow.unseen = s.project.map ProjectRow.unseen :=
    map_unseen (fun _ => rfl) s.project
  cases w with
  | insertProject row =>
    apply hrows
    rw [List.map_append, List.map_append, hsame]
  | updateDeclared ids displayName sourceRepo status actor now =>
    exact hrows (updateRows_unseen (fun _ => rfl) (fun _ => rfl) s.project)
  | updateArchived ids status actor now =>
    exact hrows (updateRows_unseen (fun _ => rfl) (fun _ => rfl) s.project)
  | updateLastSeen ids seconds =>
    exact hrows (updateRows_unseen (fun _ => rfl) (fun _ => rfl) s.project)
  | deleteGrant projectId teamId =>
    exact congrArg (fun rows => Store.mk rows s.projectAlias s.projectWrite
      (s.projectGrant.filter fun g => !(g.projectId == projectId && g.teamId == teamId))) hsame
  | updateGrant level projectId teamId =>
    exact congrArg (fun rows => Store.mk rows s.projectAlias s.projectWrite
      (s.projectGrant.map fun g => if g.projectId == projectId && g.teamId == teamId then
        { g with level := level } else g)) hsame
  | insertGrant g =>
    exact congrArg (fun rows => Store.mk rows s.projectAlias s.projectWrite
      (s.projectGrant ++ [g])) hsame
  | insertWrite row =>
    exact congrArg (fun rows => Store.mk rows s.projectAlias (s.projectWrite ++ [row])
      s.projectGrant) hsame
  | updateWrite response projectId userId idemKey =>
    exact congrArg (fun rows => Store.mk rows s.projectAlias (s.projectWrite.map fun w =>
      if w.key == ledgerKey projectId userId idemKey then { w with response := response } else w)
      s.projectGrant) hsame

theorem patchAll_unseen (ws : List Write) {s s' : Store} (h : s.unseen = s'.unseen) :
    (engine.patchAll ws s).unseen = (engine.patchAll ws s').unseen := by
  induction ws generalizing s s' with
  | nil => exact h
  | cons w ws ih =>
    have hpatch : (w.patch s).unseen = (w.patch s').unseen := by
      rw [← patch_unseen w s, h]
      exact patch_unseen w s'
    exact ih hpatch

theorem patch_lastSeen (ids : List Str) (seconds : Int) (s : Store) :
    ((Write.updateLastSeen ids seconds).patch s).unseen = s.unseen := by
  have hrows : (updateRows (fun r => ids.contains r.id) (ProjectRow.seen seconds) s.project).map
      ProjectRow.unseen = s.project.map ProjectRow.unseen := by
    apply updateRows_map
    exact fun _ => rfl
  exact congrArg (fun rows => ({ s with project := rows } : Store)) hrows

/-- A blind operation of a transaction answers alike, and leaves alike what was alike. -/
theorem op_exec_unseen {o : Op} (h : ∀ q, o = .sql q → q.blind = true) (t : Tick) {s s' : Store}
    (hs : s.unseen = s'.unseen) : o.exec t s = o.exec t s' := by
  cases o with
  | nowV7 => rfl
  | sql q =>
    have hexec : q.exec t s = q.exec t s' := by
      rw [← exec_unseen (h q rfl) t s, hs]
      exact exec_unseen (h q rfl) t s'
    simp only [Op.exec, hexec]

end

end ProjectDb
