import ProjectDb.Paging
import ProjectDb.Snapshot

namespace ProjectDb
open Text ProjectDb.Path Mvcc
set_option autoImplicit true

section
variable [ServerCollation]

theorem writes_nonlocking (t : Tick) (o : Op) (s : Store) (ho : engine.nonlocking o = true) :
    (o.exec t s).2 = [] := by
  cases o with
  | nowV7 => cases ho
  | sql q =>
    simp only [Op.exec]
    cases t.fault with
    | some f => rfl
    | none =>
      cases hq : q.exec t s with
      | error e => rfl
      | ok r => exact exec_nonlocking ho hq

theorem patchAll_nonlocking (t : Tick) (o : Op) (s : Store) (ho : engine.nonlocking o = true) :
    engine.patchAll (o.exec t s).2 s = s := by
  rw [writes_nonlocking t o s ho]
  rfl

end

namespace Read

instance : Std.Total PathLe where
  total a b := le_total (weight a) (weight b)

instance : IsTrans Str PathLe where
  trans _ _ _ h h' := le_trans h h'

/-- A project as the store has it, whatever the call that answers it. -/
def projectOf (s : Store) (r : ProjectRow) : Project :=
  { rowToProject r with
    aliases :=
      ((s.projectAlias.filter (·.projectId == r.id)).map AliasRow.aliasPath).insertionSort PathLe
    grants :=
      if r.isOrg then
        ((s.projectGrant.filter (·.projectId == r.id)).map
          fun g => (⟨g.teamId, g.level⟩ : DeclaredGrant)).insertionSort
            fun g h => g.teamId ≤ h.teamId
      else [] }

theorem flatMap_ite (p : α → Bool) (l : List α) :
    (l.flatMap fun a => if p a then [a] else []) = l.filter p := by
  induction l with
  | nil => rfl
  | cons a l ih =>
    rw [List.flatMap_cons, ih, List.filter_cons]
    split <;> rfl

section
variable [ServerCollation] {s : Store}

theorem filter_id (hs : s.Schema) (hr : r ∈ s.project) :
    s.project.filter (·.id == r.id) = [r] := by
  apply List.perm_singleton.1
  apply (List.perm_ext_iff_of_nodup (hs.id_key.of_map.filter _) (List.nodup_singleton r)).2
  intro r'
  rw [List.mem_filter, beq_iff_eq, List.mem_singleton]
  constructor
  · intro ⟨hr', hid⟩
    exact List.inj_on_of_nodup_map hs.id_key hr' hr hid
  · rintro rfl
    exact ⟨hr, rfl⟩

/-- The join gives an organisation row its own grants, and a private one none. -/
theorem grantsOn_eq (hs : s.Schema) (hr : r ∈ s.project) : grantsOn s r.id =
    if r.isOrg then s.projectGrant.filter (·.projectId == r.id) else [] := by
  have horg : s.orgRows.filter (·.id == r.id) = if r.isOrg then [r] else [] := by
    rw [Store.orgRows, List.filter_comm, filter_id hs hr, List.filter_cons, List.filter_nil]
  have hgrant : ∀ g : GrantRow, ((s.orgRows.filter fun p => p.id == g.projectId &&
      g.projectId == r.id).map fun _ => g) =
        if r.isOrg && g.projectId == r.id then [g] else [] := by
    intro g
    cases hg : g.projectId == r.id with
    | false =>
      simp only [Bool.and_false, List.filter_false, List.map_nil, Bool.false_eq_true, ↓reduceIte]
    | true =>
      simp only [Bool.and_true, beq_iff_eq.1 hg, horg]
      split <;> rfl
  unfold grantsOn
  simp only [hgrant]
  rw [flatMap_ite]
  split
  · rename_i h
    simp only [h, Bool.true_and]
  · rename_i h
    simp only [eq_false_of_ne_true h, Bool.false_and, List.filter_false]

theorem Exhibits.eq (h : Exhibits s P r) (hs : s.Schema) : P = projectOf s r := by
  have haliases : P.aliases = (projectOf s r).aliases := by
    apply List.Perm.eq_of_pairwise ?_ h.aliases_sorted (List.pairwise_insertionSort PathLe _)
      (h.aliases.trans (List.perm_insertionSort PathLe _).symm)
    intro a b ha hb hab hba
    obtain ⟨x, hx, rfl⟩ := List.mem_map.1 (h.aliases.mem_iff.1 ha)
    obtain ⟨y, hy, rfl⟩ := List.mem_map.1 ((List.mem_insertionSort _).1 hb)
    have hfold := weight_eq_iff.1 (le_antisymm hab hba)
    rw [List.inj_on_of_nodup_map hs.alias_key (List.mem_of_mem_filter hx)
      (List.mem_of_mem_filter hy) hfold]
  have hgrants : P.grants = (projectOf s r).grants := by
    have hperm := h.grants
    rw [grantsOn_eq hs h.mem] at hperm
    change P.grants = if r.isOrg then _ else _
    split
    · rename_i horg
      rw [if_pos horg] at hperm
      apply List.Perm.eq_of_pairwise ?_ h.grants_sorted (List.pairwise_insertionSort _ _)
        (hperm.trans (List.perm_insertionSort _ _).symm)
      intro a b ha hb hab hba
      obtain ⟨x, hx, rfl⟩ := List.mem_map.1 (hperm.mem_iff.1 ha)
      obtain ⟨y, hy, rfl⟩ := List.mem_map.1 ((List.mem_insertionSort _).1 hb)
      obtain ⟨hx, hxid⟩ := List.mem_filter.1 hx
      obtain ⟨hy, hyid⟩ := List.mem_filter.1 hy
      have hkey : (x.projectId, x.teamId) = (y.projectId, y.teamId) :=
        Prod.ext ((beq_iff_eq.1 hxid).trans (beq_iff_eq.1 hyid).symm) (le_antisymm hab hba)
      rw [List.inj_on_of_nodup_map hs.grant_key hx hy hkey]
    · rename_i horg
      rw [if_neg horg] at hperm
      exact hperm.eq_nil
  have hbare : P = { bare P with aliases := P.aliases, grants := P.grants } := rfl
  rw [hbare, h.row, haliases, hgrants]
  rfl

theorem serve_plainly {x : Rpc α} (hx : Plainly x) (env : Nat → Tick) (s : Store) :
    x.serve env s = ((watched env (fun _ => s) x 0).1, s) := by
  obtain ⟨m, hrun⟩ := engine.serve_watch patchAll_nonlocking hx s 0
  exact congrArg (fun r : _ × Conn Store => (r.1, r.2.store)) hrun

theorem filled_eq (hs : s.Schema) (hr : r ∈ s.project) (hid : r.id ∈ ids) (t t' : Tick) :
    fillGrants (grantsOf t' s ids) (fillAliases (aliasesOf t s ids) (rowToProject r)) =
      projectOf s r :=
  (exhibits_filled hr hid rfl (.refl _)).eq hs

theorem serve_list_projects (hs : s.Schema) {req : ListProjectsRequest} {env : Nat → Tick}
    (h : ((list req).serve env s).1 = .ok response) :
    response.projects = (picked (env 1) s (.list req)).map (projectOf s) := by
  rw [serve_plainly (plainly_list req)] at h
  rw [watched_list (Prod.ext h rfl)]
  apply List.map_congr_left
  intro r hr
  exact filled_eq hs (mem_picked hr) (List.mem_map_of_mem hr) _ _

theorem serve_get_project (hs : s.Schema) {req : GetProjectRequest} {env : Nat → Tick}
    (h : ((get req).serve env s).1 = .ok response) :
    response.project = (selected (env 1) s req.path).map (projectOf s) := by
  rw [serve_plainly (plainly_get req)] at h
  have hget := watched_get (Prod.ext h rfl)
  have hfill : ∀ r ∈ picked (env 1) s (.get req), _ := fun r hr =>
    filled_eq hs (mem_picked hr) (List.mem_map_of_mem (f := ProjectRow.id) hr) (env 2) (env 3)
  rw [List.map_congr_left hfill] at hget
  change _ = (selected (env 1) s req.path).toList.map (projectOf s) at hget
  rw [← Option.toList_map] at hget
  have hhead := congrArg List.head? hget
  rwa [Option.head?_toList, Option.head?_toList] at hhead

/-- Each project of a page is the one that a lookup of its path answers, whatever else is on the
page. -/
theorem listed_is_got (hs : s.Schema) (hspelled : Spelled s) {req : ListProjectsRequest}
    {env : Nat → Tick} (h : ((list req).serve env s).1 = .ok response)
    (hP : P ∈ response.projects) :
    ((∀ env', Faultless env' → (get ⟨P.path⟩).serve env' s = (.ok ⟨some P⟩, s)) ∧
      ∀ env' got, ((get ⟨P.path⟩).serve env' s).1 = .ok got → got = ⟨some P⟩) ∧
    ∃ r ∈ s.project, ∃ m, P = { rowToProject r with aliases := P.aliases, grants := P.grants } ∧
      P.envelope = some m ∧ m.id = r.id ∧ m.ownerUserId = r.ownerUserId.getD [] ∧
      P.aliases = ((s.projectAlias.filter (·.projectId == m.id)).map
        AliasRow.aliasPath).insertionSort PathLe ∧
      P.grants = if r.ownerUserId = none then
          ((s.projectGrant.filter (·.projectId == m.id)).map
            fun g => (⟨g.teamId, g.level⟩ : DeclaredGrant)).insertionSort
              fun g h => g.teamId ≤ h.teamId
        else [] := by
  rw [serve_list_projects hs h] at hP
  obtain ⟨r, hr, rfl⟩ := List.mem_map.1 hP
  have hr := mem_picked hr
  have hgot : ∀ env' got, ((get ⟨r.path⟩).serve env' s).1 = .ok got →
      got = ⟨some (projectOf s r)⟩ := by
    intro env' got hgot
    have hsel := (selected_iff hs.id_key hs.path_key hs.alias_key (env' 1) r.path r).2
      ⟨hr, .inl (.refl _)⟩
    have hproject := serve_get_project hs hgot
    rw [hsel] at hproject
    exact congrArg GetProjectResponse.mk hproject
  refine ⟨⟨fun env' hf => ?_, hgot⟩, r, hr, _, rfl, rfl, rfl, rfl, rfl, ?_⟩
  · have hsel := (selected_iff hs.id_key hs.path_key hs.alias_key (env' 1) r.path r).2
      ⟨hr, .inl (.refl _)⟩
    have hgrammar : Grammatical (⟨r.path⟩ : GetProjectRequest).path := hspelled r hr
    obtain ⟨pairs, grants, hserve⟩ := serve_get_ok hf hgrammar hsel
    change (get ⟨r.path⟩).serve env' s = _
    rw [hserve]
    exact Prod.ext (congrArg Except.ok (hgot env' _ (congrArg Prod.fst hserve))) rfl
  · apply if_congr ?_ rfl rfl
    exact Option.isNone_iff_eq_none

end

section
open scoped Reference

/-- A directory of the account. -/
def adaApp : ProjectRow :=
  NewProject.row ⟨"2".toList, "local/01920000-0000-7000-8000-000000000000/app".toList, [], 1, none,
    some ada, 1, ada, ada⟩ 1

/-- An organisation root and a private row, with a grant planted on each. -/
def planted : Store where
  project := [acmeRoot, adaApp]
  projectAlias := [⟨"old".toList, "1".toList⟩]
  projectWrite := []
  projectGrant :=
    [⟨"1".toList, "yadgar:team:dev".toList, 1⟩, ⟨"2".toList, "yadgar:team:dev".toList, 2⟩]

theorem planted_schema : planted.Schema := by
  exact ⟨by decide, by decide, by decide, by decide, by decide, by decide, by decide, by decide⟩

theorem planted_spelled : Spelled planted := by
  intro r hr
  apply (validate_ok_iff "" r.path).1
  revert r
  decide

/-- Every project, on one page. -/
def onePage : ListProjectsRequest := ⟨[], none, 0, []⟩

theorem listed_is_got_planted : ∃ response P,
    ((list onePage).serve (fun n => .quiet 1 n) planted).1 = .ok response ∧
    P ∈ response.projects ∧ P.path = adaApp.path ∧
    (get ⟨P.path⟩).serve (fun n => .quiet 2 n) planted = (.ok ⟨some P⟩, planted) := by
  have hlist : ((list onePage).serve (fun n => .quiet 1 n) planted).1.toOption.map
      (fun response => response.projects.map Project.path) =
        some [acmeRoot.path, adaApp.path] := by
    decide +kernel
  cases h : ((list onePage).serve (fun n => .quiet 1 n) planted).1 with
  | error e =>
    rw [h] at hlist
    cases hlist
  | ok response =>
    rw [h] at hlist
    have hpaths : response.projects.map Project.path = [acmeRoot.path, adaApp.path] :=
      Option.some.inj hlist
    have hmem : adaApp.path ∈ response.projects.map Project.path := by
      rw [hpaths]
      exact List.mem_cons_of_mem _ List.mem_cons_self
    obtain ⟨P, hP, hpath⟩ := List.mem_map.1 hmem
    obtain ⟨⟨hgot, _⟩, _⟩ := listed_is_got planted_schema planted_spelled h hP
    exact ⟨response, P, rfl, hP, hpath, hgot _ fun _ => rfl⟩

end

end Read

end ProjectDb
