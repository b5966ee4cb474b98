import ProjectDb.Reach
import ProjectDb.Reference
import ProjectDb.Ancestry

namespace ProjectDb
open Text ProjectDb.Path Mvcc Sync Register
set_option autoImplicit true

/-- A private row as registration leaves it: under its owner's own account segment. -/
def Personal [UuidCrate] (r : ProjectRow) : Prop :=
  ∃ owner seg, r.ownerUserId = some owner ∧ accountSegment owner = some seg ∧
    Beneath (reservedRoot ++ '/' :: seg) r.path ∧ r.status = ProjectStatus.active.toI8 ∧
    r.version = 1 ∧ r.visibility = Visibility.private_.toI8

def Active (r : ProjectRow) : Prop := r.status = ProjectStatus.active.toI8

/-- The organisation row that anchors a path: single-segment, ACTIVE, at the first segment. -/
def Anchors (root r : ProjectRow) : Prop :=
  root.isOrg = true ∧ Active root ∧ '/' ∉ root.path ∧
    FoldsOnto ((segments r.path).headD []) root.path

/-- What the tables say together, and no key or CHECK says alone. -/
structure Coherent [UuidCrate] (s : Store) : Prop where
  grammar : ∀ r ∈ s.project, Grammatical r.path
  unreserved : ∀ r ∈ s.project, ¬ FoldsOnto r.path reservedRoot
  unaliased : ∀ r ∈ s.project, ∀ a ∈ s.projectAlias, ¬ FoldsOnto r.path a.aliasPath
  personal : ∀ r ∈ s.project, r.isOrg = false → Personal r
  org : ∀ r ∈ s.project, r.isOrg = true → r.visibility = Visibility.org.toI8 ∧
    (Active r ∨ r.status = ProjectStatus.archived.toI8)
  rooted : ∀ r ∈ s.project, r.isOrg = true → Active r → ∃ root ∈ s.project, Anchors root r
  grants : ∀ g ∈ s.projectGrant, ∃ r ∈ s.project, r.id = g.projectId ∧ r.isOrg = true ∧ Active r

namespace Sync

/-- A declared row is of the grammar, off the reserved root, and anchored by a declared root. -/
theorem WellFormed.anchored {req : SyncProjectsRequest} (h : WellFormed req) (hd : d ∈ rows req) :
    ∃ root ∈ rows req, '/' ∉ root.key ∧ (segments d.key).headD [] = root.key := by
  obtain ⟨p, hp, rfl⟩ := List.mem_map.1 hd
  rcases List.mem_append.1 hp with hroot | hproject
  · have hslash : '/' ∉ toAsciiLowercase p.path := fun hm =>
      (h.roots p hroot).2 ((slash_mem_toAsciiLowercase p.path).1 hm)
    refine ⟨_, hd, hslash, ?_⟩
    change (segments (toAsciiLowercase p.path)).headD [] = toAsciiLowercase p.path
    rw [segments_of_not_mem hslash]
    rfl
  · obtain ⟨_, _, hm⟩ := h.projects p hproject
    obtain ⟨root, hroot, he⟩ := List.mem_map.1 hm
    refine ⟨Declared.of root, List.mem_map_of_mem (List.mem_append_left _ hroot), ?_, he.symm⟩
    exact fun hm => (h.roots root hroot).2 ((slash_mem_toAsciiLowercase root.path).1 hm)

theorem headD_segments_toAsciiLowercase (path : Str) :
    (segments (toAsciiLowercase path)).headD [] = toAsciiLowercase ((segments path).headD []) := by
  rw [segments_toAsciiLowercase]
  cases segments path <;> rfl

theorem Minted.org_row (h : Minted actor d r) : r.isOrg = true ∧ r.path = d.path ∧ Active r ∧
    r.visibility = Visibility.org.toI8 := by
  obtain ⟨_, _, rfl⟩ := h
  exact ⟨rfl, rfl, rfl, rfl⟩

end Sync

section
variable [UuidCrate]

theorem classOf_ok {path actor repo : Str} (h : Class.of path actor repo = .ok cls) :
    isPrivateClass path = true ∧ cls = ⟨actor, Visibility.private_.toI8⟩ ∧
      ∃ seg, accountSegment actor = some seg ∧ isUnderOwnRoot path seg = true := by
  unfold Class.of at h
  split at h
  · cases h
  · rename_i hp
    have hp : isPrivateClass path = true := by
      simpa only [Bool.not_eq_true', Bool.not_eq_false] using hp
    split at h
    · cases h
    · rename_i seg hseg
      split at h
      · cases h
      · rename_i hroot
        split at h
        · cases h
        · cases h
          refine ⟨hp, rfl, seg, hseg, ?_⟩
          simpa only [Bool.not_eq_true', Bool.not_eq_false] using hroot

theorem checked_ok {req : RegisterProjectRequest} (h : checked req = .ok (scope, cls)) :
    Grammatical req.path ∧ ¬ FoldsOnto req.path reservedRoot ∧
      req.displayName.length ≤ maxDisplayNameChars ∧ isPrivateClass req.path = true ∧
      cls = ⟨scope.userId, Visibility.private_.toI8⟩ ∧
      ∃ seg, accountSegment scope.userId = some seg ∧ isUnderOwnRoot req.path seg = true := by
  unfold checked at h
  obtain ⟨scope', _, h⟩ := bind_eq_ok.1 h
  obtain ⟨_, hv, h⟩ := bind_eq_ok.1 h
  obtain ⟨_, hr, h⟩ := bind_eq_ok.1 h
  split at h
  · cases h
  · rename_i hname
    obtain ⟨cls', hc, h⟩ := bind_eq_ok.1 h
    cases h
    obtain ⟨hp, hcls, hseg⟩ := classOf_ok hc
    exact ⟨(validate_ok_iff _ _).1 hv, (refuseReservedRoot_ok_iff _ _).1 hr,
      Nat.le_of_not_gt hname, hp, hcls, hseg⟩

theorem newRow_personal {req : RegisterProjectRequest} (h : checked req = .ok (scope, cls))
    (i : Str) (now : Time) : Personal ((Register.newRow i req scope cls).row now) := by
  obtain ⟨_, _, _, _, rfl, seg, hseg, hroot⟩ := checked_ok h
  obtain ⟨rest, hrest⟩ := segments_of_isUnderOwnRoot hroot
  refine ⟨scope.userId, seg, rfl, hseg, ?_, rfl, rfl, rfl⟩
  have hslash : '/' ∉ seg := by
    apply slash_not_mem_segment (s := req.path)
    rw [hrest]
    exact List.mem_cons_of_mem _ List.mem_cons_self
  apply beneath_of_segments
  rw [segments_append_slash, segments_of_not_mem hslash]
  exact ⟨rest, hrest.symm⟩

variable [ServerCollation] {s s' : Store}

/-- Every private row sits where registration put it. -/
def AllPersonal (s : Store) : Prop := ∀ r ∈ s.project, r.isOrg = false → Personal r

omit [ServerCollation] in
theorem Effect.personal (he : Effect s s') (h : AllPersonal s) : AllPersonal s' := by
  intro r' hr' ho
  cases he with
  | nothing => exact h r' hr' ho
  | registered hc hreg =>
    obtain ⟨uuid, now, hrow⟩ := hreg.row
    rw [hrow] at hr'
    rcases List.mem_append.1 hr' with hr' | hr'
    · exact h r' hr' ho
    · cases List.mem_singleton.1 hr'
      exact newRow_personal hc _ now
  | synced _ hconv _ =>
    rcases hconv.rows.mem_right hr' with ⟨r, hr, hset⟩ | ⟨d, _, _, hm⟩
    · have ho' : r.isOrg = false := hset.isOrg_eq.symm.trans ho
      rw [hset.eq_of_personal ho']
      exact h r hr ho'
    · exact absurd (hm.org_row.1.symm.trans ho) Bool.noConfusion
  | touched _ =>
    obtain ⟨r, hr, rfl⟩ := mem_updateRows.1 hr'
    split at ho
    · rename_i hp
      rw [if_pos hp]
      exact h r hr ho
    · rename_i hp
      rw [if_neg hp]
      exact h r hr ho

omit [ServerCollation] in
theorem Coherent.start (hp : s.project = []) (hg : s.projectGrant = []) : Coherent s := by
  have hrow : ∀ r, r ∉ s.project := fun r hr => by
    rw [hp] at hr
    cases hr
  have hgrant : ∀ g, g ∉ s.projectGrant := fun g h => by
    rw [hg] at h
    cases h
  exact ⟨fun r hr => absurd hr (hrow r), fun r hr => absurd hr (hrow r),
    fun r hr => absurd hr (hrow r), fun r hr => absurd hr (hrow r), fun r hr => absurd hr (hrow r),
    fun r hr => absurd hr (hrow r), fun g h => absurd h (hgrant g)⟩

omit [ServerCollation] in
theorem Coherent.registered {req : RegisterProjectRequest} (h : Coherent s)
    (hc : checked req = .ok (scope, cls)) (hreg : Registered req scope cls s s') :
    Coherent s' := by
  obtain ⟨uuid, now, hrow⟩ := hreg.row
  obtain ⟨hgrammar, hunreserved, _, _, hcls, _⟩ := checked_ok hc
  subst hcls
  have hold : ∀ r ∈ s.project, r ∈ s'.project := by
    intro r hr
    rw [hrow]
    exact List.mem_append_left _ hr
  have hcases : ∀ r ∈ s'.project, r ∈ s.project ∨ (r.path = req.path ∧ r.isOrg = false) := by
    intro r hr
    rw [hrow] at hr
    rcases List.mem_append.1 hr with hr | hr
    · exact .inl hr
    · cases List.mem_singleton.1 hr
      exact .inr ⟨rfl, rfl⟩
  refine ⟨?_, ?_, ?_, ?_, ?_, ?_, ?_⟩
  · intro r hr
    rcases hcases r hr with hr | ⟨hpath, _⟩
    · exact h.grammar r hr
    · rw [hpath]
      exact hgrammar
  · intro r hr
    rcases hcases r hr with hr | ⟨hpath, _⟩
    · exact h.unreserved r hr
    · rw [hpath]
      exact hunreserved
  · intro r hr a ha hfold
    rw [hreg.aliases] at ha
    rcases hcases r hr with hr | ⟨hpath, _⟩
    · exact h.unaliased r hr a ha hfold
    · rw [hpath] at hfold
      exact hreg.unaliased a ha hfold.symm
  · exact (Effect.registered hc hreg).personal h.personal
  · intro r hr ho
    rcases hcases r hr with hr | ⟨_, ho'⟩
    · exact h.org r hr ho
    · exact absurd (ho.symm.trans ho') Bool.noConfusion
  · intro r hr ho ha
    rcases hcases r hr with hr | ⟨_, ho'⟩
    · obtain ⟨root, hroot, hanchors⟩ := h.rooted r hr ho ha
      exact ⟨root, hold root hroot, hanchors⟩
    · exact absurd (ho.symm.trans ho') Bool.noConfusion
  · intro g hg
    rw [hreg.grants] at hg
    obtain ⟨r, hr, hid⟩ := h.grants g hg
    exact ⟨r, hold r hr, hid⟩

omit [ServerCollation] in
theorem Coherent.touched (h : Coherent s) (hc : Touch.checked req = .ok (seconds, paths)) :
    Coherent (Touch.touched s paths seconds) := by
  have hcases : ∀ r' ∈ (Touch.touched s paths seconds).project, ∃ r ∈ s.project,
      ∃ seen, r' = { r with lastSeenAt := seen } := by
    intro r' hr'
    obtain ⟨r, hr, rfl⟩ := mem_updateRows.1 hr'
    refine ⟨r, hr, ?_⟩
    split
    · exact ⟨_, rfl⟩
    · exact ⟨r.lastSeenAt, rfl⟩
  have hstays : ∀ r ∈ s.project, ∃ seen, { r with lastSeenAt := seen } ∈
      (Touch.touched s paths seconds).project := by
    intro r hr
    cases hp : Touch.touches s paths seconds r with
    | true => exact ⟨_, mem_updateRows.2 ⟨r, hr, by rw [hp]; rfl⟩⟩
    | false => exact ⟨r.lastSeenAt, mem_updateRows.2 ⟨r, hr, by rw [hp]; rfl⟩⟩
  refine ⟨?_, ?_, ?_, ?_, ?_, ?_, ?_⟩
  · intro r' hr'
    obtain ⟨r, hr, _, rfl⟩ := hcases r' hr'
    exact h.grammar r hr
  · intro r' hr'
    obtain ⟨r, hr, _, rfl⟩ := hcases r' hr'
    exact h.unreserved r hr
  · intro r' hr'
    obtain ⟨r, hr, _, rfl⟩ := hcases r' hr'
    exact h.unaliased r hr
  · exact (Effect.touched hc).personal h.personal
  · intro r' hr' ho
    obtain ⟨r, hr, _, rfl⟩ := hcases r' hr'
    exact h.org r hr ho
  · intro r' hr' ho ha
    obtain ⟨r, hr, _, rfl⟩ := hcases r' hr'
    obtain ⟨root, hroot, hanchors⟩ := h.rooted r hr ho ha
    obtain ⟨_, hroot'⟩ := hstays root hroot
    exact ⟨_, hroot', hanchors⟩
  · intro g hg
    obtain ⟨r, hr, hid⟩ := h.grants g hg
    obtain ⟨_, hr'⟩ := hstays r hr
    exact ⟨_, hr', hid⟩

theorem Coherent.synced {req : SyncProjectsRequest} (h : Coherent s) (hs : s.Schema)
    (hs' : s'.Schema) (hw : WellFormed req) (hconv : Converged (rows req) actor s s')
    (haccepted : Accepted s (rows req) guards) : Coherent s' := by
  have hd := validation_sound hw
  have hforce := hconv.inForce hd hs hs'
  have hcases : ∀ r' ∈ s'.project, (∃ r ∈ s.project, Settled (rows req) actor r r') ∨
      ∃ d ∈ rows req, Minted actor d r' := by
    intro r' hr'
    rcases hconv.rows.mem_right hr' with h | ⟨d, hdm, _, hm⟩
    · exact .inl h
    · exact .inr ⟨d, hdm, hm⟩
  have hrowOk : ∀ d ∈ rows req, Grammatical d.path ∧ ¬ FoldsOnto d.path reservedRoot := by
    intro d hdm
    obtain ⟨p, hp, rfl⟩ := List.mem_map.1 hdm
    exact ⟨(hw.row hp).grammar, (hw.row hp).unreserved⟩
  refine ⟨?_, ?_, ?_, ?_, ?_, ?_, ?_⟩
  · intro r' hr'
    rcases hcases r' hr' with ⟨r, hr, hset⟩ | ⟨d, hdm, hm⟩
    · rw [hset.path_eq]
      exact h.grammar r hr
    · rw [hm.org_row.2.1]
      exact (hrowOk d hdm).1
  · intro r' hr'
    rcases hcases r' hr' with ⟨r, hr, hset⟩ | ⟨d, hdm, hm⟩
    · rw [hset.path_eq]
      exact h.unreserved r hr
    · rw [hm.org_row.2.1]
      exact (hrowOk d hdm).2
  · intro r' hr' a ha
    rw [hconv.aliases] at ha
    rcases hcases r' hr' with ⟨r, hr, hset⟩ | ⟨d, hdm, hm⟩
    · rw [hset.path_eq]
      exact h.unaliased r hr a ha
    · rw [hm.org_row.2.1]
      exact haccepted.unaliased d hdm a ha
  · exact (Effect.synced hw hconv haccepted).personal h.personal
  · intro r' hr' ho
    rcases hcases r' hr' with ⟨r, hr, hset⟩ | ⟨d, hdm, hm⟩
    · have ho' : r.isOrg = true := hset.isOrg_eq.symm.trans ho
      obtain ⟨hvis, hst⟩ := h.org r hr ho'
      cases hset with
      | personal _ => exact ⟨hvis, hst⟩
      | kept _ _ _ => exact ⟨hvis, hst⟩
      | overwritten _ _ _ => exact ⟨hvis, .inl rfl⟩
      | archived _ _ _ => exact ⟨hvis, .inr rfl⟩
      | dormant _ _ _ => exact ⟨hvis, hst⟩
    · exact ⟨hm.org_row.2.2.2, .inl hm.org_row.2.2.1⟩
  · intro r hr ho ha
    obtain ⟨d, hdm, hn⟩ := hforce.active r hr ho ha
    obtain ⟨root, hroot, hslash, hhead⟩ := hw.anchored hdm
    obtain ⟨a, hamem, hna, hagrees, _⟩ := hforce.present root hroot
    refine ⟨a, hamem, hna.1, hagrees.2.2, ?_, ?_⟩
    · rw [← slash_mem_toAsciiLowercase, hna.2]
      exact hslash
    · change toAsciiLowercase _ = toAsciiLowercase _
      rw [← headD_segments_toAsciiLowercase, hn.2, hhead, hna.2]
  · intro g hg
    rcases (hconv.grants g).1 hg with ⟨hg₀, hnot⟩ | ⟨d, hdm, r, hr, hn, hid, _⟩
    · obtain ⟨r, hr, hid, ho, _⟩ := h.grants g hg₀
      exact absurd ⟨r, hr, ho, hid⟩ hnot
    · obtain ⟨r', hr', hn', hagrees, _⟩ := hforce.present d hdm
      have he := names_inj hs' hr hr' hn hn'
      subst he
      exact ⟨r, hr, hid, hn.1, hagrees.2.2⟩

theorem Coherent.effect (h : Coherent s) (hs : s.Schema) (hs' : s'.Schema) (he : Effect s s') :
    Coherent s' := by
  cases he with
  | nothing => exact h
  | registered hc hreg => exact h.registered hc hreg
  | synced hw hconv haccepted => exact h.synced hs hs' hw hconv haccepted
  | touched hc => exact h.touched hc

omit [ServerCollation] in
theorem Effect.aliases (h : Effect s s') : s'.projectAlias = s.projectAlias := by
  cases h with
  | nothing => rfl
  | registered _ hreg => exact hreg.aliases
  | synced _ hconv _ => exact hconv.aliases
  | touched _ => rfl

omit [UuidCrate] in
theorem aliasOnly_schema {aliases : List AliasRow}
    (hkey : (aliases.map fun a => toAsciiLowercase a.aliasPath).Nodup) :
    Store.Schema { Store.empty with projectAlias := aliases } where
  id_key := List.nodup_nil
  path_key := List.nodup_nil
  row_fits := fun _ h => absurd h List.not_mem_nil
  alias_key := hkey
  write_key := List.nodup_nil
  grant_key := List.nodup_nil
  grant_fits := fun _ h => absurd h List.not_mem_nil
  grant_project := fun _ h => absurd h List.not_mem_nil

omit [UuidCrate] in
theorem Store.Schema.classed (hs : s.Schema) (hr : r ∈ s.project) :
    (r.sourceRepo.isSome ↔ r.ownerUserId.isNone) ∧
      (r.ownerUserId.isSome ↔ isPrivateClass r.path = true) := by
  obtain ⟨h₁, h₂⟩ := ProjectRow.fits_class (hs.row_fits r hr)
  refine ⟨(ckProjectClass_iff r).1 h₁, ?_⟩
  rw [ckProjectClassPath, likeLocal_eq, beq_iff_eq] at h₂
  rw [h₂]

omit [UuidCrate] in
theorem Store.Schema.levels (hs : s.Schema) (hg : g ∈ s.projectGrant) :
    g.level = 1 ∨ g.level = 2 := by
  have hf := hs.grant_fits g hg
  simp only [GrantRow.fits, Bool.and_eq_true, Bool.or_eq_true, beq_iff_eq] at hf
  exact hf.2

variable [Idem.Sha256] [Message RegisterProjectRequest] [Message RegisterProjectResponse]

/-- Whatever calls run, in whatever order and with whatever outcome, the tables stay coherent. -/
theorem reachable_coherent {aliases : List AliasRow}
    (hkey : (aliases.map fun a => toAsciiLowercase a.aliasPath).Nodup)
    (h : Reaches { Store.empty with projectAlias := aliases } s) :
    Coherent s ∧ s.projectAlias = aliases ∧
    (s.project.map fun r => toAsciiLowercase r.path).Nodup ∧
    (∀ r ∈ s.project, (r.sourceRepo.isSome ↔ r.ownerUserId.isNone) ∧
      (r.ownerUserId.isSome ↔ isPrivateClass r.path = true)) ∧
    (∀ g ∈ s.projectGrant, g.level = 1 ∨ g.level = 2) ∧
    (s.projectGrant.map fun g => (g.projectId, g.teamId)).Nodup := by
  have hstart : Coherent { Store.empty with projectAlias := aliases } := .start rfl rfl
  obtain ⟨hs, hcoherent, haliases⟩ := h.induct (P := fun s => Coherent s ∧ s.projectAlias = aliases)
    (aliasOnly_schema hkey) ⟨hstart, rfl⟩ fun _ _ hs hs' hp he =>
      ⟨hp.1.effect hs hs' he, he.aliases.trans hp.2⟩
  exact ⟨hcoherent, haliases, hs.path_key, fun _ hr => hs.classed hr, fun _ hg => hs.levels hg,
    hs.grant_key⟩

end

section
open scoped Reference

def ada : Str := "yadgar:user:01920000-0000-7000-8000-000000000000".toList

/-- A registration of a directory beneath its owner's root. -/
def adaHome : RegisterProjectRequest where
  idempotency := none
  scope := some ⟨ada, []⟩
  path := "local/01920000-0000-7000-8000-000000000000/src".toList
  displayName := "src".toList
  sourceRepo := []

theorem reachable_coherent_acme :
    letI := ServerCollation.ascii
    ∃ s : Store, s.project.length = 2 ∧ Coherent s := by
  let _ := ServerCollation.ascii
  have hstart : Reaches { Store.empty with projectAlias := [⟨"acme/old".toList, "1".toList⟩] } _ :=
    .start
  have hregister := hstart.call (.register (some registerCaller) adaHome) fun n => .quiet 1 n
  have hsync := hregister.call (.sync (some syncCaller) acmeOnly) fun n => .quiet 2 (n + 9)
  refine ⟨_, ?_, (reachable_coherent (by decide) hsync).1⟩
  decide +kernel

end
end ProjectDb
