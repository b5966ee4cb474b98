import ProjectDb.Stability
import ProjectDb.Acceptance

namespace ProjectDb
open Text ProjectDb.Path Mvcc Sync
set_option autoImplicit true

/-- What a row declares, and its version counts the changes of. -/
def ProjectRow.declares (r : ProjectRow) : Str × Option Str × Int :=
  (r.displayName, r.sourceRepo, r.status)

/-- A row as a call left it that changed nothing the version counts. -/
structure Uncounted (r r' : ProjectRow) : Prop where
  declares : r'.declares = r.declares
  version : r'.version = r.version
  updatedBy : r'.updatedBy = r.updatedBy
  updatedAt : r'.updatedAt = r.updatedAt

/-- A row as a principal's sync left it: counted once where it changed, and else not moved. -/
structure Counted (actor : Str) (r r' : ProjectRow) : Prop where
  bump : r'.version = r.version + 1 ↔ r'.declares ≠ r.declares
  stamp : r'.declares ≠ r.declares → r'.updatedBy = actor
  unmoved : r'.declares = r.declares → Uncounted r r'

theorem Uncounted.refl (r : ProjectRow) : Uncounted r r := ⟨rfl, rfl, rfl, rfl⟩

theorem Uncounted.counted (h : Uncounted r r') (actor : Str) : Counted actor r r' where
  bump := by
    rw [h.version]
    exact ⟨fun he => absurd he (Nat.ne_of_lt (Nat.lt_succ_self _)),
      fun hne => absurd h.declares hne⟩
  stamp := fun hne => absurd h.declares hne
  unmoved := fun _ => h

theorem Counted.of_bump (hne : r'.declares ≠ r.declares) (hv : r'.version = r.version + 1)
    (hby : r'.updatedBy = actor) : Counted actor r r' :=
  ⟨⟨fun _ => hne, fun _ => hv⟩, fun _ => hby, fun he => absurd he hne⟩

theorem Counted.version_le (h : Counted actor r r') :
    r.version ≤ r'.version ∧ (r'.version = r.version → r'.declares = r.declares) := by
  by_cases he : r'.declares = r.declares
  · exact ⟨Nat.le_of_eq (h.unmoved he).version.symm, fun _ => he⟩
  · rw [h.bump.2 he]
    exact ⟨Nat.le_succ _, fun hv => absurd hv (Nat.succ_ne_self _)⟩

namespace Sync

theorem Settled.counted (h : Settled declared actor r r') : Counted actor r r' := by
  cases h with
  | personal _ => exact (Uncounted.refl r).counted actor
  | kept _ _ _ => exact (Uncounted.refl r).counted actor
  | overwritten _ _ hdiffers =>
    refine .of_bump (fun he => hdiffers ?_) rfl rfl
    obtain ⟨hname, he⟩ := Prod.mk.inj he
    obtain ⟨hrepo, hstatus⟩ := Prod.mk.inj he
    exact ⟨hname.symm, hrepo.symm, hstatus.symm⟩
  | archived _ _ hactive =>
    refine .of_bump (fun he => ?_) rfl rfl
    have hstatus := (Prod.mk.inj (Prod.mk.inj he).2).2
    rw [hactive] at hstatus
    cases hstatus
  | dormant _ _ _ => exact (Uncounted.refl r).counted actor

theorem admitted_ok {scope : Option Scope} (h : admitted caller scope = .ok actor) :
    ∃ sc, scope = some sc ∧ actor = sc.userId ∧ 1 ≤ actor.length ∧ actor.length ≤ 64 := by
  rcases admitted_eq caller scope with ⟨_, e, he, _⟩ | ⟨_, _, e, he, _⟩ | ⟨_, sc, hsc, hok, hlen⟩
  · rw [he] at h
    cases h
  · rw [he] at h
    cases h
  · rw [hok] at h
    cases h
    exact ⟨sc, hsc, rfl, hlen⟩

end Sync

/-- What a committed sync leaves: every row counted under its principal, and rows at version 1. -/
def SyncCounts (req : SyncProjectsRequest) (s s' : Store) : Prop :=
  ∃ scope, req.scope = some scope ∧
    (∀ r ∈ s.project, ∀ r' ∈ s'.project, r'.id = r.id → Counted scope.userId r r') ∧
    ∀ r' ∈ s'.project, (∀ r ∈ s.project, r.id ≠ r'.id) → r'.version = 1

section
variable [ServerCollation] [UuidCrate] [Idem.Sha256] [Message RegisterProjectRequest]
  [Message RegisterProjectResponse] {s s' : Store} {env : Nat → Tick}

theorem register_counts (caller : Option Str) (req : RegisterProjectRequest) (env : Nat → Tick)
    (hs : s.Schema) :
    (∀ r ∈ s.project, ∀ r' ∈ ((Register.registerAs caller req).serve env s).2.project,
      r'.id = r.id → r' = r) ∧
    ∀ r' ∈ ((Register.registerAs caller req).serve env s).2.project,
      (∀ r ∈ s.project, r.id ≠ r'.id) → r'.version = 1 := by
  have hs' : ((Register.registerAs caller req).serve env s).2.Schema := Rpc.serve_schema _ hs
  rcases Register.serve_registerAs caller req env s with h | ⟨scope, cls, _, hreg⟩
  · rw [h]
    exact ⟨fun r hr r' hr' he => List.inj_on_of_nodup_map hs.id_key hr' hr he,
      fun r' hr' hfresh => absurd rfl (hfresh r' hr')⟩
  · have hid : ∀ a b : ProjectRow, a = b → b.id = a.id := fun _ _ h => h ▸ rfl
    refine ⟨fun r hr r' hr' he => ?_, fun r' hr' hfresh => ?_⟩
    · exact (hreg.grown.related hid hs.id_key hs'.id_key hr hr' he).symm
    · obtain ⟨uuid, now, rfl⟩ := hreg.grown.added hid hr' hfresh
      rfl

omit [UuidCrate] [Idem.Sha256] [Message RegisterProjectRequest]
  [Message RegisterProjectResponse] in
theorem sync_counts (caller : Option Str) (req : SyncProjectsRequest) (env : Nat → Tick)
    (hs : s.Schema) :
    (∃ e, (syncAs caller req).serve env s = (.error e, s)) ∨
      SyncCounts req s ((syncAs caller req).serve env s).2 ∧
        ∀ e, ((syncAs caller req).serve env s).1 = .error e →
          e.code = .internal ∧ Unacked req env s ((syncAs caller req).serve env s).2 := by
  have hs' : ((syncAs caller req).serve env s).2.Schema := Rpc.serve_schema _ hs
  rcases serve_syncAs caller req env s with h | ⟨actor, response, s', n, ha, hw, happly, hserve⟩
  · exact .inl h
  · rw [hserve] at hs' ⊢
    refine .inr ⟨?_, fun e he => ?_⟩
    swap
    · obtain ⟨hlost, rfl⟩ := Tick.acked_error he
      exact ⟨rfl, actor, response, n, happly, hlost⟩
    obtain ⟨scope, hscope, rfl, _⟩ := admitted_ok ha
    obtain ⟨hconv, _⟩ := apply_ok (validation_sound hw) hs happly
    have hid : ∀ a b, Settled (rows req) scope.userId a b → b.id = a.id := fun _ _ h => h.id_eq
    refine ⟨scope, hscope, fun r hr r' hr' he => ?_, fun r' hr' hfresh => ?_⟩
    · exact (hconv.rows.related hid hs.id_key hs'.id_key hr hr' he).counted
    · obtain ⟨d, _, _, uuid, now, rfl⟩ := hconv.rows.added hid hr' hfresh
      rfl

omit [UuidCrate] [Idem.Sha256] [Message RegisterProjectRequest]
  [Message RegisterProjectResponse] in
theorem touch_counts (req : TouchProjectsRequest) (hs : s.Schema) :
    (∀ r ∈ s.project, ∀ r' ∈ ((Touch.touch req).serve env s).2.project,
      r'.id = r.id → Uncounted r r') ∧
    ∀ r' ∈ ((Touch.touch req).serve env s).2.project, ∃ r ∈ s.project, r.id = r'.id := by
  have hrow : ∀ r' ∈ ((Touch.touch req).serve env s).2.project,
      ∃ r ∈ s.project, ∃ seen, r' = { r with lastSeenAt := seen } := by
    intro r' hr'
    rcases Touch.serve_touch req env hs with h | ⟨seconds, paths, _, h⟩
    · rw [h] at hr'
      exact ⟨r', hr', r'.lastSeenAt, rfl⟩
    · rw [h] at hr'
      obtain ⟨r, hr, rfl⟩ := mem_updateRows.1 hr'
      refine ⟨r, hr, ?_⟩
      split
      · exact ⟨_, rfl⟩
      · exact ⟨r.lastSeenAt, rfl⟩
  refine ⟨fun r hr r' hr' he => ?_, fun r' hr' => ?_⟩
  · obtain ⟨r₀, hr₀, seen, rfl⟩ := hrow r' hr'
    cases List.inj_on_of_nodup_map hs.id_key hr₀ hr he
    exact ⟨rfl, rfl, rfl, rfl⟩
  · obtain ⟨r, hr, seen, rfl⟩ := hrow r' hr'
    exact ⟨r, hr, rfl⟩

omit [ServerCollation] [Idem.Sha256] [Message RegisterProjectRequest]
  [Message RegisterProjectResponse] in
theorem Effect.version_le (h : Effect s s') (hr : r ∈ s.project) : ∃ r' ∈ s'.project,
    r'.id = r.id ∧ r.version ≤ r'.version ∧
      (r'.version = r.version → r'.declares = r.declares) := by
  cases h with
  | nothing => exact ⟨r, hr, rfl, Nat.le_refl _, fun _ => rfl⟩
  | registered _ hreg =>
    obtain ⟨r', hr', rfl⟩ := hreg.grown.mem_left hr
    exact ⟨r, hr', rfl, Nat.le_refl _, fun _ => rfl⟩
  | synced _ hconv _ =>
    obtain ⟨r', hr', hset⟩ := hconv.rows.mem_left hr
    exact ⟨r', hr', hset.id_eq, hset.counted.version_le⟩
  | touched _ =>
    refine ⟨_, mem_updateRows.2 ⟨r, hr, rfl⟩, ?_⟩
    split
    · exact ⟨rfl, Nat.le_refl _, fun _ => rfl⟩
    · exact ⟨rfl, Nat.le_refl _, fun _ => rfl⟩

/-- A row at one version is one and the same declaration at every moment of a run. -/
theorem Reaches.version_le (h : Reaches s s') (hs : s.Schema) (hr : r ∈ s.project)
    (hr' : r' ∈ s'.project) (hid : r'.id = r.id) :
    r.version ≤ r'.version ∧ (r'.version = r.version → r'.declares = r.declares) := by
  have hgoes : s'.Schema ∧ ∃ r₁ ∈ s'.project, r₁.id = r.id ∧ r.version ≤ r₁.version ∧
      (r₁.version = r.version → r₁.declares = r.declares) := by
    apply h.induct (P := fun t => ∃ r₁ ∈ t.project, r₁.id = r.id ∧ r.version ≤ r₁.version ∧
      (r₁.version = r.version → r₁.declares = r.declares)) hs
    · exact ⟨r, hr, rfl, Nat.le_refl _, fun _ => rfl⟩
    · intro t t' _ _ ⟨r₁, hr₁, hid₁, hle₁, heq₁⟩ he
      obtain ⟨r₂, hr₂, hid₂, hle₂, heq₂⟩ := he.version_le hr₁
      refine ⟨r₂, hr₂, hid₂.trans hid₁, Nat.le_trans hle₁ hle₂, fun hv => ?_⟩
      have hv₁ : r₁.version = r.version := Nat.le_antisymm (hv ▸ hle₂) hle₁
      rw [heq₂ (hv.trans hv₁.symm), heq₁ hv₁]
  obtain ⟨hs', r₁, hr₁, hid₁, hle, heq⟩ := hgoes
  cases List.inj_on_of_nodup_map hs'.id_key hr' hr₁ (hid.trans hid₁.symm)
  exact ⟨hle, heq⟩

/-- `version` counts the changes of a row's declaration, one for one, and nothing else. -/
theorem version_counts {s₀ : Store} (hs₀ : s₀.Schema) (h : Reaches s₀ s) :
    (∀ caller req env,
      (∀ r ∈ s.project, ∀ r' ∈ ((Register.registerAs caller req).serve env s).2.project,
        r'.id = r.id → Uncounted r r') ∧
      ∀ r' ∈ ((Register.registerAs caller req).serve env s).2.project,
        (∀ r ∈ s.project, r.id ≠ r'.id) → r'.version = 1) ∧
    (∀ req env,
      (∀ r ∈ s.project, ∀ r' ∈ ((Touch.touch req).serve env s).2.project,
        r'.id = r.id → Uncounted r r') ∧
      ∀ r' ∈ ((Touch.touch req).serve env s).2.project, ∃ r ∈ s.project, r.id = r'.id) ∧
    (∀ caller req env response s', (syncAs caller req).serve env s = (.ok response, s') →
      SyncCounts req s s') ∧
    (∀ caller req env e s', (syncAs caller req).serve env s = (.error e, s') →
      s' = s ∨ SyncCounts req s s' ∧ e.code = .internal ∧ Unacked req env s s') ∧
    ∀ s', Reaches s s' → ∀ r ∈ s.project, ∀ r' ∈ s'.project, r'.id = r.id →
      r'.version = r.version → r'.declares = r.declares := by
  obtain ⟨hs, _⟩ := h.induct (P := fun _ => True) hs₀ trivial fun _ _ _ _ _ _ => trivial
  refine ⟨fun caller req env => ?_, fun req env => touch_counts req hs,
    fun caller req env response s' h => ?_, fun caller req env e s' h => ?_,
    fun s' h' r hr r' hr' hid hv => (h'.version_le hs hr hr' hid).2 hv⟩
  · obtain ⟨hkept, hnew⟩ := register_counts caller req env hs
    refine ⟨fun r hr r' hr' he => ?_, hnew⟩
    rw [hkept r hr r' hr' he]
    exact .refl r
  · rcases sync_counts caller req env hs with ⟨e, he⟩ | ⟨hcounts, _⟩
    · rw [he] at h
      cases h
    · rw [h] at hcounts
      exact hcounts
  · rcases sync_counts caller req env hs with ⟨e', he⟩ | ⟨hcounts, hlost⟩
    · rw [he] at h
      cases h
      exact .inl rfl
    · rw [h] at hcounts hlost
      exact .inr ⟨hcounts, hlost e rfl⟩

end

section
open scoped Reference

theorem version_counts_acme : ∃ response s', (syncAs (some syncCaller) acmeOnly).serve
      (fun n => .quiet 1 n) Read.renamed = (.ok response, s') ∧
    ∃ r' ∈ s'.project, r'.id = Read.acmeRoot.id ∧ r'.version = Read.acmeRoot.version + 1 ∧
      Counted "ops".toList Read.acmeRoot r' := by
  have hanswer : ((syncAs (some syncCaller) acmeOnly).serve (fun n => .quiet 1 n)
      Read.renamed).1 = .ok ⟨0, 1, 0, 0, 0, 1, 1, 0, 0⟩ := by decide +kernel
  have hrow : ∃ r' ∈ ((syncAs (some syncCaller) acmeOnly).serve (fun n => .quiet 1 n)
      Read.renamed).2.project, r'.id = Read.acmeRoot.id ∧
        r'.version = Read.acmeRoot.version + 1 := by decide +kernel
  obtain ⟨_, _, hcounts, _⟩ := version_counts renamed_schema .start
  obtain ⟨_, hscope, hcounted, _⟩ := hcounts _ _ _ _ _ (Prod.ext hanswer rfl)
  cases hscope
  obtain ⟨r', hr', hid, hversion⟩ := hrow
  exact ⟨_, _, Prod.ext hanswer rfl, r', hr', hid, hversion,
    hcounted Read.acmeRoot List.mem_cons_self r' hr' hid⟩

end

end ProjectDb
