import ProjectDb.Outcome

namespace ProjectDb.Register
open Text ProjectDb.Path Mvcc
set_option autoImplicit true

/-- The same request without an idempotency key. -/
def unkeyed (req : RegisterProjectRequest) : RegisterProjectRequest :=
  { req with idempotency := none }

section
variable [ServerCollation] {req : RegisterProjectRequest} {scope : Scope} {s s' : Store}

/-- The stores agree on the row that the request's key would find. -/
def SameKey (req : RegisterProjectRequest) (scope : Scope) (s s' : Store) : Prop :=
  ∀ key, Idem.present req.idempotency = some key → Narrow scope key →
    ∀ w, w.key = ledgerKey scope.projectId scope.userId key →
      (w ∈ s.projectWrite ↔ w ∈ s'.projectWrite)

theorem SameKey.held (h : SameKey req scope s s') (hheld : Held s req scope) :
    Held s' req scope := by
  obtain ⟨key, hkey, hwhy⟩ := hheld
  by_cases hnarrow : Narrow scope key
  · obtain ⟨w, hw, hk⟩ := hwhy.resolve_left fun h => h hnarrow
    exact ⟨key, hkey, .inr ⟨w, (h key hkey hnarrow w hk).1 hw, hk⟩⟩
  · exact ⟨key, hkey, .inl hnarrow⟩

theorem SameKey.symm (h : SameKey req scope s s') : SameKey req scope s' s :=
  fun key hkey hnarrow w hk => (h key hkey hnarrow w hk).symm

theorem not_held_unkeyed : ¬ Held s (unkeyed req) scope := by
  intro ⟨key, hkey, _⟩
  cases hkey

end

section
variable [UuidCrate] {req : RegisterProjectRequest}

theorem Passes.unkeyed (h : Passes caller req scope cls) :
    Passes caller (unkeyed req) scope cls := ⟨h.admitted, h.checked⟩

theorem Passes.scope_eq (h : Passes caller req scope cls) (h' : Passes caller req scope' cls') :
    scope' = scope := by
  cases h.checked.symm.trans h'.checked
  rfl

end

theorem unminted_rowOf {env₁ env₂ : Nat → Tick} {s s' : Store} (hu : Unminted env₂ s)
    (hne : ∀ n m, (env₁ n).uuid ≠ (env₂ m).uuid)
    (h : s'.project = s.project ++ [rowOf env₁ req scope cls]) : Unminted env₂ s' := by
  intro r hr n he
  rw [h] at hr
  rcases List.mem_append.1 hr with hr | hr
  · exact hu r hr n he
  · rw [List.mem_singleton.1 hr] at he
    exact hne _ _ (List.append_cancel_left he)

section
variable [Idem.Sha256] [Message RegisterProjectRequest] [Message RegisterProjectResponse]
  {env₁ : Nat → Tick} {req₁ req₂ : RegisterProjectRequest} {scope₁ : Scope} {cls₁ : Class}
  {s : Store}

/-- The store that a registration leaves. -/
def made (env : Nat → Tick) (req : RegisterProjectRequest) (scope : Scope) (cls : Class)
    (s : Store) : Store :=
  { s with
    project := s.project ++ [rowOf env req scope cls]
    projectWrite := s.projectWrite ++ entries req scope (env (mintedAt req)).uuid }

theorem not_vacant_made (hpath : FoldsOnto req₁.path req₂.path) :
    ¬ Vacant (made env₁ req₁ scope₁ cls₁ s) req₂.path := by
  intro h
  exact h.rows _ (List.mem_append_right _ (List.mem_singleton.2 rfl)) hpath

theorem taken_made (hpath : ¬ FoldsOnto req₁.path req₂.path) :
    (∃ r ∈ s.project, FoldsOnto r.path req₂.path) ↔
      ∃ r ∈ (made env₁ req₁ scope₁ cls₁ s).project, FoldsOnto r.path req₂.path := by
  constructor
  · intro ⟨r, hr, hfold⟩
    exact ⟨r, List.mem_append_left _ hr, hfold⟩
  · intro ⟨r, hr, hfold⟩
    rcases List.mem_append.1 hr with hr | hr
    · exact ⟨r, hr, hfold⟩
    · rw [List.mem_singleton.1 hr] at hfold
      exact absurd hfold hpath

theorem made_unkeyed_writes :
    (made env₁ (unkeyed req₁) scope₁ cls₁ s).projectWrite = s.projectWrite :=
  List.append_nil _

theorem held_made_unkeyed [ServerCollation] :
    Held (made env₁ (unkeyed req₁) scope₁ cls₁ s) req₂ scope₂ ↔ Held s req₂ scope₂ := by
  unfold Held
  rw [made_unkeyed_writes]

end

section
variable [ServerCollation] [UuidCrate] [Idem.Sha256] [Message RegisterProjectRequest]
  [Message RegisterProjectResponse] {env : Nat → Tick} {req : RegisterProjectRequest}
  {scope : Scope} {cls : Class} {s s' : Store}

/-- What a registration answers, and the rows it adds. -/
def outcome (caller : Option Str) (req : RegisterProjectRequest) (env : Nat → Tick) (s : Store) :
    Except Status RegisterProjectResponse × List ProjectRow :=
  (((registerAs caller req).serve env s).1,
    ((registerAs caller req).serve env s).2.project.drop s.project.length)

theorem outcome_of_serve {r : Except Status RegisterProjectResponse}
    (h : (registerAs caller req).serve env s = (r, s)) : outcome caller req env s = (r, []) := by
  unfold outcome
  rw [h, List.drop_length]

theorem outcome_unpassed (h : ¬ ∃ scope cls, Passes caller req scope cls) (s s' : Store) :
    outcome caller req env s = outcome caller req env s' := by
  obtain ⟨e, he⟩ := serve_unpassed fun scope cls hp => h ⟨scope, cls, hp⟩
  rw [outcome_of_serve (he env s), outcome_of_serve (he env s')]

theorem outcome_registered (hprost : ∀ m : RegisterProjectResponse,
      Message.encodeToVec m = Protobuf.put m.fields)
    (hf : Faultless env) (hp : Passes caller req scope cls) (hu : Unminted env s)
    (hheld : ¬ Held s req scope) (hvacant : Vacant s req.path) :
    outcome caller req env s = (.ok (responseOf (env (mintedAt req)).uuid req scope),
      [rowOf env req scope cls]) := by
  unfold outcome
  rw [serve_registered hprost hf hp hu hheld hvacant, List.drop_left]

/-- A request has one outcome on stores alike in its key, its path and the former paths. -/
theorem outcome_congr (hprost : ∀ m : RegisterProjectResponse,
      Message.encodeToVec m = Protobuf.put m.fields)
    (hf : Faultless env) (hp : Passes caller req scope cls) (hs : s.Schema) (hs' : s'.Schema)
    (hu : Unminted env s) (hu' : Unminted env s') (hkey : SameKey req scope s s')
    (haliases : s'.projectAlias = s.projectAlias)
    (hrows : ¬ Held s req scope →
       ((∃ r ∈ s.project, FoldsOnto r.path req.path) ↔
        ∃ r ∈ s'.project, FoldsOnto r.path req.path)) :
    outcome caller req env s = outcome caller req env s' := by
  by_cases hheld : Held s req scope
  · obtain ⟨key, hpresent, hwhy⟩ := hheld
    by_cases hnarrow : Narrow scope key
    · obtain ⟨w, hw, hk⟩ := hwhy.resolve_left fun h => h hnarrow
      obtain ⟨r, hr, hr'⟩ := serve_spent_congr hf hp.admitted hp.checked hpresent
        ((claimRow_fits_iff hp.checked).2 hnarrow) hs hs' hw ((hkey key hpresent hnarrow w hk).1 hw)
        hk
      rw [outcome_of_serve hr, outcome_of_serve hr']
    · rw [outcome_of_serve (serve_registerAs_overwide hf hp.admitted hp.checked hpresent hnarrow s),
        outcome_of_serve (serve_registerAs_overwide hf hp.admitted hp.checked hpresent hnarrow s')]
  · have hheld' : ¬ Held s' req scope := fun h => hheld (hkey.symm.held h)
    have hclaim := proceeds_of_not_held hf hp.checked hheld
    have hclaim' := proceeds_of_not_held hf hp.checked hheld'
    cases hfind : s.projectAlias.find? fun a => eqIgnoreAsciiCase a.aliasPath req.path with
    | some a =>
      obtain ⟨e, _, hserve⟩ := serve_aliased hf hp.admitted hp.checked a
      rw [outcome_of_serve (hserve _ _ _ hclaim hfind),
        outcome_of_serve (hserve _ _ _ hclaim' (haliases ▸ hfind))]
    | none =>
      by_cases hrow : ∃ r ∈ s.project, FoldsOnto r.path req.path
      · obtain ⟨e, _, hserve⟩ := serve_occupied hf hp.admitted hp.checked
        rw [outcome_of_serve (hserve _ _ _ hclaim hfind hrow),
          outcome_of_serve (hserve _ _ _ hclaim' (haliases ▸ hfind) ((hrows hheld).1 hrow))]
      · have hvacant : ∀ t : Store, t.projectAlias = s.projectAlias →
            (¬ ∃ r ∈ t.project, FoldsOnto r.path req.path) → Vacant t req.path := by
          intro t ht hno
          refine ⟨fun r hr hfold => hno ⟨r, hr, hfold⟩, fun a ha hfold => ?_⟩
          rw [ht] at ha
          exact List.find?_eq_none.1 hfind a ha ((eqIgnoreAsciiCase_iff _ _).2 hfold)
        rw [outcome_registered hprost hf hp hu hheld (hvacant s rfl hrow),
          outcome_registered hprost hf hp hu' hheld'
            (hvacant s' haliases fun h => hrow ((hrows hheld).2 h))]

/-- The second call finds under its key the row that the first one leaves under another. -/
def Collides (s : Store) (caller₁ caller₂ : Option Str) (req₁ req₂ : RegisterProjectRequest) :
    Prop :=
  ∃ scope₁ cls₁ scope₂ cls₂ key₁ key₂, Passes caller₁ req₁ scope₁ cls₁ ∧
    Passes caller₂ req₂ scope₂ cls₂ ∧ ¬ Held s req₁ scope₁ ∧ Vacant s req₁.path ∧
      Idem.present req₁.idempotency = some key₁ ∧ Idem.present req₂.idempotency = some key₂ ∧
        Narrow scope₂ key₂ ∧ ledgerKey scope₁.projectId scope₁.userId key₁ =
          ledgerKey scope₂.projectId scope₂.userId key₂

/-- The first call is held back by a key of its own from the path that the second one takes. -/
def Displaced (s : Store) (caller₁ caller₂ : Option Str) (req₁ req₂ : RegisterProjectRequest) :
    Prop :=
  ∃ scope₁ cls₁ scope₂ cls₂, Passes caller₁ req₁ scope₁ cls₁ ∧ Passes caller₂ req₂ scope₂ cls₂ ∧
    Held s req₁ scope₁ ∧ Vacant s req₁.path ∧ ¬ Held s req₂ scope₂ ∧ FoldsOnto req₁.path req₂.path

theorem serve_unmade (hf : Faultless env) (hs : s.Schema)
    (h : ∀ scope cls, Passes caller req scope cls → Held s req scope ∨ ¬ Vacant s req.path) :
    ((registerAs caller req).serve env s).2 = s := by
  by_cases hp : ∃ scope cls, Passes caller req scope cls
  · obtain ⟨scope, cls, hp⟩ := hp
    by_cases hheld : Held s req scope
    · obtain ⟨r, hr, _⟩ := serve_held hf hp hs hheld
      rw [hr]
    · obtain ⟨e, _, he⟩ := serve_taken hf hp hheld ((h scope cls hp).resolve_left hheld)
      rw [he]
  · obtain ⟨e, he⟩ := serve_unpassed fun scope cls hp' => hp ⟨scope, cls, hp'⟩
    rw [he]

theorem serve_made (hprost : ∀ m : RegisterProjectResponse,
      Message.encodeToVec m = Protobuf.put m.fields)
    (hf : Faultless env) (hp : Passes caller req scope cls) (hu : Unminted env s)
    (hheld : ¬ Held s req scope) (hvacant : Vacant s req.path) :
    ((registerAs caller req).serve env s).2 = made env req scope cls s := by
  rw [serve_registered hprost hf hp hu hheld hvacant]
  rfl

section
variable {env₁ env₂ : Nat → Tick} {caller₁ caller₂ : Option Str}
  {req₁ req₂ : RegisterProjectRequest} {scope₁ scope₂ : Scope} {cls₁ cls₂ : Class}

/-- A first call that its own key holds back leaves the second one a path. -/
theorem outcome_displaced (hprost : ∀ m : RegisterProjectResponse,
      Message.encodeToVec m = Protobuf.put m.fields)
    (hf : Faultless env₂) (hp : Passes caller₂ req₂ scope₂ cls₂) (hu : Unminted env₂ s)
    (hheld : ¬ Held s req₂ scope₂) (hvacant : Vacant s req₁.path)
    (hpath : FoldsOnto req₁.path req₂.path) :
    outcome caller₂ req₂ env₂ s ≠
      outcome caller₂ req₂ env₂ (made env₁ (unkeyed req₁) scope₁ cls₁ s) := by
  have hvacant₂ : Vacant s req₂.path :=
    ⟨fun r hr hfold => hvacant.rows r hr (hfold.trans hpath.symm),
      fun a ha hfold => hvacant.aliases a ha (hfold.trans hpath.symm)⟩
  have hheld' : ¬ Held (made env₁ (unkeyed req₁) scope₁ cls₁ s) req₂ scope₂ :=
    mt held_made_unkeyed.1 hheld
  obtain ⟨e, _, he⟩ := serve_taken hf hp hheld' (not_vacant_made hpath)
  rw [outcome_registered hprost hf hp hu hheld hvacant₂, outcome_of_serve he]
  exact fun h => by cases h

/-- A key that compares equal to the first call's makes of the second call a repetition. -/
theorem outcome_collides (hprost : ∀ m : RegisterProjectResponse,
      Message.encodeToVec m = Protobuf.put m.fields)
    (hf : Faultless env₂) (hp : Passes caller₂ req₂ scope₂ cls₂)
    (hu : Unminted env₂ s) (hne : ∀ n m, (env₁ n).uuid ≠ (env₂ m).uuid)
    (hs : (made env₁ req₁ scope₁ cls₁ s).Schema) (hheld : ¬ Held s req₁ scope₁)
    (hkey₁ : Idem.present req₁.idempotency = some key₁)
    (hkey₂ : Idem.present req₂.idempotency = some key₂) (hnarrow : Narrow scope₂ key₂)
    (hk : ledgerKey scope₁.projectId scope₁.userId key₁ =
      ledgerKey scope₂.projectId scope₂.userId key₂) :
    outcome caller₂ req₂ env₂ (made env₁ req₁ scope₁ cls₁ s) ≠
      outcome caller₂ req₂ env₂ (made env₁ (unkeyed req₁) scope₁ cls₁ s) := by
  have hfresh : ∀ w ∈ s.projectWrite, w.key ≠ ledgerKey scope₂.projectId scope₂.userId key₂ :=
    fun w hw he => hheld ⟨key₁, hkey₁, .inr ⟨w, hw, he.trans hk.symm⟩⟩
  have hheld₂ : Held (made env₁ req₁ scope₁ cls₁ s) req₂ scope₂ := by
    have hentry := mem_entries scope₁ hkey₁ (env₁ (mintedAt req₁)).uuid
    exact ⟨key₂, hkey₂, .inr ⟨_, List.mem_append_right _ hentry, (WriteRow.kept_key _).trans hk⟩⟩
  have hheld' : ¬ Held (made env₁ (unkeyed req₁) scope₁ cls₁ s) req₂ scope₂ := by
    rw [held_made_unkeyed]
    intro ⟨key, hkey, hwhy⟩
    cases hkey₂.symm.trans hkey
    obtain ⟨w, hw, he⟩ := hwhy.resolve_left fun h => h hnarrow
    exact hfresh w hw he
  have hu' : Unminted env₂ (made env₁ (unkeyed req₁) scope₁ cls₁ s) := unminted_rowOf hu hne rfl
  have hwould : (∃ e, e.code = .alreadyExists ∧ outcome caller₂ req₂ env₂
        (made env₁ (unkeyed req₁) scope₁ cls₁ s) = (.error e, [])) ∨
      outcome caller₂ req₂ env₂ (made env₁ (unkeyed req₁) scope₁ cls₁ s) =
        (.ok (responseOf (env₂ (mintedAt req₂)).uuid req₂ scope₂),
          [rowOf env₂ req₂ scope₂ cls₂]) := by
    by_cases hvacant : Vacant (made env₁ (unkeyed req₁) scope₁ cls₁ s) req₂.path
    · exact .inr (outcome_registered hprost hf hp hu' hheld' hvacant)
    · obtain ⟨e, hcode, he⟩ := serve_taken hf hp hheld' hvacant
      exact .inl ⟨e, hcode, outcome_of_serve he⟩
  obtain ⟨r, hr, hanswer⟩ := serve_held hf hp hs hheld₂
  rw [outcome_of_serve hr]
  rcases hwould with ⟨e, hcode, he⟩ | he
  · rw [he]
    rcases hanswer with ⟨e', rfl, hcode'⟩ | ⟨m, key, w, rfl, _⟩
    · intro h
      cases h
      exact hcode' hcode
    · exact fun h => by cases h
  · rw [he]
    exact fun h => by cases (Prod.mk.inj h).2

theorem outcome_apart (hprost : ∀ m : RegisterProjectResponse,
      Message.encodeToVec m = Protobuf.put m.fields)
    (hf : Faultless env₂) (hp : Passes caller₂ req₂ scope₂ cls₂) (hu : Unminted env₂ s)
    (hne : ∀ n m, (env₁ n).uuid ≠ (env₂ m).uuid) (hs : (made env₁ req₁ scope₁ cls₁ s).Schema)
    (hs' : (made env₁ (unkeyed req₁) scope₁ cls₁ s).Schema)
    (hapart : ∀ key₁ key₂, Idem.present req₁.idempotency = some key₁ →
      Idem.present req₂.idempotency = some key₂ → Narrow scope₂ key₂ →
        ledgerKey scope₁.projectId scope₁.userId key₁ ≠
          ledgerKey scope₂.projectId scope₂.userId key₂) :
    outcome caller₂ req₂ env₂ (made env₁ req₁ scope₁ cls₁ s) =
      outcome caller₂ req₂ env₂ (made env₁ (unkeyed req₁) scope₁ cls₁ s) := by
  apply outcome_congr hprost hf hp hs hs' (unminted_rowOf hu hne rfl) (unminted_rowOf hu hne rfl)
  · intro key₂ hkey₂ hnarrow w hk
    rw [made_unkeyed_writes]
    constructor
    · intro hw
      rcases List.mem_append.1 hw with hw | hw
      · exact hw
      · obtain ⟨key₁, hkey₁, hentry⟩ := mem_entries_key hw
        exact absurd (hentry.symm.trans hk) (hapart key₁ key₂ hkey₁ hkey₂ hnarrow)
    · exact List.mem_append_left _
  · rfl
  · intro _
    have hrow : ∀ req : RegisterProjectRequest, req.path = req₁.path →
        ((∃ r ∈ (made env₁ req scope₁ cls₁ s).project, FoldsOnto r.path req₂.path) ↔
          (∃ r ∈ s.project, FoldsOnto r.path req₂.path) ∨ FoldsOnto req₁.path req₂.path) := by
      intro req hpath
      rw [← hpath]
      simp only [made, List.mem_append, List.mem_singleton, or_and_right, exists_or,
        exists_eq_left]
      exact Iff.rfl
    rw [hrow req₁ rfl, hrow (unkeyed req₁) rfl]

end

/-- Two registrations under different keys interfere exactly where the ledger's collation takes
the keys for one, or where the first is held back by a key of its own from the second one's path. -/
theorem keys_apart_iff (hprost : ∀ m : RegisterProjectResponse,
      Message.encodeToVec m = Protobuf.put m.fields) {env₁ env₂ : Nat → Tick}
    (hs : s.Schema) (hf₁ : Faultless env₁) (hf₂ : Faultless env₂) (hu₁ : Unminted env₁ s)
    (hu₂ : Unminted env₂ s) (hne : ∀ n m, (env₁ n).uuid ≠ (env₂ m).uuid)
    (caller₁ caller₂ : Option Str) (req₁ req₂ : RegisterProjectRequest) :
    outcome caller₂ req₂ env₂ ((registerAs caller₁ req₁).serve env₁ s).2 =
        outcome caller₂ req₂ env₂ ((registerAs caller₁ (unkeyed req₁)).serve env₁ s).2 ↔
      ¬ Collides s caller₁ caller₂ req₁ req₂ ∧ ¬ Displaced s caller₁ caller₂ req₁ req₂ := by
  have hsa : ((registerAs caller₁ req₁).serve env₁ s).2.Schema := Rpc.serve_schema _ hs
  have hsb : ((registerAs caller₁ (unkeyed req₁)).serve env₁ s).2.Schema := Rpc.serve_schema _ hs
  by_cases hwould : ∃ scope₁ cls₁, Passes caller₁ req₁ scope₁ cls₁ ∧ Vacant s req₁.path
  · obtain ⟨scope₁, cls₁, hp₁, hvacant⟩ := hwould
    rw [serve_made hprost hf₁ hp₁.unkeyed hu₁ not_held_unkeyed hvacant] at hsb ⊢
    by_cases hheld : Held s req₁ scope₁
    · obtain ⟨r, hr, _⟩ := serve_held hf₁ hp₁ hs hheld
      rw [hr] at hsa ⊢
      constructor
      · intro h
        refine ⟨?_, ?_⟩
        · intro ⟨_, _, _, _, _, _, hp, _, hnot, _⟩
          rw [hp₁.scope_eq hp] at hnot
          exact hnot hheld
        · intro ⟨_, _, scope₂, cls₂, hp, hp₂, _, _, hheld₂, hpath⟩
          exact outcome_displaced hprost hf₂ hp₂ hu₂ hheld₂ hvacant hpath h
      · intro ⟨_, hdisplaced⟩
        by_cases hp₂ : ∃ scope₂ cls₂, Passes caller₂ req₂ scope₂ cls₂
        · obtain ⟨scope₂, cls₂, hp₂⟩ := hp₂
          apply outcome_congr hprost hf₂ hp₂ hs hsb hu₂ (unminted_rowOf hu₂ hne rfl)
          · intro _ _ _ w _
            rw [made_unkeyed_writes]
          · rfl
          · intro hheld₂
            apply taken_made
            intro hpath
            exact hdisplaced ⟨scope₁, cls₁, scope₂, cls₂, hp₁, hp₂, hheld, hvacant, hheld₂, hpath⟩
        · exact outcome_unpassed hp₂ _ _
    · rw [serve_made hprost hf₁ hp₁ hu₁ hheld hvacant] at hsa ⊢
      constructor
      · intro h
        refine ⟨?_, ?_⟩
        · intro ⟨_, _, scope₂, cls₂, key₁, key₂, hp, hp₂, _, _, hkey₁, hkey₂, hnarrow, hk⟩
          rw [hp₁.scope_eq hp] at hk
          exact outcome_collides hprost hf₂ hp₂ hu₂ hne hsa hheld hkey₁ hkey₂ hnarrow hk h
        · intro ⟨_, _, _, _, hp, _, hheld', _⟩
          rw [hp₁.scope_eq hp] at hheld'
          exact hheld hheld'
      · intro ⟨hcollides, _⟩
        by_cases hp₂ : ∃ scope₂ cls₂, Passes caller₂ req₂ scope₂ cls₂
        · obtain ⟨scope₂, cls₂, hp₂⟩ := hp₂
          apply outcome_apart hprost hf₂ hp₂ hu₂ hne hsa hsb
          intro key₁ key₂ hkey₁ hkey₂ hnarrow hk
          exact hcollides ⟨scope₁, cls₁, scope₂, cls₂, key₁, key₂, hp₁, hp₂, hheld, hvacant, hkey₁,
            hkey₂, hnarrow, hk⟩
        · exact outcome_unpassed hp₂ _ _
  · have hkept := serve_unmade hf₁ hs fun scope cls (hp : Passes caller₁ req₁ scope cls) =>
      .inr fun hvacant => hwould ⟨scope, cls, hp, hvacant⟩
    have hkept' := serve_unmade hf₁ hs fun scope cls
        (hp : Passes caller₁ (unkeyed req₁) scope cls) =>
      .inr fun hvacant => hwould ⟨scope, cls, ⟨hp.admitted, hp.checked⟩, hvacant⟩
    rw [hkept, hkept']
    refine ⟨fun _ => ⟨?_, ?_⟩, fun _ => rfl⟩
    · intro ⟨scope₁, cls₁, _, _, _, _, hp, _, _, hvacant, _⟩
      exact hwould ⟨scope₁, cls₁, hp, hvacant⟩
    · intro ⟨scope₁, cls₁, _, _, hp, _, _, hvacant, _⟩
      exact hwould ⟨scope₁, cls₁, hp, hvacant⟩

end

section
open scoped Reference

/-- Two directories of one account, each under a key of one letter. -/
def lower : RegisterProjectRequest := { adaHome with idempotency := some ⟨"k".toList⟩ }

def upper : RegisterProjectRequest :=
  { adaHome with
    idempotency := some ⟨"K".toList⟩
    path := "local/01920000-0000-7000-8000-000000000000/notes".toList }

/-- Under a collation that folds case, the second key is refused as the first one's. -/
theorem keys_collide :
    lower.idempotency ≠ upper.idempotency ∧ lower.scope = upper.scope ∧
    outcome (some registerCaller) upper (fun _ => .quiet 2 4)
        ((registerAs (some registerCaller) lower).serve (fun _ => .quiet 1 3) .empty).2 =
      (.error (.invalidArgument ["this idempotency key was already used for a different request — ",
        "a replay would discard what this one asked for"]), []) ∧
    outcome (some registerCaller) upper (fun _ => .quiet 2 4)
        ((registerAs (some registerCaller) (unkeyed lower)).serve (fun _ => .quiet 1 3) .empty).2 ≠
      (.error (.invalidArgument ["this idempotency key was already used for a different request — ",
        "a replay would discard what this one asked for"]), []) := by
  refine ⟨by decide, rfl, ?_, ?_⟩
  · decide +kernel
  · decide +kernel

def other : RegisterProjectRequest := { upper with idempotency := some ⟨"j".toList⟩ }

theorem keys_apart_ada :
    outcome (some registerCaller) other (fun _ => .quiet 2 4)
        ((registerAs (some registerCaller) lower).serve (fun _ => .quiet 1 3) .empty).2 =
      outcome (some registerCaller) other (fun _ => .quiet 2 4)
        ((registerAs (some registerCaller) (unkeyed lower)).serve (fun _ => .quiet 1 3)
          .empty).2 := by
  have hempty : Store.empty.Schema := aliasOnly_schema List.nodup_nil
  have hfresh : ∀ env, Unminted env Store.empty := fun _ r hr => absurd hr List.not_mem_nil
  have hne : uuidOf 3 ≠ uuidOf 4 := by decide
  have hiff := keys_apart_iff (fun _ => rfl) hempty (fun _ => rfl) (fun _ => rfl)
    (hfresh fun _ => .quiet 1 3) (hfresh fun _ => .quiet 2 4) (fun _ _ => hne)
    (some registerCaller) (some registerCaller) lower other
  apply hiff.2
  constructor
  · intro ⟨_, _, _, _, _, _, _, _, _, _, hkey₁, hkey₂, _, hk⟩
    cases hkey₁
    cases hkey₂
    have hletter := (Prod.mk.inj (Prod.mk.inj hk).2).2
    exact absurd hletter (by decide)
  · intro ⟨scope₁, cls₁, _, _, hp, _, ⟨key, hkey, hwhy⟩, _⟩
    cases hkey
    cases hp.scope_eq (⟨by decide, by decide +kernel⟩ :
      Passes (some registerCaller) lower ⟨ada, []⟩ ⟨ada, Visibility.private_.toI8⟩)
    rcases hwhy with hwide | ⟨w, hw, _⟩
    · exact hwide (by decide)
    · exact absurd hw List.not_mem_nil

end

end ProjectDb.Register
