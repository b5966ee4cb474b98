import ProjectDb.Organisation

namespace ProjectDb
open Text ProjectDb.Path Mvcc
set_option autoImplicit true

section
variable [ServerCollation] {own : Str → Prop}

namespace Sync
variable {env : Nat → Tick}

theorem writeOne_onOrg {stored : Option Stored} (actor : Str) (response : SyncProjectsResponse)
    (w : Store × Nat) (hmint : ∀ n, own (projectIdPrefix ++ (env n).uuid))
    (hstored : ∀ st, stored = some st → own st.id) (hp : isPrivateClass d.path = false) :
    (writeOne d stored actor response).Sends (fun _ q _ => q.OnOrg own) env w ∧
      ∀ i response' w', (writeOne d stored actor response).eval env w = (.ok (i, response'), w') →
        own i := by
  cases stored with
  | none =>
    constructor
    · apply Txn.sends_bind
      · apply Txn.sends_bind (Txn.sends_nowV7 w)
        intro uuid w₁ hu
        rw [Txn.eval_nowV7] at hu
        cases hu
        apply Txn.sends_bind (Txn.sends_query ⟨hmint _, hp, rfl⟩)
        intro _ _ _
        exact Txn.sends_pure _ _
      · intro _ _ _
        exact Txn.sends_pure _ _
    · intro i response' w' h
      obtain ⟨id, w₁, hinsert, h⟩ := Txn.eval_bind_ok h
      cases h
      obtain ⟨uuid, w₂, hu, hinsert⟩ := Txn.eval_bind_ok hinsert
      rw [Txn.eval_nowV7] at hu
      cases hu
      obtain ⟨_, w₃, _, hinsert⟩ := Txn.eval_bind_ok hinsert
      cases hinsert
      exact hmint _
  | some st =>
    have hst := hstored st rfl
    constructor
    · simp only [writeOne]
      split
      · exact Txn.sends_pure _ _
      · apply Txn.sends_bind (Txn.sends_query hst)
        intro _ _ _
        split
        · exact Txn.sends_pure _ _
        · exact Txn.sends_pure _ _
    · intro i response' w' h
      simp only [writeOne] at h
      split at h
      · cases h
        exact hst
      · obtain ⟨_, w₁, _, h⟩ := Txn.eval_bind_ok h
        split at h
        · cases h
          exact hst
        · cases h
          exact hst

/-- The loop over the declared rows, by induction on them: the ids it collects are its own. -/
theorem writeAll_onOrg {m : HashMap Str Stored} {ids : HashMap Str Str} (actor : Str)
    (response : SyncProjectsResponse) (w : Store × Nat)
    (hmint : ∀ n, own (projectIdPrefix ++ (env n).uuid))
    (hm : ∀ key st, m.get key = some st → own st.id)
    (hp : ∀ d ∈ ds, isPrivateClass d.path = false)
    (hids : ∀ key i, ids.get key = some i → own i) :
    (writeAll m actor ds response ids).Sends (fun _ q _ => q.OnOrg own) env w ∧
      ∀ response' ids' w', (writeAll m actor ds response ids).eval env w =
        (.ok (response', ids'), w') → ∀ key i, HashMap.get ids' key = some i → own i := by
  induction ds generalizing response ids w with
  | nil =>
    refine ⟨Txn.sends_pure _ _, fun response' ids' w' h => ?_⟩
    cases h
    exact hids
  | cons d ds ih =>
    obtain ⟨hsends, howned⟩ := writeOne_onOrg actor response w hmint (fun st => hm d.key st)
      (hp d List.mem_cons_self)
    have hrest : ∀ i, own i → ∀ key j, (HashMap.insert ids d.key i).get key = some j → own j := by
      intro i hi key j hj
      by_cases he : key = d.key
      · rw [he, HashMap.get_insert_self] at hj
        cases hj
        exact hi
      · rw [HashMap.get_insert_of_ne _ _ he] at hj
        exact hids key j hj
    have hp' : ∀ d ∈ ds, isPrivateClass d.path = false :=
      fun d' hd' => hp d' (List.mem_cons_of_mem _ hd')
    constructor
    · apply Txn.sends_bind hsends
      rintro ⟨i, response₁⟩ w₁ h₁
      exact (ih response₁ w₁ hp' (hrest i (howned i _ _ h₁))).1
    · intro response' ids' w' h
      obtain ⟨⟨i, response₁⟩, w₁, h₁, h⟩ := Txn.eval_bind_ok h
      exact (ih response₁ w₁ hp' (hrest i (howned i _ _ h₁))).2 _ _ _ h

theorem archive_onOrg {ids : List Str} (hids : ∀ i ∈ ids, own i) (w : Store × Nat) :
    (archive ids actor).Sends (fun _ q _ => q.OnOrg own) env w := by
  unfold archive
  cases ids.isEmpty with
  | true => exact Txn.sends_pure _ _
  | false => exact Txn.sends_query hids

theorem writeGrants_onOrg {plan : Grants.GrantPlan} {ids : HashMap Str Str}
    (hids : ∀ key i, HashMap.get ids key = some i → own i) (w : Store × Nat) :
    (Grants.write plan ids).Sends (fun _ q _ => q.OnOrg own) env w := by
  have hdeletes : ∀ ds w, (Grants.writeDeletes ds).Sends (fun _ q _ => q.OnOrg own) env w := by
    intro ds
    induction ds with
    | nil => exact fun _ => Txn.sends_pure _ _
    | cons d ds ih =>
      intro w
      apply Txn.sends_bind (Txn.sends_query trivial)
      intro _ w' _
      exact ih w'
  have hupdates : ∀ us w, (Grants.writeUpdates us).Sends (fun _ q _ => q.OnOrg own) env w := by
    intro us
    induction us with
    | nil => exact fun _ => Txn.sends_pure _ _
    | cons u us ih =>
      intro w
      apply Txn.sends_bind (Txn.sends_query trivial)
      intro _ w' _
      exact ih w'
  have hinserts : ∀ is w, (Grants.writeInserts ids is).Sends (fun _ q _ => q.OnOrg own) env w := by
    intro is
    induction is with
    | nil => exact fun _ => Txn.sends_pure _ _
    | cons i is ih =>
      intro w
      unfold Grants.writeInserts
      cases hi : HashMap.get ids i.1 with
      | none => exact Txn.sends_ofExcept _ _
      | some projectId =>
        apply Txn.sends_bind (Txn.sends_query (hids _ _ hi))
        intro _ w' _
        exact ih w'
  apply Txn.sends_bind (hdeletes _ w)
  intro _ w₁ _
  apply Txn.sends_bind (hupdates _ w₁)
  intro _ w₂ _
  exact hinserts _ w₂

theorem apply_onOrg {w : Store × Nat} (hmint : ∀ n, own (projectIdPrefix ++ (env n).uuid))
    (hs : ∀ r ∈ w.1.orgRows, own r.id) (hp : ∀ d ∈ declared, isPrivateClass d.path = false)
    (actor : Str) (guards : Guards) :
    (apply declared actor guards).Sends (fun _ q _ => q.OnOrg own) env w := by
  apply Txn.sends_bind (Txn.sends_query trivial)
  intro _ w₁ h₁
  have hw₁ := selectSyncLock_ok h₁
  apply Txn.sends_bind (Txn.sends_query trivial)
  intro (stored : List Stored) w₂ h₂
  obtain ⟨hperm, hw₂⟩ := selectOrgProjects_ok h₂
  rw [hw₁] at hperm
  have hstored : ∀ st ∈ stored, own st.id := by
    intro st hst
    obtain ⟨r, hr, rfl⟩ := List.mem_map.1 (hperm.mem_iff.1 hst)
    exact hs r hr
  apply Txn.sends_bind
  · apply Txn.sends_bind (Txn.sends_query trivial)
    intro found _ _
    cases found with
    | none => exact Txn.sends_pure _ _
    | some _ => exact Txn.sends_ofExcept _ _
  intro _ w₃ _
  apply Txn.sends_bind (Txn.sends_ofExcept _ _)
  intro _ w₄ _
  apply Txn.sends_bind (Txn.sends_query trivial)
  intro grants w₅ _
  apply Txn.sends_bind (Txn.sends_ofExcept _ _)
  intro _ w₆ _
  have hm : ∀ key st, (byKey stored).get key = some st → own st.id := by
    intro key st hget
    have hmem := List.mem_reverse.1 (HashMap.mem_of_get hget)
    obtain ⟨st', hst', he⟩ := List.mem_map.1 hmem
    cases he
    exact hstored st hst'
  have hnone : ∀ key i, HashMap.get ([] : HashMap Str Str) key = some i → own i :=
    fun _ _ h => by cases h
  obtain ⟨hsends, howned⟩ := writeAll_onOrg actor .default w₆ hmint hm hp hnone
  apply Txn.sends_bind hsends
  rintro ⟨response, ids⟩ w₇ h₇
  apply Txn.sends_bind
  · apply archive_onOrg
    intro i hi
    obtain ⟨st, hst, rfl⟩ := List.mem_map.1 hi
    exact hstored st (List.mem_filter.1 hst).1
  intro _ w₈ _
  apply Txn.sends_bind (writeGrants_onOrg (howned _ _ _ h₇) w₈)
  intro _ _ _
  exact Txn.sends_pure _ _

theorem syncAs_onOrg (caller : Option Str) (req : SyncProjectsRequest) {s : Store}
    (hmint : ∀ n, own (projectIdPrefix ++ (env n).uuid)) (hs : ∀ r ∈ s.orgRows, own r.id) :
    (syncAs caller req).Sends (fun _ q _ => q.OnOrg own) env ⟨s, none, 0⟩ := by
  apply Rpc.sends_bind (Rpc.sends_ofExcept _ _)
  intro actor c hc
  cases (Prod.mk.inj hc).2
  apply Rpc.sends_bind (Rpc.sends_ofExcept _ _)
  intro declared c hc
  obtain ⟨hv, rfl⟩ := Prod.mk.inj hc
  obtain ⟨hw, rfl⟩ := (validate_ok_iff req).1 hv
  apply Rpc.sends_open
  apply Rpc.sends_closing
  apply Rpc.sends_bind
  · exact Rpc.sends_inTxn s (apply_onOrg hmint hs (validation_sound hw).org _ _)
  · intro r _ _
    cases r with
    | ok response =>
      apply Rpc.sends_bind (Rpc.sends_commit _)
      intro _ _ _
      exact Rpc.sends_pure _ _
    | error e =>
      apply Rpc.sends_bind (Rpc.sends_rollback _)
      intro _ _ _
      exact Rpc.sends_ofExcept _ _

/-- A sync answers by the organisation's part of the store, and leaves it alike. -/
theorem syncAs_confined (caller : Option Str) (req : SyncProjectsRequest) {s s' : Store}
    (hmint : ∀ n, own (projectIdPrefix ++ (env n).uuid)) (hs : ∀ r ∈ s.orgRows, own r.id)
    (h : OrgAlike own s s') :
    ((syncAs caller req).serve env s).1 = ((syncAs caller req).serve env s').1 ∧
      OrgAlike own ((syncAs caller req).serve env s).2 ((syncAs caller req).serve env s').2 :=
  Rpc.simulates ((syncAs_onOrg caller req hmint hs).mono fun t _ s hq => onOrg_respects hq t s) h

theorem syncAs_own (caller : Option Str) (req : SyncProjectsRequest) {s : Store}
    (hmint : ∀ n, own (projectIdPrefix ++ (env n).uuid)) (hs : ∀ r ∈ s.orgRows, own r.id) :
    ∀ r ∈ ((syncAs caller req).serve env s).2.orgRows, own r.id :=
  Rpc.keeps ((syncAs_onOrg caller req hmint hs).mono fun t _ s hq => onOrg_keeps hq t s) hs

end Sync

omit [ServerCollation] in
theorem Sync.Settled.personal_eq (h : Sync.Settled declared actor r r') (ho : r.isOrg = false) :
    r' = r := by
  cases h with
  | personal _ => rfl
  | kept _ _ _ => rfl
  | overwritten _ hn _ => exact absurd (hn.1.symm.trans ho) Bool.noConfusion
  | archived horg _ _ => exact absurd (horg.symm.trans ho) Bool.noConfusion
  | dormant _ _ _ => rfl

theorem Store.Schema.isOrg_iff {s : Store} (hs : s.Schema) (hr : r ∈ s.project) :
    r.isOrg = true ↔ isPrivateClass r.path = false := by
  obtain ⟨_, howner⟩ := hs.classed hr
  rw [← Bool.not_eq_true, ← howner, ProjectRow.isOrg, Option.isSome_iff_ne_none,
    Option.isNone_iff_eq_none, not_not]

theorem Store.Schema.mem_orgRows_iff {s : Store} (hs : s.Schema)
    (hp : isPrivateClass r.path = false) : r ∈ s.project ↔ r ∈ s.orgRows := by
  rw [Store.mem_orgRows]
  exact ⟨fun hr => ⟨hr, (hs.isOrg_iff hr).2 hp⟩, And.left⟩

/-- What a sync leaves of the store that is not the organisation's. -/
structure Personally (s s' : Store) : Prop where
  rows : ∀ r, isPrivateClass r.path = true → (r ∈ s.project ↔ r ∈ s'.project)
  aliases : s'.projectAlias = s.projectAlias
  writes : s'.projectWrite = s.projectWrite

theorem Sync.serve_personally (caller : Option Str) (req : SyncProjectsRequest) (env : Nat → Tick)
    {s : Store} (hs : s.Schema) : Personally s ((syncAs caller req).serve env s).2 := by
  have hs' : ((syncAs caller req).serve env s).2.Schema := Rpc.serve_schema _ hs
  rcases serve_syncAs caller req env s with ⟨e, he⟩ | ⟨actor, response, s', n, _, hw, happly, hok⟩
  · rw [he]
    exact ⟨fun _ _ => Iff.rfl, rfl, rfl⟩
  · rw [hok] at hs' ⊢
    obtain ⟨hconv, _⟩ := apply_ok (validation_sound hw) hs happly
    refine ⟨fun r hp => ⟨fun hr => ?_, fun hr => ?_⟩, hconv.aliases, hconv.writes⟩
    · have ho : r.isOrg ≠ true := fun ho => by
        rw [(hs.isOrg_iff hr).1 ho] at hp
        cases hp
      obtain ⟨r', hr', hset⟩ := hconv.rows.mem_left hr
      rwa [← hset.personal_eq (Bool.eq_false_iff.2 ho)]
    · have ho : r.isOrg ≠ true := fun ho => by
        rw [(hs'.isOrg_iff hr).1 ho] at hp
        cases hp
      rcases hconv.rows.mem_right hr with ⟨r₀, hr₀, hset⟩ | ⟨d, _, _, uuid, now, rfl⟩
      · rw [hset.isOrg_eq] at ho
        rwa [hset.personal_eq (Bool.eq_false_iff.2 ho)]
      · exact absurd rfl ho

/-- The rows and aliases of the private class, and the whole ledger. -/
def Region.personal : Region where
  holds path := isPrivateClass path = true
  users _ := True
  holds_congr := fun hpq hp => (isPrivateClass_congr hpq).symm.trans hp
  users_congr := fun _ _ => trivial

/-- Two stores with the same contents. -/
structure SameContents (s s' : Store) : Prop where
  project : ∀ r, r ∈ s.project ↔ r ∈ s'.project
  aliases : ∀ a, a ∈ s.projectAlias ↔ a ∈ s'.projectAlias
  writes : ∀ w, w ∈ s.projectWrite ↔ w ∈ s'.projectWrite
  grants : ∀ g, g ∈ s.projectGrant ↔ g ∈ s'.projectGrant

/-- The ids that a sync may name: those of the organisation's rows, and those it mints. -/
def OwnIds (env : Nat → Tick) (s : Store) (id : Str) : Prop :=
  (∃ r ∈ s.orgRows, r.id = id) ∨ ∃ n, id = Sync.projectIdPrefix ++ (env n).uuid

variable {envR envS : Nat → Tick} {s : Store}

theorem orgRows_of_confines {s' : Store} (hs' : s'.Schema)
    (h : Region.personal.Confines envR s s') : s'.orgRows = s.orgRows := by
  obtain ⟨news, he, hnews⟩ := h.rows.eq_append
  unfold Store.orgRows
  rw [he, List.filter_append, List.append_right_eq_self, List.filter_eq_nil_iff]
  intro r hr ho
  have hr' : r ∈ s'.project := by
    rw [he]
    exact List.mem_append_right _ hr
  have hprivate : isPrivateClass r.path = true := (hnews r hr).1
  rw [(hs'.isOrg_iff hr').1 ho] at hprivate
  cases hprivate

theorem parted_of_unminted (hs : s.Schema) (hsync : Unminted envS s) :
    Parted (OwnIds envS s) s where
  schema := hs
  personal := by
    intro r hr ho hown
    rcases hown with ⟨r', hr', he⟩ | ⟨n, he⟩
    · obtain ⟨hr', ho'⟩ := Store.mem_orgRows.1 hr'
      cases List.inj_on_of_nodup_map hs.id_key hr' hr he
      exact Bool.noConfusion (ho.symm.trans ho')
    · exact hsync r hr n he

theorem parted_of_confines {s' : Store} (hs : s.Schema) (hs' : s'.Schema) (hreg : Unminted envR s)
    (hsync : Unminted envS s) (hne : ∀ n m, (envR n).uuid ≠ (envS m).uuid)
    (h : Region.personal.Confines envR s s') : Parted (OwnIds envS s) s' where
  schema := hs'
  personal := by
    intro r hr ho hown
    rcases h.rows.mem_right hr with ⟨r₀, hr₀, rfl⟩ | ⟨_, n, hid⟩
    · exact (parted_of_unminted hs hsync).personal r₀ hr₀ ho hown
    · rcases hown with ⟨r', hr', he⟩ | ⟨m, he⟩
      · exact hreg r' (Store.mem_orgRows.1 hr').1 n (he.trans hid)
      · exact hne n m (List.append_cancel_left (hid.symm.trans he))

theorem admits_of_own {s' : Store} (hs' : s'.Schema) (hreg : Unminted envR s)
    (hne : ∀ n m, (envR n).uuid ≠ (envS m).uuid) (h : ∀ r ∈ s'.orgRows, OwnIds envS s r.id) :
    Region.personal.Admits envR s' where
  schema := hs'
  unused := by
    intro r hr hout n he
    have ho : r.isOrg = true := (hs'.isOrg_iff hr).2 (Bool.eq_false_iff.2 hout)
    rcases h r (Store.mem_orgRows.2 ⟨hr, ho⟩) with ⟨r', hr', hid⟩ | ⟨m, hid⟩
    · exact hreg r' (Store.mem_orgRows.1 hr').1 n (hid.trans he)
    · exact hne n m (List.append_cancel_left (he.symm.trans hid))

variable [UuidCrate] [Idem.Sha256] [Message RegisterProjectRequest]
  [Message RegisterProjectResponse]

/-- A registration and a sync do to one another what nothing does: each answers the same in either
order, and either order leaves the same contents. -/
theorem writers_commute (hs : s.Schema) (hreg : Unminted envR s) (hsync : Unminted envS s)
    (hne : ∀ n m, (envR n).uuid ≠ (envS m).uuid) (caller caller' : Option Str)
    (req : RegisterProjectRequest) (req' : SyncProjectsRequest) :
    ((Register.registerAs caller req).serve envR s).1 = ((Register.registerAs caller req).serve envR
      ((Sync.syncAs caller' req').serve envS s).2).1 ∧
    ((Sync.syncAs caller' req').serve envS s).1 = ((Sync.syncAs caller' req').serve envS
      ((Register.registerAs caller req).serve envR s).2).1 ∧
    SameContents
      ((Sync.syncAs caller' req').serve envS ((Register.registerAs caller req).serve envR s).2).2
      ((Register.registerAs caller req).serve envR
        ((Sync.syncAs caller' req').serve envS s).2).2 := by
  have hclass : ∀ scope cls, Register.checked req = .ok (scope, cls) →
      Region.personal.holds req.path ∧ Region.personal.users scope.userId :=
    fun _ _ h => ⟨(checked_ok h).2.2.2.1, trivial⟩
  have hown : ∀ r ∈ s.orgRows, OwnIds envS s r.id := fun r hr => .inl ⟨r, hr, rfl⟩
  have hmint : ∀ n, OwnIds envS s (Sync.projectIdPrefix ++ (envS n).uuid) := fun n => .inr ⟨n, rfl⟩
  have hsR : ((Register.registerAs caller req).serve envR s).2.Schema := Rpc.serve_schema _ hs
  have hsS : ((Sync.syncAs caller' req').serve envS s).2.Schema := Rpc.serve_schema _ hs
  have hR := Region.registerAs_confines caller hclass envR s
  have horg : OrgAlike (OwnIds envS s) s ((Register.registerAs caller req).serve envR s).2 :=
    ⟨(orgRows_of_confines hsR hR).symm, hR.aliases.symm, hR.grants.symm,
      parted_of_unminted hs hsync, parted_of_confines hs hsR hreg hsync hne hR⟩
  obtain ⟨hanswerS, halikeS⟩ := Sync.syncAs_confined caller' req' hmint hown horg
  have hS := Sync.serve_personally caller' req' envS hs
  have hagree : Region.personal.Agree s ((Sync.syncAs caller' req').serve envS s).2 :=
    ⟨fun r hr => hS.rows r hr, fun _ _ => by rw [hS.aliases], fun _ _ => by rw [hS.writes]⟩
  have hadmits : Region.personal.Admits envR s := ⟨hs, fun r hr _ => hreg r hr⟩
  have hadmitsS := admits_of_own hsS hreg hne (Sync.syncAs_own caller' req' hmint hown)
  obtain ⟨hanswerR, hagreeR⟩ := Region.registerAs_confined caller hclass ⟨hagree, hadmits, hadmitsS⟩
  refine ⟨hanswerR, hanswerS, ?_⟩
  have hRS := Sync.serve_personally caller' req' envS hsR
  have hSR := Region.registerAs_confines caller hclass envR
    ((Sync.syncAs caller' req').serve envS s).2
  constructor
  · intro r
    by_cases hp : isPrivateClass r.path = true
    · exact (hRS.rows r hp).symm.trans (hagreeR.rows r hp)
    · have hp : isPrivateClass r.path = false := Bool.eq_false_iff.2 hp
      have hsRS : ((Sync.syncAs caller' req').serve envS
        ((Register.registerAs caller req).serve envR s).2).2.Schema := Rpc.serve_schema _ hsR
      have hsSR : ((Register.registerAs caller req).serve envR
        ((Sync.syncAs caller' req').serve envS s).2).2.Schema := Rpc.serve_schema _ hsS
      rw [hsRS.mem_orgRows_iff hp, hsSR.mem_orgRows_iff hp, ← halikeS.rows,
        orgRows_of_confines hsSR hSR]
  · intro a
    rw [hRS.aliases, hSR.aliases, hR.aliases, hS.aliases]
  · intro w
    rw [hRS.writes]
    exact hagreeR.writes w trivial
  · intro g
    rw [← halikeS.grants, hSR.grants]

end

section
open scoped Reference

theorem writers_commute_acme : SameContents
    ((Sync.syncAs (some Sync.syncCaller) Sync.acmeOnly).serve (fun _ => .quiet 2 4)
      ((Register.registerAs (some Register.registerCaller) adaHome).serve (fun _ => .quiet 1 3)
        Read.renamed).2).2
    ((Register.registerAs (some Register.registerCaller) adaHome).serve (fun _ => .quiet 1 3)
      ((Sync.syncAs (some Sync.syncCaller) Sync.acmeOnly).serve (fun _ => .quiet 2 4)
        Read.renamed).2).2 := by
  have hne : uuidOf 3 ≠ uuidOf 4 := by decide
  obtain ⟨_, _, hsame⟩ := writers_commute renamed_schema
    (renamed_unminted fun _ => .quiet 1 3) (renamed_unminted fun _ => .quiet 2 4) (fun _ _ => hne)
    (some Register.registerCaller) (some Sync.syncCaller) adaHome Sync.acmeOnly
  exact hsame

end

end ProjectDb
