import ProjectDb.Counter

namespace ProjectDb
open Text ProjectDb.Path Mvcc Sync
set_option autoImplicit true

/-- A statement on a table of the registry, which the ledger is not of. -/
def Stmt.onRegistry : Stmt → Bool
  | .insertWrite .. => false
  | .selectWriteForUpdate .. => false
  | .updateWrite .. => false
  | _ => true

section
variable [ServerCollation] {env : Nat → Tick}

/-- No width, CHECK or reference of the registry's tables refuses the statement's row. -/
def Stmt.Storable (t : Tick) (q : Stmt) (s : Store) : Prop :=
  q.onRegistry = true → q.exec t s ≠ .error .constraint

/-- A condition on statements, of what a transaction asks for. -/
def Op.Holds (P : Tick → Stmt → Store → Prop) (t : Tick) (s : Store) : Op → Prop
  | .nowV7 => True
  | .sql q => P t q s

/-- The same of a command, on the store that its connection reads. -/
def cmdHolds (P : Tick → Stmt → Store → Prop) (env : Nat → Tick) : Cmd Op → Conn Store → Prop
  | .stmt o, c => o.Holds P (env c.count) (c.work.getD c.store)
  | _, _ => True

/-- Every statement a transaction sends meets the condition where it is served. -/
def Txn.Sends (P : Tick → Stmt → Store → Prop) (env : Nat → Tick) (x : Txn α) (w : Store × Nat) :
    Prop :=
  x.run.Always (serveOp env) (fun o w => o.Holds P (env w.2) w.1) w

/-- Every statement a handler sends meets the condition where it is served. -/
def Rpc.Sends (P : Tick → Stmt → Store → Prop) (env : Nat → Tick) (x : Rpc α) (c : Conn Store) :
    Prop :=
  x.run.Always (engine.serve env) (cmdHolds P env) c

/-- Every statement a transaction sends is storable. -/
abbrev Txn.AllStorable (env : Nat → Tick) (x : Txn α) (w : Store × Nat) : Prop :=
  x.Sends Stmt.Storable env w

/-- Every statement a handler sends is storable. -/
abbrev Rpc.AllStorable (env : Nat → Tick) (x : Rpc α) (c : Conn Store) : Prop :=
  x.Sends Stmt.Storable env c

variable {P : Tick → Stmt → Store → Prop}

namespace Txn

theorem sends_pure (a : α) (w : Store × Nat) : Sends P env (pure a) w := trivial

theorem sends_ofExcept (r : Except Status α) (w : Store × Nat) :
    Sends P env (ofExcept r) w := trivial

theorem sends_nowV7 (w : Store × Nat) : Sends P env nowV7 w := ⟨trivial, trivial⟩

theorem sends_query {q : Stmt} (h : P (env w.2) q w.1) :
    Sends P env (query q) w := ⟨h, trivial⟩

theorem sends_attempt {q : Stmt} (h : P (env w.2) q w.1) :
    Sends P env (attempt q) w := ⟨h, trivial⟩

theorem sends_bind {x : Txn α} {f : α → Txn β} (hx : Sends P env x w)
    (hf : ∀ a w', x.eval env w = (.ok a, w') → Sends P env (f a) w') :
    Sends P env (x >>= f) w := by
  apply Prog.always_bind (serveOp env) hx
  rcases he : x.eval env w with ⟨r, w'⟩
  change (ExceptT.bindCont f (x.eval env w).1).Always _ _ (x.eval env w).2
  rw [he]
  cases r with
  | error e => trivial
  | ok a => exact hf a w' he

end Txn

namespace Rpc

theorem Sends.mono {P' : Tick → Stmt → Store → Prop} (hP : ∀ t q s, P t q s → P' t q s)
    {x : Rpc α} (h : x.Sends P env c) : x.Sends P' env c := by
  apply Prog.always_mono (engine.serve env) _ h
  intro q c hq
  cases q with
  | stmt o =>
    cases o with
    | nowV7 => trivial
    | sql q => exact hP _ _ _ hq
  | _ => trivial

theorem sends_ofExcept (r : Except Status α) (c : Conn Store) :
    Sends P env (ofExcept r) c := trivial

theorem sends_pure (a : α) (c : Conn Store) : Sends P env (pure a : Rpc α) c := trivial

theorem sends_bind {x : Rpc α} {f : α → Rpc β} (hx : Sends P env x c)
    (hf : ∀ a c', x.eval env c = (.ok a, c') → Sends P env (f a) c') :
    Sends P env (x >>= f) c := by
  apply Prog.always_bind (engine.serve env) hx
  rcases he : x.eval env c with ⟨r, c'⟩
  change (ExceptT.bindCont f (x.eval env c).1).Always _ _ (x.eval env c).2
  rw [he]
  cases r with
  | error e => trivial
  | ok a => exact hf a c' he

theorem sends_acquire (c : Conn Store) : Sends P env acquire c :=
  ⟨trivial, trivial⟩

theorem sends_begin (c : Conn Store) : Sends P env begin c :=
  ⟨trivial, trivial⟩

theorem sends_commit (c : Conn Store) : Sends P env commit c :=
  ⟨trivial, trivial⟩

theorem sends_rollback (c : Conn Store) : Sends P env rollback c :=
  ⟨trivial, trivial⟩

theorem sends_inTxn {x : Txn α} (s : Store) (h : x.Sends P env (w, n)) :
    Sends P env (inTxn x) ⟨s, some w, n⟩ := by
  apply Prog.always_bind
  · have hsend : ∀ o (p : Store × Nat), (Rpc.send o).run (engine.serve env) ⟨s, some p.1, p.2⟩ =
        ((serveOp env o p).1, ⟨s, some (serveOp env o p).2.1, (serveOp env o p).2.2⟩) :=
      fun _ _ => rfl
    have hop : ∀ o (p : Store × Nat), o.Holds P (env p.2) p.1 →
        (Rpc.send o).Always (engine.serve env) (cmdHolds P env) ⟨s, some p.1, p.2⟩ :=
      fun _ _ hp => ⟨hp, trivial⟩
    exact Prog.always_embed (φ := fun p : Store × Nat => (⟨s, some p.1, p.2⟩ : Conn Store))
      (serveOp env) hsend hop h
  · trivial

theorem sends_closing {x : Rpc α} (h : Sends P env x c) :
    Sends P env (closing x) c := by
  apply Prog.always_bind _ h
  exact ⟨trivial, trivial⟩

theorem sends_open {s : Store} {k : Rpc α} (h : Sends P env k ⟨s, some s, 2⟩) :
    Sends P env (do acquire; begin; k : Rpc α) ⟨s, none, 0⟩ := by
  apply sends_bind (sends_acquire _)
  intro _ c hc
  have hconn := congrArg Prod.snd hc
  rw [eval_acquire_conn] at hconn
  subst hconn
  apply sends_bind (sends_begin _)
  intro _ c hc
  rw [eval_begin] at hc
  split at hc
  · cases hc
  · cases hc
    exact h

end Rpc

theorem storable_insertProject {t : Tick} {n : NewProject} (hf : (n.row t.now).fits = true)
    (s : Store) : Stmt.Storable t (.insertProject n) s := by
  intro _ h
  simp only [Stmt.exec, hf, Bool.not_true, Bool.false_eq_true, ↓reduceIte] at h
  split at h <;> cases h

theorem storable_insertGrant {t : Tick} {g : GrantRow} {s : Store} (hg : g.fits = true)
    (hr : ∃ r ∈ s.project, r.id = g.projectId) : Stmt.Storable t (.insertGrant g) s := by
  intro _ h
  have hrow : (s.project.any fun r => r.id == g.projectId) = true := by
    obtain ⟨r, hr, he⟩ := hr
    exact List.any_eq_true.2 ⟨r, hr, beq_iff_eq.2 he⟩
  simp only [Stmt.exec, hg, hrow, Bool.and_self, Bool.not_true, Bool.false_eq_true,
    ↓reduceIte] at h
  split at h <;> cases h

theorem storable_of_ok {t : Tick} {q : Stmt} {s : Store} {r : q.Reply × List Write}
    (h : q.exec t s = .ok r) : q.Storable t s := by
  intro _ he
  rw [h] at he
  cases he

namespace Sync

theorem storable_updateDeclared (t : Tick) {s : Store} (hs : s.Schema) {d : Declared}
    (hd : Sound (d :: ds)) (hactor : actor.length ≤ 64) {r : ProjectRow} (hr : r ∈ s.project)
    (ho : r.isOrg = true) (st : Int) :
    Stmt.Storable t (.updateDeclared d.displayName d.sourceRepo st actor r.id) s := by
  have hm : d ∈ d :: ds := List.mem_cons_self
  obtain ⟨ws, hx⟩ := exec_updateDeclared_of_fits t hs st hr ho (hd.name_width d hm)
    (hd.repo_width d hm) hactor
  exact storable_of_ok hx

theorem writeOne_storable {m : HashMap Str Stored} {w : Store × Nat} {d : Declared}
    (hs : w.1.Schema) (hd : Sound (d :: ds)) (hactor : actor.length ≤ 64)
    (hm : m.get d.key = (w.1.rowAt d.key).map Stored.of) :
    (writeOne d (m.get d.key) actor response).AllStorable env w := by
  have hmem : d ∈ d :: ds := List.mem_cons_self
  rw [hm]
  cases hr : w.1.rowAt d.key with
  | none =>
    apply Txn.sends_bind
    · apply Txn.sends_bind (Txn.sends_nowV7 w)
      intro uuid w₁ hu
      rw [Txn.eval_nowV7] at hu
      cases hu
      apply Txn.sends_bind
      · apply Txn.sends_query
        exact storable_insertProject (newRow_fits (env w.2).uuid_shape (hd.org d hmem)
          (hd.path_width d hmem) (hd.name_width d hmem) (hd.repo_width d hmem) hactor _) _
      · intro _ _ _
        exact Txn.sends_pure _ _
    · intro _ _ _
      exact Txn.sends_pure _ _
  | some r =>
    obtain ⟨hrm, hn⟩ := (rowAt_names hs).1 hr
    simp only [Option.map_some, writeOne]
    split
    · exact Txn.sends_pure _ _
    · apply Txn.sends_bind
      · exact Txn.sends_query (storable_updateDeclared _ hs hd hactor hrm hn.1 _)
      · intro _ _ _
        split
        · exact Txn.sends_pure _ _
        · exact Txn.sends_pure _ _

theorem writeAll_storable {m : HashMap Str Stored} {w : Store × Nat} (hs : w.1.Schema)
    (hd : Sound ds) (hactor : actor.length ≤ 64)
    (hm : ∀ d ∈ ds, m.get d.key = (w.1.rowAt d.key).map Stored.of) :
    (writeAll m actor ds response ids).AllStorable env w := by
  induction ds generalizing response ids w with
  | nil => exact Txn.sends_pure _ _
  | cons d ds ih =>
    have hm₀ := hm d List.mem_cons_self
    apply Txn.sends_bind (writeOne_storable hs hd hactor hm₀)
    rintro ⟨i, response₁⟩ w₁ h₁
    obtain ⟨hone, _⟩ := writeOne_ok hm₀ h₁
    have hs₁ := schema_of_eval hs h₁
    obtain ⟨hk, _⟩ := List.nodup_cons.1 hd.keys
    apply ih hs₁ hd.tail
    intro d' hd'
    rw [hm d' (List.mem_cons_of_mem _ hd')]
    rw [hone.rowAt hs hs₁ (hd.folded d List.mem_cons_self) fun he =>
      hk (he ▸ List.mem_map_of_mem hd')]

theorem archive_storable {w : Store × Nat} (hs : w.1.Schema) (hactor : actor.length ≤ 64)
    (ids : List Str) : (archive ids actor).AllStorable env w := by
  unfold archive
  cases ids.isEmpty with
  | true => exact Txn.sends_pure _ _
  | false =>
    have hall : (w.1.project.filter fun r => ids.contains r.id).all (fun r =>
        (r.archived ProjectStatus.archived.toI8 actor (env w.2).now).fits) = true := by
      rw [List.all_eq_true]
      intro r hr
      exact ProjectRow.fits_archived (hs.row_fits r (List.mem_filter.1 hr).1) _ _ hactor
    apply Txn.sends_query
    intro _ h
    simp only [Stmt.exec, hall, ↓reduceIte] at h
    cases h

end Sync

namespace Grants
open Sync

theorem writeDeletes_storable {w : Store × Nat} (ds : List (Str × Str)) :
    (writeDeletes ds).AllStorable env w := by
  induction ds generalizing w with
  | nil => exact Txn.sends_pure _ _
  | cons d ds ih =>
    apply Txn.sends_bind (Txn.sends_query (storable_of_ok rfl))
    intro _ _ _
    exact ih

theorem writeUpdates_storable {w : Store × Nat} (h : ∀ u ∈ us, u.2.2 = 1 ∨ u.2.2 = 2) :
    (writeUpdates us).AllStorable env w := by
  induction us generalizing w with
  | nil => exact Txn.sends_pure _ _
  | cons u us ih =>
    have hl : (u.2.2 == 1 || u.2.2 == 2) = true := by
      rw [Bool.or_eq_true, beq_iff_eq, beq_iff_eq]
      exact h u List.mem_cons_self
    apply Txn.sends_bind
    · apply Txn.sends_query
      intro _ he
      simp only [Stmt.exec, hl, ↓reduceIte] at he
      cases he
    · intro _ _ _
      exact ih fun u' hu' => h u' (List.mem_cons_of_mem _ hu')

theorem writeInserts_storable {w : Store × Nat}
    (h : ∀ i ∈ is, ∀ projectId, ids.get i.1 = some projectId →
      (GrantRow.mk projectId i.2.1 i.2.2).fits = true ∧ ∃ r ∈ w.1.project, r.id = projectId) :
    (writeInserts ids is).AllStorable env w := by
  induction is generalizing w with
  | nil => exact Txn.sends_pure _ _
  | cons i is ih =>
    unfold writeInserts
    cases hi : ids.get i.1 with
    | none => exact Txn.sends_ofExcept _ _
    | some projectId =>
      obtain ⟨hfits, hrow⟩ := h i List.mem_cons_self projectId hi
      apply Txn.sends_bind (Txn.sends_query (storable_insertGrant hfits hrow))
      intro _ w₁ hw₁
      obtain ⟨ws, hx, rfl⟩ := Txn.eval_query_ok hw₁
      obtain ⟨_, _, _, rfl⟩ := exec_insertGrant_ok hx
      exact ih fun j hj => h j (List.mem_cons_of_mem _ hj)

omit [ServerCollation] in
theorem declared_fits {d : Declared} (hd : Sound declared) (hdm : d ∈ declared) (hg : g ∈ d.grants)
    {r : ProjectRow} (hr : r.fits = true) : (GrantRow.mk r.id g.1 g.2).fits = true := by
  simp only [GrantRow.fits, Bool.and_eq_true, Bool.or_eq_true, decide_eq_true_eq, beq_iff_eq]
  exact ⟨⟨ProjectRow.id_length hr, hd.team_width d hdm g hg⟩, hd.levels d hdm g hg⟩

theorem write_storable {w : Store × Nat} (hd : Sound declared) (hw : w.1.Schema)
    (hnamed : ∀ d ∈ declared, ∃ r ∈ w.1.project, d.Names r ∧ ids.get d.key = some r.id) :
    (write (plan declared stored) ids).AllStorable env w := by
  rw [plan_eq]
  apply Txn.sends_bind (writeDeletes_storable _)
  intro _ w₁ h₁
  apply Txn.sends_bind (writeUpdates_storable fun u hu => relevelled_level hd hu)
  intro _ w₂ h₂
  have hproject : w₂.1.project = w.1.project := by
    rw [writeUpdates_ok h₂, writeDeletes_ok h₁]
  apply writeInserts_storable
  intro i hi projectId hid
  obtain ⟨d, hdm, g, hg, _, rfl⟩ := mem_missing.1 hi
  obtain ⟨r, hr, _, hget⟩ := hnamed d hdm
  cases hid.symm.trans hget
  rw [hproject]
  exact ⟨declared_fits hd hdm hg (hw.row_fits r hr), r, hr, rfl⟩

end Grants

namespace Sync

theorem apply_storable {w : Store × Nat} (hd : Sound declared) (hs : w.1.Schema)
    (hactor : actor.length ≤ 64) (guards : Guards) :
    (apply declared actor guards).AllStorable env w := by
  apply Txn.sends_bind (Txn.sends_query (storable_of_ok rfl))
  intro _ w₁ h₁
  have hw₁ := selectSyncLock_ok h₁
  apply Txn.sends_bind (Txn.sends_query (storable_of_ok rfl))
  intro stored w₂ h₂
  obtain ⟨hp, hw₂⟩ := selectOrgProjects_ok h₂
  apply Txn.sends_bind
  · apply Txn.sends_bind (Txn.sends_query (storable_of_ok rfl))
    intro found _ _
    cases found with
    | none => exact Txn.sends_pure _ _
    | some _ => exact Txn.sends_ofExcept _ _
  intro _ w₃ h₃
  obtain ⟨hw₃, _⟩ := refuseAliases_ok h₃
  apply Txn.sends_bind (Txn.sends_ofExcept _ _)
  intro _ w₄ h₄
  cases (Prod.mk.inj h₄).2
  apply Txn.sends_bind (Txn.sends_query (storable_of_ok rfl))
  intro grants w₅ h₅
  obtain ⟨_, hw₅⟩ := selectOrgGrants_ok h₅
  apply Txn.sends_bind (Txn.sends_ofExcept _ _)
  intro _ w₆ h₆
  cases (Prod.mk.inj h₆).2
  have hsame : w₅.1 = w.1 := by rw [hw₅, hw₃, hw₂, hw₁]
  rw [hw₁] at hp
  have hs₅ : w₅.1.Schema := hsame.symm ▸ hs
  have hm : ∀ d ∈ declared, (byKey stored).get d.key = (w₅.1.rowAt d.key).map Stored.of := by
    intro d _
    rw [hsame]
    exact get_byKey hs.path_key hp d.key
  apply Txn.sends_bind (writeAll_storable hs₅ hd hactor hm)
  rintro ⟨response, ids⟩ w₇ h₇
  obtain ⟨hup, _⟩ := writeAll_ok hd hs₅ hm h₇
  have hs₇ := schema_of_eval hs₅ h₇
  apply Txn.sends_bind (archive_storable hs₇ hactor _)
  intro _ w₈ h₈
  obtain ⟨now, hw₈⟩ := archive_ok h₈
  apply Txn.sends_bind
  · apply Grants.write_storable hd (schema_of_eval hs₇ h₈)
    intro d hdm
    obtain ⟨r, hr, hn, hid⟩ := hup.named d hdm
    rw [hw₈]
    refine ⟨_, mem_updateRows.2 ⟨r, hr, rfl⟩, ?_⟩
    split
    · exact ⟨hn, hid⟩
    · exact ⟨hn, hid⟩
  · intro _ _ _
    exact Txn.sends_pure _ _

theorem syncAs_storable (caller : Option Str) (req : SyncProjectsRequest) {s : Store}
    (hs : s.Schema) : (syncAs caller req).AllStorable env ⟨s, none, 0⟩ := by
  unfold syncAs
  cases ha : admitted caller req.scope with
  | error e =>
    apply Rpc.sends_bind (Rpc.sends_ofExcept _ _)
    intro _ _ h
    cases h
  | ok actor =>
    apply Rpc.sends_bind (Rpc.sends_ofExcept _ _)
    intro _ _ h
    cases h
    obtain ⟨_, _, _, _, hactor⟩ := admitted_ok ha
    cases hv : validate req with
    | error e =>
      apply Rpc.sends_bind (Rpc.sends_ofExcept _ _)
      intro _ _ h
      cases h
    | ok declared =>
      obtain ⟨hw, rfl⟩ := (validate_ok_iff req).1 hv
      apply Rpc.sends_bind (Rpc.sends_ofExcept _ _)
      intro _ _ h
      cases h
      apply Rpc.sends_open
      apply Rpc.sends_closing
      apply Rpc.sends_bind
      · exact Rpc.sends_inTxn s (apply_storable (validation_sound hw) hs hactor _)
      · intro r _ _
        cases r with
        | ok response =>
          apply Rpc.sends_bind (Rpc.sends_commit _)
          intro _ _ _
          exact Rpc.sends_pure _ _
        | error e =>
          apply Rpc.sends_bind (Rpc.sends_rollback _)
          intro _ _ _
          exact Rpc.sends_ofExcept _ _

end Sync

namespace Register
variable [UuidCrate]

omit [ServerCollation] in
theorem checked_owner {req : RegisterProjectRequest} (h : checked req = .ok (scope, cls)) :
    cls = ⟨scope.userId, Visibility.private_.toI8⟩ ∧ scope.userId.length = 48 := by
  obtain ⟨_, _, _, _, hcls, seg, hseg, _⟩ := checked_ok h
  obtain ⟨howner, hshape⟩ := accountSegment_eq_some hseg
  refine ⟨hcls, ?_⟩
  have hprefix : userIdPrefix.length = 12 := by decide
  rw [howner, List.length_append, length_of_hyphenated hshape, hprefix]

omit [ServerCollation] in
theorem newRow_fits {req : RegisterProjectRequest} (h : checked req = .ok (scope, cls))
    (hu : Hyphenated uuid) (now : Time) :
    ((newRow (projectIdPrefix ++ uuid) req scope cls).row now).fits = true := by
  obtain ⟨hgrammar, _, hname, hprivate, _⟩ := checked_ok h
  obtain ⟨hcls, howner⟩ := checked_owner h
  have hid : (projectIdPrefix ++ uuid).length ≤ 96 := by
    have hp : projectIdPrefix.length = 15 := by decide
    rw [List.length_append, length_of_hyphenated hu, hp]
    decide
  have hpath : req.path.length ≤ 255 := Nat.le_trans (length_le_byteLen _) hgrammar.1
  have huser : scope.userId.length ≤ 64 := by
    rw [howner]
    decide
  have hclass : ckProjectClassPath ((newRow (projectIdPrefix ++ uuid) req scope cls).row now) =
      true := by
    change (true == likeLocal req.path) = true
    rw [likeLocal_eq, hprivate]
    rfl
  subst hcls
  simp only [ProjectRow.fits, Bool.and_eq_true, decide_eq_true_eq]
  exact ⟨⟨⟨⟨⟨⟨⟨⟨hid, hpath⟩, hname⟩, rfl⟩, decide_eq_true huser⟩, huser⟩, huser⟩, rfl⟩, hclass⟩

variable [Idem.Sha256] [Message RegisterProjectRequest] [Message RegisterProjectResponse]

/-- What a registration's statements on the ledger and on the registry are to meet. -/
structure Statements (P : Tick → Stmt → Store → Prop) (env : Nat → Tick)
    (req : RegisterProjectRequest) (scope : Scope) (cls : Class) : Prop where
  claim : ∀ key, Idem.present req.idempotency = some key → ∀ t s,
    P t (.insertWrite scope.projectId scope.userId key rpcName (Idem.fingerprint (payload req))) s
  replay : ∀ key, Idem.present req.idempotency = some key → ∀ t s,
    P t (.selectWriteForUpdate scope.projectId scope.userId key) s
  former : ∀ t s, P t (.selectAliasOwner req.path) s
  insert : ∀ n t s,
    P t (.insertProject (newRow (projectIdPrefix ++ (env n).uuid) req scope cls)) s
  record : ∀ key, Idem.present req.idempotency = some key → ∀ n t s,
    P t (.updateWrite (Message.encodeToVec (⟨some (metaOf (projectIdPrefix ++ (env n).uuid) 1
      req.path scope.userId)⟩ : RegisterProjectResponse)) scope.projectId scope.userId key) s

omit [UuidCrate] in
theorem claim_sends {req : RegisterProjectRequest} (h : Statements P env req scope cls)
    (w : Store × Nat) : (Idem.claim (τ := RegisterProjectResponse) scope rpcName req.idempotency
      fun _ => payload req).Sends P env w := by
  unfold Idem.claim
  cases hkey : Idem.present req.idempotency with
  | none => exact Txn.sends_pure _ _
  | some key =>
    apply Txn.sends_bind (Txn.sends_attempt (h.claim key hkey _ _))
    intro r _ _
    cases r with
    | ok _ => exact Txn.sends_pure _ _
    | error e =>
      cases e with
      | uniqueViolation =>
        apply Txn.sends_bind (Txn.sends_query (h.replay key hkey _ _))
        intro row _ _
        split
        · exact Txn.sends_ofExcept _ _
        · split
          · exact Txn.sends_ofExcept _ _
          · split
            · exact Txn.sends_pure _ _
            · exact Txn.sends_ofExcept _ _
      | _ => exact Txn.sends_ofExcept _ _

omit [UuidCrate] in
theorem record_sends {req : RegisterProjectRequest} (h : Statements P env req scope cls)
    (n : Nat) (w : Store × Nat) : (Idem.record scope req.idempotency
      (⟨some (metaOf (projectIdPrefix ++ (env n).uuid) 1 req.path scope.userId)⟩ :
        RegisterProjectResponse)).Sends P env w := by
  unfold Idem.record
  cases hkey : Idem.present req.idempotency with
  | none => exact Txn.sends_pure _ _
  | some key => exact Txn.sends_query (h.record key hkey n _ _)

omit [UuidCrate] [Idem.Sha256] [Message RegisterProjectRequest] [Message RegisterProjectResponse] in
theorem sends_step {x : Txn α} {k : α → Rpc β} {s : Store} (hx : x.Sends P env (w, n))
    (hk : ∀ a w' m, x.eval env (w, n) = (.ok a, (w', m)) → (k a).Sends P env ⟨s, some w', m⟩) :
    (do let a ← Rpc.ofExcept (← Rpc.inTxn x); k a : Rpc β).Sends P env ⟨s, some w, n⟩ := by
  apply Rpc.sends_bind (Rpc.sends_inTxn s hx)
  intro r c hc
  rw [Rpc.eval_inTxn] at hc
  cases hc
  apply Rpc.sends_bind (Rpc.sends_ofExcept _ _)
  intro a c hc
  obtain ⟨he, rfl⟩ := Prod.mk.inj hc
  exact hk a _ _ (Prod.ext he rfl)

omit [UuidCrate] in
theorem transact_sends {req : RegisterProjectRequest} {s : Store}
    (h : Statements P env req scope cls) : (transact req scope cls).Sends P env ⟨s, some s, n⟩ := by
  apply sends_step (claim_sends h _)
  intro claimed w₁ m₁ _
  cases claimed with
  | replay original =>
    apply Rpc.sends_bind (Rpc.sends_rollback _)
    intro _ _ _
    exact Rpc.sends_pure _ _
  | proceed =>
    apply sends_step (Txn.sends_query (h.former _ _))
    intro owner w₂ m₂ _
    cases owner with
    | some owner =>
      apply Rpc.sends_bind (Rpc.sends_rollback _)
      intro _ _ _
      exact Rpc.sends_ofExcept _ _
    | none =>
      apply sends_step (Txn.sends_nowV7 _)
      intro uuid w₃ m₃ hu
      rw [Txn.eval_nowV7] at hu
      cases hu
      apply sends_step (Txn.sends_attempt (h.insert m₂ _ _))
      intro inserted w₄ m₄ _
      cases inserted with
      | error e =>
        apply Rpc.sends_bind (Rpc.sends_rollback _)
        intro _ _ _
        split
        · exact Rpc.sends_ofExcept _ _
        · exact Rpc.sends_ofExcept _ _
      | ok _ =>
        apply sends_step (record_sends h m₂ _)
        intro _ w₅ m₅ _
        apply Rpc.sends_bind (Rpc.sends_commit _)
        intro _ _ _
        exact Rpc.sends_pure _ _

/-- A registration sends what its checked request gives it to send. -/
theorem registerAs_sends (caller : Option Str) {req : RegisterProjectRequest}
    (h : ∀ scope cls, checked req = .ok (scope, cls) → Statements P env req scope cls) (s : Store) :
    (registerAs caller req).Sends P env ⟨s, none, 0⟩ := by
  apply Rpc.sends_bind (Rpc.sends_ofExcept _ _)
  intro _ c hc
  cases (Prod.mk.inj hc).2
  apply Rpc.sends_bind (Rpc.sends_ofExcept _ _)
  intro admitted c hc
  obtain ⟨hchecked, rfl⟩ := Prod.mk.inj hc
  apply Rpc.sends_open
  apply Rpc.sends_closing
  exact transact_sends (h _ _ hchecked)

theorem registerAs_storable (caller : Option Str) (req : RegisterProjectRequest) (s : Store) :
    (registerAs caller req).AllStorable env ⟨s, none, 0⟩ := by
  apply registerAs_sends
  intro scope cls h
  exact {
    claim := fun _ _ _ _ hledger => by cases hledger
    replay := fun _ _ _ _ hledger => by cases hledger
    former := fun _ _ => storable_of_ok rfl
    insert := fun n _ _ => storable_insertProject (newRow_fits h (env n).uuid_shape _) _
    record := fun _ _ _ _ _ hledger => by cases hledger }

end Register

section
variable [UuidCrate] [Idem.Sha256] [Message RegisterProjectRequest]
  [Message RegisterProjectResponse]

/-- What passes the checks is storable: no width and no CHECK of the registry refuses a row. -/
theorem validation_storable {s : Store} (hs : s.Schema) :
    (∀ path, Grammatical path → (isPrivateClass path = true ↔ likeLocal path = true)) ∧
    (∀ req scope cls, Register.checked req = .ok (scope, cls) →
      ∀ uuid now, Hyphenated uuid →
        ((Register.newRow (Register.projectIdPrefix ++ uuid) req scope cls).row now).fits = true) ∧
    (∀ caller req actor declared, admitted caller req.scope = .ok actor →
      Sync.validate req = .ok declared →
        (∀ d ∈ declared, ∀ uuid now, Hyphenated uuid →
          ((newRow actor d (projectIdPrefix ++ uuid)).row now).fits = true) ∧
        (∀ d ∈ declared, ∀ r ∈ s.project, r.isOrg = true → ∀ now,
          (overwrite actor d now r).fits = true) ∧
        (∀ r ∈ s.project, ∀ now,
          (r.archived ProjectStatus.archived.toI8 actor now).fits = true) ∧
        ∀ d ∈ declared, ∀ g ∈ d.grants, ∀ r ∈ s.project,
          (GrantRow.mk r.id g.1 g.2).fits = true) ∧
    ∀ env : Nat → Tick,
      (∀ caller req, (Register.registerAs caller req).AllStorable env ⟨s, none, 0⟩) ∧
      ∀ caller req, (syncAs caller req).AllStorable env ⟨s, none, 0⟩ := by
  refine ⟨fun path _ => by rw [likeLocal_eq], fun req scope cls h uuid now hu =>
    Register.newRow_fits h hu now, fun caller req actor declared ha hv => ?_, fun env =>
    ⟨fun caller req => Register.registerAs_storable caller req s,
      fun caller req => syncAs_storable caller req hs⟩⟩
  obtain ⟨_, _, _, _, hactor⟩ := admitted_ok ha
  obtain ⟨hw, rfl⟩ := (validate_ok_iff req).1 hv
  have hd := validation_sound hw
  refine ⟨fun d hdm uuid now hu => ?_, fun d hdm r hr ho now => ?_, fun r hr now => ?_,
    fun d hdm g hg r hr => ?_⟩
  · exact newRow_fits hu (hd.org d hdm) (hd.path_width d hdm) (hd.name_width d hdm)
      (hd.repo_width d hdm) hactor now
  · exact ProjectRow.fits_declared (hs.row_fits r hr) ho _ now (hd.name_width d hdm)
      (hd.repo_width d hdm) hactor
  · exact ProjectRow.fits_archived (hs.row_fits r hr) _ now hactor
  · exact Grants.declared_fits hd hdm hg (hs.row_fits r hr)

end

end

section
open scoped Reference

theorem validation_storable_acme :
    (syncAs (some syncCaller) acmeOnly).AllStorable (fun n => .quiet 1 n) ⟨Read.renamed, none, 0⟩ ∧
    ((Register.newRow (Register.projectIdPrefix ++ uuidOf 7) adaHome ⟨ada, []⟩
      ⟨ada, Visibility.private_.toI8⟩).row 1).fits = true := by
  obtain ⟨_, hregister, _, hcalls⟩ := validation_storable renamed_schema
  exact ⟨(hcalls _).2 _ _, hregister _ _ _ (by decide +kernel) _ _ (uuidOf_shape 7)⟩

end

end ProjectDb
