import ProjectDb.Bulk
import ProjectDb.Cancellation
import ProjectDb.Coherence

namespace ProjectDb
open Text ProjectDb.Path Mvcc Pool
set_option autoImplicit true

/-- The error after which the server may have rolled the transaction back: any but a duplicate
key. -/
def Op.failure : (o : Op) → o.Reply → Option SqlError
  | .sql _, .error e => if e = .uniqueViolation then none else some e
  | _, _ => none

def Op.fatal (o : Op) (r : o.Reply) : Bool := (o.failure r).isSome

theorem begun_of_open {ph : Phase} (h : ph = .inside ∨ ph = .broken) : ph.begun = true := by
  rcases h with rfl | rfl <;> rfl

/-- What failed is what is answered. -/
def PassedOn : Option SqlError → Except Status α → Prop
  | none, _ => True
  | some e, r => r = .error (internal e)

namespace Txn

/-- Statements are sent until one fails. -/
def untilFailed : Option SqlError → (o : Op) → o.Reply → Option (Option SqlError)
  | none, o, r => some (o.failure r)
  | some _, _, _ => none

/-- Statements that stop at the first failure and pass it on. -/
def Careful (x : Txn α) : Prop := x.run.Obeys untilFailed PassedOn none

theorem careful_bind {x : Txn α} {f : α → Txn β} (hx : Careful x) (hf : ∀ a, Careful (f a)) :
    Careful (x >>= f) := by
  apply Prog.obeys_try hx
  · intro failed a h
    cases failed with
    | none => exact hf a
    | some e => cases h
  · intro failed e h
    cases failed with
    | none => trivial
    | some e' =>
      cases h
      rfl

theorem careful_pure (a : α) : Careful (pure a : Txn α) := trivial

theorem careful_ofExcept (r : Except Status α) : Careful (ofExcept r) := trivial

theorem careful_nowV7 : Careful nowV7 := fun _ => ⟨none, rfl, trivial⟩

theorem careful_query (q : Stmt) : Careful (query q) := by
  intro r
  refine ⟨_, rfl, ?_⟩
  cases r with
  | ok a => trivial
  | error e =>
    change PassedOn (if e = .uniqueViolation then none else some e) _
    split_ifs
    · trivial
    · rfl

theorem careful_attempt {q : Stmt} {f : Except SqlError q.Reply → Txn β}
    (hok : ∀ a, Careful (f (.ok a))) (hunique : Careful (f (.error .uniqueViolation)))
    (hfailed : ∀ e, e ≠ .uniqueViolation → f (.error e) = ofExcept (.error (internal e))) :
    Careful (attempt q >>= f) := by
  intro r
  refine ⟨_, rfl, ?_⟩
  cases r with
  | ok a => exact hok a
  | error e =>
    by_cases he : e = .uniqueViolation
    · subst he
      exact hunique
    · have hfailure : Op.failure (.sql q) (.error e) = some e := if_neg he
      change (f (.error e)).run.Obeys _ _ (Op.failure (.sql q) (.error e))
      rw [hfailure, hfailed e he]
      rfl

end Txn

namespace Sync

theorem careful_refuseAliases (declared : List Declared) : (refuseAliases declared).Careful := by
  apply Txn.careful_bind (Txn.careful_query _)
  intro found
  cases found with
  | none => exact Txn.careful_pure _
  | some path => exact Txn.careful_ofExcept _

theorem careful_writeOne (d : Declared) (stored : Option Stored) (actor : Str)
    (response : SyncProjectsResponse) : (writeOne d stored actor response).Careful := by
  cases stored with
  | none =>
    apply Txn.careful_bind
    · apply Txn.careful_bind Txn.careful_nowV7
      intro uuid
      exact Txn.careful_bind (Txn.careful_query _) fun _ => Txn.careful_pure _
    · exact fun _ => Txn.careful_pure _
  | some stored =>
    unfold writeOne
    simp only
    split_ifs
    · exact Txn.careful_pure _
    · exact Txn.careful_bind (Txn.careful_query _) fun _ => Txn.careful_pure _
    · exact Txn.careful_bind (Txn.careful_query _) fun _ => Txn.careful_pure _

theorem careful_writeAll (byKey : HashMap Str Stored) (actor : Str) (declared : List Declared)
    (response : SyncProjectsResponse) (ids : HashMap Str Str) :
    (writeAll byKey actor declared response ids).Careful := by
  induction declared generalizing response ids with
  | nil => exact Txn.careful_pure _
  | cons d declared ih =>
    apply Txn.careful_bind (careful_writeOne _ _ _ _)
    rintro ⟨id, response⟩
    exact ih _ _

theorem careful_archive (ids : List Str) (actor : Str) : (archive ids actor).Careful := by
  unfold archive
  cases ids.isEmpty with
  | true => exact Txn.careful_pure _
  | false => exact Txn.careful_query _

end Sync

namespace Grants

theorem careful_writeDeletes (deletes : List (Str × Str)) : (writeDeletes deletes).Careful := by
  induction deletes with
  | nil => exact Txn.careful_pure _
  | cons e deletes ih => exact Txn.careful_bind (Txn.careful_query _) fun _ => ih

theorem careful_writeUpdates (updates : List (Str × Str × Int)) :
    (writeUpdates updates).Careful := by
  induction updates with
  | nil => exact Txn.careful_pure _
  | cons e updates ih => exact Txn.careful_bind (Txn.careful_query _) fun _ => ih

theorem careful_writeInserts (ids : HashMap Str Str) (inserts : List (Str × Str × Int)) :
    (writeInserts ids inserts).Careful := by
  induction inserts with
  | nil => exact Txn.careful_pure _
  | cons e inserts ih =>
    obtain ⟨key, teamId, level⟩ := e
    unfold writeInserts
    cases HashMap.get ids key with
    | none => exact Txn.careful_ofExcept _
    | some projectId => exact Txn.careful_bind (Txn.careful_query _) fun _ => ih

theorem careful_write (plan : GrantPlan) (ids : HashMap Str Str) : (write plan ids).Careful := by
  apply Txn.careful_bind (careful_writeDeletes _)
  intro _
  apply Txn.careful_bind (careful_writeUpdates _)
  exact fun _ => careful_writeInserts _ _

end Grants

theorem Sync.careful_apply (declared : List Declared) (actor : Str) (guards : Guards) :
    (apply declared actor guards).Careful := by
  apply Txn.careful_bind (Txn.careful_query _)
  intro _
  apply Txn.careful_bind (Txn.careful_query _)
  intro stored
  apply Txn.careful_bind (careful_refuseAliases declared)
  intro _
  apply Txn.careful_bind (Txn.careful_ofExcept _)
  intro _
  apply Txn.careful_bind (Txn.careful_query _)
  intro storedGrants
  apply Txn.careful_bind (Txn.careful_ofExcept _)
  intro _
  apply Txn.careful_bind (careful_writeAll _ _ _ _ _)
  rintro ⟨response, ids⟩
  apply Txn.careful_bind (careful_archive _ _)
  intro _
  exact Txn.careful_bind (Grants.careful_write _ _) fun _ => Txn.careful_pure _

namespace Idem
variable [Message τ]

theorem careful_replay (scope : Scope) (rpc key : Str) (fingerprint : Bytes) :
    (replay scope rpc key fingerprint : Txn (Claimed τ)).Careful := by
  apply Txn.careful_bind (Txn.careful_query _)
  intro row
  split_ifs
  · exact Txn.careful_ofExcept _
  · exact Txn.careful_ofExcept _
  · split
    · exact Txn.careful_pure _
    · exact Txn.careful_ofExcept _

theorem careful_record (scope : Scope) (idem : Option Idempotency) (response : τ) :
    (record scope idem response).Careful := by
  unfold record
  cases present idem with
  | none => exact Txn.careful_pure _
  | some key => exact Txn.careful_query _

theorem careful_claim [Sha256] (scope : Scope) (rpc : Str) (idem : Option Idempotency)
    (payload : Unit → Bytes) : (claim scope rpc idem payload : Txn (Claimed τ)).Careful := by
  unfold claim
  cases present idem with
  | none => exact Txn.careful_pure _
  | some key =>
    apply Txn.careful_attempt
    · exact fun _ => Txn.careful_pure _
    · exact careful_replay _ _ _ _
    · intro e he
      cases e with
      | uniqueViolation => exact absurd rfl he
      | _ => rfl

end Idem

section
variable [ServerCollation]

/-- A transaction's statements, from an open transaction on. -/
def Txn.Keeps (x : Txn α) (post : Phase → Except Status α → Prop) (ph : Phase) : Prop :=
  x.run.Obeys (fun ph o r => Pool.after engine Op.fatal ph (.stmt o) r) post ph

def Rpc.Keeps (x : Rpc α) (post : Phase → Except Status α → Prop) (ph : Phase) : Prop :=
  x.run.Obeys (Pool.after engine Op.fatal) post ph

/-- A transaction is open, unless it was refused. -/
def Phase.OpenOr : Phase → Except Status α → Prop
  | ph, .ok _ => ph = .inside
  | ph, .error _ => ph = .inside ∨ ph = .broken

/-- Such statements keep to the protocol of their connection. -/
theorem Txn.Careful.keeps {x : Txn α} (h : Careful x) : x.Keeps Phase.OpenOr .inside := by
  apply Prog.obeys_simulated
    (fun failed ph => ph = if failed.isSome then .broken else .inside) _ _ h rfl
  · rintro failed _ o r next rfl hnext
    cases failed with
    | some _ => cases hnext
    | none =>
      cases hnext
      exact ⟨_, rfl, rfl⟩
  · rintro failed _ r rfl hr
    cases failed with
    | none =>
      cases r with
      | ok a => exact rfl
      | error e => exact .inl rfl
    | some e =>
      cases hr
      exact .inr rfl

namespace Rpc

/-- Whatever came of a transaction, it is one that has begun. -/
abbrev Begun (ph : Phase) (_ : Except Status α) : Prop := ph.begun = true

theorem keeps_bind {x : Rpc α} {f : α → Rpc β} {post : Phase → Except Status α → Prop}
    {post' : Phase → Except Status β → Prop} (hx : x.Keeps post ph)
    (hok : ∀ ph a, post ph (.ok a) → (f a).Keeps post' ph)
    (herror : ∀ ph e, post ph (.error e) → post' ph (.error e)) : (x >>= f).Keeps post' ph :=
  Prog.obeys_try hx hok herror

theorem keeps_inTxn {x : Txn α} {post : Phase → Except Status α → Prop} (hx : x.Keeps post ph) :
    (inTxn x).Keeps (fun ph r => ∃ a, r = .ok a ∧ post ph a) ph := by
  have hsend : (x.run.embed send).Obeys (Pool.after engine Op.fatal) post ph := by
    apply Prog.obeys_embed (fun o ph h => ?_) hx
    intro r
    obtain ⟨next, hnext⟩ := h r
    exact ⟨next, hnext, hnext⟩
  exact Prog.obeys_bind hsend fun ph a h => ⟨a, rfl, h⟩

theorem keeps_caught {x : Txn α} {f : α → Rpc β} {post : Phase → Except Status β → Prop}
    (hx : x.Careful) (hok : ∀ a, (f a).Keeps post .inside)
    (herror : ∀ ph e, ph = .inside ∨ ph = .broken → post ph (.error e)) :
    (do f (← ofExcept (← inTxn x)) : Rpc β).Keeps post .inside := by
  apply keeps_bind (keeps_inTxn hx.keeps)
  · rintro ph r ⟨_, hr, h⟩
    cases hr
    cases r with
    | ok a =>
      cases h
      exact hok a
    | error e => exact herror ph e h
  · rintro ph e ⟨_, hr, _⟩
    cases hr

theorem keeps_commit : commit.Keeps Begun .inside := by
  intro r
  cases r with
  | ok u => exact ⟨.ended, rfl, rfl⟩
  | error e => exact ⟨.broken, rfl, rfl⟩

theorem keeps_rollback (h : ph = .inside ∨ ph = .broken) : rollback.Keeps Begun ph := by
  intro r
  rcases h with rfl | rfl
  · cases r with
    | ok u => exact ⟨.ended, rfl, rfl⟩
    | error e => exact ⟨.broken, rfl, rfl⟩
  · cases r with
    | ok u => exact ⟨.ended, rfl, rfl⟩
    | error e => exact ⟨.broken, rfl, rfl⟩

theorem keeps_last {x : Rpc α} {r : α → Except Status β} (hx : x.Keeps Begun ph) :
    (x >>= fun a => ofExcept (r a)).Keeps Begun ph :=
  keeps_bind hx (fun _ _ h => h) fun _ _ h => h

theorem keeps_closing {x : Rpc α} (hx : x.Keeps Begun .inside) :
    (closing x).Keeps (fun _ _ => True) .inside := by
  apply Prog.obeys_bind hx
  intro ph r hbegun _
  refine ⟨.ended, ?_, trivial⟩
  cases ph with
  | inside => rfl
  | broken => rfl
  | ended => rfl
  | _ => cases hbegun

theorem keeps_acquired {x : Rpc α} (hx : x.Keeps (fun _ _ => True) .holding) :
    (do acquire; x : Rpc α).Keeps (fun _ _ => True) .outside := by
  intro r
  cases r with
  | ok u => exact ⟨.holding, rfl, hx⟩
  | error e =>
    refine ⟨.outside, rfl, ?_⟩
    cases e with
    | fault f => cases f <;> trivial
    | _ => trivial

theorem keeps_begun {x : Rpc α} (hx : x.Keeps (fun _ _ => True) .inside) :
    (do begin; x : Rpc α).Keeps (fun _ _ => True) .holding := by
  intro r
  cases r with
  | ok u => exact ⟨.inside, rfl, hx⟩
  | error e => exact ⟨.doubtful, rfl, trivial⟩

theorem keeps_checked {r : Except Status α} {f : α → Rpc β}
    (hf : ∀ a, (f a).Keeps (fun _ _ => True) .outside) :
    (ofExcept r >>= f).Keeps (fun _ _ => True) .outside := by
  cases r with
  | ok a => exact hf a
  | error e => exact trivial

/-- A connection that only reads stays outside any transaction. -/
abbrev Reading (x : Rpc α) : Prop := x.Keeps (fun ph _ => ph = .holding) .holding

theorem reading_read {q : Stmt} (h : q.nonlocking = true) : Reading (read q) :=
  fun _ => ⟨.holding, if_pos h, rfl⟩

theorem reading_bind {x : Rpc α} {f : α → Rpc β} (hx : Reading x) (hf : ∀ a, Reading (f a)) :
    Reading (x >>= f) := by
  apply keeps_bind hx
  · rintro ph a rfl
    exact hf a
  · exact fun _ _ h => h

theorem reading_ofExcept (r : Except Status α) : Reading (ofExcept r) := rfl

theorem reading_pure (a : α) : Reading (pure a) := rfl

theorem keeps_reading {x : Rpc α} (hx : Reading x) :
    (do acquire; x : Rpc α).Keeps (fun _ _ => True) .outside :=
  keeps_acquired (Prog.obeys_mono (fun _ _ _ => trivial) hx)

end Rpc

open Rpc

theorem Sync.keeps_transact (declared : List Declared) (actor : Str) (guards : Guards) :
    (transact declared actor guards).Keeps Begun .inside := by
  apply keeps_bind (keeps_inTxn (careful_apply declared actor guards).keeps)
  · rintro ph r ⟨_, hr, h⟩
    cases hr
    cases r with
    | ok response =>
      cases h
      exact keeps_last (r := fun _ => .ok response) keeps_commit
    | error refusal => exact keeps_last (r := fun _ => .error refusal) (keeps_rollback h)
  · rintro ph e ⟨_, hr, _⟩
    cases hr

theorem Sync.keeps_syncAs (caller : Option Str) (req : SyncProjectsRequest) :
    (syncAs caller req).Keeps (fun _ _ => True) .outside := by
  apply keeps_checked
  intro actor
  apply keeps_checked
  intro declared
  exact keeps_acquired (keeps_begun (keeps_closing (keeps_transact _ _ _)))

namespace Touch

theorem keeps_transact (seconds : Int) (paths : List Str) :
    (transact seconds paths).Keeps Begun .inside := by
  apply keeps_caught (Txn.careful_query _)
  · intro _
    apply keeps_caught (Txn.careful_query _)
    · exact fun matched => keeps_last (r := fun _ => .ok matched) keeps_commit
    · exact fun _ _ => begun_of_open
  · exact fun _ _ => begun_of_open

theorem keeps_touch (req : TouchProjectsRequest) :
    (touch req).Keeps (fun _ _ => True) .outside := by
  apply keeps_checked
  rintro ⟨seconds, paths⟩
  apply keeps_acquired
  apply keeps_begun
  exact keeps_bind (keeps_closing (keeps_transact _ _)) (fun _ _ _ => trivial) fun _ _ _ => trivial

end Touch

namespace Register

theorem keeps_attempt (q : Stmt) : (Txn.attempt q).Keeps
    (fun ph r => ∃ a, r = .ok a ∧ (ph = .inside ∨ ph = .broken ∧ ∃ e, a = .error e)) .inside := by
  intro r
  refine ⟨_, rfl, r, rfl, ?_⟩
  cases r with
  | ok a => exact .inl rfl
  | error e =>
    split_ifs
    · exact .inr ⟨rfl, e, rfl⟩
    · exact .inl rfl

variable [Idem.Sha256] [Message RegisterProjectRequest] [Message RegisterProjectResponse]

theorem keeps_transact (req : RegisterProjectRequest) (scope : Scope) (cls : Class) :
    (transact req scope cls).Keeps Begun .inside := by
  apply keeps_caught (Idem.careful_claim _ _ _ _)
  · intro claimed
    cases claimed with
    | replay original =>
      exact keeps_last (r := fun _ => .ok original) (keeps_rollback (.inl rfl))
    | proceed =>
      apply keeps_caught (Txn.careful_query _)
      · intro owner
        cases owner with
        | some owner => exact keeps_last (keeps_rollback (.inl rfl))
        | none =>
          apply keeps_caught Txn.careful_nowV7
          · intro uuid
            apply keeps_bind (keeps_inTxn (keeps_attempt _))
            · rintro ph r ⟨_, hr, inserted, rfl, h⟩
              cases hr
              cases inserted with
              | error e =>
                apply keeps_bind (keeps_rollback (h.imp_right And.left))
                · intro ph _ hbegun
                  split_ifs <;> exact hbegun
                · exact fun _ _ hbegun => hbegun
              | ok u =>
                rcases h with rfl | ⟨_, e, he⟩
                · apply keeps_caught (Idem.careful_record _ _ _)
                  · exact fun _ => keeps_last (r := fun _ => .ok _) keeps_commit
                  · exact fun _ _ => begun_of_open
                · cases he
            · rintro ph e ⟨_, hr, _⟩
              cases hr
          · exact fun _ _ => begun_of_open
      · exact fun _ _ => begun_of_open
  · exact fun _ _ => begun_of_open

theorem keeps_registerAs [UuidCrate] (caller : Option Str) (req : RegisterProjectRequest) :
    (registerAs caller req).Keeps (fun _ _ => True) .outside := by
  apply keeps_checked
  intro _
  apply keeps_checked
  rintro ⟨scope, cls⟩
  exact keeps_acquired (keeps_begun (keeps_closing (keeps_transact _ _ _)))

end Register

namespace Read

theorem reading_withAliases (ps : List Project) : Reading (withAliases ps) := by
  unfold withAliases
  split_ifs
  · exact reading_pure _
  · exact reading_bind (reading_read rfl) fun _ => reading_pure _

theorem reading_withGrants (ps : List Project) : Reading (withGrants ps) := by
  unfold withGrants
  split_ifs
  · exact reading_pure _
  · exact reading_bind (reading_read rfl) fun _ => reading_pure _

theorem keeps_resolve (req : ResolveProjectRequest) :
    (resolve req).Keeps (fun _ _ => True) .outside := by
  apply keeps_checked
  intro _
  apply keeps_checked
  intro _
  exact keeps_reading (reading_bind (reading_read rfl) fun _ => reading_ofExcept _)

theorem keeps_get (req : GetProjectRequest) : (get req).Keeps (fun _ _ => True) .outside := by
  apply keeps_checked
  intro _
  apply keeps_reading
  apply reading_bind (reading_read rfl)
  intro found
  cases found with
  | none => exact reading_ofExcept _
  | some row =>
    apply reading_bind (reading_withAliases _)
    intro ps
    exact reading_bind (reading_withGrants _) fun _ => reading_pure _

theorem keeps_list (req : ListProjectsRequest) : (list req).Keeps (fun _ _ => True) .outside := by
  apply keeps_checked
  intro status
  apply keeps_checked
  intro _
  apply keeps_reading
  apply reading_bind (reading_read rfl)
  intro rows
  apply reading_bind (reading_withAliases _)
  intro ps
  exact reading_bind (reading_withGrants _) fun _ => reading_pure _

end Read

variable [UuidCrate] [Idem.Sha256] [Message RegisterProjectRequest]
  [Message RegisterProjectResponse]

/-- Every handler keeps to the protocol of its connection. -/
theorem Request.handler_keeps (req : Request) :
    Pool.Keeps engine Op.fatal .outside req.handler := by
  cases req with
  | resolve req => exact Prog.obeys_bind (Read.keeps_resolve req) fun _ _ h => h
  | get req => exact Prog.obeys_bind (Read.keeps_get req) fun _ _ h => h
  | list req => exact Prog.obeys_bind (Read.keeps_list req) fun _ _ h => h
  | register caller req =>
    exact Prog.obeys_bind (Register.keeps_registerAs caller req) fun _ _ h => h
  | sync caller req => exact Prog.obeys_bind (Sync.keeps_syncAs caller req) fun _ _ h => h
  | touch req => exact Prog.obeys_bind (Touch.keeps_touch req) fun _ _ h => h

/-- The pool that calls share, before any of them. -/
abbrev sharedPool (calls : ι → Request) : Pool.World SqlError Op.Reply Write ι γ Answer :=
  .start fun i => (calls i).handler

/-- Wherever the handlers of a shared pool are dropped and whatever fails: a connection is lent
outside any transaction, a handler whose `COMMIT` has not reached the server has written nothing
that is visible, and a connection whose `BEGIN` returned goes back to the pool, not closed, and is
idle again once what is left on it is executed. -/
theorem calls_leak_nothing [DecidableEq ι] [DecidableEq γ] (calls : ι → Request) (s₀ : Store)
    {acts : List (Pool.Act ι γ Tick)} {w : Pool.World SqlError Op.Reply Write ι γ Answer}
    (h : (sharedPool calls).run engine Op.fatal s₀ acts = some w) :
    (∀ i l v, w.step engine Op.fatal s₀ (.lend i l) = some v →
      (w.line l).tx = none ∧ (w.line l).queue = []) ∧
    (∀ i, i ∉ w.reached → ∀ writes ∈ w.log, ∀ e ∈ writes, e.1 ≠ i) ∧
    ∀ i l a v, w.step engine Op.fatal s₀ a = some v → (w.line l).place = .lent i →
      (v.line l).place ≠ .lent i → (w.task i).begun = true →
      (v.line l).place = .returning ∧ ∃ later u,
        v.run engine Op.fatal s₀ later = some u ∧ (u.line l).place = .idle := by
  have hinv : Pool.Inv engine Op.fatal w :=
    (Pool.Inv.start fun i => (calls i).handler_keeps).run writes_nonlocking h
  refine ⟨fun _ _ _ => hinv.lend, ?_, ?_⟩
  · rintro i hi writes hwrites e he rfl
    exact hi (hinv.log writes hwrites e he)
  · intro i l a v hstep hlent hgone hbegun
    have hplace := hinv.returned hstep hlent hgone hbegun
    exact ⟨hplace, World.settles engine Op.fatal s₀ ⟨.quiet 0 0, 0, false, false⟩ hplace⟩

end

section
open scoped Reference

/-- A registration and a lookup on one connection. -/
def homeThenLookup (n : Nat) : Request :=
  if n = 0 then .register (some Register.registerCaller) adaHome else .get ⟨adaHome.path⟩

/-- The registration is served up to its first statement. -/
def untilStatement : List (Pool.Act Nat Unit Tick) :=
  [.connect (), .lend 0 (), .poll 0, .exec () ⟨.quiet 1 1, 0, false, false⟩, .receive 0, .poll 0]

/-- Dropped inside its first statement, a registration gives its connection back. -/
theorem calls_leak_nothing_dropped : ∃ w v,
    (sharedPool homeThenLookup).run engine Op.fatal .empty untilStatement = some w ∧
      w.step engine Op.fatal .empty (.cut 0) = some v ∧ (v.line ()).place = .returning := by
  have hrun : (sharedPool homeThenLookup).run engine Op.fatal .empty untilStatement = some _ := rfl
  obtain ⟨_, _, hreturned⟩ := calls_leak_nothing homeThenLookup .empty hrun
  exact ⟨_, _, hrun, rfl, (hreturned 0 () (.cut 0) _ rfl rfl nofun rfl).1⟩

end

end ProjectDb
