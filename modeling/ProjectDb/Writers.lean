import ProjectDb.Borrowing
import ProjectDb.Commutation
import ProjectDb.Discipline
import ProjectDb.Snapshot
import ProjectDb.Unseen

namespace ProjectDb
open Text ProjectDb.Path Mvcc Pool
set_option autoImplicit true

/-- The calls that write the registry in a transaction and answer from it. -/
def Request.writes : Request → Bool
  | .register .. => true
  | .sync .. => true
  | _ => false

def Request.isSync : Request → Bool
  | .sync .. => true
  | _ => false

def Request.isRegister : Request → Bool
  | .register .. => true
  | _ => false

def Request.isTouch : Request → Bool
  | .touch _ => true
  | _ => false

section
variable [ServerCollation] {env : Nat → Tick} {P : Cmd Op → Conn Store → Prop}

namespace Rpc

/-- Every command of a handler meets the condition where it is served alone. -/
def Always (P : Cmd Op → Conn Store → Prop) (env : Nat → Tick) (x : Rpc α) (c : Conn Store) :
    Prop :=
  x.run.Always (engine.serve env) P c

theorem always_bind {x : Rpc α} {f : α → Rpc β} (hx : Always P env x c)
    (hf : ∀ a c', x.eval env c = (.ok a, c') → Always P env (f a) c') :
    Always P env (x >>= f) c := by
  apply Prog.always_bind (engine.serve env) hx
  rcases he : x.eval env c with ⟨r, c'⟩
  change (ExceptT.bindCont f (x.eval env c).1).Always _ _ (x.eval env c).2
  rw [he]
  cases r with
  | error e => trivial
  | ok a => exact hf a c' he

theorem always_ofExcept (r : Except Status α) (c : Conn Store) : Always P env (ofExcept r) c :=
  trivial

theorem always_checked {r : Except Status α} {f : α → Rpc β}
    (hf : ∀ a, r = .ok a → Always P env (f a) c) : Always P env (ofExcept r >>= f) c := by
  apply always_bind (always_ofExcept r c)
  intro a c' h
  obtain ⟨hr, hc⟩ := Prod.mk.inj h
  have hf := hf a hr
  rw [hc] at hf
  exact hf

theorem always_open {s : Store} {k : Rpc α} (hacquire : P .acquire ⟨s, none, 0⟩)
    (hbegin : P .begin ⟨s, none, 1⟩) (hk : Always P env k ⟨s, some s, 2⟩) :
    Always P env (do acquire; begin; k : Rpc α) ⟨s, none, 0⟩ := by
  have hfirst : Always P env acquire (⟨s, none, 0⟩ : Conn Store) := ⟨hacquire, trivial⟩
  have hsecond : Always P env begin (⟨s, none, 1⟩ : Conn Store) := ⟨hbegin, trivial⟩
  apply always_bind hfirst
  intro _ c hc
  have hconn := congrArg Prod.snd hc
  rw [eval_acquire_conn] at hconn
  subst hconn
  apply always_bind hsecond
  intro _ c hc
  rw [eval_begin] at hc
  split at hc
  · cases hc
  · cases hc
    exact hk

theorem always_inTxn {P' : Tick → Stmt → Store → Prop} {x : Txn α} {s : Store}
    (hx : x.Sends P' env (w, n))
    (hsql : ∀ q w m, P' (env m) q w → P (.stmt (.sql q)) ⟨s, some w, m⟩)
    (hnow : ∀ w m, P (.stmt .nowV7) ⟨s, some w, m⟩) : Always P env (inTxn x) ⟨s, some w, n⟩ := by
  apply Prog.always_bind
  · have hsend : ∀ o (p : Store × Nat), (Rpc.send o).run (engine.serve env) ⟨s, some p.1, p.2⟩ =
        ((serveOp env o p).1, ⟨s, some (serveOp env o p).2.1, (serveOp env o p).2.2⟩) :=
      fun _ _ => rfl
    have hop : ∀ o (p : Store × Nat), o.Holds P' (env p.2) p.1 →
        (Rpc.send o).Always (engine.serve env) P ⟨s, some p.1, p.2⟩ := by
      intro o p hp
      cases o with
      | nowV7 => exact ⟨hnow _ _, trivial⟩
      | sql q => exact ⟨hsql _ _ _ hp, trivial⟩
    exact Prog.always_embed (φ := fun p : Store × Nat => (⟨s, some p.1, p.2⟩ : Conn Store))
      (serveOp env) hsend hop hx
  · trivial

theorem always_step {x : Txn α} {k : α → Rpc β} {s : Store}
    (hx : Always P env (inTxn x) ⟨s, some w, n⟩)
    (hk : ∀ a w' m, x.eval env (w, n) = (.ok a, (w', m)) → Always P env (k a) ⟨s, some w', m⟩) :
    Always P env (do let a ← ofExcept (← inTxn x); k a : Rpc β) ⟨s, some w, n⟩ := by
  apply always_bind hx
  intro r c hc
  rw [eval_inTxn] at hc
  cases hc
  apply always_checked
  intro a ha
  exact hk a _ _ (Prod.ext ha rfl)

theorem always_closing {x : Rpc α} (hx : Always P env x c) (hclose : ∀ c, P .close c) :
    Always P env (closing x) c := Prog.always_bind _ hx ⟨hclose _, trivial⟩

theorem always_last {x : Rpc α} {r : α → Except Status β} (hx : Always P env x c) :
    Always P env (x >>= fun a => ofExcept (r a)) c :=
  always_bind hx fun _ _ _ => always_ofExcept _ _

theorem always_answering {x : Rpc α} {f : Except Status α → Answer} (h : Always P env x c) :
    (x.answering f).Always (engine.serve env) P c := Prog.always_bind _ h trivial

omit [ServerCollation] in
theorem breaks_inTxn {x : Txn α} (hx : x.Careful) : (inTxn x).run.Obeys (breaking Op.failure)
    (fun failed r => ∃ a, r = .ok a ∧ PassedOn failed a) none := by
  have hsend : (x.run.embed send).Obeys (breaking Op.failure) PassedOn none := by
    apply Prog.obeys_embed (fun o failed h => ?_) hx
    intro r
    obtain ⟨next, hnext⟩ := h r
    refine ⟨next, ?_, hnext⟩
    cases failed with
    | none => exact hnext
    | some _ => cases hnext
  exact Prog.obeys_bind hsend fun failed a h => ⟨a, rfl, h⟩

theorem once_of_keeps {x : Rpc α} (h : x.Keeps (fun _ _ => True) .inside) (s : Store) :
    Always oneTx env (do acquire; begin; x : Rpc α) ⟨s, none, 0⟩ :=
  always_open trivial rfl (always_oneTx h rfl)

end Rpc

namespace Sync

theorem syncAs_once (caller : Option Str) (req : SyncProjectsRequest) (s : Store) :
    Rpc.Always oneTx env (syncAs caller req) ⟨s, none, 0⟩ := by
  apply Rpc.always_checked
  intro actor _
  apply Rpc.always_checked
  intro declared _
  exact Rpc.once_of_keeps (Rpc.keeps_closing (keeps_transact _ _ _)) s

omit [ServerCollation] in
/-- A sync whose statement fails rolls back, and answers that failure or the one of its
`ROLLBACK`. -/
theorem transact_breaks (declared : List Declared) (actor : Str) (guards : Guards) :
    (Rpc.closing (transact declared actor guards)).run.Obeys (breaking Op.failure) PassedOn
      none := by
  have htransact : (transact declared actor guards).run.Obeys (breaking Op.failure) PassedOn
      none := by
    apply Prog.obeys_try (Rpc.breaks_inTxn (careful_apply declared actor guards))
    · rintro failed r ⟨_, hr, hpasses⟩
      cases hr
      cases r with
      | ok response =>
        cases failed with
        | some e => cases hpasses
        | none =>
          intro r
          refine ⟨none, rfl, ?_⟩
          cases r <;> trivial
      | error refusal =>
        intro r
        cases failed with
        | none =>
          refine ⟨none, rfl, ?_⟩
          cases r <;> trivial
        | some e =>
          cases r with
          | ok _ => exact ⟨some e, rfl, hpasses⟩
          | error e' => exact ⟨some e', rfl, rfl⟩
    · rintro failed e ⟨_, hr, _⟩
      cases hr
  apply Prog.obeys_bind htransact
  intro failed r hr _
  cases failed with
  | none => exact ⟨none, rfl, hr⟩
  | some e => exact ⟨some e, rfl, hr⟩

omit [ServerCollation] in
theorem syncAs_breaks (caller : Option Str) (req : SyncProjectsRequest) :
    (syncAs caller req).run.Obeys (breaking Op.failure) PassedOn none := by
  unfold syncAs
  cases admitted caller req.scope with
  | error e => trivial
  | ok actor =>
    cases validate req with
    | error e => trivial
    | ok declared =>
      intro r
      refine ⟨none, rfl, ?_⟩
      cases r with
      | error e =>
        cases e with
        | fault f => cases f <;> trivial
        | _ => trivial
      | ok _ =>
        intro r
        refine ⟨none, rfl, ?_⟩
        cases r with
        | error e => trivial
        | ok _ => exact transact_breaks declared actor _

/-- In its transaction a sync first asks for the lock, and it goes on only once it has it. -/
def LockFirst (env : Nat → Tick) (c : Cmd Op) (d : Conn Store) : Prop :=
  (d.count = 2 → c = .stmt (.sql .selectSyncLockForUpdate)) ∧
    (3 ≤ d.count → (∃ o, c = .stmt o) ∨ c = .commit → (env 2).fault = none)

omit [ServerCollation] in
theorem lockFirst_early {d : Conn Store} (hd : d.count < 2) (c : Cmd Op) : LockFirst env c d :=
  ⟨fun h => absurd hd (by omega), fun h => absurd hd (by omega)⟩

theorem lockFirst_broken {p : Prog (Cmd.Reply SqlError Op.Reply) α}
    {post : Option SqlError → α → Prop} (h : p.Obeys (breaking Op.failure) post (some e))
    {d : Conn Store} (hd : 3 ≤ d.count) : p.Always (engine.serve env) (LockFirst env) d := by
  induction p generalizing e d with
  | done a => trivial
  | ask c k ih =>
    obtain ⟨next, hnext, hk⟩ := h (engine.serve env c d).1
    obtain ⟨e', rfl, hc⟩ : ∃ e', next = some e' ∧ ¬ ((∃ o, c = .stmt o) ∨ c = .commit) := by
      cases c with
      | rollback =>
        generalize (engine.serve env .rollback d).1 = r at hnext
        cases r <;> cases hnext <;> exact ⟨_, rfl, by rintro (⟨_, h⟩ | h) <;> cases h⟩
      | close =>
        cases hnext
        exact ⟨e, rfl, by rintro (⟨_, h⟩ | h) <;> cases h⟩
      | _ => cases hnext
    refine ⟨⟨fun hcount => absurd hd (by omega), fun _ hmore => absurd hmore hc⟩, ih _ hk ?_⟩
    rw [engine.serve_count]
    exact Nat.le_succ_of_le hd

theorem syncAs_lockFirst (caller : Option Str) (req : SyncProjectsRequest) (s : Store) :
    Rpc.Always (LockFirst env) env (syncAs caller req) ⟨s, none, 0⟩ := by
  apply Rpc.always_checked
  intro actor _
  apply Rpc.always_checked
  intro declared _
  apply Rpc.always_open (lockFirst_early Nat.two_pos _) (lockFirst_early Nat.one_lt_two _)
  refine ⟨⟨fun _ => rfl, fun h => absurd h (Nat.not_succ_le_self 2)⟩, ?_⟩
  have hcount : 3 ≤ (engine.serve env (.stmt (.sql .selectSyncLockForUpdate))
      (⟨s, some s, 2⟩ : Conn Store)).2.count := by
    rw [engine.serve_count]
  cases hf : (env 2).fault with
  | none =>
    have hlate : ∀ (c : Cmd Op) (d : Conn Store), 3 ≤ d.count →
        LockFirst env c d ∧ 3 ≤ (engine.serve env c d).2.count := by
      intro c d hd
      refine ⟨⟨fun h => absurd hd (by omega), fun _ _ => hf⟩, ?_⟩
      rw [engine.serve_count]
      exact Nat.le_succ_of_le hd
    exact Prog.always_of_invariant _ hlate _ hcount
  | some f =>
    obtain ⟨next, hnext, hk⟩ := transact_breaks declared actor
      ⟨req.allowMassArchive, req.allowMassRevoke⟩ (engine.serve env
        (.stmt (.sql .selectSyncLockForUpdate)) (⟨s, some s, 2⟩ : Conn Store)).1
    have hrefused : (engine.serve env (.stmt (.sql .selectSyncLockForUpdate))
        (⟨s, some s, 2⟩ : Conn Store)).1 = (.error (.fault f) : Except SqlError Unit) := by
      simp only [Rules.serve, engine, Op.exec, hf]
      rfl
    have hfailed : next = some (.fault f) := by
      rw [hrefused] at hnext
      cases hnext
      rfl
    subst hfailed
    exact lockFirst_broken hk hcount

end Sync

namespace Store.HasKey

theorem patch {s : Store} (h : s.HasKey key) (w : Write) : (w.patch s).HasKey key := by
  obtain ⟨row, hrow, hk⟩ := h
  cases w with
  | insertWrite row' => exact ⟨row, List.mem_append_left _ hrow, hk⟩
  | updateWrite response projectId userId idemKey =>
    refine ⟨_, List.mem_map_of_mem hrow, ?_⟩
    split <;> exact hk
  | _ => exact ⟨row, hrow, hk⟩

theorem patchAll {s : Store} (h : s.HasKey key) (ws : List Write) :
    (engine.patchAll ws s).HasKey key := by
  induction ws generalizing s with
  | nil => exact h
  | cons w ws ih => exact ih (h.patch w)

theorem eval {s : Store} (h : s.HasKey key) (x : Txn α) (n : Nat) :
    (x.eval env (s, n)).2.1.HasKey key :=
  Prog.run_invariant (serveOp env) (I := fun p : Store × Nat => p.1.HasKey key)
    (fun _ _ hp => hp.patchAll _) x.run h

theorem of_insert {ws : List Write} (h : .insertWrite row ∈ ws) (s : Store) :
    (engine.patchAll ws s).HasKey row.key := by
  obtain ⟨before, rest, rfl⟩ := List.append_of_mem h
  rw [engine.patchAll_append]
  apply patchAll (s := (Write.insertWrite row).patch _)
  exact ⟨row, List.mem_append_right _ (List.mem_singleton.2 rfl), rfl⟩

theorem inserted {ws : List Write} {s : Store} (h : (engine.patchAll ws s).HasKey key) :
    s.HasKey key ∨ ∃ row, .insertWrite row ∈ ws ∧ row.key = key := by
  induction ws generalizing s with
  | nil => exact .inl h
  | cons w ws ih =>
    rcases ih h with ⟨row, hrow, hk⟩ | ⟨row, hrow, hk⟩
    · cases w with
      | insertWrite row' =>
        rcases List.mem_append.1 hrow with hrow | hrow
        · exact .inl ⟨row, hrow, hk⟩
        · rw [List.mem_singleton.1 hrow] at hk
          exact .inr ⟨row', List.mem_cons_self, hk⟩
      | updateWrite response projectId userId idemKey =>
        obtain ⟨row', hrow', rfl⟩ := List.mem_map.1 hrow
        refine .inl ⟨row', hrow', ?_⟩
        rw [← hk]
        split <;> rfl
      | _ => exact .inl ⟨row, hrow, hk⟩
    · exact .inr ⟨row, List.mem_cons_of_mem _ hrow, hk⟩

end Store.HasKey

namespace Register
variable [UuidCrate] [Idem.Sha256] [Message RegisterProjectRequest]
  [Message RegisterProjectResponse]

theorem registerAs_once (caller : Option Str) (req : RegisterProjectRequest) (s : Store) :
    Rpc.Always oneTx env (registerAs caller req) ⟨s, none, 0⟩ := by
  apply Rpc.always_checked
  intro _ _
  apply Rpc.always_checked
  intro admitted _
  exact Rpc.once_of_keeps (Rpc.keeps_closing (keeps_transact _ _ _)) s

/-- A statement of a registration: it inserts a row under an id minted for it, and fills in a claim
of its own. -/
def OnPersonal (env : Nat → Tick) : Cmd Op → Conn Store → Prop
  | .stmt (.sql q), d =>
    match q with
    | .insertWrite .. => True
    | .selectWriteForUpdate .. => True
    | .selectAliasOwner _ => True
    | .insertProject n =>
      n.ownerUserId.isSome = true ∧ ∃ m, n.id = projectIdPrefix ++ (env m).uuid
    | .updateWrite _ projectId userId idemKey =>
      ¬ d.store.HasKey (ledgerKey projectId userId idemKey) ∧
        ∀ s, d.work = some s → s.HasKey (ledgerKey projectId userId idemKey)
    | _ => False
  | _, _ => True

omit [UuidCrate] [Message RegisterProjectRequest] in
/-- A claim that proceeds found no row of its key, and inserted one. -/
theorem claim_proceed {idem : Option Idempotency} {payload : Unit → Bytes}
    (h : (Idem.claim (τ := RegisterProjectResponse) scope rpc idem payload).eval env (s, n) =
      (.ok .proceed, (w, m))) (hkey : Idem.present idem = some key) :
    ¬ s.HasKey (ledgerKey scope.projectId scope.userId key) ∧
      w.HasKey (ledgerKey scope.projectId scope.userId key) := by
  simp only [Idem.claim, hkey] at h
  obtain ⟨r, p, hattempt, h⟩ := Txn.eval_bind_ok h
  rcases Txn.eval_attempt_cases hattempt with ⟨e, he, _⟩ | ⟨_, ws, he, hexec, hp⟩
  · cases he
    cases e with
    | uniqueViolation =>
      obtain ⟨row, q, _, h⟩ := Txn.eval_bind_ok h
      split_ifs at h
      · cases h
      · cases h
      · split at h <;> cases h
    | _ => cases h
  · cases he
    cases (Prod.mk.inj h).2
    cases (Prod.mk.inj hp).1
    obtain ⟨_, hfree, rfl⟩ := exec_insertWrite_ok hexec
    exact ⟨hfree, _, List.mem_append_right _ (List.mem_singleton.2 rfl), WriteRow.kept_key _⟩

omit [UuidCrate] in
theorem transact_personal (req : RegisterProjectRequest) (scope : Scope) (cls : Class) (s : Store) :
    Rpc.Always (OnPersonal env) env (transact req scope cls) ⟨s, some s, n⟩ := by
  have hsends : ∀ {α : Type} {x : Txn α} {w : Store} {n : Nat},
      x.Sends (fun _ q w => OnPersonal env (.stmt (.sql q)) ⟨s, some w, 0⟩) env (w, n) →
        Rpc.Always (OnPersonal env) env (Rpc.inTxn x) ⟨s, some w, n⟩ := by
    intro α x w n hx
    apply Rpc.always_inTxn hx
    · intro q w m h
      cases q <;> exact h
    · exact fun _ _ => trivial
  have hlast : ∀ {α β : Type} {x : Rpc α} {r : α → Except Status β} {c : Conn Store},
      Rpc.Always (OnPersonal env) env x c →
        Rpc.Always (OnPersonal env) env (x >>= fun a => Rpc.ofExcept (r a)) c := Rpc.always_last
  apply Rpc.always_step
  · apply hsends
    unfold Idem.claim
    cases Idem.present req.idempotency with
    | none => exact Txn.sends_pure _ _
    | some key =>
      apply Txn.sends_bind (Txn.sends_attempt trivial)
      intro r _ _
      cases r with
      | ok _ => exact Txn.sends_pure _ _
      | error e =>
        cases e with
        | uniqueViolation =>
          apply Txn.sends_bind (Txn.sends_query trivial)
          intro row _ _
          split_ifs
          · exact Txn.sends_ofExcept _ _
          · exact Txn.sends_ofExcept _ _
          · split
            · exact Txn.sends_pure _ _
            · exact Txn.sends_ofExcept _ _
        | _ => exact Txn.sends_ofExcept _ _
  intro claimed w₁ m₁ hclaim
  cases claimed with
  | replay original => exact hlast (r := fun _ => .ok original) ⟨trivial, trivial⟩
  | proceed =>
    apply Rpc.always_step
    · exact hsends (Txn.sends_query trivial)
    intro owner w₂ m₂ howner
    cases owner with
    | some owner => exact hlast ⟨trivial, trivial⟩
    | none =>
      apply Rpc.always_step
      · exact hsends (Txn.sends_nowV7 _)
      intro uuid w₃ m₃ hu
      rw [Txn.eval_nowV7] at hu
      cases hu
      apply Rpc.always_step
      · exact hsends (Txn.sends_attempt ⟨rfl, m₂, rfl⟩)
      intro inserted w₄ m₄ hinserted
      cases inserted with
      | error e =>
        apply Rpc.always_bind (x := Rpc.rollback) ⟨trivial, trivial⟩
        intro _ _ _
        split_ifs <;> exact Rpc.always_ofExcept _ _
      | ok _ =>
        apply Rpc.always_step
        · apply hsends
          unfold Idem.record
          cases hkey : Idem.present req.idempotency with
          | none => exact Txn.sends_pure _ _
          | some key =>
            obtain ⟨hfree, hclaimed⟩ := claim_proceed hclaim hkey
            have hthere : ((aliasOwner req.path).eval env (w₁, m₁)).2.1.HasKey _ :=
              hclaimed.eval _ _
            rw [howner] at hthere
            have hstill : ((Txn.attempt (.insertProject (newRow (projectIdPrefix ++ (env m₂).uuid)
              req scope cls))).eval env (w₂, m₂ + 1)).2.1.HasKey _ := hthere.eval _ _
            rw [hinserted] at hstill
            apply Txn.sends_query
            refine ⟨hfree, fun w hw => ?_⟩
            cases hw
            exact hstill
        · intro _ w₅ m₅ _
          exact hlast (r := fun _ => .ok _) ⟨trivial, trivial⟩

theorem registerAs_personal (caller : Option Str) (req : RegisterProjectRequest) (s : Store) :
    Rpc.Always (OnPersonal env) env (registerAs caller req) ⟨s, none, 0⟩ := by
  apply Rpc.always_checked
  intro _ _
  apply Rpc.always_checked
  intro admitted _
  exact Rpc.always_open trivial trivial (Rpc.always_closing (transact_personal _ _ _ _)
    fun _ => trivial)

end Register

/-- What a flush asks for. -/
def Touch.Flushing : Cmd Op → Prop
  | .stmt (.sql (.updateLastSeen ..)) => True
  | .stmt (.sql (.countMatching _)) => True
  | .stmt _ => False
  | _ => True

namespace Rpc

omit [ServerCollation] in
theorem all_bind {C : Cmd Op → Prop} {x : Rpc α} {f : α → Rpc β} (hx : x.run.All C)
    (hf : ∀ a, (f a).run.All C) : (x >>= f).run.All C := by
  apply Prog.all_bind hx
  intro r
  cases r with
  | error e => trivial
  | ok a => exact hf a

omit [ServerCollation] in
theorem all_caught {C : Cmd Op → Prop} {x : Txn α} {f : α → Rpc β} (hx : (inTxn x).run.All C)
    (hf : ∀ a, (f a).run.All C) : (do f (← ofExcept (← inTxn x)) : Rpc β).run.All C := by
  apply all_bind hx
  intro r
  cases r with
  | error e => trivial
  | ok a => exact hf a

theorem eval_bracket_work (x : Rpc α) (s : Store) :
    ((do acquire; begin; closing x : Rpc α).eval env ⟨s, none, 0⟩).2.work = none := by
  rcases eval_bind_cases (x := acquire) rfl with ⟨e, c, hc, h⟩ | ⟨_, c, hc, h⟩
  · have hconn := congrArg Prod.snd hc
    rw [eval_acquire_conn] at hconn
    rw [h, ← hconn]
  · have hconn := congrArg Prod.snd hc
    rw [eval_acquire_conn] at hconn
    subst hconn
    rw [← h]
    rcases eval_bind_cases (x := begin) rfl with ⟨e, c, hc, h⟩ | ⟨_, c, hc, h⟩
    · rw [h]
      rw [eval_begin] at hc
      split at hc
      · cases hc
        rfl
      · cases hc
    · rw [← h, eval_closing]

theorem eval_checked_work {r : Except Status α} {f : α → Rpc β} {s : Store}
    (hf : ∀ a, ((f a).eval env ⟨s, none, 0⟩).2.work = none) :
    ((ofExcept r >>= f).eval env ⟨s, none, 0⟩).2.work = none := by
  cases r with
  | error e => rfl
  | ok a => exact hf a

end Rpc

omit [ServerCollation] in
theorem Touch.touch_flushing (req : TouchProjectsRequest) : (touch req).run.All Flushing := by
  apply Rpc.all_bind (x := Rpc.ofExcept (checked req)) trivial
  rintro ⟨seconds, paths⟩
  apply Rpc.all_bind (x := Rpc.acquire) ⟨trivial, fun _ => trivial⟩
  intro _
  apply Rpc.all_bind (x := Rpc.begin) ⟨trivial, fun _ => trivial⟩
  intro _
  apply Rpc.all_bind
  · apply Prog.all_bind
    · apply Rpc.all_caught (x := Txn.query (.updateLastSeen seconds paths))
        ⟨trivial, fun _ => trivial⟩
      intro _
      apply Rpc.all_caught (x := Txn.query (.countMatching paths)) ⟨trivial, fun _ => trivial⟩
      intro matched
      exact Rpc.all_bind (x := Rpc.commit) ⟨trivial, fun _ => trivial⟩ fun _ => trivial
    · exact fun _ => ⟨trivial, fun _ => trivial⟩
  · exact fun _ => trivial

theorem Read.plainly_resolve (req : ResolveProjectRequest) : Plainly (resolve req) := by
  apply plainly_bind (plainly_ofExcept _)
  intro _
  apply plainly_bind (plainly_ofExcept _)
  intro _
  apply plainly_bind plainly_acquire
  intro _
  exact plainly_bind (plainly_read rfl) fun _ => plainly_ofExcept _

variable [UuidCrate] [Idem.Sha256] [Message RegisterProjectRequest]
  [Message RegisterProjectResponse]

namespace Request

/-- What a call that only reads, or only flushes, asks for. -/
def Asks : Request → Cmd Op → Prop
  | .touch _, c => Touch.Flushing c
  | .register .., _ => True
  | .sync .., _ => True
  | _, c => engine.Plain c

theorem handler_asks (req : Request) : req.handler.All req.Asks := by
  have htrue : ∀ p : Handler, p.All fun _ => True := by
    intro p
    induction p with
    | done a => trivial
    | ask c k ih => exact ⟨trivial, ih⟩
  cases req with
  | resolve req => exact Prog.all_bind (Read.plainly_resolve req) fun _ => trivial
  | get req => exact Prog.all_bind (Read.plainly_get req) fun _ => trivial
  | list req => exact Prog.all_bind (Read.plainly_list req) fun _ => trivial
  | register caller req => exact htrue _
  | sync caller req => exact htrue _
  | touch req => exact Prog.all_bind (Touch.touch_flushing req) fun _ => trivial

theorem handler_once {req : Request} (h : req.writes = true) (s : Store) :
    req.handler.Always (engine.serve env) oneTx ⟨s, none, 0⟩ := by
  cases req with
  | register caller req => exact Rpc.always_answering (Register.registerAs_once caller req s)
  | sync caller req => exact Rpc.always_answering (Sync.syncAs_once caller req s)
  | _ => cases h

theorem handler_closed {req : Request} (h : req.writes = true) (s : Store) :
    (req.handler.run (engine.serve env) ⟨s, none, 0⟩).2.work = none := by
  have hanswering : ∀ {α : Type} {x : Rpc α} {f : Except Status α → Answer},
      (x.eval env ⟨s, none, 0⟩).2.work = none →
        ((x.answering f).run (engine.serve env) ⟨s, none, 0⟩).2.work = none := by
    intro α x f hx
    rw [Rpc.answering, Prog.run_bind]
    exact hx
  cases req with
  | register caller req =>
    apply hanswering
    apply Rpc.eval_checked_work
    intro _
    apply Rpc.eval_checked_work
    exact fun _ => Rpc.eval_bracket_work _ _
  | sync caller req =>
    apply hanswering
    apply Rpc.eval_checked_work
    intro _
    apply Rpc.eval_checked_work
    exact fun _ => Rpc.eval_bracket_work _ _
  | _ => cases h

end Request

end

end ProjectDb
