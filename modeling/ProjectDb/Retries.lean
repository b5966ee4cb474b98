import ProjectDb.History

namespace ProjectDb
open Text ProjectDb.Path Mvcc Sync
set_option autoImplicit true

theorem splits {l r l' r' : List α} (h : l ++ i :: r = l' ++ j :: r') (hne : i ≠ j) :
    (∃ m, l' = l ++ i :: m) ∨ ∃ m, l = l' ++ j :: m := by
  rcases List.append_eq_append_iff.1 h with ⟨a, rfl, ha⟩ | ⟨a, rfl, ha⟩
  · cases a with
    | nil => exact absurd (List.cons.inj ha).1 hne
    | cons b a =>
      cases (List.cons.inj ha).1
      exact .inl ⟨a, rfl⟩
  · cases a with
    | nil => exact absurd (List.cons.inj ha).1.symm hne
    | cons b a =>
      cases (List.cons.inj ha).1
      exact .inr ⟨a, rfl⟩

section
variable [ServerCollation] [UuidCrate] [Idem.Sha256] [Message RegisterProjectRequest]
  [Message RegisterProjectResponse]

namespace Register

/-- A registration commits only with a row that was not there. -/
def Adds : Cmd Op → Conn Store → Prop
  | .commit, d => ∀ w, d.work = some w → w.project ≠ d.store.project
  | _, _ => True

omit [UuidCrate] in
theorem transact_adds (req : RegisterProjectRequest) (scope : Scope) (cls : Class) (s : Store) :
    Rpc.Always Adds env (transact req scope cls) ⟨s, some s, n⟩ := by
  have hsends : ∀ {α : Type} {x : Txn α} {w : Store} {n : Nat},
      Rpc.Always Adds env (Rpc.inTxn x) ⟨s, some w, n⟩ := by
    intro α x w n
    have hany : x.Sends (fun _ _ _ => True) env (w, n) :=
      Prog.always_of_invariant _ (I := fun _ => True)
        (fun o _ _ => ⟨by cases o <;> trivial, trivial⟩) x.run trivial
    exact Rpc.always_inTxn hany (fun _ _ _ _ => trivial) fun _ _ => trivial
  have hrollback : ∀ {β : Type} {r : Except Status β} {c : Conn Store},
      Rpc.Always Adds env (Rpc.rollback >>= fun _ => Rpc.ofExcept r) c := fun {_ r _} =>
    Rpc.always_last (r := fun _ => r) ⟨trivial, trivial⟩
  apply Rpc.always_step hsends
  intro claimed w₁ m₁ hclaim
  cases claimed with
  | replay original => exact hrollback (r := .ok original)
  | proceed =>
    apply Rpc.always_step hsends
    intro owner w₂ m₂ howner
    cases owner with
    | some owner => exact hrollback
    | none =>
      apply Rpc.always_step hsends
      intro uuid w₃ m₃ hu
      rw [Txn.eval_nowV7] at hu
      cases hu
      apply Rpc.always_step hsends
      intro inserted w₄ m₄ hinserted
      cases inserted with
      | error e =>
        apply Rpc.always_bind (x := Rpc.rollback) ⟨trivial, trivial⟩
        intro _ _ _
        split_ifs <;> exact Rpc.always_ofExcept _ _
      | ok _ =>
        apply Rpc.always_step hsends
        intro _ w₅ m₅ hrecorded
        refine Rpc.always_last (r := fun _ => .ok _) ⟨fun w hw => ?_, trivial⟩
        cases hw
        rcases Txn.eval_attempt_cases hinserted with ⟨e, he, _⟩ | ⟨_, ws, _, hexec, hw₄⟩
        · cases he
        · obtain ⟨_, _, _, rfl⟩ := exec_insertProject_ok hexec
          cases hw₄
          obtain rfl : w₂ = w₁ := (aliasOwner_none howner).1
          have hsame : w₂.project = s.project := (Idem.claim_tables hclaim).project
          have hadded : w₅.project = w₂.project ++ [_] := (Idem.record_tables hrecorded).project
          intro he
          have he : w₅.project = s.project := he
          rw [he, hsame] at hadded
          exact List.cons_ne_nil _ _ (List.self_eq_append_right.1 hadded)

theorem registerAs_adds (caller : Option Str) (req : RegisterProjectRequest) (s : Store) :
    Rpc.Always Adds env (registerAs caller req) ⟨s, none, 0⟩ := by
  apply Rpc.always_checked
  intro _ _
  apply Rpc.always_checked
  intro admitted _
  exact Rpc.always_open trivial trivial (Rpc.always_closing (transact_adds _ _ _ _)
    fun _ => trivial)

/-- A response names a row: by its id, its path and its owner. -/
def Names (m : RegisterProjectResponse) (r : ProjectRow) : Prop :=
  ∃ e, m.envelope = some e ∧ e.id = r.id ∧ e.projectId = r.path ∧
    r.ownerUserId = some e.ownerUserId

omit [ServerCollation] [UuidCrate] [Idem.Sha256] [Message RegisterProjectRequest]
  [Message RegisterProjectResponse] in
theorem Names.follows (h : Names m r) (hf : Follows r r') : Names m r' := by
  obtain ⟨e, he, hid, hpath, howner⟩ := h
  exact ⟨e, he, hid.trans hf.id.symm, hpath.trans hf.path.symm, hf.owner.trans howner⟩

omit [ServerCollation] [Idem.Sha256] [Message RegisterProjectRequest]
  [Message RegisterProjectResponse] in
theorem names_newRow {req : RegisterProjectRequest} (h : checked req = .ok (scope, cls))
    (uuid : Str) (now : Time) : Names (responseOf uuid req scope)
      ((newRow (projectIdPrefix ++ uuid) req scope cls).row now) := by
  obtain ⟨_, _, _, _, rfl, _⟩ := checked_ok h
  exact ⟨_, rfl, rfl, rfl, rfl⟩

/-- Every registration in the ledger was made: its response is there, and names a row. -/
def Backed (s : Store) : Prop :=
  ∀ w ∈ s.projectWrite, w.rpc = rpcName → ∃ m, Message.decode w.response = some m ∧
    ∃ r ∈ s.project, Names m r

omit [ServerCollation] [UuidCrate] [Idem.Sha256] [Message RegisterProjectRequest] in
theorem Backed.carried {s s' : Store} (h : Backed s) (hc : Carries s s')
    (hledger : s'.projectWrite = s.projectWrite) : Backed s' := by
  intro w hw hrpc
  obtain ⟨m, hm, r, hr, hnames⟩ := h w (hledger ▸ hw) hrpc
  obtain ⟨r', hr', hfollows⟩ := hc.rows r hr
  exact ⟨m, hm, r', hr', hnames.follows hfollows⟩

theorem Result.backed {s s' : Store} (h : Result req s r s') (hb : Backed s) : Backed s' := by
  cases h with
  | refused => exact hb
  | replayed => exact hb
  | registered hc _ _ =>
    intro w hw hrpc
    rcases List.mem_append.1 hw with hw | hw
    · obtain ⟨m, hm, r, hr, hnames⟩ := hb w hw hrpc
      exact ⟨m, hm, r, List.mem_append_left _ hr, hnames⟩
    · obtain ⟨key, _, rfl⟩ := List.mem_map.1 hw
      exact ⟨_, Message.decode_encodeToVec _, _,
        List.mem_append_right _ (List.mem_singleton.2 rfl), names_newRow hc _ _⟩

theorem Result.names {s s' : Store} (h : Result req s (.ok m) s') (hb : Backed s) :
    ∃ r ∈ s'.project, Names m r := by
  cases h with
  | replayed _ hw hanswers =>
    obtain ⟨m', hm', hnames⟩ := hb _ hw hanswers.rpc
    cases hanswers.response.symm.trans hm'
    exact hnames
  | registered hc _ hacked =>
    obtain rfl := Tick.acked_ok hacked.symm
    exact ⟨_, List.mem_append_right _ (List.mem_singleton.2 rfl), names_newRow hc _ _⟩

theorem Result.unledgered {s s' : Store} (h : Result req s (.ok m) s')
    (hledger : s.projectWrite = []) : s' ≠ s := by
  cases h with
  | replayed _ hw _ =>
    rw [hledger] at hw
    exact absurd hw List.not_mem_nil
  | registered =>
    intro he
    have hrows : s.project ++ [_] = s.project := congrArg Store.project he
    exact List.cons_ne_nil _ _ (List.append_right_eq_self.1 hrows)

/-- A registration was made of a request, under a uuid: nothing held its key, and it is in the
store after it. Where it was acknowledged, it was answered with that row. -/
structure Registers (req : RegisterProjectRequest) (s : Store) (scope : Scope) (uuid : Str)
    (a : Except Status RegisterProjectResponse) (s' : Store) : Prop where
  made : ∃ cls now, checked req = .ok (scope, cls) ∧ s' = registeredIn req scope cls uuid now s
  free : ¬ Held s req scope
  answer : ∀ m, a = .ok m → m = responseOf uuid req scope

theorem Result.registers {s s' : Store} (h : Result req s r s') (hne : s'.project ≠ s.project) :
    ∃ scope uuid, Registers req s scope uuid r s' := by
  cases h with
  | refused => exact absurd rfl hne
  | replayed => exact absurd rfl hne
  | registered hc hheld hacked =>
    exact ⟨_, _, ⟨_, _, hc, rfl⟩, hheld, fun _ hm => (Tick.acked_ok (hacked.symm.trans hm)).symm⟩

theorem Registers.scope_eq {s s' : Store} (h : Registers req s scope uuid r s') :
    req.scope = some scope := by
  obtain ⟨_, _, hc, _⟩ := h.made
  exact checked_scope hc

theorem Registers.entry {s s' : Store} (h : Registers req s scope uuid r s') (hκ : KeyOf req κ) :
    ∃ w ∈ s'.projectWrite, Answers w req κ (responseOf uuid req scope) := by
  obtain ⟨_, _, hc, rfl⟩ := h.made
  exact registeredIn_entry hc hκ _ _ _

end Register

open Register

theorem Turned.backed {s s' : Store} (h : Turned s s') (hb : Backed s) : Backed s' := by
  cases h with
  | refused => exact hb
  | registered hresult => exact hresult.backed hb
  | synced hconv => exact hb.carried hconv.carries hconv.writes

variable {ι : Type} {own : Str → Prop} {calls : ι → Request} {env : ι → Nat → Tick} {s₀ : Store}
  {M : Server ι → Prop} {turns : List ι} {w : Server ι} {req req' : RegisterProjectRequest}

theorem inTurn_result (hcall : calls i = .register caller req) (env : ι → Nat → Tick) (s₀ : Store)
    (turns : List ι) : ∃ r, ((calls i).handler.run (engine.serve (env i))
        ⟨inTurn calls env s₀ turns, none, 0⟩).1 = .registered r ∧
      Result req (inTurn calls env s₀ turns) r (inTurn calls env s₀ (turns ++ [i])) := by
  have hresult := serve_result caller req (env i) (inTurn calls env s₀ turns)
  rw [inTurn_snoc, hcall, Request.handler, handler_store, Rpc.answering, Prog.run_bind]
  exact ⟨_, rfl, hresult⟩

omit [ServerCollation] [UuidCrate] [Idem.Sha256] [Message RegisterProjectRequest]
  [Message RegisterProjectResponse] in
theorem Request.writes_of_eq (hcall : calls i = .register caller req) :
    (calls i).writes = true := by
  rw [hcall]
  rfl

theorem register_answer (hcall : calls i = .register caller req)
    (h : ((calls i).handler.run (engine.serve (env i)) ⟨s, none, 0⟩).1 = .registered x) :
    ((registerAs caller req).serve (env i) s).1 = x := by
  rw [hcall, Request.handler, handler_answer] at h
  exact Answer.registered.inj h

namespace Orderly

/-- A registration that answers a response had its turn, and the response in it. -/
theorem answered (h : Orderly own calls env s₀ M turns w) (hcall : calls i = .register caller req)
    (ha : w.answer i = some (.registered (.ok m))) : ∃ l r, turns = l ++ i :: r ∧
      Result req (inTurn calls env s₀ l) (.ok m) (inTurn calls env s₀ (l ++ [i])) := by
  have hw := Request.writes_of_eq hcall
  by_cases hi : i ∈ turns
  · obtain ⟨l, r, rfl⟩ := List.append_of_mem hi
    obtain ⟨x, hx, hresult⟩ := inTurn_result hcall env s₀ l
    cases hx.symm.trans (h.serializes.answer_of_turn ha)
    exact ⟨l, r, rfl, hresult⟩
  · rcases h.serializes.answer_of_live hw hi (fun s => Request.handler_closed hw s) ha with
      hany | hlost
    · -- on the empty store it would have added a row
      obtain ⟨x, hx, hresult⟩ := inTurn_result hcall env Store.empty []
      have hempty := hany Store.empty
      cases hx.symm.trans (congrArg Prod.fst hempty)
      have hstore : inTurn calls env Store.empty ([] ++ [i]) = Store.empty := by
        rw [inTurn_snoc]
        exact congrArg (fun p : Answer × Conn Store => p.2.store) hempty
      exact absurd hstore (hresult.unledgered rfl)
    · obtain ⟨_, hsynced⟩ := hlost.synced
      cases hsynced

/-- A registration that committed had its turn, and was made in it. -/
theorem made (h : Orderly own calls env s₀ M turns w) (hcall : calls i = .register caller req)
    (hlog : (i, us) ∈ w.log) : ∃ l r scope uuid x, turns = l ++ i :: r ∧
      Registers req (inTurn calls env s₀ l) scope uuid x (inTurn calls env s₀ (l ++ [i])) ∧
      ((calls i).handler.run (engine.serve (env i)) ⟨inTurn calls env s₀ l, none, 0⟩).1 =
        .registered x := by
  have hw := Request.writes_of_eq hcall
  obtain ⟨l, r, hturns, hafter, hcommit⟩ :=
    h.serializes.turn_of_logged hw hlog fun s => Request.handler_once hw s
  have halways : (calls i).handler.Always (engine.serve (env i)) Adds
      ⟨inTurn calls env s₀ l, none, 0⟩ := by
    rw [hcall]
    exact Rpc.always_answering (registerAs_adds caller req _)
  obtain ⟨n, hadds⟩ := hcommit Adds halways
  obtain ⟨x, hx, hresult⟩ := inTurn_result hcall env s₀ l
  have hne : (inTurn calls env s₀ (l ++ [i])).project ≠ (inTurn calls env s₀ l).project := by
    rw [inTurn, hafter]
    exact hadds _ rfl
  obtain ⟨scope, uuid, hregisters⟩ := hresult.registers hne
  exact ⟨l, r, scope, uuid, x, hturns, hregisters, hx⟩

theorem replayed {row : WriteRow} (h : Orderly own calls env s₀ M turns w) (hs : s₀.Schema)
    (hturns : turns = (l ++ i :: mid) ++ j :: r)
    (hrow : row ∈ (inTurn calls env s₀ (l ++ [i])).projectWrite) (hanswers : Answers row req κ m)
    (hκ' : KeyOf req' κ) :
    (∀ scope, req'.scope = some scope → Held (inTurn calls env s₀ (l ++ i :: mid)) req' scope) ∧
    ∀ m' s', Result req' (inTurn calls env s₀ (l ++ i :: mid)) (.ok m') s' →
      m' = m ∧ Idem.fingerprint (payload req') = Idem.fingerprint (payload req) := by
  have hwrites : ∀ k ∈ (l ++ [i]) ++ mid, (calls k).writes = true := by
    intro k hk
    rw [List.append_assoc] at hk
    exact h.serializes.followed k (hturns ▸ List.mem_append_left _ hk)
  have ⟨hschema, hcarries⟩ : (inTurn calls env s₀ ((l ++ [i]) ++ mid)).Schema ∧ Carries _ _ :=
    inTurn_later hs hwrites
  have hthere := hcarries.ledger row hrow
  rw [List.append_assoc] at hschema hthere
  refine ⟨fun scope hscope => hκ'.held hscope hthere hanswers.key, fun m' s' hresult' => ?_⟩
  obtain ⟨_, hanswers'⟩ := hresult'.spent hschema hκ' hthere hanswers.key
  cases hanswers.response.symm.trans hanswers'.response
  exact ⟨rfl, hanswers'.payload.symm.trans hanswers.payload⟩

theorem backed (h : Orderly own calls env s₀ M turns w) (hs : s₀.Schema) (hb : Backed s₀) :
    Backed (w.committed engine s₀) := by
  have hturns : Backed (inTurn calls env s₀ turns) :=
    (inTurn_induct hs h.serializes.followed hb fun _ _ hturned => hturned.backed).2
  have hcarries : Carries (inTurn calls env s₀ turns) (w.committed engine s₀) :=
    (Carries.refl _).of_unseen rfl h.committed
  exact hturns.carried hcarries (tables_of_unseen h.committed).2.2

/-- What a response names after a turn, it names in the committed store. -/
theorem names_still (h : Orderly own calls env s₀ M turns w) (hs : s₀.Schema)
    (hturns : turns = l ++ i :: r) {row : ProjectRow}
    (hrow : row ∈ (inTurn calls env s₀ (l ++ [i])).project) (hnames : Names m row) :
    ∃ row' ∈ (w.committed engine s₀).project, Names m row' := by
  have hwrites := h.serializes.followed
  rw [List.append_cons] at hturns
  have hcarries : Carries (inTurn calls env s₀ (l ++ [i])) (inTurn calls env s₀ turns) :=
    hturns ▸ (inTurn_later hs (hturns ▸ hwrites)).2
  obtain ⟨row', hrow', hfollows⟩ := (hcarries.of_unseen rfl h.committed).rows row hrow
  exact ⟨row', hrow', hnames.follows hfollows⟩

/-- Of the registrations under one key one commits at most. -/
theorem made_once (h : Orderly own calls env s₀ M turns w) (hs : s₀.Schema)
    (hi : calls i = .register caller req) (hj : calls j = .register caller' req')
    (hκ : KeyOf req κ) (hκ' : KeyOf req' κ) (hlog : (i, us) ∈ w.log) (hlog' : (j, us') ∈ w.log) :
    i = j := by
  by_contra hne
  obtain ⟨l, r, scope, _, _, hturn, hmade, _⟩ := h.made hi hlog
  obtain ⟨l', r', scope', _, _, hturn', hmade', _⟩ := h.made hj hlog'
  obtain ⟨_, hrow, hanswers⟩ := hmade.entry hκ
  obtain ⟨_, hrow', hanswers'⟩ := hmade'.entry hκ'
  rcases splits (hturn.symm.trans hturn') hne with ⟨mid, rfl⟩ | ⟨mid, rfl⟩
  · exact hmade'.free ((h.replayed hs hturn' hrow hanswers hκ').1 scope' hmade'.scope_eq)
  · exact hmade.free ((h.replayed hs hturn hrow' hanswers' hκ).1 scope hmade.scope_eq)

variable {early late : List ι} {row : WriteRow}

/-- A ledger row is there after every later turn. -/
theorem stays (hs : s₀.Schema) {mid : List ι}
    (hrow : row ∈ (inTurn calls env s₀ early).projectWrite)
    (hwrites : ∀ k ∈ early ++ mid, (calls k).writes = true) :
    (inTurn calls env s₀ (early ++ mid)).Schema ∧
      row ∈ (inTurn calls env s₀ (early ++ mid)).projectWrite := by
  obtain ⟨hschema, hcarries⟩ : (inTurn calls env s₀ (early ++ mid)).Schema ∧ Carries _ _ :=
    inTurn_later hs hwrites
  exact ⟨hschema, hcarries.ledger row hrow⟩

/-- A registration with no turn as yet answers what it answers alone on a later store. -/
theorem answers_later (h : Orderly own calls env s₀ M (early ++ late) w) (hs : s₀.Schema)
    (hj : calls j = .register caller' req') (hlate : j ∉ early)
    (hrow : row ∈ (inTurn calls env s₀ early).projectWrite)
    (ha : w.answer j = some (.registered x)) : ∃ s : Store, s.Schema ∧ row ∈ s.projectWrite ∧
      ((registerAs caller' req').serve (env j) s).1 = x := by
  by_cases hmem : j ∈ late
  · obtain ⟨mid, later, rfl⟩ := List.append_of_mem hmem
    obtain ⟨hschema, hrow'⟩ := stays hs hrow fun k hk => h.serializes.followed k
      ((List.append_assoc early mid _) ▸ List.mem_append_left _ hk)
    rw [← List.append_assoc] at h
    exact ⟨_, hschema, hrow', register_answer hj (h.serializes.answer_of_turn ha)⟩
  · have hw := Request.writes_of_eq hj
    have hnone : j ∉ early ++ late := fun h => (List.mem_append.1 h).elim hlate hmem
    obtain ⟨hschema, hrow'⟩ := stays hs hrow h.serializes.followed
    rcases h.serializes.answer_of_live hw hnone (fun s => Request.handler_closed hw s) ha with
      hany | hlost
    · exact ⟨_, hschema, hrow', register_answer hj (congrArg Prod.fst (hany _))⟩
    · obtain ⟨_, hsynced⟩ := hlost.synced
      cases hsynced

variable [DecidableEq ι] {u : Server ι} {rest : List (Act ι)}

/-- A call that answers, and that has not ended its transaction by a moment, has no turn by then. -/
theorem unended (h : Orderly own calls env s₀ M early u)
    (hrest : u.run engine s₀ env rest = some w)
    (hopen : (u.sess j).tx.isSome = true ∨ (u.sess j).count < 2) (ha : w.answer j = some a) :
    j ∉ early := by
  intro hmem
  obtain ⟨l, r, rfl⟩ := List.append_of_mem hmem
  obtain ⟨htx, hended⟩ := h.serializes.ended l j r rfl
  cases hsess : (u.sess j).rest with
  | none => cases (World.answer_of_done hrest hsess).symm.trans ha
  | some p =>
    have hcount := (hended p hsess).1
    rw [htx] at hopen
    rcases hopen with hopen | hopen
    · cases hopen
    · omega

end Orderly

variable [DecidableEq ι]

/-- However calls in flight interleave, whatever fails and wherever calls are cut off: of the
registrations under one key one commits at most, all that answer a response answer one response and
were sent one payload, and the response names a project that is there. No registration in the
ledger is blank. -/
theorem register_exactly_once (hfresh : FreshIds calls env s₀) (hbacked : Backed s₀)
    {acts : List (Act ι)} (h : (Server.start calls).run engine s₀ env acts = some w)
    (hi : calls i = .register caller req) (hj : calls j = .register caller' req')
    (hκ : KeyOf req κ) (hκ' : KeyOf req' κ) :
    (∀ us us', (i, us) ∈ w.log → (j, us') ∈ w.log → i = j) ∧
    (∀ m m', w.answer i = some (.registered (.ok m)) → w.answer j = some (.registered (.ok m')) →
      m' = m ∧ Idem.fingerprint (payload req') = Idem.fingerprint (payload req)) ∧
    (∀ m, w.answer i = some (.registered (.ok m)) →
      ∃ r ∈ (w.committed engine s₀).project, Names m r) ∧
    Backed (w.committed engine s₀) := by
  obtain ⟨turns, hend, _⟩ := Orderly.start.run hfresh.assigned (fun _ hu => hu) h
  rw [List.nil_append] at hend
  have hs := hfresh.schema
  refine ⟨fun us us' hlog hlog' => hend.made_once hs hi hj hκ hκ' hlog hlog',
    fun m m' ha ha' => ?_, fun m ha => ?_, hend.backed hs hbacked⟩
  · by_cases hne : i = j
    · subst hne
      cases hi.symm.trans hj
      cases ha.symm.trans ha'
      exact ⟨rfl, rfl⟩
    · obtain ⟨l, r, hturn, hresult⟩ := hend.answered hi ha
      obtain ⟨l', r', hturn', hresult'⟩ := hend.answered hj ha'
      obtain ⟨row, hrow, hanswers⟩ := hresult.entry hκ
      obtain ⟨row', hrow', hanswers'⟩ := hresult'.entry hκ'
      rcases splits (hturn.symm.trans hturn') hne with ⟨mid, rfl⟩ | ⟨mid, rfl⟩
      · exact (hend.replayed hs hturn' hrow hanswers hκ').2 m' _ hresult'
      · obtain ⟨hm, hpayload⟩ := (hend.replayed hs hturn hrow' hanswers' hκ).2 m _ hresult
        exact ⟨hm.symm, hpayload.symm⟩
  · obtain ⟨l, r, hturn, hresult⟩ := hend.answered hi ha
    have hwrites := hend.serializes.followed
    have hfirst : Backed (inTurn calls env s₀ l) :=
      (inTurn_induct hs (fun k hk => hwrites k (hturn ▸ List.mem_append_left _ hk)) hbacked
        fun _ _ hturned => hturned.backed).2
    obtain ⟨row, hrow, hnames⟩ := hresult.names hfirst
    exact hend.names_still hs hturn hrow hnames

/-- A registration under a key that one has committed, and that had not ended its transaction by
then, answers what that one recorded, when it was sent the same payload, and is refused when it was
not. It writes nothing. -/
theorem register_retry (hfresh : FreshIds calls env s₀) {before rest : List (Act ι)} {u : Server ι}
    (hbefore : (Server.start calls).run engine s₀ env before = some u)
    (hrest : u.run engine s₀ env rest = some w) (hi : calls i = .register caller req)
    (hκ : KeyOf req (ledgerKey scope.projectId scope.userId key)) (hlog : (i, us) ∈ u.log)
    (hj : calls j = .register caller' req') (hp : Passes caller' req' scope cls)
    (hkey : Idem.present req'.idempotency = some key) (hnarrow : Narrow scope key)
    (hf : Faultless (env j)) (hopen : (u.sess j).tx.isSome = true ∨ (u.sess j).count < 2)
    (ha : w.answer j = some (.registered x)) :
    ∃ row ∈ (u.committed engine s₀).projectWrite, ∃ m,
      Answers row req (ledgerKey scope.projectId scope.userId key) m ∧
      (Idem.fingerprint (payload req') = Idem.fingerprint (payload req) → x = .ok m) ∧
      (Idem.fingerprint (payload req') ≠ Idem.fingerprint (payload req) →
        ∃ e, e.code = .invalidArgument ∧ x = .error e) ∧
      ∀ us', (j, us') ∉ w.log := by
  have hall : (Server.start calls).run engine s₀ env (before ++ rest) = some w :=
    (World.run_append hbefore).trans hrest
  obtain ⟨turns, hend, _, hmoments⟩ := Orderly.start.run hfresh.assigned (fun _ hu => hu) hall
  obtain ⟨early, late, rfl, hearly, _⟩ := hmoments before rest u rfl hbefore
  rw [List.nil_append] at hend hearly
  have hs := hfresh.schema
  have hlate : j ∉ early := hearly.unended hrest hopen ha
  have hκ' : KeyOf req' (ledgerKey scope.projectId scope.userId key) :=
    ⟨scope, key, checked_scope hp.checked, hkey, rfl⟩
  obtain ⟨l, r, _, _, _, hturn, hmade, _⟩ := hearly.made hi hlog
  obtain ⟨row, hrow, hanswers⟩ := hmade.entry hκ
  have hwrites := hearly.serializes.followed
  have hthere : row ∈ (inTurn calls env s₀ early).projectWrite := by
    rw [hturn, List.append_cons] at hwrites ⊢
    exact (Orderly.stays hs hrow hwrites).2
  obtain ⟨s, hschema, hrow', hx⟩ := hend.answers_later hs hj hlate hthere ha
  obtain ⟨hsame, hdiffers⟩ := serve_again hf hp hkey hnarrow hschema hrow' hanswers.key
    hanswers.rpc hanswers.response
  rw [← (tables_of_unseen hearly.committed).2.2] at hthere
  refine ⟨row, hthere, _, hanswers, fun he => ?_, fun hne => ?_, fun us' hlog' => ?_⟩
  · rw [hsame (hanswers.payload.trans he.symm)] at hx
    exact hx.symm
  · obtain ⟨e, hcode, hrefused⟩ := hdiffers fun he => hne (hanswers.payload.symm.trans he).symm
    rw [hrefused] at hx
    exact ⟨e, hcode, hx.symm⟩
  · have hgrown : (i, us) ∈ w.log := (World.run_log hrest).subset hlog
    obtain rfl := hend.made_once hs hi hj hκ hκ' hgrown hlog'
    exact hlate (hturn ▸ List.mem_append_right _ List.mem_cons_self)

end

section
open scoped Reference

/-- One registration, sent twice under its key. -/
def sentTwice : Bool → Request := fun _ =>
  .register (some Register.registerCaller) (keyed 3)

def sentTwiceEnv : Bool → Nat → Tick
  | false => fun _ => .quiet 1 3
  | true => fun _ => .quiet 2 4

/-- The first sending commits, the second one waits meanwhile, and the first one's reply is lost. -/
def replyLost : List (Act Bool) :=
  List.replicate 7 (.run false) ++ List.replicate 2 (.run true) ++ [.run false, .cut false]

/-- And the second one goes on. -/
def sentAgain : List (Act Bool) := List.replicate 4 (.run true)

theorem sentTwice_fresh : FreshIds sentTwice sentTwiceEnv Read.renamed where
  schema := renamed_schema
  unused i _ := renamed_unminted (sentTwiceEnv i)
  apart _ _ _ hj := absurd hj Bool.false_ne_true

theorem keyed_keyOf : Register.KeyOf (keyed 3) (ledgerKey [] ada (List.replicate 3 'k')) :=
  ⟨⟨ada, []⟩, List.replicate 3 'k', rfl, rfl, rfl⟩

/-- Both are answered: the first one's commit lets the second one go on. -/
def bothAnswered : List (Act Bool) :=
  List.replicate 7 (.run false) ++ List.replicate 2 (.run true) ++ List.replicate 2 (.run false) ++
    sentAgain

theorem register_exactly_once_ada : ∃ w m m', (Server.start sentTwice).run engine Read.renamed
      sentTwiceEnv bothAnswered = some w ∧ w.log.map Prod.fst = [false] ∧
    w.answer false = some (.registered (.ok m)) ∧ w.answer true = some (.registered (.ok m')) ∧
    m' = m ∧ ∃ r ∈ (w.committed engine Read.renamed).project, Register.Names m r := by
  let answered := Register.responseOf (uuidOf 3) (keyed 3) ⟨ada, []⟩
  have hrun : ((Server.start sentTwice).run engine Read.renamed sentTwiceEnv bothAnswered).map
      (fun w => (w.log.map Prod.fst, w.answer false, w.answer true)) =
        some ([false], some (.registered (.ok answered)), some (.registered (.ok answered))) := by
    decide +kernel
  obtain ⟨w, hw, hfacts⟩ := Option.map_eq_some_iff.1 hrun
  obtain ⟨hlog, hanswers⟩ := Prod.mk.inj hfacts
  obtain ⟨ha, ha'⟩ := Prod.mk.inj hanswers
  obtain ⟨_, hsame, hnames, _⟩ := register_exactly_once (i := false) (j := true) sentTwice_fresh
    (fun _ hw => absurd hw List.not_mem_nil) hw rfl rfl keyed_keyOf keyed_keyOf
  exact ⟨w, _, _, hw, hlog, ha, ha', (hsame _ _ ha ha').1, hnames _ ha⟩

theorem register_retry_ada : ∃ u w us x, (Server.start sentTwice).run engine Read.renamed
      sentTwiceEnv replyLost = some u ∧
    u.run engine Read.renamed sentTwiceEnv sentAgain = some w ∧ (false, us) ∈ u.log ∧
    w.answer true = some (.registered x) ∧
    ∃ row ∈ (u.committed engine Read.renamed).projectWrite, ∃ m,
      Register.Answers row (keyed 3) (ledgerKey [] ada (List.replicate 3 'k')) m ∧ x = .ok m := by
  have hrun : ((Server.start sentTwice).run engine Read.renamed sentTwiceEnv replyLost).bind
      (fun u => (u.run engine Read.renamed sentTwiceEnv sentAgain).map fun w =>
        (u.log.map Prod.fst, (u.sess true).count, (u.sess true).tx.isSome, w.answer true)) =
        some ([false], 2, true, some (.registered (.ok (Register.responseOf (uuidOf 3) (keyed 3)
          ⟨ada, []⟩)))) := by decide +kernel
  obtain ⟨u, hu, hrest⟩ := Option.bind_eq_some_iff.1 hrun
  obtain ⟨w, hw, hfacts⟩ := Option.map_eq_some_iff.1 hrest
  obtain ⟨hlog, hfacts⟩ := Prod.mk.inj hfacts
  obtain ⟨_, hfacts⟩ := Prod.mk.inj hfacts
  obtain ⟨hopen, ha⟩ := Prod.mk.inj hfacts
  have hmem : false ∈ u.log.map Prod.fst := hlog ▸ List.mem_cons_self
  obtain ⟨⟨_, us⟩, hmem, rfl⟩ := List.mem_map.1 hmem
  have hpasses : Register.Passes (some Register.registerCaller) (keyed 3) ⟨ada, []⟩
      ⟨ada, Visibility.private_.toI8⟩ := ⟨rfl, by decide +kernel⟩
  obtain ⟨row, hrow, m, hanswers, hsame, _⟩ := register_retry sentTwice_fresh hu hw rfl keyed_keyOf
    hmem rfl hpasses rfl ⟨by decide, by decide⟩ (fun _ => rfl) (.inl hopen) ha
  exact ⟨u, w, us, _, hu, hw, hmem, ha, row, hrow, m, hanswers, hsame rfl⟩

end

end ProjectDb
