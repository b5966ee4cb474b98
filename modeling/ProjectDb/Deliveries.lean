import ProjectDb.Queue
import ProjectDb.Retries

namespace ProjectDb
open Text ProjectDb.Path Mvcc
set_option autoImplicit true

section
variable [ServerCollation] {env : Nat → Tick} [UuidCrate] [Idem.Sha256]
  [Message RegisterProjectRequest] [Message RegisterProjectResponse]

namespace Register
variable {req req' : RegisterProjectRequest} {s s' : Store}

omit [ServerCollation] [UuidCrate] [Idem.Sha256] [Message RegisterProjectResponse] in
theorem payload_eq_iff : payload req' = payload req ↔ req'.path = req.path ∧
    req'.displayName = req.displayName ∧ req'.sourceRepo = req.sourceRepo := by
  constructor
  · intro h
    have hdecoded := congrArg (Message.decode (τ := RegisterProjectRequest)) h
    rw [payload, payload, Message.decode_encodeToVec, Message.decode_encodeToVec] at hdecoded
    cases req
    cases req'
    cases hdecoded
    exact ⟨rfl, rfl, rfl⟩
  · rintro ⟨hpath, hname, hrepo⟩
    rw [payload, payload, hpath, hname, hrepo]

omit [ServerCollation] [Idem.Sha256] [Message RegisterProjectRequest]
  [Message RegisterProjectResponse] in
theorem classOf_sourceRepo (h : Class.of path actor repo = .ok cls) : repo = [] ∧
    ∀ repo', repo' ≠ [] → ∃ e, Class.of path actor repo' = .error e ∧
      e.code = .invalidArgument := by
  unfold Class.of at h ⊢
  split at h
  · cases h
  · rename_i hprivate
    split at h
    · cases h
    · rename_i seg hseg
      split at h
      · cases h
      · rename_i hroot
        split at h
        · cases h
        · rename_i hrepo
          rw [Bool.not_eq_true, Bool.not_eq_false', List.isEmpty_iff] at hrepo
          refine ⟨hrepo, fun repo' hne => ?_⟩
          have hfull : (!repo'.isEmpty) = true := by
            rw [Bool.not_eq_true', List.isEmpty_eq_false_iff]
            exact hne
          rw [if_neg hprivate, if_neg hroot, if_pos hfull]
          exact ⟨_, rfl, rfl⟩

omit [ServerCollation] [Idem.Sha256] [Message RegisterProjectRequest]
  [Message RegisterProjectResponse] in
theorem checked_sourceRepo (h : checked req = .ok (scope, cls)) : req.sourceRepo = [] := by
  unfold checked at h
  obtain ⟨_, _, h⟩ := bind_eq_ok.1 h
  obtain ⟨_, _, h⟩ := bind_eq_ok.1 h
  obtain ⟨_, _, h⟩ := bind_eq_ok.1 h
  split at h
  · cases h
  · obtain ⟨_, hcls, _⟩ := bind_eq_ok.1 h
    exact (classOf_sourceRepo hcls).1

omit [ServerCollation] [Idem.Sha256] [Message RegisterProjectRequest]
  [Message RegisterProjectResponse] in
/-- A request that passes its checks is refused when it names a repository besides. -/
theorem checked_sourced (h : checked req = .ok (scope, cls)) (hscope : req'.scope = req.scope)
    (hpath : req'.path = req.path) (hname : req'.displayName = req.displayName)
    (hrepo : req'.sourceRepo ≠ req.sourceRepo) :
    ∃ e, checked req' = .error e ∧ e.code = .invalidArgument := by
  unfold checked at h ⊢
  obtain ⟨scope', hscope', h⟩ := bind_eq_ok.1 h
  obtain ⟨_, hvalid, h⟩ := bind_eq_ok.1 h
  obtain ⟨_, hroot, h⟩ := bind_eq_ok.1 h
  split at h
  · cases h
  · rename_i hwidth
    obtain ⟨cls', hcls, _⟩ := bind_eq_ok.1 h
    obtain ⟨hnone, hrefused⟩ := classOf_sourceRepo hcls
    obtain ⟨e, he, hcode⟩ := hrefused req'.sourceRepo (hnone ▸ hrepo)
    refine ⟨e, ?_, hcode⟩
    rw [hscope, hpath, hname, hscope']
    change (validate "path" req.path >>= fun _ => _) = _
    rw [hvalid]
    change (refuseReservedRoot "path" req.path >>= fun _ => _) = _
    rw [hroot]
    change (if _ then _ else _) = _
    rw [if_neg hwidth, he]
    rfl

/-- Two stores that differ at most in their ledger. -/
structure SameProjects (s s' : Store) : Prop where
  rows : s'.project = s.project
  aliases : s'.projectAlias = s.projectAlias

/-- Without a key a registration answers the same whatever the ledger holds. -/
theorem serve_unkeyed (caller : Option Str) (hkey : Idem.present req.idempotency = none)
    (h : SameProjects s s') : ((registerAs caller req).serve env s).1 =
      ((registerAs caller req).serve env s').1 := by
  have hnone : ∀ {key}, Idem.present req.idempotency ≠ some key := by
    intro key he
    cases hkey.symm.trans he
  refine (Rpc.simulates (R := SameProjects) (registerAs_sends caller ?_ s) h).1
  intro scope cls _
  exact {
    claim := fun _ he => absurd he hnone
    replay := fun _ he => absurd he hnone
    former := fun t s s' hsame => by
      refine ⟨by simp only [Stmt.exec, hsame.aliases], fun a ws hx => ?_⟩
      cases hx
      exact hsame
    insert := fun n t s s' hsame => by
      refine ⟨by simp only [Stmt.exec, hsame.rows], fun a ws hx => ?_⟩
      obtain ⟨_, _, _, rfl⟩ := exec_insertProject_ok hx
      exact ⟨congrArg (· ++ _) hsame.rows, hsame.aliases⟩
    record := fun _ he => absurd he hnone }

/-- A ledger row of the store after a call was there before it, or the call made it. -/
theorem Result.ledgered (h : Result req s r s') (hw : w ∈ s'.projectWrite) :
    w ∈ s.projectWrite ∨ ∃ scope uuid key, Registers req s scope uuid r s' ∧
      Idem.present req.idempotency = some key ∧
      Answers w req (ledgerKey scope.projectId scope.userId key) (responseOf uuid req scope) := by
  cases h with
  | refused => exact .inl hw
  | replayed => exact .inl hw
  | registered hc hheld hacked =>
    apply (List.mem_append.1 hw).imp_right
    intro hw
    obtain ⟨key, hkey, rfl⟩ := List.mem_map.1 hw
    exact ⟨_, _, key, ⟨⟨_, _, hc, rfl⟩, hheld, fun _ hm =>
      (Tick.acked_ok (hacked.symm.trans hm)).symm⟩, Option.mem_toList.1 hkey,
      ⟨WriteRow.kept_key _, rfl, rfl, Message.decode_encodeToVec _⟩⟩

theorem Result.unkeyed (h : Result req s (.ok m) s') (hkey : Idem.present req.idempotency = none) :
    s'.project ≠ s.project := by
  cases h with
  | replayed hκ _ _ =>
    obtain ⟨_, _, _, he, _⟩ := hκ
    cases hkey.symm.trans he
  | registered => exact fun he => List.cons_ne_nil _ _ (List.append_right_eq_self.1 he)

theorem Registers.row (h : Registers req s scope uuid r s') :
    ∃ row ∈ s'.project, row.id = projectIdPrefix ++ uuid ∧
      Names (responseOf uuid req scope) row := by
  obtain ⟨_, _, hc, rfl⟩ := h.made
  exact ⟨_, List.mem_append_right _ (List.mem_singleton.2 rfl), rfl, names_newRow hc _ _⟩

theorem Registers.grows (h : Registers req s scope uuid r s') : s'.project ≠ s.project := by
  obtain ⟨_, _, _, rfl⟩ := h.made
  exact fun he => List.cons_ne_nil _ _ (List.append_right_eq_self.1 he)

/-- The uuid that a registration was made under is one that it minted. -/
theorem Registers.minted (h : Registers req s scope uuid r ((registerAs caller req).serve env s).2)
    (hs : ((registerAs caller req).serve env s).2.Schema) : ∃ n, uuid = (env n).uuid := by
  obtain ⟨cls, now, _, hmade⟩ := h.made
  have hnodup := hs.id_key
  have hids := fun r => Register.serve_ids (r := r) caller req env (s := s)
  rw [hmade] at hnodup hids
  have hrow : (newRow (projectIdPrefix ++ uuid) req scope cls).row now ∈
      (registeredIn req scope cls uuid now s).project :=
    List.mem_append_right _ (List.mem_singleton.2 rfl)
  rcases hids _ hrow with ⟨r₀, hr₀, hid⟩ | ⟨n, hid⟩
  · rw [registeredIn, List.map_append] at hnodup
    exact absurd hid ((List.nodup_append.1 hnodup).2.2 _ (List.mem_map_of_mem hr₀) _
      (List.mem_singleton.2 rfl))
  · exact ⟨n, List.append_cancel_left hid⟩

end Register

open Register

variable {ι : Type} {own : Str → Prop} {calls : ι → Request} {env : ι → Nat → Tick} {s₀ : Store}
  {M : Server ι → Prop} {turns late : List ι} {w v : Server ι} {req req' : RegisterProjectRequest}

/-- The writers commit once each, in the order of their turns, and each turn that changed the store
was a commit. -/
structure Committed (calls : ι → Request) (env : ι → Nat → Tick) (s₀ : Store) (turns : List ι)
    (w : Server ι) : Prop where
  order : ((w.log.map Prod.fst).filter fun i => (calls i).writes).Sublist turns
  changed : ∀ l i r, turns = l ++ i :: r → inTurn calls env s₀ (l ++ [i]) ≠ inTurn calls env s₀ l →
    ∃ us, (i, us) ∈ w.log

namespace Committed

theorem start : Committed calls env s₀ [] (Server.start calls) where
  order := List.nil_sublist _
  changed _ _ _ h := by cases (List.append_eq_nil_iff.1 h.symm).2

theorem step_order (h : Committed calls env s₀ turns w)
    (hmoves : Moves engine s₀ env (fun i => (calls i).handler) (fun i => (calls i).writes = true)
      turns w v late) :
    ((v.log.map Prod.fst).filter fun i => (calls i).writes).Sublist (turns ++ late) := by
  cases hmoves with
  | still hlog _ _ =>
    rw [hlog]
    exact h.order.trans (List.sublist_append_left _ _)
  | apart hw hlog =>
    rw [hlog, List.map_append, List.filter_append, List.map_singleton, List.filter_singleton,
      Bool.eq_false_iff.2 hw, Bool.cond_false]
    exact h.order.append (List.nil_sublist _)
  | commit hw _ _ _ hlog _ =>
    rw [hlog, List.map_append, List.filter_append, List.map_singleton, List.filter_singleton, hw,
      Bool.cond_true]
    exact h.order.append (.refl _)

theorem step [DecidableEq ι] (h : Committed calls env s₀ turns w)
    (ho' : Orderly own calls env s₀ M (turns ++ late) v)
    (hmoves : Moves engine s₀ env (fun i => (calls i).handler) (fun i => (calls i).writes = true)
      turns w v late) {a : Act ι} (hstep : w.step engine s₀ env a = some v) :
    Committed calls env s₀ (turns ++ late) v := by
  refine ⟨h.step_order hmoves, fun l i r hturns hne => ?_⟩
  have hbefore : ∀ r', turns = l ++ i :: r' → ∃ us, (i, us) ∈ v.log := by
    intro r' hr'
    obtain ⟨us, hlogged⟩ := h.changed l i r' hr' hne
    exact ⟨us, (World.step_log hstep).subset hlogged⟩
  obtain ⟨k, hother, _⟩ := World.step_locks hstep
  rcases Queued.late_cases ho' hmoves hother with rfl | ⟨rfl, _⟩
  · rw [List.append_nil] at hturns
    exact hbefore r hturns
  · rcases List.eq_nil_or_concat r with rfl | ⟨r', j, rfl⟩
    · obtain ⟨rfl, hlast⟩ := List.append_inj' hturns rfl
      cases hlast
      cases hmoves with
      | still _ hafter _ => exact absurd hafter hne
      | commit _ _ _ _ hlog _ =>
        exact ⟨_, hlog ▸ List.mem_append_right _ (List.mem_singleton.2 rfl)⟩
    · rw [List.concat_eq_append, ← List.cons_append, ← List.append_assoc] at hturns
      exact hbefore r' (List.append_inj' hturns rfl).1

end Committed

/-- A call is a registration under a scope and a key that is not empty. -/
structure SentUnder (calls : ι → Request) (scope : Scope) (key : Str) (i : ι)
    (caller : Option Str) (req : RegisterProjectRequest) : Prop where
  call : calls i = .register caller req
  inScope : req.scope = some scope
  underKey : Idem.present req.idempotency = some key

omit [UuidCrate] [Idem.Sha256] [Message RegisterProjectRequest] [Message RegisterProjectResponse] in
theorem SentUnder.keyOf (h : SentUnder calls scope key i caller req) :
    KeyOf req (ledgerKey scope.projectId scope.userId key) :=
  ⟨scope, key, h.inScope, h.underKey, rfl⟩

theorem inTurn_register (hcall : calls i = .register caller req) (l : List ι) :
    inTurn calls env s₀ (l ++ [i]) =
      ((registerAs caller req).serve (env i) (inTurn calls env s₀ l)).2 := by
  rw [inTurn_snoc, hcall, Request.handler, handler_store]

theorem inTurn_ledger (hs : s₀.Schema) (hwrites : ∀ i ∈ turns, (calls i).writes = true)
    {row : WriteRow} (hrow : row ∈ (inTurn calls env s₀ turns).projectWrite) :
    row ∈ s₀.projectWrite ∨ ∃ l i r caller req scope key uuid a, turns = l ++ i :: r ∧
      SentUnder calls scope key i caller req ∧
      Registers req (inTurn calls env s₀ l) scope uuid a (inTurn calls env s₀ (l ++ [i])) ∧
      Answers row req (ledgerKey scope.projectId scope.userId key) (responseOf uuid req scope) := by
  induction turns using List.reverseRecOn with
  | nil => exact .inl hrow
  | append_singleton turns i ih =>
    have hbefore : ∀ j ∈ turns, (calls j).writes = true :=
      fun j hj => hwrites j (List.mem_append_left _ hj)
    have hi := hwrites i (List.mem_append_right _ (List.mem_singleton.2 rfl))
    suffices hcases : row ∈ (inTurn calls env s₀ turns).projectWrite ∨
        ∃ caller req scope key uuid a, SentUnder calls scope key i caller req ∧
        Registers req (inTurn calls env s₀ turns) scope uuid a
          (inTurn calls env s₀ (turns ++ [i])) ∧
        Answers row req (ledgerKey scope.projectId scope.userId key)
          (responseOf uuid req scope) by
      rcases hcases with hbefore' | ⟨caller, req, scope, key, uuid, a, hmade⟩
      · apply (ih hbefore hbefore').imp_right
        rintro ⟨l, j, r, caller, req, scope, key, uuid, a, rfl, hmade⟩
        refine ⟨l, j, r ++ [i], caller, req, scope, key, uuid, a, ?_, hmade⟩
        rw [List.append_assoc, List.cons_append]
      · exact .inr ⟨turns, i, [], caller, req, scope, key, uuid, a, rfl, hmade⟩
    cases hcall : calls i with
    | register caller req =>
      obtain ⟨a, _, hresult⟩ := inTurn_result hcall env s₀ turns
      apply (hresult.ledgered hrow).imp_right
      rintro ⟨scope, uuid, key, hmade, hkey, hanswers⟩
      exact ⟨caller, req, scope, key, uuid, a, ⟨hcall, hmade.scope_eq, hkey⟩, hmade, hanswers⟩
    | sync caller req =>
      rw [inTurn_snoc, hcall, Request.handler, handler_store] at hrow
      have hschema : (inTurn calls env s₀ turns).Schema := (inTurn_carries hs hbefore).1
      exact .inl ((Sync.serve_personally caller req (env i) hschema).writes ▸ hrow)
    | _ =>
      rw [hcall] at hi
      cases hi

theorem Register.Registers.minted_in_turn (hs : s₀.Schema) (hcall : calls i = .register caller req)
    (hwrites : ∀ k ∈ l ++ [i], (calls k).writes = true)
    (h : Registers req (inTurn calls env s₀ l) scope uuid a (inTurn calls env s₀ (l ++ [i]))) :
    ∃ n, uuid = (env i n).uuid := by
  have hschema : (inTurn calls env s₀ (l ++ [i])).Schema := (inTurn_carries hs hwrites).1
  rw [inTurn_register hcall] at h hschema
  exact h.minted hschema

end

end ProjectDb
