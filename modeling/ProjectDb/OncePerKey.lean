import ProjectDb.Deliveries

namespace ProjectDb
open Text ProjectDb.Path Mvcc Register
set_option autoImplicit true

section
variable [ServerCollation] [UuidCrate] [Idem.Sha256] [Message RegisterProjectRequest]
  [Message RegisterProjectResponse] {ι : Type} {own : Str → Prop} {calls : ι → Request}
  {env : ι → Nat → Tick} {s₀ : Store} {M : Server ι → Prop} {turns late : List ι}
  {w v : Server ι} {req req' : RegisterProjectRequest}

/-- What a registration answers, when it is sent under the scope and the key of one that was made
and answered, and reaches the ledger after it: that answer, or a refusal. With a source repository
it is refused before it reaches the ledger. -/
structure Repeated (envs : Nat → Tick) (scope : Scope) (req : RegisterProjectRequest)
    (m : RegisterProjectResponse) (caller' : Option Str) (req' : RegisterProjectRequest)
    (x : Except Status RegisterProjectResponse) : Prop where
  same : ∀ cls, Faultless envs → Passes caller' req' scope cls → req'.path = req.path →
    req'.displayName = req.displayName → x = .ok m
  other : ∀ cls, Faultless envs → Passes caller' req' scope cls →
    (req'.path ≠ req.path ∨ req'.displayName ≠ req.displayName) →
      ∃ e, e.code = .invalidArgument ∧ x = .error e
  sourced : admitCaller caller' = .ok () → req'.path = req.path →
    req'.displayName = req.displayName → req'.sourceRepo ≠ req.sourceRepo →
      ∃ e, e.code = .invalidArgument ∧ x = .error e

namespace Orderly

/-- A registration answers what it answers alone on some store. -/
theorem answers_alone (h : Orderly own calls env s₀ M turns w)
    (hcall : calls i = .register caller req) (ha : w.answer i = some (.registered x)) :
    ∃ s, ((registerAs caller req).serve (env i) s).1 = x := by
  rcases h.answers (Request.writes_of_eq hcall) ha with ⟨l, _, _, hx⟩ | ⟨_, hany | hlost⟩
  · exact ⟨_, register_answer hcall hx⟩
  · exact ⟨s₀, register_answer hcall (congrArg Prod.fst (hany s₀))⟩
  · obtain ⟨_, hsynced⟩ := hlost.synced
    cases hsynced

theorem repeated {early : List ι} (h : Orderly own calls env s₀ M (early ++ late) w)
    (hs : s₀.Schema) (hi : SentUnder calls scope key i caller req) (hearly : early = l ++ i :: r)
    (hmade : Registers req (inTurn calls env s₀ l) scope uuid x (inTurn calls env s₀ (l ++ [i])))
    (hj : SentUnder calls scope key j caller' req') (hlate : j ∉ early)
    (hdigest : Idem.fingerprint (payload req') = Idem.fingerprint (payload req) →
      payload req' = payload req)
    (ha : w.answer j = some (.registered y)) :
    Repeated (env j) scope req (responseOf uuid req scope) caller' req' y := by
  obtain ⟨row, hrow, hanswers⟩ := hmade.entry hi.keyOf
  have hwrites : ∀ k ∈ (l ++ [i]) ++ r, (calls k).writes = true := by
    rw [← List.append_cons, ← hearly]
    exact fun k hk => h.serializes.followed k (List.mem_append_left _ hk)
  have hthere : row ∈ (inTurn calls env s₀ early).projectWrite := by
    rw [hearly, List.append_cons]
    exact (stays hs hrow hwrites).2
  have hnarrow : Narrow scope key := by
    by_contra hwide
    exact hmade.free ⟨key, hi.underKey, .inl hwide⟩
  obtain ⟨s, hschema, hrow', hy⟩ := h.answers_later hs hj.call hlate hthere ha
  have hagain := fun cls (hf : Faultless (env j)) (hp : Passes caller' req' scope cls) =>
    serve_again hf hp hj.underKey hnarrow hschema hrow' hanswers.key hanswers.rpc hanswers.response
  obtain ⟨_, _, hchecked, _⟩ := hmade.made
  constructor
  case same =>
    intro cls hf hp hpath hname
    have hrepo : req'.sourceRepo = req.sourceRepo :=
      (checked_sourceRepo hp.checked).trans (checked_sourceRepo hchecked).symm
    have hpayload := congrArg Idem.fingerprint (payload_eq_iff.2 ⟨hpath, hname, hrepo⟩)
    rw [(hagain cls hf hp).1 (hanswers.payload.trans hpayload.symm)] at hy
    exact hy.symm
  case other =>
    intro cls hf hp hne
    obtain ⟨e, hcode, hrefused⟩ := (hagain cls hf hp).2 fun he => by
      obtain ⟨hpath, hname, _⟩ := payload_eq_iff.1 (hdigest (hanswers.payload.symm.trans he).symm)
      exact hne.elim (fun hne => hne hpath) fun hne => hne hname
    rw [hrefused] at hy
    exact ⟨e, hcode, hy.symm⟩
  case sourced =>
    intro hadmit hpath hname hrepo
    obtain ⟨e, he, hcode⟩ := checked_sourced hchecked
      (hj.inScope.trans (checked_scope hchecked).symm) hpath hname hrepo
    obtain ⟨_, hy⟩ := h.answers_alone hj.call ha
    rw [serve_unchecked_admitted hadmit he] at hy
    exact ⟨e, hcode, hy.symm⟩

/-- A registration that a turn made, made in the words of the committed store. -/
theorem responds (h : Orderly own calls env s₀ M turns w) (hs : s₀.Schema)
    (hcall : calls i = .register caller req) (hturns : turns = l ++ i :: r)
    (hmade : Registers req (inTurn calls env s₀ l) scope uuid x (inTurn calls env s₀ (l ++ [i]))) :
    (∃ n, uuid = (env i n).uuid) ∧
      ∃ row ∈ (w.committed engine s₀).project, Names (responseOf uuid req scope) row := by
  have hwrites : ∀ k ∈ l ++ [i], (calls k).writes = true := by
    intro k hk
    apply h.serializes.followed k
    rw [hturns, List.append_cons]
    exact List.mem_append_left _ hk
  obtain ⟨row, hrow, _, hnames⟩ := hmade.row
  exact ⟨hmade.minted_in_turn hs hcall hwrites, h.names_still hs hturns hrow hnames⟩

/-- A ledger row that was not there at first is a committed registration's, and is not blank. -/
theorem ledgered (h : Orderly own calls env s₀ M turns w) (hc : Committed calls env s₀ turns w)
    (hs : s₀.Schema) (hunset : (Message.unset : RegisterProjectResponse).envelope = none)
    {row : WriteRow} (hrow : row ∈ (w.committed engine s₀).projectWrite) :
    row ∈ s₀.projectWrite ∨ row.response ≠ [] ∧ ∃ i us caller req scope key n,
      SentUnder calls scope key i caller req ∧ (i, us) ∈ w.log ∧
      Answers row req (ledgerKey scope.projectId scope.userId key)
        (responseOf (env i n).uuid req scope) := by
  rw [(tables_of_unseen h.committed).2.2] at hrow
  apply (inTurn_ledger hs h.serializes.followed hrow).imp_right
  rintro ⟨l, i, r, caller, req, scope, key, uuid, a, hturns, hsent, hmade, hanswers⟩
  obtain ⟨⟨n, rfl⟩, _⟩ := h.responds hs hsent.call hturns hmade
  obtain ⟨us, hlog⟩ := hc.changed l i r hturns fun he => hmade.grows (congrArg Store.project he)
  refine ⟨fun hblank => ?_, i, us, caller, req, scope, key, n, hsent, hlog, hanswers⟩
  have hdecoded := hanswers.response
  rw [hblank, Message.decode_nil] at hdecoded
  rw [Option.some.inj hdecoded] at hunset
  cases hunset

/-- A registration without a key that answers a response has committed. -/
theorem unkeyed (h : Orderly own calls env s₀ M turns w) (hc : Committed calls env s₀ turns w)
    (hs : s₀.Schema) (hcall : calls i = .register caller req)
    (hkey : Idem.present req.idempotency = none)
    (ha : w.answer i = some (.registered (.ok m))) : ∃ us n scope, (i, us) ∈ w.log ∧
      req.scope = some scope ∧ m = responseOf (env i n).uuid req scope ∧
      ∃ row ∈ (w.committed engine s₀).project, Names m row := by
  obtain ⟨l, r, hturns, hresult⟩ := h.answered hcall ha
  have hgrows := hresult.unkeyed hkey
  obtain ⟨scope, uuid, hmade⟩ := hresult.registers hgrows
  obtain ⟨⟨n, rfl⟩, hnames⟩ := h.responds hs hcall hturns hmade
  obtain ⟨us, hlog⟩ := hc.changed l i r hturns fun he => hgrows (congrArg Store.project he)
  obtain rfl := hmade.answer m rfl
  exact ⟨us, n, scope, hlog, hmade.scope_eq, rfl, hnames⟩

end Orderly

variable [DecidableEq ι]

/-- However calls in flight interleave, whatever fails and wherever calls are cut off: a
registration commits once at most, and of those under one scope and key one commits at most. Once
it has, its response names a row that is there, and each other one of the scope and key that reaches
the ledger answers that response where it asks for the same, is refused where it does not, and
commits nothing. A ledger row that was not there at first is a committed registration's, and is not
blank. Without a key a registration that answers a response has committed, and what it answers does
not depend on the ledger. -/
theorem register_once_per_key (hfresh : FreshIds calls env s₀)
    (hdigest : ∀ i j caller caller' req req', calls i = .register caller req →
      calls j = .register caller' req' →
      Idem.fingerprint (payload req') = Idem.fingerprint (payload req) →
        payload req' = payload req)
    (hunset : (Message.unset : RegisterProjectResponse).envelope = none)
    {acts : List (Act ι)} (h : (Server.start calls).run engine s₀ env acts = some w) :
    ((w.log.map Prod.fst).filter fun i => (calls i).isRegister).Nodup ∧
    (∀ scope key i j caller caller' req req' us us', SentUnder calls scope key i caller req →
      SentUnder calls scope key j caller' req' → (i, us) ∈ w.log → (j, us') ∈ w.log → i = j) ∧
    (∀ before rest u, acts = before ++ rest →
      (Server.start calls).run engine s₀ env before = some u →
      ∀ scope key i caller req us, SentUnder calls scope key i caller req → (i, us) ∈ u.log →
        ∃ n, (∃ row ∈ (w.committed engine s₀).project,
            Names (responseOf (env i n).uuid req scope) row) ∧
          (∀ m, w.answer i = some (.registered (.ok m)) →
            m = responseOf (env i n).uuid req scope) ∧
          ∀ j caller' req' x, SentUnder calls scope key j caller' req' →
            ((u.sess j).tx.isSome = true ∨ (u.sess j).count < 2) →
            w.answer j = some (.registered x) → (∀ us', (j, us') ∉ w.log) ∧
              Repeated (env j) scope req (responseOf (env i n).uuid req scope) caller' req' x) ∧
    (∀ row ∈ (w.committed engine s₀).projectWrite, row ∈ s₀.projectWrite ∨
      row.response ≠ [] ∧ ∃ i us caller req scope key n, SentUnder calls scope key i caller req ∧
        (i, us) ∈ w.log ∧ Answers row req (ledgerKey scope.projectId scope.userId key)
          (responseOf (env i n).uuid req scope)) ∧
    ∀ i caller req, calls i = .register caller req → Idem.present req.idempotency = none →
      (∀ s s', SameProjects s s' →
        ((calls i).alone (env i) s).1 = ((calls i).alone (env i) s').1) ∧
      ∀ m, w.answer i = some (.registered (.ok m)) → ∃ us n scope, (i, us) ∈ w.log ∧
        req.scope = some scope ∧ m = responseOf (env i n).uuid req scope ∧
        ∃ row ∈ (w.committed engine s₀).project, Names m row := by
  have ha := hfresh.assigned
  have hs := hfresh.schema
  obtain ⟨turns, hend, hcommitted⟩ := Orderly.induct (P := Committed calls env s₀) ha
    (fun _ ho' hmoves hstep hc => hc.step ho' hmoves hstep) Orderly.start .start (fun _ hu => hu) h
  rw [List.nil_append] at hend hcommitted
  refine ⟨?once, fun scope key i j caller caller' req req' us us' hi hj hlog hlog' =>
    hend.made_once hs hi.call hj.call hi.keyOf hj.keyOf hlog hlog', ?repeated,
    fun row hrow => hend.ledgered hcommitted hs hunset hrow,
    fun i caller req hcall hkey => ⟨fun s s' hsame => ?blind,
      fun m hanswer => hend.unkeyed hcommitted hs hcall hkey hanswer⟩⟩
  case once =>
    refine (hend.serializes.nodup.sublist hcommitted.order).sublist ?_
    exact List.monotone_filter_right _ fun i hi => Request.writes_of_register hi
  case blind =>
    rw [hcall, Request.alone, Request.alone, Request.handler, handler_answer, handler_answer,
      serve_unkeyed caller hkey hsame]
  case repeated =>
    intro before rest u hacts hu scope key i caller req us hi hlog
    subst hacts
    obtain ⟨turns', hend', _, hmoments⟩ := Orderly.start.run ha (fun _ hu => hu) h
    obtain ⟨early, late, rfl, hearly, _⟩ := hmoments before rest u rfl hu
    rw [List.nil_append] at hend' hearly
    obtain ⟨l, r, scope', uuid, x, hturns, hmade, hx⟩ := hearly.made hi.call hlog
    cases hi.inScope.symm.trans hmade.scope_eq
    have hlater : early ++ late = l ++ i :: (r ++ late) := by
      rw [hturns, List.append_assoc, List.cons_append]
    obtain ⟨⟨n, rfl⟩, hnames⟩ := hend'.responds hs hi.call hlater hmade
    have hrest : u.run engine s₀ env rest = some w := (World.run_append hu).symm.trans h
    refine ⟨n, hnames, fun m hanswer => hmade.answer m ?_,
      fun j caller' req' y hj hopen hanswer => ?_⟩
    · rw [hlater] at hend'
      exact Answer.registered.inj (hx.symm.trans (hend'.serializes.answer_of_turn hanswer))
    · have hlate : j ∉ early := hearly.unended hrest hopen hanswer
      refine ⟨fun us' hlog' => ?_, hend'.repeated hs hi hturns hmade hj hlate
        (hdigest i j caller caller' req req' hi.call hj.call) hanswer⟩
      have hgrown : (i, us) ∈ w.log := (World.run_log hrest).subset hlog
      obtain rfl := hend'.made_once hs hi.call hj.call hi.keyOf hj.keyOf hgrown hlog'
      exact hlate (hturns ▸ List.mem_append_right _ List.mem_cons_self)

end

section
open scoped Reference

/-- One registration, sent twice under its key, and another one of the same path sent under it. -/
def sentThrice : Option Bool → Request
  | some _ => .register (some Register.registerCaller) (keyed 3)
  | none => .register (some Register.registerCaller)
      { keyed 3 with displayName := "other".toList }

def sentThriceEnv : Option Bool → Nat → Tick
  | some b => sentTwiceEnv b
  | none => fun _ => .quiet 3 5

/-- The first sending commits, the second one waits meanwhile, and the first one's reply is lost. -/
def firstCommits : List (Act (Option Bool)) :=
  List.replicate 7 (.run (some false)) ++ List.replicate 2 (.run (some true)) ++
    [.run (some false), .cut (some false)]

/-- The second one goes on, and then the other registration runs. -/
def othersFollow : List (Act (Option Bool)) :=
  List.replicate 4 (.run (some true)) ++ List.replicate 5 (.run none)

theorem sentThrice_fresh : FreshIds sentThrice sentThriceEnv Read.renamed where
  schema := renamed_schema
  unused i _ := renamed_unminted (sentThriceEnv i)
  apart _ j _ hj := by
    cases j with
    | some => exact absurd hj Bool.false_ne_true
    | none => exact absurd hj Bool.false_ne_true

theorem sentThrice_digests : ∀ i j caller caller' req req', sentThrice i = .register caller req →
    sentThrice j = .register caller' req' →
    Idem.fingerprint (Register.payload req') = Idem.fingerprint (Register.payload req) →
      Register.payload req' = Register.payload req := by
  have hother : Idem.fingerprint (Register.payload (keyed 3)) ≠
      Idem.fingerprint (Register.payload { keyed 3 with displayName := "other".toList }) := by
    decide +kernel
  intro i j caller caller' req req' hi hj hdigest
  cases i with
  | some =>
    cases hi
    cases j with
    | some =>
      cases hj
      rfl
    | none =>
      cases hj
      exact absurd hdigest.symm hother
  | none =>
    cases hi
    cases j with
    | some =>
      cases hj
      exact absurd hdigest hother
    | none =>
      cases hj
      rfl

theorem register_once_per_key_ada : ∃ u w us n x y,
    (Server.start sentThrice).run engine Read.renamed sentThriceEnv firstCommits = some u ∧
    u.run engine Read.renamed sentThriceEnv othersFollow = some w ∧ (some false, us) ∈ u.log ∧
    w.answer (some true) = some (.registered x) ∧ w.answer none = some (.registered y) ∧
    x = .ok (Register.responseOf (sentThriceEnv (some false) n).uuid (keyed 3) ⟨ada, []⟩) ∧
    (∃ e, e.code = .invalidArgument ∧ y = .error e) ∧
    ∀ row ∈ (w.committed engine Read.renamed).projectWrite, row.response ≠ [] := by
  have hrun : ((Server.start sentThrice).run engine Read.renamed sentThriceEnv firstCommits).bind
      (fun u => (u.run engine Read.renamed sentThriceEnv othersFollow).map fun w =>
        (u.log.map Prod.fst, (u.sess (some true)).tx.isSome, (u.sess none).count,
          w.answer (some true), w.answer none)) =
        some ([some false], true, 0, some (.registered (.ok (Register.responseOf (uuidOf 3)
          (keyed 3) ⟨ada, []⟩))), some (.registered (.error (.invalidArgument
            ["this idempotency key was already used for a different request — ",
              "a replay would discard what this one asked for"])))) := by decide +kernel
  obtain ⟨u, hu, hrest⟩ := Option.bind_eq_some_iff.1 hrun
  obtain ⟨w, hw, hfacts⟩ := Option.map_eq_some_iff.1 hrest
  obtain ⟨hlog, hfacts⟩ := Prod.mk.inj hfacts
  obtain ⟨hopen, hfacts⟩ := Prod.mk.inj hfacts
  obtain ⟨hcount, hfacts⟩ := Prod.mk.inj hfacts
  obtain ⟨hx, hy⟩ := Prod.mk.inj hfacts
  have hall : (Server.start sentThrice).run engine Read.renamed sentThriceEnv
      (firstCommits ++ othersFollow) = some w := (World.run_append hu).trans hw
  obtain ⟨_, _, hrepeated, hledger, _⟩ :=
    register_once_per_key sentThrice_fresh sentThrice_digests rfl hall
  have hmem : some false ∈ u.log.map Prod.fst := hlog ▸ List.mem_cons_self
  obtain ⟨⟨_, us⟩, hmem, rfl⟩ := List.mem_map.1 hmem
  have hsent : ∀ b, SentUnder sentThrice ⟨ada, []⟩ (List.replicate 3 'k') (some b)
      (some Register.registerCaller) (keyed 3) := fun _ => ⟨rfl, rfl, rfl⟩
  have hother : SentUnder sentThrice ⟨ada, []⟩ (List.replicate 3 'k') none
      (some Register.registerCaller) { keyed 3 with displayName := "other".toList } :=
    ⟨rfl, rfl, rfl⟩
  obtain ⟨n, _, _, hlater⟩ := hrepeated _ _ u rfl hu _ _ _ _ _ us (hsent false) hmem
  have hpasses : Register.Passes (some Register.registerCaller) (keyed 3) ⟨ada, []⟩
      ⟨ada, Visibility.private_.toI8⟩ := ⟨rfl, by decide +kernel⟩
  have hpasses' : Register.Passes (some Register.registerCaller)
      { keyed 3 with displayName := "other".toList } ⟨ada, []⟩ ⟨ada, Visibility.private_.toI8⟩ :=
    ⟨rfl, by decide +kernel⟩
  have hsame := (hlater _ _ _ _ (hsent true) (.inl hopen) hx).2.same _ (fun _ => rfl) hpasses rfl
    rfl
  have hdiffers := (hlater _ _ _ _ hother (.inr (hcount ▸ by decide)) hy).2.other _ (fun _ => rfl)
    hpasses' (.inr (by decide))
  refine ⟨u, w, us, n, _, _, hu, hw, hmem, hx, hy, hsame, hdiffers, fun row hrow => ?_⟩
  rcases hledger row hrow with hstart | ⟨hblank, _⟩
  · exact absurd hstart List.not_mem_nil
  · exact hblank

end

end ProjectDb
