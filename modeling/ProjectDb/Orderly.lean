import ProjectDb.Calm
import ProjectDb.Holding

namespace ProjectDb
open Text ProjectDb.Path Mvcc Pool
set_option autoImplicit true

section
variable [ServerCollation] [UuidCrate] [Idem.Sha256] [Message RegisterProjectRequest]
  [Message RegisterProjectResponse] {ι : Type} {own : Str → Prop} {calls : ι → Request}
  {env : ι → Nat → Tick} {s₀ : Store} {M : Server ι → Prop} {turns : List ι} {w v : Server ι}
  {envs : Nat → Tick}

/-- The statement that a call would send next, as its `n`th command, changes a row that a flush has
changed, by a commit that the call's read view misses. -/
def Overtaken (calls : ι → Request) (env : ι → Nat → Tick) (s₀ : Store)
    (w : Server ι) (i : ι) (n : Nat) : Prop :=
  ∃ o k view ws j us id, w.sess i = ⟨some (.ask (.stmt o) k), n, some ⟨some view, ws⟩⟩ ∧
    (calls j).isTouch = true ∧ (j, us) ∈ w.log.drop view ∧
    .project id ∈ us.flatMap Write.records ∧
    .project id ∈ (engine.exec (env i n) o
      (engine.patchAll ws (w.committed engine s₀))).2.flatMap Write.revised

/-- What may come of a sync that a flush overtook at one of these moments: the internal error of
it, or the failure of the `ROLLBACK` that followed. -/
def Lost (calls : ι → Request) (env : ι → Nat → Tick) (s₀ : Store) (M : Server ι → Prop) (i : ι)
    (a : Answer) : Prop :=
  ∃ u n, M u ∧ Overtaken calls env s₀ u i n ∧
    (a = .synced (.error (.internal ["storage error"])) ∨
      ∃ m f, n < m ∧ (env i m).fault = some f ∧ a = .synced (.error (internal (.fault f))))

omit [UuidCrate] [Idem.Sha256] [Message RegisterProjectRequest]
  [Message RegisterProjectResponse] in
theorem Lost.synced (h : Lost calls env s₀ M i a) : ∃ e, a = .synced (.error e) := by
  obtain ⟨_, _, _, _, rfl | ⟨_, _, _, _, rfl⟩⟩ := h
  · exact ⟨_, rfl⟩
  · exact ⟨_, rfl⟩

/-- What a call's committed write to a record says of the record and of the call. -/
def Trace (own : Str → Prop) (calls : ι → Request) (s : Store) (i : ι) : Record → Prop
  | .write key => s.HasKey key
  | .project id => (calls i).isRegister = true → ¬ own id
  | .grant .. => (calls i).isSync = true
  | _ => True

/-- Since its read view opened, a sync has held its lock, no other sync has committed, and what it
sees of the store is what it was. -/
structure Since (own : Str → Prop) (calls : ι → Request) (env : ι → Nat → Tick) (s₀ : Store)
    (turns : List ι) (w : Server ι) (i : ι) (view : Nat) : Prop where
  lock : (i, .syncLock) ∈ w.held
  le : view ≤ w.log.length
  apart : ∀ e ∈ w.log.drop view, (calls e.1).isSync = false
  alike : OrgAlike own (w.storeAt engine s₀ view).unseen (inTurn calls env s₀ turns).unseen

/-- What a call may write, where it is one that reads, or one that flushes. -/
def Request.Writes : Request → Write → Prop
  | .touch _, u => ∃ ids seconds, u = .updateLastSeen ids seconds
  | .register .., _ => True
  | .sync .., _ => True
  | _, _ => False

omit [UuidCrate] [Idem.Sha256] [Message RegisterProjectRequest] [Message RegisterProjectResponse] in
theorem Request.writes_of_asks {req : Request} {o : Op} (h : req.Asks (.stmt o)) (t : Tick)
    (s : Store) (hu : u ∈ (o.exec t s).2) : req.Writes u := by
  cases req with
  | register => trivial
  | sync => trivial
  | touch =>
    obtain ⟨q, x, rfl, hexec⟩ := Op.exec_ok Prod.mk.eta.symm hu
    generalize (Op.exec t (.sql q) s).2 = us at hu hexec
    cases q with
    | updateLastSeen seconds paths =>
      cases hexec
      exact ⟨_, _, List.mem_singleton.1 hu⟩
    | countMatching paths =>
      cases hexec
      exact absurd hu List.not_mem_nil
    | _ => exact h.elim
  | _ =>
    rw [writes_nonlocking t o s h] at hu
    exact absurd hu List.not_mem_nil

/-- What holds of the server at every moment. -/
structure Orderly (own : Str → Prop) (calls : ι → Request) (env : ι → Nat → Tick) (s₀ : Store)
    (M : Server ι → Prop) (turns : List ι) (w : Server ι) : Prop where
  serializes : Serializes engine s₀ env (fun i => (calls i).handler)
    (fun i => (calls i).writes = true) (Lost calls env s₀ M) turns w
  within : w.Within (fun i => (calls i).Asks) fun i => (calls i).Writes
  committed : (w.committed engine s₀).unseen = (inTurn calls env s₀ turns).unseen
  views : ∀ i, (calls i).isSync = true → ∀ view ws, (w.sess i).tx = some ⟨some view, ws⟩ →
    Since own calls env s₀ turns w i view
  traces : ∀ i ws, (i, ws) ∈ w.log → ∀ k ∈ ws.flatMap Write.records,
    Trace own calls (inTurn calls env s₀ turns) i k

namespace Orderly
variable {i j : ι} {ws : List Write} {sent : List (Sent Write Op.Reply)} {n : Nat} {o : Op}
  {k : o.Reply → Handler}

theorem parted (h : Orderly own calls env s₀ M turns w) (ha : Assigned own calls env s₀) :
    Parted own (inTurn calls env s₀ turns) ∧ ∀ r ∈ (inTurn calls env s₀ turns).orgRows, own r.id :=
  ha.turns h.serializes.followed

theorem storeAt_aliases (h : Orderly own calls env s₀ M turns w) (n : Nat) :
    (w.storeAt engine s₀ n).projectAlias = (inTurn calls env s₀ turns).projectAlias := by
  have hsame := congrArg Store.projectAlias h.committed
  change (w.committed engine s₀).projectAlias = (inTurn calls env s₀ turns).projectAlias at hsame
  rw [← hsame]
  exact (patchAll_projectAlias _ _).trans (patchAll_projectAlias _ _).symm

theorem blind (h : Orderly own calls env s₀ M turns w) (ha : Assigned own calls env s₀)
    (hw : (calls i).writes = true)
    (hopen : Open engine (env i) (calls i).handler (inTurn calls env s₀ turns) w.held i sent ws
      (.ask (.stmt o) k) n) : ∀ q, o = .sql q → q.blind = true := by
  rintro q rfl
  rcases Request.writes_cases hw with hregister | hsync
  · have hkind := hopen.next (Request.handler_personal hregister _)
    cases q with
    | insertWrite => rfl
    | selectWriteForUpdate => rfl
    | selectAliasOwner => rfl
    | insertProject => rfl
    | updateWrite => rfl
    | _ => exact hkind.elim
  · have hkind := hopen.next (Request.handler_onOrg hsync (ha.syncs i hsync) (h.parted ha).2)
    exact Stmt.OnOrg.blind hkind

/-- A locking statement sees of the committed store what it would see in turn. -/
theorem meets (h : Orderly own calls env s₀ M turns w) (ha : Assigned own calls env s₀)
    (hw : (calls i).writes = true)
    (hopen : Open engine (env i) (calls i).handler (inTurn calls env s₀ turns) w.held i sent ws
      (.ask (.stmt o) k) n) :
    engine.exec (env i n) o (engine.patchAll ws (w.committed engine s₀)) =
      engine.exec (env i n) o (engine.patchAll ws (inTurn calls env s₀ turns)) :=
  op_exec_unseen (h.blind ha hw hopen) _ (patchAll_unseen ws h.committed)

/-- A plain read sees of its view what it would see in turn. -/
theorem sees (h : Orderly own calls env s₀ M turns w) (ha : Assigned own calls env s₀)
    (hw : (calls i).writes = true)
    (hsess : w.sess i = ⟨some (.ask (.stmt o) k), n, some ⟨view, ws⟩⟩)
    (hopen : Open engine (env i) (calls i).handler (inTurn calls env s₀ turns) w.held i sent ws
      (.ask (.stmt o) k) n) (ho : engine.nonlocking o = true) :
    engine.exec (env i n) o
        (engine.patchAll ws (w.storeAt engine s₀ (view.getD w.log.length))) =
      engine.exec (env i n) o (engine.patchAll ws (inTurn calls env s₀ turns)) := by
  cases view with
  | none =>
    rw [Option.getD_none, World.storeAt_length]
    exact h.meets ha hw hopen
  | some view =>
    cases o with
    | nowV7 => rfl
    | sql q =>
      rcases Request.writes_cases hw with hregister | hsync
      · have hkind := hopen.next (Request.handler_personal hregister _)
        cases q with
        | selectAliasOwner path =>
          have haliases : (engine.patchAll ws (w.storeAt engine s₀ view)).projectAlias =
              (engine.patchAll ws (inTurn calls env s₀ turns)).projectAlias := by
            rw [patchAll_projectAlias, patchAll_projectAlias, h.storeAt_aliases]
          have hexec : ∀ {a b : Store}, a.projectAlias = b.projectAlias →
              Op.exec (env i n) (.sql (.selectAliasOwner path)) a =
                Op.exec (env i n) (.sql (.selectAliasOwner path)) b := by
            intro a b hab
            simp only [Op.exec, Stmt.exec, hab]
          exact hexec haliases
        | insertWrite => cases ho
        | selectWriteForUpdate => cases ho
        | insertProject => cases ho
        | updateWrite => cases ho
        | _ => exact hkind.elim
      · have hown := (h.parted ha).2
        have hkind := hopen.next (Request.handler_onOrg hsync (ha.syncs i hsync) hown)
        have hview := h.views i hsync view ws (by rw [hsess])
        have halike := (Sync.fits_alike hsync (ha.syncs i hsync) hown hopen hview.alike.symm).2
        have honorg : ∀ q', Op.sql q = .sql q' → q'.OnOrg own := fun q' hq' => by
          cases hq'
          exact hkind
        exact (OrgAlike.exec honorg halike Prod.mk.eta.symm).1.trans Prod.mk.eta

/-- A call whose committed writes are neither a registration's nor a sync's is a flush. -/
theorem touched (h : Orderly own calls env s₀ M turns w) (hlog : (j, us) ∈ w.log) (hu : u ∈ us)
    (hregister : (calls j).isRegister = false) (hsync : (calls j).isSync = false) :
    (calls j).isTouch = true := by
  have hwithin := h.within.log j us hlog u hu
  cases hcall : calls j with
  | touch => rfl
  | register =>
    rw [hcall] at hregister
    cases hregister
  | sync =>
    rw [hcall] at hsync
    cases hsync
  | _ =>
    rw [hcall] at hwithin
    exact hwithin.elim

/-- A statement that finds its records changed is a sync's, and a flush changed them. -/
theorem stale (h : Orderly own calls env s₀ M turns w) (ha : Assigned own calls env s₀) (hM : M w)
    (hw : (calls i).writes = true)
    (hsess : w.sess i = ⟨some (.ask (.stmt o) k), n, some ⟨view, ws⟩⟩)
    (hopen : Open engine (env i) (calls i).handler (inTurn calls env s₀ turns) w.held i sent ws
      (.ask (.stmt o) k) n)
    (hout : w.outdated engine view ((engine.exec (env i n) o
      (engine.patchAll ws (inTurn calls env s₀ turns))).2.flatMap engine.revises) = true) :
    Ends engine (env i) (Lost calls env s₀ M i) (k (engine.stale o)) (n + 1) := by
  obtain ⟨at_, rfl, ⟨j, us⟩, he, key, hkey, hkeys⟩ := World.outdated_cases hout
  obtain ⟨u, hu, hrevised⟩ := List.mem_flatMap.1 hkeys
  obtain ⟨q, x, rfl, hexec⟩ := Op.exec_ok Prod.mk.eta.symm hu
  have hlog := List.mem_of_mem_drop he
  have htrace := h.traces j us hlog key hkey
  rcases Request.writes_cases hw with hregister | hsync
  · have hkind := hopen.next (Request.handler_personal hregister _)
    obtain ⟨κ, rfl, hfree⟩ := Register.revises hkind hexec hu hrevised
    exact absurd htrace hfree
  · have hown := (h.parted ha).2
    have hkind := hopen.next (Request.handler_onOrg hsync (ha.syncs i hsync) hown)
    have hapart := (h.views i hsync at_ ws (by rw [hsess])).apart _ he
    obtain ⟨id, rfl, hid⟩ : ∃ id, key = .project id ∧ own id := by
      rcases Sync.revises hkind hexec hu hrevised with hproject | ⟨_, _, rfl⟩
      · exact hproject
      · have hgrant : (calls j).isSync = true := htrace
        cases hgrant.symm.trans hapart
    have htouch : (calls j).isTouch = true := by
      obtain ⟨u', hu', _⟩ := List.mem_flatMap.1 hkey
      exact h.touched hlog hu' (Bool.eq_false_iff.2 fun hregister => htrace hregister hid) hapart
    have hovertaken : Overtaken calls env s₀ w i n := by
      refine ⟨.sql q, k, at_, ws, j, us, id, hsess, htouch, he, hkey, ?_⟩
      rw [h.meets ha hw hopen]
      exact hkeys
    have hcomes := hopen.tx.comes _ hopen.fits
    refine hcomes.ends (r := engine.stale (.sql q)) (F := fun e => e = .checkRead ∨
      ∃ m f, n < m ∧ (env i m).fault = some f ∧ e = .fault f)
      (Request.handler_breaks hsync) ?_ ?_ rfl (.inl rfl)
    · intro m e hm he
      obtain ⟨f, hf, rfl⟩ := Option.map_eq_some_iff.1 he
      exact .inr ⟨m, f, hm, hf, rfl⟩
    · intro e a he hanswer
      refine ⟨w, n, hM, hovertaken, ?_⟩
      rw [hanswer e rfl]
      rcases he with rfl | ⟨m, f, hm, hf, rfl⟩
      · exact .inl rfl
      · exact .inr ⟨m, f, hm, hf, rfl⟩

theorem committing (hsync : (calls i).isSync = true) {k : Except SqlError Unit → Handler}
    (hopen : Open engine (env i) (calls i).handler (inTurn calls env s₀ turns) w.held i sent ws
      (.ask .commit k) n) : (i, .syncLock) ∈ w.held := by
  obtain ⟨hfirst, hbeyond⟩ := hopen.next (Request.handler_lockFirst hsync _)
  rcases Nat.eq_or_lt_of_le hopen.tx.late with hn | hn
  · cases hfirst hn.symm
  · exact Sync.locked hsync hopen hn (hbeyond hn (.inr rfl))

/-- A commit changes nothing that another call's answers rest on. -/
theorem stable (h : Orderly own calls env s₀ M turns w) (ha : Assigned own calls env s₀)
    (hw : (calls i).writes = true) {c : Except SqlError Unit → Handler}
    (hopen : Open engine (env i) (calls i).handler (inTurn calls env s₀ turns) w.held i sent ws
      (.ask .commit c) n)
    (hafter : inTurn calls env s₀ (turns ++ [i]) =
      engine.patchAll ws (inTurn calls env s₀ turns))
    (hw' : (calls j).writes = true) (hne : j ≠ i)
    (hopen' : Open engine (env j) (calls j).handler (inTurn calls env s₀ turns) w.held j sent' ws'
      rest m) :
    ∀ e ∈ sent', e.Fits engine (env j) (engine.patchAll ws (inTurn calls env s₀ turns)) := by
  have hexclusive := h.serializes.exclusive
  rcases Request.writes_cases hw' with hregister | hsync
  · exact Register.fits_beside hregister hopen' (K := fun k => (i, k) ∈ w.held)
      (fun k hj hi => hne (hexclusive j i k hj hi)) hopen.holds_own
  · have hown := (h.parted ha).2
    rcases Request.writes_cases hw with hregister' | hsync'
    · have halike := ha.unmoved h.serializes.followed hregister'
      rw [hafter] at halike
      exact (Sync.fits_alike hsync (ha.syncs j hsync) hown hopen' halike.unseen).1
    · intro e he
      rcases Sync.beyond hsync hopen' he with hlock | hfault
      · have hfits := hopen'.fits e he
        obtain ⟨l, o, before, r, us⟩ := e
        have hlock : o = .sql .selectSyncLockForUpdate := hlock
        subst hlock
        exact hfits
      · have hm : 3 ≤ m := by
          obtain ⟨htwo, hlt⟩ := hopen'.tx.counted e he
          omega
        have hheld := Sync.locked hsync hopen' hm hfault
        exact absurd (hexclusive j i _ hheld (committing hsync' hopen)) hne

theorem calm (h : Orderly own calls env s₀ M turns w) (ha : Assigned own calls env s₀) (hM : M w) :
    Calm engine s₀ env (fun i => (calls i).handler) (fun i => (calls i).writes = true)
      (Lost calls env s₀ M) turns w where
  sees _ _ _ _ _ _ _ hw _ hsess hopen ho := h.sees ha hw hsess hopen ho
  meets _ _ _ _ _ _ _ hw _ _ hopen _ := h.meets ha hw hopen
  stale _ _ _ _ _ _ _ hw _ hsess hopen _ hout := h.stale ha hM hw hsess hopen hout
  stable _ _ _ _ _ _ _ _ _ _ _ _ hw _ _ hopen hafter hw' _ hne _ hopen' :=
    h.stable ha hw hopen hafter hw' hne hopen'

omit [UuidCrate] [Idem.Sha256] [Message RegisterProjectRequest] [Message RegisterProjectResponse] in
/-- Only a flush among the calls that do not write commits anything, and that is not seen. -/
theorem unseen_apart (h : w.Within (fun i => (calls i).Asks) fun i => (calls i).Writes)
    (hw : ¬ (calls i).writes = true) (hlog : (i, us) ∈ w.log) (s : Store) :
    (engine.patchAll us s).unseen = s.unseen ∧
      ∀ k ∈ us.flatMap Write.records, ∃ id, k = .project id := by
  have hseen : ∀ u ∈ us, ∃ ids seconds, u = Write.updateLastSeen ids seconds := by
    intro u hu
    have hwrites := h.log i us hlog u hu
    cases hcall : calls i with
    | touch =>
      rw [hcall] at hwrites
      exact hwrites
    | register => exact absurd (by rw [hcall]; rfl) hw
    | sync => exact absurd (by rw [hcall]; rfl) hw
    | _ =>
      rw [hcall] at hwrites
      exact hwrites.elim
  constructor
  · clear hlog
    induction us generalizing s with
    | nil => rfl
    | cons u us ih =>
      obtain ⟨ids, seconds, rfl⟩ := hseen u List.mem_cons_self
      have hrest := ih ((Write.updateLastSeen ids seconds).patch s)
        fun u hu => hseen u (List.mem_cons_of_mem _ hu)
      exact hrest.trans (patch_lastSeen ids seconds s)
  · intro k hk
    obtain ⟨u, hu, hk⟩ := List.mem_flatMap.1 hk
    obtain ⟨ids, seconds, rfl⟩ := hseen u hu
    obtain ⟨id, _, rfl⟩ := List.mem_map.1 hk
    exact ⟨id, rfl⟩

theorem traced (h : Orderly own calls env s₀ M turns w) (ha : Assigned own calls env s₀)
    (hw : (calls i).writes = true)
    (hopen : Open engine (env i) (calls i).handler (inTurn calls env s₀ turns) w.held i sent ws
      rest n) : ∀ k ∈ ws.flatMap Write.records,
        Trace own calls (engine.patchAll ws (inTurn calls env s₀ turns)) i k := by
  intro k hk
  obtain ⟨u, hu, hk⟩ := List.mem_flatMap.1 hk
  rcases Request.writes_cases hw with hregister | hsync
  · rcases Register.traces hregister (ha.registers i hregister) hopen hu k hk with
      ⟨key, rfl, hkey⟩ | ⟨id, rfl, hid⟩ | ⟨path, rfl⟩
    · exact hkey
    · exact fun _ => hid
    · trivial
  · have hledger := Sync.traces hsync (ha.syncs i hsync) (h.parted ha).2 hopen hu
    cases k with
    | write key => exact absurd hk (hledger key)
    | project id =>
      intro hregister
      rw [Request.register_of_sync hsync] at hregister
      cases hregister
    | grant => exact hsync
    | _ => trivial

end Orderly

omit [UuidCrate] [Idem.Sha256] [Message RegisterProjectRequest] [Message RegisterProjectResponse] in
theorem Trace.mono {s' : Store} (h : Trace own calls s i k)
    (hkeys : ∀ key, s.HasKey key → s'.HasKey key) : Trace own calls s' i k := by
  cases k with
  | write key => exact hkeys key h
  | _ => exact h

namespace Orderly
variable {late : List ι}

theorem step_committed (h : Orderly own calls env s₀ M turns w)
    (hwithin : v.Within (fun i => (calls i).Asks) fun i => (calls i).Writes)
    (hmoves : Moves engine s₀ env (fun i => (calls i).handler) (fun i => (calls i).writes = true)
      turns w v late) :
    (v.committed engine s₀).unseen = (inTurn calls env s₀ (turns ++ late)).unseen := by
  cases hmoves with
  | still hlog hafter _ =>
    have hturns : inTurn calls env s₀ (turns ++ late) = inTurn calls env s₀ turns := hafter
    rw [World.committed_congr hlog, h.committed, hturns]
  | @apart i us hw hlog =>
    have hmem : (i, us) ∈ v.log := hlog ▸ List.mem_append_right _ (List.mem_singleton.2 rfl)
    rw [World.committed_snoc hlog, (unseen_apart hwithin hw hmem _).1, h.committed, List.append_nil]
  | commit _ _ _ _ hlog hafter =>
    have hturns : inTurn calls env s₀ (turns ++ [_]) = engine.patchAll _ _ := hafter
    rw [World.committed_snoc hlog, hturns]
    exact patchAll_unseen _ h.committed

theorem step_traces (h : Orderly own calls env s₀ M turns w) (ha : Assigned own calls env s₀)
    (hwithin : v.Within (fun i => (calls i).Asks) fun i => (calls i).Writes)
    (hmoves : Moves engine s₀ env (fun i => (calls i).handler) (fun i => (calls i).writes = true)
      turns w v late) : ∀ i us, (i, us) ∈ v.log → ∀ k ∈ us.flatMap Write.records,
        Trace own calls (inTurn calls env s₀ (turns ++ late)) i k := by
  intro j us hmem k hk
  cases hmoves with
  | still hlog hafter _ =>
    rw [hlog] at hmem
    rw [inTurn, hafter]
    exact h.traces j us hmem k hk
  | apart hw hlog =>
    rw [List.append_nil]
    have hall := hmem
    rw [hlog] at hmem
    rcases List.mem_append.1 hmem with hmem | hmem
    · exact h.traces j us hmem k hk
    · cases List.mem_singleton.1 hmem
      obtain ⟨id, rfl⟩ := (unseen_apart hwithin hw hall Store.empty).2 k hk
      exact fun hregister => absurd (Request.writes_of_register hregister) hw
  | commit hw hi hsess hopen hlog hafter =>
    rw [inTurn, hafter]
    rw [hlog] at hmem
    rcases List.mem_append.1 hmem with hmem | hmem
    · exact (h.traces j us hmem k hk).mono fun key hkey => hkey.patchAll _
    · cases List.mem_singleton.1 hmem
      exact h.traced ha hw hopen k hk

/-- While a sync has its view, what others commit leaves it what it sees. -/
theorem step_since (h : Orderly own calls env s₀ M turns w) (ha : Assigned own calls env s₀)
    (hmoves : Moves engine s₀ env (fun i => (calls i).handler) (fun i => (calls i).writes = true)
      turns w v late)
    (hother : ∀ us, v.log ≠ w.log ++ [(i, us)]) (hlock : (i, .syncLock) ∈ v.held)
    (hsince : Since own calls env s₀ turns w i view) :
    Since own calls env s₀ (turns ++ late) v i view := by
  have hprefix : w.log <+: v.log := by
    cases hmoves with
    | still hlog _ _ => exact hlog ▸ List.prefix_refl _
    | apart _ hlog => exact hlog ▸ List.prefix_append _ _
    | commit _ _ _ _ hlog _ => exact hlog ▸ List.prefix_append _ _
  have hstore : v.storeAt engine s₀ view = w.storeAt engine s₀ view :=
    World.storeAt_of_prefix hprefix hsince.le
  have hapart : ∀ {j us}, v.log = w.log ++ [(j, us)] → (calls j).isSync = false →
      ∀ e ∈ v.log.drop view, (calls e.1).isSync = false := by
    intro j us hlog hj e he
    rw [hlog, List.drop_append_of_le_length hsince.le] at he
    rcases List.mem_append.1 he with he | he
    · exact hsince.apart e he
    · rw [List.mem_singleton.1 he]
      exact hj
  refine ⟨hlock, Nat.le_trans hsince.le hprefix.length_le, ?_, ?_⟩
  · cases hmoves with
    | still hlog _ _ =>
      rw [hlog]
      exact hsince.apart
    | @apart j us hw hlog =>
      exact hapart hlog (Bool.eq_false_iff.2 fun hj => hw (Request.writes_of_sync hj))
    | @commit j _ _ _ _ _ hw hi hsess hopen hlog hafter =>
      apply hapart hlog
      apply Bool.eq_false_iff.2
      intro hj
      have hsame := h.serializes.exclusive i j _ hsince.lock (committing hj hopen)
      subst hsame
      exact hother _ hlog
  · rw [hstore]
    cases hmoves with
    | still hlog hafter _ =>
      have hturns : inTurn calls env s₀ (turns ++ late) = inTurn calls env s₀ turns := hafter
      rw [hturns]
      exact hsince.alike
    | apart _ _ =>
      rw [List.append_nil]
      exact hsince.alike
    | @commit j _ _ _ _ _ hw hi hsess hopen hlog hafter =>
      rcases Request.writes_cases hw with hregister | hj
      · exact hsince.alike.trans (ha.unmoved h.serializes.followed hregister).unseen
      · have hsame := h.serializes.exclusive i j _ hsince.lock (committing hj hopen)
        subst hsame
        exact absurd hlog (hother _)

/-- A sync opens its view on its lock. -/
theorem opened (h : Orderly own calls env s₀ M turns w) (ha : Assigned own calls env s₀)
    (hsync : (calls i).isSync = true)
    (hsess : w.sess i = ⟨some (.ask (.stmt o) k), n, some ⟨none, ws⟩⟩)
    (ho : engine.nonlocking o = true) : Since own calls env s₀ turns w i w.log.length := by
  have hw := Request.writes_of_sync hsync
  have hi : i ∉ turns := by
    intro hi
    obtain ⟨l, r, rfl⟩ := List.append_of_mem hi
    have hnone := (h.serializes.ended l i r rfl).1
    rw [hsess] at hnone
    cases hnone
  have hlive := h.serializes.live i hw hi
  rw [hsess] at hlive
  refine ⟨?_, Nat.le_refl _, ?_, ?_⟩
  · cases hlive with
    | @inTx sent _ _ _ _ hopen =>
      obtain ⟨hfirst, hbeyond⟩ := hopen.next (Request.handler_lockFirst hsync _)
      rcases Nat.eq_or_lt_of_le hopen.tx.late with hn | hn
      · cases hfirst hn.symm
        cases ho
      · exact Sync.locked hsync hopen hn (hbeyond hn (.inl ⟨_, rfl⟩))
    | lost hends => exact hends.elim
  · rw [List.drop_length]
    exact fun _ he => absurd he List.not_mem_nil
  · rw [World.storeAt_length, h.committed]
    have hparted := (h.parted ha).1.unseen
    exact ⟨rfl, rfl, rfl, hparted, hparted⟩

variable [DecidableEq ι] {a : Act ι}

/-- One step of the server: what holds at every moment holds after it. -/
theorem step (h : Orderly own calls env s₀ M turns w) (ha : Assigned own calls env s₀) (hM : M w)
    (hstep : w.step engine s₀ env a = some v) :
    ∃ late, Orderly own calls env s₀ M (turns ++ late) v ∧
      Moves engine s₀ env (fun i => (calls i).handler) (fun i => (calls i).writes = true) turns w v
        late := by
  obtain ⟨late, hserializes, hmoves⟩ := h.serializes.step (h.calm ha hM)
    (fun i hw s => Request.handler_once hw s) (fun t q s hq => writes_nonlocking t q s hq) hstep
  have hwithin : v.Within (fun i => (calls i).Asks) fun i => (calls i).Writes := by
    apply h.within.step _ hstep
    exact fun i t q s hq u hu => Request.writes_of_asks hq t s hu
  refine ⟨late, ⟨hserializes, hwithin, h.step_committed hwithin hmoves, ?_,
    h.step_traces ha hwithin hmoves⟩, hmoves⟩
  intro i hsync view ws hv
  obtain ⟨hheld, hother, hview⟩ := World.step_view hstep hv
  have hsince : Since own calls env s₀ turns w i view := by
    rcases hview with ⟨own', htx⟩ | ⟨_, rfl, q, k, own', hsess, hq⟩
    · exact h.views i hsync view own' htx
    · exact h.opened ha hsync hsess hq
  exact h.step_since ha hmoves hother (hheld _ hsince.lock) hsince

/-- A whole run: at each of its moments the turns so far are the first of them, and a call that
takes its turn later has yet to be served. -/
theorem run {acts : List (Act ι)} (h : Orderly own calls env s₀ M turns w)
    (ha : Assigned own calls env s₀) (hM : ∀ u, w.Moment engine s₀ env acts u → M u)
    (hrun : w.run engine s₀ env acts = some v) :
    ∃ late, Orderly own calls env s₀ M (turns ++ late) v ∧ (∀ i ∈ late, w.Waiting i) ∧
      ∀ before rest u, acts = before ++ rest → w.run engine s₀ env before = some u →
        ∃ early late', late = early ++ late' ∧ Orderly own calls env s₀ M (turns ++ early) u ∧
          ∀ i ∈ late', u.Waiting i := by
  induction acts generalizing w turns with
  | nil =>
    cases hrun
    rw [← List.append_nil turns] at h
    refine ⟨[], h, fun _ hi => absurd hi List.not_mem_nil, fun before rest u hacts hu => ?_⟩
    obtain ⟨rfl, rfl⟩ := List.append_eq_nil_iff.1 hacts.symm
    cases hu
    exact ⟨[], [], rfl, h, fun _ hi => absurd hi List.not_mem_nil⟩
  | cons a acts ih =>
    obtain ⟨x, hstep, hrest⟩ := Option.bind_eq_some_iff.1 hrun
    obtain ⟨first, hfirst, hmoves⟩ := h.step ha (hM w ⟨[], a :: acts, rfl, rfl⟩) hstep
    obtain ⟨late, hlate, hlater, hall⟩ := ih hfirst (fun u hu => hM u (hu.cons hstep)) hrest
    rw [List.append_assoc] at hlate
    have hwaits : ∀ i ∈ first ++ late, w.Waiting i := by
      intro i hi
      rcases List.mem_append.1 hi with hi | hi
      · exact hmoves.waiting i hi
      · exact World.step_waiting hstep (hlater i hi)
    refine ⟨first ++ late, hlate, hwaits, fun before rest u hacts hu => ?_⟩
    cases before with
    | nil =>
      cases hu
      rw [← List.append_nil turns] at h
      exact ⟨[], first ++ late, rfl, h, hwaits⟩
    | cons b before =>
      obtain ⟨rfl, htail⟩ := List.cons.inj hacts
      obtain ⟨y, hy, hu⟩ := Option.bind_eq_some_iff.1 hu
      rw [hstep] at hy
      cases hy
      obtain ⟨early, late', rfl, hearly, hwaiting'⟩ := hall before rest u htail hu
      rw [List.append_assoc] at hearly
      exact ⟨first ++ early, late', (List.append_assoc ..).symm, hearly, hwaiting'⟩

/-- What every step keeps, a whole run keeps. -/
theorem induct {P : List ι → Server ι → Prop} (ha : Assigned own calls env s₀)
    (hP : ∀ {turns late w v a}, Orderly own calls env s₀ M turns w →
      Orderly own calls env s₀ M (turns ++ late) v →
      Moves engine s₀ env (fun i => (calls i).handler) (fun i => (calls i).writes = true) turns w v
        late → w.step engine s₀ env a = some v → P turns w → P (turns ++ late) v)
    {acts : List (Act ι)} (h : Orderly own calls env s₀ M turns w) (hp : P turns w)
    (hM : ∀ u, w.Moment engine s₀ env acts u → M u) (hrun : w.run engine s₀ env acts = some v) :
    ∃ late, Orderly own calls env s₀ M (turns ++ late) v ∧ P (turns ++ late) v := by
  induction acts generalizing w turns with
  | nil =>
    cases hrun
    refine ⟨[], ?_⟩
    rw [List.append_nil]
    exact ⟨h, hp⟩
  | cons a acts ih =>
    obtain ⟨x, hstep, hrest⟩ := Option.bind_eq_some_iff.1 hrun
    obtain ⟨first, hfirst, hmoves⟩ := h.step ha (hM w ⟨[], a :: acts, rfl, rfl⟩) hstep
    obtain ⟨late, hlate⟩ :=
      ih hfirst (hP h hfirst hmoves hstep hp) (fun u hu => hM u (hu.cons hstep)) hrest
    rw [List.append_assoc] at hlate
    exact ⟨first ++ late, hlate⟩

omit [DecidableEq ι] in
theorem start : Orderly own calls env s₀ M [] (Server.start calls) where
  serializes := .start rfl rfl fun _ => rfl
  within := by
    refine ⟨fun i p hp => ?_, fun i x hx => ?_, fun i us hi => absurd hi List.not_mem_nil⟩
    · cases hp
      exact (calls i).handler_asks
    · cases hx
  committed := rfl
  views i _ view ws hv := by cases hv
  traces i us hi := absurd hi List.not_mem_nil

omit [DecidableEq ι] in
theorem untaken (h : Orderly own calls env s₀ M turns w) (hcount : (w.sess i).count = 0)
    (hrest : (w.sess i).rest.isSome = true) : i ∉ turns := by
  intro hi
  obtain ⟨l, r, rfl⟩ := List.append_of_mem hi
  obtain ⟨p, hp⟩ := Option.isSome_iff_exists.1 hrest
  have hlate := ((h.serializes.ended l i r rfl).2 p hp).1
  omega

end Orderly

end

end ProjectDb
