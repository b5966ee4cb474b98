import ProjectDb.Writers

namespace ProjectDb
open Text ProjectDb.Path Mvcc
set_option autoImplicit true

theorem Store.unseen_unseen (s : Store) : s.unseen.unseen = s.unseen :=
  congrArg (fun rows => ({ s with project := rows } : Store)) (map_unseen (fun _ => rfl) s.project)

theorem Stmt.OnOrg.blind {own : Str → Prop} {q : Stmt} (h : q.OnOrg own) : q.blind = true := by
  cases q with
  | updateLastSeen => cases h
  | selectProject => cases h
  | selectPage => cases h
  | _ => rfl

section
variable [ServerCollation] {own : Str → Prop} {s s' : Store}

theorem Store.Schema.unseen (h : s.Schema) : s.unseen.Schema where
  id_key := by
    have hids := map_unseen (g := ProjectRow.id) (fun _ => rfl) s.project
    exact hids.symm ▸ h.id_key
  path_key := by
    have hpaths := map_unseen (g := fun r => toAsciiLowercase r.path) (fun _ => rfl) s.project
    exact hpaths.symm ▸ h.path_key
  row_fits r hr := by
    obtain ⟨r₀, hr₀, rfl⟩ := List.mem_map.1 hr
    exact h.row_fits r₀ hr₀
  alias_key := h.alias_key
  write_key := h.write_key
  grant_key := h.grant_key
  grant_fits := h.grant_fits
  grant_project g hg := by
    obtain ⟨r, hr, hid⟩ := h.grant_project g hg
    exact ⟨r.unseen, List.mem_map_of_mem hr, hid⟩

theorem Parted.unseen (h : Parted own s) : Parted own s.unseen where
  schema := h.schema.unseen
  personal r hr := by
    obtain ⟨r₀, hr₀, rfl⟩ := List.mem_map.1 hr
    exact h.personal r₀ hr₀

namespace OrgAlike

theorem unseen (h : OrgAlike own s s') : OrgAlike own s.unseen s'.unseen where
  rows := by rw [orgRows_unseen, orgRows_unseen, h.rows]
  aliases := h.aliases
  grants := h.grants
  left := h.left.unseen
  right := h.right.unseen

theorem symm (h : OrgAlike own s s') : OrgAlike own s' s :=
  ⟨h.rows.symm, h.aliases.symm, h.grants.symm, h.right, h.left⟩

theorem trans (h : OrgAlike own s s') (h' : OrgAlike own s' s'') : OrgAlike own s s'' :=
  ⟨h.rows.trans h'.rows, h.aliases.trans h'.aliases, h.grants.trans h'.grants, h.left, h'.right⟩

/-- On two stores that a sync sees as one, but for what was last seen, each of its operations is
answered alike and leaves two such stores. -/
theorem exec {o : Op} {r : o.Reply} (ho : ∀ q, o = .sql q → q.OnOrg own)
    (h : OrgAlike own s.unseen s'.unseen) (hexec : o.exec t s = (r, ws)) :
    o.exec t s' = (r, ws) ∧
      OrgAlike own (engine.patchAll ws s).unseen (engine.patchAll ws s').unseen := by
  have hblind : ∀ q, o = .sql q → q.blind = true := fun q hq => (ho q hq).blind
  have hpatched : OrgAlike own (engine.patchAll ws s.unseen) (engine.patchAll ws s'.unseen) →
      OrgAlike own (engine.patchAll ws s).unseen (engine.patchAll ws s').unseen := by
    intro h
    have h := h.unseen
    rw [patchAll_unseen ws s.unseen_unseen, patchAll_unseen ws s'.unseen_unseen] at h
    exact h
  rw [op_exec_unseen hblind t s.unseen_unseen.symm] at hexec
  rw [op_exec_unseen hblind t s'.unseen_unseen.symm]
  cases o with
  | nowV7 =>
    cases hexec
    exact ⟨rfl, h⟩
  | sql q =>
    obtain ⟨hsame, hwrites⟩ := onOrg_respects (ho q rfl) t s.unseen s'.unseen h
    simp only [Op.exec] at hexec ⊢
    rw [hsame]
    refine ⟨hexec, ?_⟩
    cases hf : t.fault with
    | some f =>
      rw [hf] at hexec
      cases hexec
      exact h
    | none =>
      rw [hf] at hexec
      cases hq : q.exec t s.unseen with
      | ok p =>
        rw [hq] at hexec
        cases hexec
        exact hpatched (hwrites _ _ hq)
      | error e =>
        rw [hq] at hexec
        cases hexec
        exact h

end OrgAlike

theorem Sync.serve_parted (caller : Option Str) (req : SyncProjectsRequest) (env : Nat → Tick)
    (h : Parted own s) : Parted own ((syncAs caller req).serve env s).2 where
  schema := Rpc.serve_schema _ h.schema
  personal r hr ho := by
    have hs' : ((syncAs caller req).serve env s).2.Schema := Rpc.serve_schema _ h.schema
    have hprivate : isPrivateClass r.path = true := by
      cases hp : isPrivateClass r.path with
      | true => rfl
      | false =>
        rw [(hs'.isOrg_iff hr).2 hp] at ho
        cases ho
    exact h.personal r (((serve_personally caller req env h.schema).rows r hprivate).2 hr) ho

variable [UuidCrate] [Idem.Sha256] [Message RegisterProjectRequest]
  [Message RegisterProjectResponse]

/-- A registration leaves alone what a sync sees. -/
theorem Register.serve_orgAlike (caller : Option Str) (req : RegisterProjectRequest)
    {env : Nat → Tick} (hminted : ∀ n, ¬ own (projectIdPrefix ++ (env n).uuid))
    (h : Parted own s) : OrgAlike own s ((registerAs caller req).serve env s).2 := by
  have hs' : ((registerAs caller req).serve env s).2.Schema := Rpc.serve_schema _ h.schema
  have hconfines : Region.personal.Confines env s ((registerAs caller req).serve env s).2 :=
    Region.registerAs_confines caller (fun _ _ hc => ⟨(checked_ok hc).2.2.2.1, trivial⟩) env s
  refine ⟨(orgRows_of_confines hs' hconfines).symm, hconfines.aliases.symm, hconfines.grants.symm,
    h, hs', fun r hr ho => ?_⟩
  rcases hconfines.rows.mem_right hr with ⟨r₀, hr₀, rfl⟩ | ⟨_, n, hid⟩
  · exact h.personal r₀ hr₀ ho
  · rw [hid]
    exact hminted n

variable {ι : Type} {calls : ι → Request} {s₀ : Store} {env : ι → Nat → Tick}

/-- The store after some of the calls, each served alone in its turn. -/
abbrev inTurn (calls : ι → Request) (env : ι → Nat → Tick) (s₀ : Store) (turns : List ι) : Store :=
  engine.after env (fun i => (calls i).handler) s₀ turns

theorem inTurn_snoc (calls : ι → Request) (env : ι → Nat → Tick) (s₀ : Store) (turns : List ι)
    (i : ι) : inTurn calls env s₀ (turns ++ [i]) = ((calls i).handler.run (engine.serve (env i))
      ⟨inTurn calls env s₀ turns, none, 0⟩).2.store :=
  engine.after_snoc turns i

/-- Which ids are the organisation's: those of its rows and those that syncs mint, and neither
those of private rows nor those that registrations mint. -/
structure Assigned (own : Str → Prop) (calls : ι → Request) (env : ι → Nat → Tick)
    (s₀ : Store) : Prop where
  parted : Parted own s₀
  rows : ∀ r ∈ s₀.orgRows, own r.id
  syncs : ∀ i, (calls i).isSync = true → ∀ n, own (Sync.projectIdPrefix ++ (env i n).uuid)
  registers : ∀ i, (calls i).isRegister = true →
    ∀ n, ¬ own (Register.projectIdPrefix ++ (env i n).uuid)

omit [UuidCrate] [Idem.Sha256] [Message RegisterProjectRequest]
  [Message RegisterProjectResponse] in
theorem handler_store (x : Rpc α) (f : Except Status α → Answer) (envs : Nat → Tick) (s : Store) :
    ((x.answering f).run (engine.serve envs) ⟨s, none, 0⟩).2.store = (x.serve envs s).2 := by
  rw [Rpc.answering, Prog.run_bind]
  rfl

omit [UuidCrate] [Idem.Sha256] [Message RegisterProjectRequest]
  [Message RegisterProjectResponse] in
theorem handler_answer (x : Rpc α) (f : Except Status α → Answer) (envs : Nat → Tick) (s : Store) :
    ((x.answering f).run (engine.serve envs) ⟨s, none, 0⟩).1 = f (x.serve envs s).1 := by
  rw [Rpc.answering, Prog.run_bind]
  rfl

theorem Assigned.turns (h : Assigned own calls env s₀) {turns : List ι}
    (hwrites : ∀ i ∈ turns, (calls i).writes = true) :
    Parted own (inTurn calls env s₀ turns) ∧
      ∀ r ∈ (inTurn calls env s₀ turns).orgRows, own r.id := by
  induction turns using List.reverseRecOn with
  | nil => exact ⟨h.parted, h.rows⟩
  | append_singleton turns i ih =>
    obtain ⟨hparted, hrows⟩ := ih fun j hj => hwrites j (List.mem_append_left _ hj)
    have hi := hwrites i (List.mem_append_right _ (List.mem_singleton.2 rfl))
    have hmints := h.syncs i
    have hminted := h.registers i
    rw [inTurn_snoc]
    cases hcall : calls i with
    | register caller req =>
      rw [hcall] at hminted
      have halike := Register.serve_orgAlike caller req (hminted rfl) hparted
      rw [Request.handler, handler_store]
      refine ⟨halike.right, fun r hr => ?_⟩
      rw [← halike.rows] at hr
      exact hrows r hr
    | sync caller req =>
      rw [hcall] at hmints
      rw [Request.handler, handler_store]
      exact ⟨Sync.serve_parted caller req _ hparted,
        Sync.syncAs_own caller req (hmints rfl) hrows⟩
    | _ =>
      rw [hcall] at hi
      cases hi

theorem Assigned.unmoved (h : Assigned own calls env s₀) {turns : List ι}
    (hwrites : ∀ i ∈ turns, (calls i).writes = true) (hregister : (calls i).isRegister = true) :
    OrgAlike own (inTurn calls env s₀ turns) (inTurn calls env s₀ (turns ++ [i])) := by
  have hminted := h.registers i hregister
  rw [inTurn_snoc]
  cases hcall : calls i with
  | register caller req =>
    rw [Request.handler, handler_store]
    exact Register.serve_orgAlike caller req hminted (h.turns hwrites).1
  | _ =>
    rw [hcall] at hregister
    cases hregister

end

end ProjectDb
