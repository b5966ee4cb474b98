import ProjectDb.Disjoint
import ProjectDb.Turns

namespace ProjectDb
open Text ProjectDb.Path Mvcc Pool
set_option autoImplicit true

section
variable [ServerCollation] [UuidCrate] [Idem.Sha256] [Message RegisterProjectRequest]
  [Message RegisterProjectResponse] {ι : Type} {own : Str → Prop} {calls : ι → Request}
  {env : ι → Nat → Tick} {s₀ : Store} {M : Server ι → Prop} {turns : List ι} {w v : Server ι}
  {envs : Nat → Tick}

namespace Request

omit [ServerCollation] [UuidCrate] [Idem.Sha256] [Message RegisterProjectRequest]
  [Message RegisterProjectResponse] in
theorem writes_cases {req : Request} (h : req.writes = true) :
    req.isRegister = true ∨ req.isSync = true := by
  cases req with
  | register => exact .inl rfl
  | sync => exact .inr rfl
  | _ => cases h

omit [ServerCollation] [UuidCrate] [Idem.Sha256] [Message RegisterProjectRequest]
  [Message RegisterProjectResponse] in
theorem writes_of_sync {req : Request} (h : req.isSync = true) : req.writes = true := by
  cases req with
  | sync => rfl
  | _ => cases h

omit [ServerCollation] [UuidCrate] [Idem.Sha256] [Message RegisterProjectRequest]
  [Message RegisterProjectResponse] in
theorem writes_of_register {req : Request} (h : req.isRegister = true) : req.writes = true := by
  cases req with
  | register => rfl
  | _ => cases h

omit [ServerCollation] [UuidCrate] [Idem.Sha256] [Message RegisterProjectRequest]
  [Message RegisterProjectResponse] in
theorem register_of_sync {req : Request} (h : req.isSync = true) : req.isRegister = false := by
  cases req with
  | sync => rfl
  | _ => cases h

omit [ServerCollation] [UuidCrate] [Idem.Sha256] [Message RegisterProjectRequest]
  [Message RegisterProjectResponse] in
theorem sync_of_register {req : Request} (h : req.isRegister = true) : req.isSync = false := by
  cases req with
  | register => rfl
  | _ => cases h

theorem handler_personal {req : Request} (h : req.isRegister = true) (s : Store) :
    req.handler.Always (engine.serve envs) (Register.OnPersonal envs) ⟨s, none, 0⟩ := by
  cases req with
  | register caller req => exact Rpc.always_answering (Register.registerAs_personal caller req s)
  | _ => cases h

theorem handler_lockFirst {req : Request} (h : req.isSync = true) (s : Store) :
    req.handler.Always (engine.serve envs) (Sync.LockFirst envs) ⟨s, none, 0⟩ := by
  cases req with
  | sync caller req => exact Rpc.always_answering (Sync.syncAs_lockFirst caller req s)
  | _ => cases h

theorem handler_onOrg {req : Request} (h : req.isSync = true)
    (hmint : ∀ n, own (Sync.projectIdPrefix ++ (envs n).uuid)) {s : Store}
    (hs : ∀ r ∈ s.orgRows, own r.id) :
    req.handler.Always (engine.serve envs) (cmdHolds (fun _ q _ => q.OnOrg own) envs)
      ⟨s, none, 0⟩ := by
  cases req with
  | sync caller req => exact Rpc.always_answering (Sync.syncAs_onOrg caller req hmint hs)
  | _ => cases h

omit [ServerCollation] in
theorem handler_breaks {req : Request} (h : req.isSync = true) :
    req.handler.Obeys (breaking Op.failure)
      (fun failed a => ∀ e ∈ failed, a = .synced (.error (internal e))) none := by
  cases req with
  | sync caller req =>
    apply Prog.obeys_bind (Sync.syncAs_breaks caller req)
    rintro _ r hr e rfl
    exact congrArg Answer.synced hr
  | _ => cases h

end Request

section
variable {i : ι} {req : Request} {s : Store} {held : List (ι × Record)}
  {sent : List (Sent Write Op.Reply)} {ws : List Write} {rest : Handler} {n : Nat}

/-- A sync that went on from its lock holds it. -/
theorem Sync.locked (hreq : req.isSync = true)
    (h : Open engine envs req.handler s held i sent ws rest n) (hn : 3 ≤ n)
    (hf : (envs 2).fault = none) : (i, .syncLock) ∈ held := by
  have htwo : 2 < n := hn
  obtain ⟨c, k, d, hcomes, hd⟩ := (h.tx.comes s h.fits).before htwo
  have hlock := (hcomes.next (Request.handler_lockFirst hreq s)).1 hd
  subst hlock
  obtain ⟨e, he, hcount, hstmt⟩ := h.tx.told s h.fits _ k d hcomes (by omega) (by omega)
  rw [hd] at hcount
  obtain ⟨_, hlocks⟩ := h.holds e he
  rw [hstmt, hcount] at hlocks
  obtain ⟨s', hs'⟩ := hlocks rfl
  apply hs'
  simp only [engine, hf, Stmt.locks, List.mem_singleton]

theorem Sync.beyond (hreq : req.isSync = true)
    (h : Open engine envs req.handler s held i sent ws rest n) (he : e ∈ sent) :
    e.stmt = .sql .selectSyncLockForUpdate ∨ (envs 2).fault = none := by
  have hfirst := h.asked (Request.handler_lockFirst hreq s) he
  rcases Nat.eq_or_lt_of_le (h.tx.counted e he).1 with hcount | hcount
  · exact .inl (Cmd.stmt.inj (hfirst.1 hcount.symm))
  · exact .inr (hfirst.2 hcount (.inl ⟨_, rfl⟩))

/-- What a sync was answered it would be answered on every store that it sees as this one, and what
it wrote there leaves two such stores. -/
theorem Sync.fits_alike (hreq : req.isSync = true)
    (hmint : ∀ n, own (projectIdPrefix ++ (envs n).uuid)) (hs : ∀ r ∈ s.orgRows, own r.id)
    (h : Open engine envs req.handler s held i sent ws rest n) {s' : Store}
    (halike : OrgAlike own s.unseen s'.unseen) : (∀ e ∈ sent, e.Fits engine envs s') ∧
      OrgAlike own (engine.patchAll ws s).unseen (engine.patchAll ws s').unseen := by
  apply h.tx.chained.fits (fun a b => OrgAlike own a.unseen b.unseen) halike h.fits
  intro e he a b hab hexec
  have honorg := h.asked (Request.handler_onOrg hreq hmint hs) he
  apply OrgAlike.exec _ hab hexec
  intro q hq
  rw [hq] at honorg
  exact honorg

/-- What a registration was answered it would be answered beside another's writes. -/
theorem Register.fits_beside (hreq : req.isRegister = true)
    (h : Open engine envs req.handler s held i sent ws rest n) {K : Record → Prop}
    (hfree : ∀ k, (i, k) ∈ held → ¬ K k) {ws' : List Write}
    (hws' : ∀ k ∈ ws'.flatMap Write.records, K k) :
    ∀ e ∈ sent, e.Fits engine envs (engine.patchAll ws' s) := by
  have hbeside : Beside K s (engine.patchAll ws' s) := (Beside.refl s).patchAll hws'
  refine (h.tx.chained.fits (Beside K) hbeside h.fits ?_).1
  intro e he a b hab hexec
  have hkind := h.asked (Request.handler_personal hreq s) he
  obtain ⟨hwrites, hlocks⟩ := h.holds e he
  obtain ⟨m, o, before, r, us⟩ := e
  cases o with
  | nowV7 =>
    have hus : us = [] := (congrArg Prod.snd hexec).symm
    subst hus
    exact ⟨hexec, hab⟩
  | sql q =>
    have hregisters : q.registers = true := by
      cases q with
      | insertWrite => rfl
      | selectWriteForUpdate => rfl
      | selectAliasOwner => rfl
      | insertProject => rfl
      | updateWrite => rfl
      | _ => exact hkind.elim
    simp only [engine, Op.exec] at hexec ⊢
    cases hf : (envs m).fault with
    | some f =>
      rw [hf] at hexec
      cases hexec
      exact ⟨rfl, hab⟩
    | none =>
      rw [hf] at hexec
      have hlocked : ∀ k ∈ q.locks, ¬ K k := by
        intro k hk
        cases q with
        | selectWriteForUpdate projectId userId idemKey =>
          obtain ⟨_, hs⟩ := hlocks rfl
          apply hfree k (hs k _)
          simp only [engine, hf]
          exact hk
        | selectSyncLockForUpdate => cases hregisters
        | _ => exact absurd hk List.not_mem_nil
      cases hq : q.exec (envs m) a with
      | ok p =>
        obtain ⟨x, us'⟩ := p
        rw [hq] at hexec
        cases hexec
        obtain ⟨hsame, hnext⟩ := hab.exec hregisters hlocked fun y vs hy => by
          cases hq.symm.trans hy
          exact fun k hk => hfree k (hwrites k hk)
        rw [hsame, hq]
        exact ⟨rfl, hnext _ _ hq⟩
      | error e =>
        rw [hq] at hexec
        cases hexec
        obtain ⟨hsame, _⟩ := hab.exec hregisters hlocked fun y vs hy => by
          rw [hq] at hy
          cases hy
        rw [hsame, hq]
        exact ⟨rfl, hab⟩

omit [UuidCrate] [Idem.Sha256] [Message RegisterProjectRequest] [Message RegisterProjectResponse] in
theorem Op.exec_ok {o : Op} {t : Tick} {r : o.Reply} {us : List Write}
    (hexec : o.exec t s = (r, us)) (hu : u ∈ us) :
    ∃ q x, o = .sql q ∧ q.exec t s = .ok (x, us) := by
  cases o with
  | nowV7 =>
    have hus : us = [] := (congrArg Prod.snd hexec).symm
    rw [hus] at hu
    exact absurd hu List.not_mem_nil
  | sql q =>
    simp only [Op.exec] at hexec
    split at hexec
    · cases hexec
      exact absurd hu List.not_mem_nil
    · split at hexec
      · rename_i x vs hq
        cases hexec
        exact ⟨q, x, rfl, hq⟩
      · cases hexec
        exact absurd hu List.not_mem_nil

theorem Register.traces (hreq : req.isRegister = true)
    (hminted : ∀ n, ¬ own (projectIdPrefix ++ (envs n).uuid))
    (h : Open engine envs req.handler s held i sent ws rest n) (hu : u ∈ ws) :
    ∀ k ∈ u.records, (∃ key, k = .write key ∧ (engine.patchAll ws s).HasKey key) ∨
      (∃ id, k = .project id ∧ ¬ own id) ∨ ∃ path, k = .path path := by
  rcases h.tx.chained.mem_writes hu with hu' | ⟨e, he, hu'⟩
  · exact absurd hu' List.not_mem_nil
  have hkind := h.asked (Request.handler_personal hreq s) he
  obtain ⟨q, x, hstmt, hq⟩ := Op.exec_ok (h.fits e he) hu'
  rw [hstmt] at hkind
  generalize e.writes = us at hu' hq
  intro k hk
  cases q with
  | insertWrite projectId userId idemKey rpc fp =>
    rw [insertWrite_writes hq] at hu'
    cases List.mem_singleton.1 hu'
    exact .inl ⟨_, List.mem_singleton.1 hk, .of_insert hu s⟩
  | selectWriteForUpdate =>
    rw [selectWrite_writes hq] at hu'
    exact absurd hu' List.not_mem_nil
  | selectAliasOwner =>
    cases hq
    exact absurd hu' List.not_mem_nil
  | insertProject n =>
    simp only [Stmt.exec] at hq
    split_ifs at hq
    cases hq
    cases List.mem_singleton.1 hu'
    obtain ⟨_, m, hid⟩ := hkind
    rcases List.mem_cons.1 hk with rfl | hk
    · refine .inr (.inl ⟨_, rfl, ?_⟩)
      change ¬ own n.id
      rw [hid]
      exact hminted m
    · exact .inr (.inr ⟨_, List.mem_singleton.1 hk⟩)
  | updateWrite response projectId userId idemKey =>
    rw [updateWrite_writes hq] at hu'
    cases List.mem_singleton.1 hu'
    obtain ⟨hfree, hthere⟩ := hkind
    rcases (hthere _ rfl).inserted with hkey | ⟨row, hrow, hkey⟩
    · exact absurd hkey hfree
    · refine .inl ⟨_, List.mem_singleton.1 hk, ?_⟩
      rw [← hkey]
      exact .of_insert (h.tx.chained.own_subset he hrow) s
  | _ => exact hkind.elim

theorem Sync.traces (hreq : req.isSync = true)
    (hmint : ∀ n, own (projectIdPrefix ++ (envs n).uuid)) (hs : ∀ r ∈ s.orgRows, own r.id)
    (h : Open engine envs req.handler s held i sent ws rest n) (hu : u ∈ ws) :
    ∀ key, .write key ∉ u.records := by
  rcases h.tx.chained.mem_writes hu with hu' | ⟨e, he, hu'⟩
  · exact absurd hu' List.not_mem_nil
  have hkind := h.asked (Request.handler_onOrg hreq hmint hs) he
  obtain ⟨q, x, hstmt, hq⟩ := Op.exec_ok (h.fits e he) hu'
  rw [hstmt] at hkind
  generalize e.writes = us at hu' hq
  intro key hk
  have hids : ∀ ids : List Str, Record.write key ∉ ids.map Record.project := by
    intro ids hmem
    obtain ⟨_, _, he⟩ := List.mem_map.1 hmem
    cases he
  cases q with
  | updateDeclared =>
    simp only [Stmt.exec] at hq
    split at hq
    · cases hq
      cases List.mem_singleton.1 hu'
      exact hids _ hk
    · cases hq
  | updateArchived =>
    simp only [Stmt.exec] at hq
    split at hq
    · cases hq
      cases List.mem_singleton.1 hu'
      exact hids _ hk
    · cases hq
  | insertProject n =>
    simp only [Stmt.exec] at hq
    split_ifs at hq
    cases hq
    cases List.mem_singleton.1 hu'
    rcases List.mem_cons.1 hk with hk | hk
    · cases hk
    · cases List.mem_singleton.1 hk
  | insertGrant g =>
    simp only [Stmt.exec] at hq
    split_ifs at hq
    cases hq
    cases List.mem_singleton.1 hu'
    cases List.mem_singleton.1 hk
  | updateGrant =>
    simp only [Stmt.exec] at hq
    split_ifs at hq
    cases hq
    cases List.mem_singleton.1 hu'
    cases List.mem_singleton.1 hk
  | deleteGrant =>
    cases hq
    cases List.mem_singleton.1 hu'
    cases List.mem_singleton.1 hk
  | selectSyncLockForUpdate =>
    cases hq
    exact absurd hu' List.not_mem_nil
  | selectOrgProjects =>
    cases hq
    exact absurd hu' List.not_mem_nil
  | selectAliasIn =>
    cases hq
    exact absurd hu' List.not_mem_nil
  | selectOrgGrants =>
    cases hq
    exact absurd hu' List.not_mem_nil
  | _ => exact hkind.elim

omit [UuidCrate] [Idem.Sha256] [Message RegisterProjectRequest] [Message RegisterProjectResponse] in
/-- What a sync changes of what was there is the organisation's. -/
theorem Sync.revises {q : Stmt} {x : q.Reply} (hq : q.OnOrg own) (hexec : q.exec t s = .ok (x, us))
    (hu : u ∈ us) (hk : k ∈ u.revised) :
    (∃ id, k = .project id ∧ own id) ∨ ∃ projectId teamId, k = .grant projectId teamId := by
  cases q with
  | updateDeclared displayName sourceRepo status actor rowId =>
    simp only [Stmt.exec] at hexec
    split at hexec
    · cases hexec
      cases List.mem_singleton.1 hu
      obtain ⟨id, hid, rfl⟩ := List.mem_map.1 hk
      obtain ⟨r, hr, rfl⟩ := List.mem_map.1 hid
      refine .inl ⟨_, rfl, ?_⟩
      rw [beq_iff_eq.1 (List.mem_filter.1 hr).2]
      exact hq
    · cases hexec
  | updateArchived status actor ids =>
    simp only [Stmt.exec] at hexec
    split at hexec
    · cases hexec
      cases List.mem_singleton.1 hu
      obtain ⟨id, hid, rfl⟩ := List.mem_map.1 hk
      obtain ⟨r, hr, rfl⟩ := List.mem_map.1 hid
      exact .inl ⟨_, rfl, hq _ (List.contains_iff_mem.1 (List.mem_filter.1 hr).2)⟩
    · cases hexec
  | insertProject n =>
    simp only [Stmt.exec] at hexec
    split_ifs at hexec
    cases hexec
    cases List.mem_singleton.1 hu
    exact absurd hk List.not_mem_nil
  | insertGrant g =>
    simp only [Stmt.exec] at hexec
    split_ifs at hexec
    cases hexec
    cases List.mem_singleton.1 hu
    exact absurd hk List.not_mem_nil
  | updateGrant =>
    simp only [Stmt.exec] at hexec
    split_ifs at hexec
    cases hexec
    cases List.mem_singleton.1 hu
    exact .inr ⟨_, _, List.mem_singleton.1 hk⟩
  | deleteGrant =>
    cases hexec
    cases List.mem_singleton.1 hu
    exact .inr ⟨_, _, List.mem_singleton.1 hk⟩
  | selectSyncLockForUpdate =>
    cases hexec
    exact absurd hu List.not_mem_nil
  | selectOrgProjects =>
    cases hexec
    exact absurd hu List.not_mem_nil
  | selectAliasIn =>
    cases hexec
    exact absurd hu List.not_mem_nil
  | selectOrgGrants =>
    cases hexec
    exact absurd hu List.not_mem_nil
  | _ => exact hq.elim

omit [UuidCrate] [Idem.Sha256] [Message RegisterProjectRequest] [Message RegisterProjectResponse] in
theorem Register.revises {q : Stmt} {x : q.Reply} {d : Conn Store}
    (hq : OnPersonal envs (.stmt (.sql q)) d) (hexec : q.exec t s = .ok (x, us)) (hu : u ∈ us)
    (hk : k ∈ u.revised) :
    ∃ key, k = .write key ∧ ¬ d.store.HasKey key := by
  cases q with
  | insertWrite projectId userId idemKey rpc fp =>
    rw [insertWrite_writes hexec] at hu
    cases List.mem_singleton.1 hu
    exact absurd hk List.not_mem_nil
  | selectWriteForUpdate =>
    rw [selectWrite_writes hexec] at hu
    exact absurd hu List.not_mem_nil
  | selectAliasOwner =>
    cases hexec
    exact absurd hu List.not_mem_nil
  | insertProject n =>
    simp only [Stmt.exec] at hexec
    split_ifs at hexec
    cases hexec
    cases List.mem_singleton.1 hu
    exact absurd hk List.not_mem_nil
  | updateWrite response projectId userId idemKey =>
    rw [updateWrite_writes hexec] at hu
    cases List.mem_singleton.1 hu
    exact ⟨_, List.mem_singleton.1 hk, hq.1⟩
  | _ => exact hq.elim

end

end

end ProjectDb
