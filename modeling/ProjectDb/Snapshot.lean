import ProjectDb.Concurrent
import ProjectDb.Reference
import ProjectDb.Listing
import ProjectDb.Convergence

namespace ProjectDb.Read
open Text ProjectDb.Path Mvcc
set_option autoImplicit true

/-- The grants that the store joins to a project. -/
def grantsOn (s : Store) (rowId : Str) : List GrantRow :=
  s.projectGrant.flatMap fun g =>
    (s.orgRows.filter fun p => p.id == g.projectId && g.projectId == rowId).map fun _ => g

/-- The store holds the project as it is answered: its row, its aliases and its grants. -/
structure Exhibits (s : Store) (P : Project) (r : ProjectRow) : Prop where
  mem : r ∈ s.project
  row : bare P = rowToProject r
  aliases : P.aliases.Perm ((s.projectAlias.filter (·.projectId == r.id)).map AliasRow.aliasPath)
  aliases_sorted : P.aliases.Pairwise PathLe
  grants : P.grants.Perm ((grantsOn s r.id).map fun g => ⟨g.teamId, g.level⟩)
  grants_sorted : P.grants.Pairwise fun g h => g.teamId ≤ h.teamId

/-- The rows that the first statement of a read selects. -/
def picked (t : Tick) (s : Store) : Request → List ProjectRow
  | .get req => (selected t s req.path).toList
  | .list req => (pageOf t s ((present req.underPath).map fun path => (path, subtree path))
      req.status (present req.pageToken) ((pageSize req.pageSize).toNat + 1)).take
        (pageSize req.pageSize).toNat
  | _ => []

/-- A commit changes one of the rows. -/
def RowsMove (rows : List ProjectRow) (s s' : Store) : Prop :=
  ∃ r ∈ rows, r ∈ s.project ∧ r ∉ s'.project

/-- A commit changes the grants of one of the projects. -/
def GrantsMove (rows : List ProjectRow) (s s' : Store) : Prop :=
  ∃ r ∈ rows, ¬ (grantsOn s r.id).Perm (grantsOn s' r.id)

/-- Between two statements, a commit that changes a row comes at or before one that changes
grants. -/
def Torn (rows : List ProjectRow) (stores : Nat → Store) (first last : Nat) : Prop :=
  ∃ k m, first ≤ k ∧ k ≤ m ∧ m < last ∧ RowsMove rows (stores k) (stores (k + 1)) ∧
    GrantsMove rows (stores m) (stores (m + 1))

/-- Rows and grants that no commit tears apart were there together. -/
theorem exists_whole {stores : Nat → Store} (hle : first ≤ last)
    (hrows : ∀ r ∈ rows, r ∈ (stores first).project) (h : ¬ Torn rows stores first last) :
    ∃ n, first ≤ n ∧ n ≤ last ∧ ∀ r ∈ rows, r ∈ (stores n).project ∧
      (grantsOn (stores n) r.id).Perm (grantsOn (stores last) r.id) := by
  -- the last store that still has the rows: the next commit moves one of them, or none is left
  obtain ⟨n, hfirst, hlast, hthere, hstop⟩ : ∃ n, first ≤ n ∧ n ≤ last ∧
      (∀ r ∈ rows, r ∈ (stores n).project) ∧
        (n = last ∨ RowsMove rows (stores n) (stores (n + 1))) := by
    clear h
    induction hle with
    | refl => exact ⟨first, Nat.le_refl _, Nat.le_refl _, hrows, .inl rfl⟩
    | @step last hle ih =>
      obtain ⟨n, hfirst, hlast, hthere, rfl | hmove⟩ := ih
      · by_cases hmove : RowsMove rows (stores n) (stores (n + 1))
        · exact ⟨n, hfirst, Nat.le_succ n, hthere, .inr hmove⟩
        · refine ⟨n + 1, Nat.le_succ_of_le hfirst, Nat.le_refl _, fun r hr => ?_, .inl rfl⟩
          by_contra hgone
          exact hmove ⟨r, hr, hthere r hr, hgone⟩
      · exact ⟨n, hfirst, Nat.le_succ_of_le hlast, hthere, .inr hmove⟩
  refine ⟨n, hfirst, hlast, fun r hr => ⟨hthere r hr, ?_⟩⟩
  rcases hstop with rfl | hmove
  · exact .refl _
  · -- no commit from here on moves their grants
    have hstill : ∀ m, n ≤ m → m < last →
        (grantsOn (stores m) r.id).Perm (grantsOn (stores (m + 1)) r.id) := by
      intro m hn hm
      by_contra hgrants
      exact h ⟨n, m, hfirst, hn, hm, hmove, r, hr, hgrants⟩
    clear h hmove hle
    induction hlast with
    | refl => exact .refl _
    | @step last hle ih =>
      have hbefore := ih fun m hn hm => hstill m hn (Nat.lt_succ_of_lt hm)
      exact hbefore.trans (hstill last hle (Nat.lt_succ_self last))

theorem mem_pageOf {t : Tick} {s : Store} (h : r ∈ pageOf t s under status after limit) :
    r ∈ s.project := by
  have hr := List.mem_of_mem_take h
  rw [List.mem_insertionSort, (t.order_perm _).mem_iff] at hr
  exact (List.mem_filter.1 hr).1

theorem mem_selected {t : Tick} {s : Store} (h : selected t s path = some r) : r ∈ s.project := by
  have hr := (head_insertionSort h).1
  rw [(t.order_perm _).mem_iff] at hr
  exact (List.mem_filter.1 hr).1

theorem mem_picked {t : Tick} {s : Store} {call : Request} (h : r ∈ picked t s call) :
    r ∈ s.project := by
  cases call with
  | get req => exact mem_selected (Option.mem_toList.1 h)
  | list req => exact mem_pageOf (List.mem_of_mem_take h)
  | _ => exact absurd h List.not_mem_nil

theorem aliasesOf_perm (t : Tick) (s : Store) (h : rowId ∈ ids) :
    ((aliasesOf t s ids).filter (·.projectId == rowId)).Perm
      (s.projectAlias.filter (·.projectId == rowId)) := by
  have hpage : (aliasesOf t s ids).Perm (s.projectAlias.filter fun a => ids.contains a.projectId) :=
    (List.perm_insertionSort _ _).trans (t.order_perm _)
  apply (hpage.filter _).trans
  rw [List.filter_filter]
  apply List.Perm.of_eq
  apply List.filter_congr
  intro a _
  cases ha : a.projectId == rowId with
  | false => rfl
  | true =>
    rw [Bool.true_and, beq_iff_eq.1 ha]
    exact List.contains_iff_mem.2 h

theorem grantsOf_perm (t : Tick) (s : Store) (h : rowId ∈ ids) :
    ((grantsOf t s ids).filter (·.projectId == rowId)).Perm (grantsOn s rowId) := by
  have hpage := (List.perm_insertionSort (fun g h : GrantRow => g.teamId ≤ h.teamId) _).trans
    (t.order_perm (s.projectGrant.flatMap fun g =>
      (s.orgRows.filter fun p => p.id == g.projectId && ids.contains g.projectId).map fun _ => g))
  apply (hpage.filter _).trans
  apply List.Perm.of_eq
  rw [List.filter_flatMap]
  apply List.flatMap_congr
  intro g _
  rw [List.filter_map]
  cases hg : g.projectId == rowId with
  | false =>
    have hnone : ∀ p : ProjectRow, (p.id == g.projectId && false) = false :=
      fun p => Bool.and_false _
    simp only [Function.comp_def, hg, List.filter_false, hnone]
  | true =>
    have hid : ids.contains g.projectId = true := by
      rw [beq_iff_eq.1 hg]
      exact List.contains_iff_mem.2 h
    simp only [Function.comp_def, hg, List.filter_true, hid]

instance : Std.Total fun a b : AliasRow => PathLe a.aliasPath b.aliasPath where
  total a b := le_total (weight a.aliasPath) (weight b.aliasPath)

instance : IsTrans AliasRow fun a b : AliasRow => PathLe a.aliasPath b.aliasPath where
  trans _ _ _ h h' := le_trans h h'

/-- A project filled from a page's aliases and grants holds what the stores they were read from
hold of it. -/
theorem exhibits_filled {t t' : Tick} {s s' : Store} {r : ProjectRow} (hr : r ∈ s.project)
    (hid : r.id ∈ ids) (haliases : s'.projectAlias = s.projectAlias)
    (hgrants : (grantsOn s r.id).Perm (grantsOn s'' r.id)) :
    Exhibits s (fillGrants (grantsOf t' s'' ids) (fillAliases (aliasesOf t s' ids)
      (rowToProject r))) r where
  mem := hr
  row := by rw [bare_fillGrants, bare_fillAliases]; rfl
  aliases := by
    have hperm := (aliasesOf_perm t s' hid).map AliasRow.aliasPath
    rw [haliases] at hperm
    exact hperm
  aliases_sorted := by
    have hsorted : (aliasesOf t s' ids).Pairwise fun a b => PathLe a.aliasPath b.aliasPath :=
      List.pairwise_insertionSort _ _
    exact List.pairwise_map.2 (hsorted.filter _)
  grants := ((grantsOf_perm t' s'' hid).trans hgrants.symm).map _
  grants_sorted := by
    have hsorted : (grantsOf t' s'' ids).Pairwise fun g h => g.teamId ≤ h.teamId :=
      List.pairwise_insertionSort _ _
    exact List.pairwise_map.2 (hsorted.filter _)

section
variable [ServerCollation] {env : Nat → Tick} {stores : Nat → Store}

/-- A handler outside a transaction, each statement served on the store that is committed then. -/
def watched (env : Nat → Tick) (stores : Nat → Store) (x : Rpc α) (n : Nat) :
    Except Status α × Nat :=
  x.run.run (engine.watch env stores) n

theorem watched_bind_ok {x : Rpc α} {f : α → Rpc β}
    (h : watched env stores (x >>= f) n = (.ok b, m)) :
    ∃ a l, watched env stores x n = (.ok a, l) ∧ watched env stores (f a) l = (.ok b, m) := by
  change (x.run.bind (ExceptT.bindCont f)).run _ _ = _ at h
  rw [Prog.run_bind] at h
  rcases hx : x.run.run (engine.watch env stores) n with ⟨r, l⟩
  rw [hx] at h
  cases r with
  | error e => cases h
  | ok a => exact ⟨a, l, hx, h⟩

theorem watched_read_ok {q : Stmt} {a : q.Reply}
    (h : watched env stores (Rpc.read q) n = (.ok a, m)) :
    ∃ ws, q.exec (env n) (stores n) = .ok (a, ws) ∧ m = n + 1 := by
  change ((Op.exec (env n) (.sql q) (stores n)).1.mapError internal, n + 1) = _ at h
  simp only [Op.exec] at h
  cases hf : (env n).fault with
  | some f =>
    rw [hf] at h
    cases h
  | none =>
    rw [hf] at h
    cases hq : q.exec (env n) (stores n) with
    | error e =>
      rw [hq] at h
      cases h
    | ok r =>
      rw [hq] at h
      cases h
      exact ⟨r.2, rfl, rfl⟩

theorem watched_acquire_ok (h : watched env stores Rpc.acquire n = (.ok a, m)) : m = n + 1 :=
  (congrArg Prod.snd h).symm

theorem watched_fill (rows : List ProjectRow) {k : List Project → Rpc α} (h : watched env stores (do
      let projects ← withAliases (rows.map rowToProject)
      let projects ← withGrants projects
      k projects) n = (.ok a, m)) :
    ∃ l, watched env stores (k (rows.map fun r =>
      fillGrants (grantsOf (env (n + 1)) (stores (n + 1)) (rows.map ProjectRow.id))
        (fillAliases (aliasesOf (env n) (stores n) (rows.map ProjectRow.id)) (rowToProject r)))) l =
      (.ok a, m) := by
  obtain ⟨ps, l, haliases, h⟩ := watched_bind_ok h
  obtain ⟨ps', l', hgrants, h⟩ := watched_bind_ok h
  unfold withAliases at haliases
  unfold withGrants at hgrants
  refine ⟨l', ?_⟩
  cases rows with
  | nil =>
    cases haliases
    cases hgrants
    exact h
  | cons r rows =>
    rw [idsOf_rows] at haliases
    obtain ⟨pairs, l₁, hread, hdone⟩ := watched_bind_ok haliases
    obtain ⟨ws, hx, rfl⟩ := watched_read_ok hread
    cases hx
    cases hdone
    rw [idsOf_fillAliases, idsOf_rows] at hgrants
    obtain ⟨grants, l₂, hread, hdone⟩ := watched_bind_ok hgrants
    obtain ⟨ws, hx, rfl⟩ := watched_read_ok hread
    cases hx
    cases hdone
    rw [List.map_map, List.map_map] at h
    exact h

theorem watched_get {req : GetProjectRequest}
    (h : watched env stores (get req) 0 = (.ok response, m)) :
    response.project.toList = (picked (env 1) (stores 1) (.get req)).map fun r =>
      fillGrants (grantsOf (env 3) (stores 3)
          ((picked (env 1) (stores 1) (.get req)).map ProjectRow.id))
        (fillAliases (aliasesOf (env 2) (stores 2)
          ((picked (env 1) (stores 1) (.get req)).map ProjectRow.id)) (rowToProject r)) := by
  obtain ⟨_, l, hcheck, h⟩ := watched_bind_ok h
  obtain ⟨_, rfl⟩ := Prod.mk.inj hcheck
  obtain ⟨_, l, hacquire, h⟩ := watched_bind_ok h
  obtain rfl := watched_acquire_ok hacquire
  obtain ⟨row, l, hread, h⟩ := watched_bind_ok h
  obtain ⟨ws, hx, rfl⟩ := watched_read_ok hread
  cases hx
  change watched env stores (project req.path (selected (env 1) (stores 1) req.path)) 2 = _ at h
  have hpicked : picked (env 1) (stores 1) (.get req) =
      (selected (env 1) (stores 1) req.path).toList := rfl
  rw [hpicked]
  cases hrow : selected (env 1) (stores 1) req.path with
  | none =>
    rw [hrow] at h
    cases h
  | some r =>
    rw [hrow] at h
    obtain ⟨l, hdone⟩ := watched_fill [r] h
    cases hdone
    rfl

theorem watched_list {req : ListProjectsRequest}
    (h : watched env stores (list req) 0 = (.ok response, m)) :
    response.projects = (picked (env 1) (stores 1) (.list req)).map fun r =>
      fillGrants (grantsOf (env 3) (stores 3)
          ((picked (env 1) (stores 1) (.list req)).map ProjectRow.id))
        (fillAliases (aliasesOf (env 2) (stores 2)
          ((picked (env 1) (stores 1) (.list req)).map ProjectRow.id)) (rowToProject r)) := by
  obtain ⟨status, l, hstatus, h⟩ := watched_bind_ok h
  obtain ⟨hfilter, rfl⟩ := Prod.mk.inj hstatus
  obtain ⟨_, l, hcheck, h⟩ := watched_bind_ok h
  obtain ⟨_, rfl⟩ := Prod.mk.inj hcheck
  obtain ⟨_, l, hacquire, h⟩ := watched_bind_ok h
  obtain rfl := watched_acquire_ok hacquire
  obtain ⟨rows, l, hread, h⟩ := watched_bind_ok h
  obtain ⟨ws, hx, rfl⟩ := watched_read_ok hread
  cases hx
  rw [statusFilter_ok hfilter] at h
  obtain ⟨l, hdone⟩ := watched_fill (picked (env 1) (stores 1) (.list req)) h
  cases hdone
  rfl

/-- A handler that neither opens a transaction nor locks. -/
def Plainly (x : Rpc α) : Prop := x.run.All engine.Plain

theorem plainly_bind {x : Rpc α} {f : α → Rpc β} (hx : Plainly x) (hf : ∀ a, Plainly (f a)) :
    Plainly (x >>= f) := by
  apply Prog.all_bind hx
  intro r
  cases r with
  | error e => trivial
  | ok a => exact hf a

theorem plainly_pure (a : α) : Plainly (pure a : Rpc α) := trivial

theorem plainly_ofExcept (r : Except Status α) : Plainly (Rpc.ofExcept r) := trivial

theorem plainly_acquire : Plainly Rpc.acquire := ⟨trivial, fun _ => trivial⟩

theorem plainly_read {q : Stmt} (h : q.nonlocking = true) : Plainly (Rpc.read q) :=
  ⟨h, fun _ => trivial⟩

theorem plainly_withAliases (ps : List Project) : Plainly (withAliases ps) := by
  unfold withAliases
  split
  · exact plainly_pure _
  · exact plainly_bind (plainly_read rfl) fun _ => plainly_pure _

theorem plainly_withGrants (ps : List Project) : Plainly (withGrants ps) := by
  unfold withGrants
  split
  · exact plainly_pure _
  · exact plainly_bind (plainly_read rfl) fun _ => plainly_pure _

theorem plainly_get (req : GetProjectRequest) : Plainly (get req) := by
  apply plainly_bind (plainly_ofExcept _)
  intro _
  apply plainly_bind plainly_acquire
  intro _
  apply plainly_bind (plainly_read rfl)
  intro row
  cases row with
  | none => exact plainly_ofExcept _
  | some r =>
    apply plainly_bind (plainly_withAliases _)
    intro _
    exact plainly_bind (plainly_withGrants _) fun _ => plainly_pure _

theorem plainly_list (req : ListProjectsRequest) : Plainly (list req) := by
  apply plainly_bind (plainly_ofExcept _)
  intro _
  apply plainly_bind (plainly_ofExcept _)
  intro _
  apply plainly_bind plainly_acquire
  intro _
  apply plainly_bind (plainly_read rfl)
  intro _
  apply plainly_bind (plainly_withAliases _)
  intro _
  exact plainly_bind (plainly_withGrants _) fun _ => plainly_pure _

section
variable [UuidCrate] [Idem.Sha256] [Message RegisterProjectRequest]
  [Message RegisterProjectResponse] {ι : Type} [DecidableEq ι] {calls : ι → Request} {s₀ : Store}
  {env : ι → Nat → Tick} {acts : List (Act ι)} {w : Server ι}

theorem answer_of_watched {x : Rpc α} {f : Except Status α → Answer}
    (hw : (Server.start calls).run engine s₀ env acts = some w)
    (hcall : (calls i).handler = x.answering f)
    (hx : Plainly x) (ha : w.answer i = some a) :
    a = f (watched (env i) (fun m => w.storeAt engine s₀
      ((Server.start calls).servedAt engine s₀ env i m acts)) x 0).1 := by
  have hplain : (x.answering f).All engine.Plain := Prog.all_bind hx fun _ => trivial
  have hsess : (Server.start calls).sess i = ⟨some (x.answering f), 0, none⟩ := by
    rw [← hcall]
    rfl
  rw [← World.answer_of_plain hw hsess hplain ha]
  exact congrArg Prod.fst (Prog.run_bind _ _ _ _)

/-- Every project that a read answers is one that a single committed store held, together with the
others of its page, unless commits between its statements tear rows and grants apart. -/
theorem read_untorn (hw : (Server.start calls).run engine s₀ env acts = some w)
    (hcall : (∃ req, calls i = .get req) ∨ ∃ req, calls i = .list req) (ha : w.answer i = some a)
    (hwhole : ¬ Torn (picked (env i 1) (w.storeAt engine s₀
        ((Server.start calls).servedAt engine s₀ env i 1 acts)) (calls i)) (w.storeAt engine s₀)
      ((Server.start calls).servedAt engine s₀ env i 1 acts)
      ((Server.start calls).servedAt engine s₀ env i 3 acts)) :
    ∃ n ≤ w.log.length, ∀ P ∈ a.projects, ∃ r, Exhibits (w.storeAt engine s₀ n) P r := by
  have haliases : ∀ n, (w.storeAt engine s₀ n).projectAlias = s₀.projectAlias :=
    fun n => patchAll_projectAlias _ _
  obtain ⟨n, _, hn, hthere⟩ := exists_whole (World.servedAt_mono acts _ (by decide))
    (fun r hr => mem_picked hr) hwhole
  have hlast := World.servedAt_le (i := i) (n := 3) hw
  refine ⟨n, Nat.le_trans hn hlast, fun P hP => ?_⟩
  have hfilled : ∀ r ∈ picked (env i 1) (w.storeAt engine s₀
      ((Server.start calls).servedAt engine s₀ env i 1 acts)) (calls i), ∀ t t' m ids, r.id ∈ ids →
      Exhibits (w.storeAt engine s₀ n) (fillGrants (grantsOf t' (w.storeAt engine s₀
        ((Server.start calls).servedAt engine s₀ env i 3 acts)) ids)
          (fillAliases (aliasesOf t (w.storeAt engine s₀ m) ids) (rowToProject r))) r := by
    intro r hr t t' m ids hid
    obtain ⟨hmem, hgrants⟩ := hthere r hr
    exact exhibits_filled hmem hid ((haliases m).trans (haliases n).symm) hgrants
  rcases hcall with ⟨req, hcall⟩ | ⟨req, hcall⟩
  · rw [hcall] at hfilled
    have hanswer := answer_of_watched hw (congrArg Request.handler hcall) (plainly_get req) ha
    rcases hr : watched (env i) (fun m => w.storeAt engine s₀
      ((Server.start calls).servedAt engine s₀ env i m acts)) (get req) 0 with ⟨r, m⟩
    rw [hr] at hanswer
    subst hanswer
    cases r with
    | error e => exact absurd hP List.not_mem_nil
    | ok response =>
      change P ∈ response.project.toList at hP
      rw [watched_get hr] at hP
      obtain ⟨r, hr, rfl⟩ := List.mem_map.1 hP
      exact ⟨r, hfilled r hr _ _ _ _ (List.mem_map_of_mem hr)⟩
  · rw [hcall] at hfilled
    have hanswer := answer_of_watched hw (congrArg Request.handler hcall) (plainly_list req) ha
    rcases hr : watched (env i) (fun m => w.storeAt engine s₀
      ((Server.start calls).servedAt engine s₀ env i m acts)) (list req) 0 with ⟨r, m⟩
    rw [hr] at hanswer
    subst hanswer
    cases r with
    | error e => exact absurd hP List.not_mem_nil
    | ok response =>
      change P ∈ response.projects at hP
      rw [watched_list hr] at hP
      obtain ⟨r, hr, rfl⟩ := List.mem_map.1 hP
      exact ⟨r, hfilled r hr _ _ _ _ (List.mem_map_of_mem hr)⟩

end

end

section
open scoped Reference

/-- A lookup of a root, and a sync that declares it. -/
def lookupAndSync : Bool → Request
  | false => .get ⟨"acme".toList⟩
  | true => .sync (some Sync.syncCaller) Sync.acmeOnly

def lookupEnv : Bool → Nat → Tick
  | false => fun _ => .quiet 1 1
  | true => fun n => .quiet 2 n

/-- What the sync of the root commits. -/
def acmeWrites : List Write :=
  [.updateDeclared ["1".toList] "Acme".toList "git".toList 1 "ops".toList 2,
    .insertGrant ⟨"1".toList, "yadgar:team:dev".toList, 1⟩]

theorem storeAt_acme {w : Server Bool} (hlog : w.log.map Prod.snd = [acmeWrites]) (n : Nat) :
    w.storeAt engine renamed n = renamed ∨
      w.storeAt engine renamed n = engine.patchAll acmeWrites renamed := by
  have htake : (w.log.take n).flatMap Prod.snd = ([acmeWrites].take n).flatten := by
    rw [← hlog, ← List.map_take, List.flatMap_def]
  unfold World.storeAt
  rw [htake]
  cases n with
  | zero => exact .inl rfl
  | succ n =>
    rw [List.take_succ_cons, List.take_nil]
    exact .inr rfl

/-- The lookup reads its row, the sync runs whole, and the lookup reads the rest. -/
def syncAmid : List (Act Bool) :=
  List.replicate 2 (.run false) ++ List.replicate 10 (.run true) ++ List.replicate 2 (.run false)

/-- The root as it was before the sync, with the grants it has after. -/
def tornAcme : Project :=
  { rowToProject acmeRoot with
    aliases := ["old".toList]
    grants := [⟨"yadgar:team:dev".toList, 1⟩] }

/-- A sync between the statements of a lookup leaves it a project that no store ever held. -/
theorem lookup_torn : ∃ w a, (Server.start lookupAndSync).run engine renamed lookupEnv syncAmid =
      some w ∧ w.answer false = some a ∧ tornAcme ∈ a.projects ∧
    ∀ n r, ¬ Exhibits (w.storeAt engine renamed n) tornAcme r := by
  have hrun : ((Server.start lookupAndSync).run engine renamed lookupEnv syncAmid).map
      (fun w => (w.answer false, w.log.map Prod.snd)) =
        some (some (.got (.ok ⟨some tornAcme⟩)), [acmeWrites]) := by decide +kernel
  obtain ⟨w, hw, hfacts⟩ := Option.map_eq_some_iff.1 hrun
  obtain ⟨ha, hlog⟩ := Prod.mk.inj hfacts
  refine ⟨w, _, hw, ha, List.mem_singleton.2 rfl, fun n r h => ?_⟩
  rcases storeAt_acme hlog n with hs | hs
  · have hgrants := h.grants
    rw [hs] at hgrants
    cases hgrants.length_eq
  · have hmem := h.mem
    rw [hs] at hmem
    have hold : r.version = 1 := congrArg (fun P => (P.envelope.map Meta.version).getD 0) h.row.symm
    have hnew : ∀ r ∈ (engine.patchAll acmeWrites renamed).project, r.version ≠ 1 := by decide
    exact hnew r hmem hold

/-- The lookup answers before the sync commits. -/
def lookupFirst : List (Act Bool) :=
  List.replicate 8 (.run true) ++ List.replicate 4 (.run false) ++ List.replicate 2 (.run true)

theorem read_untorn_acme : ∃ w a, (Server.start lookupAndSync).run engine renamed lookupEnv
      lookupFirst = some w ∧ w.answer false = some a ∧ a.projects.length = 1 ∧
    ∃ n ≤ w.log.length, ∀ P ∈ a.projects, ∃ r, Exhibits (w.storeAt engine renamed n) P r := by
  have hrun : ((Server.start lookupAndSync).run engine renamed lookupEnv lookupFirst).map
      (fun w => (w.answer false).map fun a => a.projects.length) = some (some 1) := by
    decide +kernel
  obtain ⟨w, hw, hfacts⟩ := Option.map_eq_some_iff.1 hrun
  obtain ⟨a, ha, hlen⟩ := Option.map_eq_some_iff.1 hfacts
  refine ⟨w, a, hw, ha, hlen, read_untorn hw (.inl ⟨_, rfl⟩) ha ?_⟩
  have hlast : (Server.start lookupAndSync).servedAt engine renamed lookupEnv false 3 lookupFirst =
      0 := by decide +kernel
  rw [hlast]
  intro ⟨k, m, _, _, hm, _⟩
  exact absurd hm (Nat.not_lt_zero m)

end

end ProjectDb.Read
