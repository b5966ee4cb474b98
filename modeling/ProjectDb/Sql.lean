import Mathlib.Data.Char
import Mathlib.Data.List.Lex
import Mathlib.Data.List.Sort
import ProjectDb.Mvcc
import ProjectDb.Wire

namespace ProjectDb
open Text ProjectDb.Path
set_option autoImplicit true

/-- A failure of the connection or the engine that no statement of this service asks for. After
`replyLost` the server has executed the command, and only its reply did not come back. -/
inductive Fault
  | lockContention
  | poolTimedOut
  | deadlineSpent
  | replyLost
  | other
  deriving DecidableEq, Repr

/-- An error as `sqlx` reports it. `checkRead` is 1020, a record changed since the read view. -/
inductive SqlError
  | rowNotFound
  | uniqueViolation
  | constraint
  | checkRead
  | fault (f : Fault)
  deriving DecidableEq, Repr

def internal : SqlError → Status
  | .fault .poolTimedOut => .unavailable ["no connection was free in time — retry"]
  | .fault .lockContention => .aborted ["the write could not be serialised — retry"]
  | _ => .internal ["storage error"]

/-- An org-class row as a sync reads it. -/
structure Stored where
  id : Str
  path : Str
  displayName : Str
  sourceRepo : Option Str
  status : Int
  deriving DecidableEq, Repr

def Stored.of (r : ProjectRow) : Stored := ⟨r.id, r.path, r.displayName, r.sourceRepo, r.status⟩

/-- A stored grant on an org row, with its row's path. -/
structure StoredGrant where
  projectId : Str
  path : Str
  teamId : Str
  level : Int
  deriving DecidableEq, Repr

/-- A row of the ancestor walk: what was matched, and the live row it names. -/
structure Found where
  matched : Str
  resolved : Str
  status : Int
  viaAlias : Int
  sourceRepo : Option Str
  deriving DecidableEq, Repr

/-- The columns an `INSERT INTO project` binds; the rest take their defaults. -/
structure NewProject where
  id : Str
  path : Str
  displayName : Str
  status : Int
  sourceRepo : Option Str
  ownerUserId : Option Str
  visibility : Int
  createdBy : Str
  updatedBy : Str
  deriving DecidableEq, Repr

/-- The statements this service sends. -/
inductive Stmt
  | selectSyncLockForUpdate
  | selectOrgProjects
  | selectAliasIn (paths : List Str)
  | selectOrgGrants
  | updateDeclared (displayName sourceRepo : Str) (status : Int) (actor id : Str)
  | insertProject (row : NewProject)
  | updateArchived (status : Int) (actor : Str) (ids : List Str)
  | deleteGrant (projectId teamId : Str)
  | updateGrant (level : Int) (projectId teamId : Str)
  | insertGrant (row : GrantRow)
  | insertWrite (projectId userId idemKey rpc : Str) (fingerprint : Bytes)
  | selectWriteForUpdate (projectId userId idemKey : Str)
  | updateWrite (response : Bytes) (projectId userId idemKey : Str)
  | selectAliasOwner (path : Str)
  | updateLastSeen (seconds : Int) (paths : List Str)
  | countMatching (paths : List Str)
  | selectAncestors (chain : List Str)
  | selectProject (path : Str)
  | selectPage (under : Option (Str × Str)) (status : Option Int) (after : Option Str) (limit : Nat)
  | selectAliases (ids : List Str)
  | selectGrants (ids : List Str)
  deriving DecidableEq, Repr

def Stmt.Reply : Stmt → Type
  | .selectSyncLockForUpdate => Unit
  | .selectOrgProjects => List Stored
  | .selectAliasIn _ => Option Str
  | .selectOrgGrants => List StoredGrant
  | .updateDeclared .. => Unit
  | .insertProject _ => Unit
  | .updateArchived .. => Unit
  | .deleteGrant .. => Unit
  | .updateGrant .. => Unit
  | .insertGrant _ => Unit
  | .insertWrite .. => Unit
  | .selectWriteForUpdate .. => Str × Bytes × Bytes
  | .updateWrite .. => Unit
  | .selectAliasOwner _ => Option Str
  | .updateLastSeen .. => Unit
  | .countMatching _ => Nat
  | .selectAncestors _ => List Found
  | .selectProject _ => Option ProjectRow
  | .selectPage .. => List ProjectRow
  | .selectAliases _ => List AliasRow
  | .selectGrants _ => List GrantRow

/-- What a handler asks for inside a transaction: a statement, or a fresh uuid. -/
inductive Op
  | nowV7
  | sql (q : Stmt)
  deriving DecidableEq, Repr

def Op.Reply : Op → Type
  | .nowV7 => Str
  | .sql q => Except SqlError q.Reply

/-- What the outside gives one statement: the clock, the uuid minted, the order the engine returns
rows in, and whether it fails. -/
structure Tick where
  now : Time
  uuid : Str
  uuid_shape : Hyphenated uuid
  order : {τ : Type} → List τ → List τ
  order_perm : ∀ {τ : Type} (l : List τ), (order l).Perm l
  fault : Option Fault

/-- The version 7 uuid whose last twelve digits spell a number, the lowest first. -/
def uuidOf (n : Nat) : Str :=
  "01920000-0000-7000-8000".toList ++ '-' ::
    (List.range 12).map fun i => hexDigits.getD (n / 16 ^ i % 16) '0'

theorem hexDigit_of_lt {n : Nat} (h : n < 16) :
    hexDigits.getD n '0' ∈ hexDigits ∧ hexDigits.getD n '0' ≠ '-' := by
  have hall : ∀ m ∈ List.range 16, hexDigits.getD m '0' ∈ hexDigits ∧
      hexDigits.getD m '0' ≠ '-' := by decide
  exact hall n (List.mem_range.2 h)

theorem uuidOf_shape (n : Nat) : Hyphenated (uuidOf n) := by
  have hdigit : ∀ i, n / 16 ^ i % 16 < 16 := fun i => Nat.mod_lt _ (by decide)
  have hhead : ("01920000-0000-7000-8000".toList.splitOn '-').map List.length = [8, 4, 4, 4] := by
    decide
  have hhex : "01920000-0000-7000-8000".toList.all
      (fun c => c == '-' || hexDigits.contains c) = true := by decide
  have htail : '-' ∉ (List.range 12).map fun i => hexDigits.getD (n / 16 ^ i % 16) '0' := by
    intro h
    obtain ⟨i, _, hi⟩ := List.mem_map.1 h
    exact (hexDigit_of_lt (hdigit i)).2 hi
  unfold Hyphenated uuidOf
  rw [List.splitOn_append_cons_self, List.splitOn_eq_singleton htail, List.map_append, hhead,
    List.map_singleton, List.length_map, List.length_range]
  refine ⟨rfl, fun c hc => ?_⟩
  rcases List.mem_append.1 hc with hc | hc
  · have h := List.all_eq_true.1 hhex c hc
    simpa only [Bool.or_eq_true, beq_iff_eq, List.contains_iff_mem] using h
  · rcases List.mem_cons.1 hc with hc | hc
    · exact .inl hc
    · obtain ⟨i, _, rfl⟩ := List.mem_map.1 hc
      exact .inr (hexDigit_of_lt (hdigit i)).1

/-- A statement served in table order and without a fault. -/
def Tick.quiet (now : Time) (n : Nat) : Tick :=
  ⟨now, uuidOf n, uuidOf_shape n, id, fun l => .refl l, none⟩

/-- A change to records, as a statement leaves it to the commit. -/
inductive Write
  | insertProject (row : ProjectRow)
  | updateDeclared (ids : List Str) (displayName sourceRepo : Str) (status : Int) (actor : Str)
      (now : Time)
  | updateArchived (ids : List Str) (status : Int) (actor : Str) (now : Time)
  | updateLastSeen (ids : List Str) (seconds : Int)
  | deleteGrant (projectId teamId : Str)
  | updateGrant (level : Int) (projectId teamId : Str)
  | insertGrant (row : GrantRow)
  | insertWrite (row : WriteRow)
  | updateWrite (response : Bytes) (projectId userId idemKey : Str)
  deriving DecidableEq, Repr

/-- The records that locks are taken on. -/
inductive Record
  | syncLock
  | project (id : Str)
  | path (folded : Str)
  | grant (projectId teamId : Str)
  | write (key : Str × Str × Str)
  deriving DecidableEq, Repr

def ProjectRow.declared (displayName sourceRepo : Str) (status : Int) (actor : Str) (now : Time)
    (r : ProjectRow) : ProjectRow :=
  { r with
    displayName := displayName
    sourceRepo := some sourceRepo
    status := status
    version := r.version + 1
    updatedBy := actor
    updatedAt := now }

def ProjectRow.archived (status : Int) (actor : Str) (now : Time) (r : ProjectRow) : ProjectRow :=
  { r with status := status, version := r.version + 1, updatedBy := actor, updatedAt := now }

def ProjectRow.seen (seconds : Int) (r : ProjectRow) : ProjectRow :=
  { r with lastSeenAt := some seconds }

/-- `UPDATE project SET … WHERE …`. -/
def updateRows (p : ProjectRow → Bool) (f : ProjectRow → ProjectRow) (rows : List ProjectRow) :
    List ProjectRow :=
  rows.map (fun r => if p r then f r else r)

def NewProject.row (n : NewProject) (now : Time) : ProjectRow where
  id := n.id
  version := 1
  path := n.path
  displayName := n.displayName
  status := n.status
  sourceRepo := n.sourceRepo
  ownerUserId := n.ownerUserId
  visibility := n.visibility
  createdBy := n.createdBy
  updatedBy := n.updatedBy
  createdAt := now
  updatedAt := now
  lastSeenAt := none

/-- `path = ?` and `path IN (…)`: the column folds ASCII case, which is all its collation folds
within the path alphabet. A stored alias outside of it (with an accent, or a space at its end),
which nothing here writes, is not covered, nor is it where `eqIgnoreAsciiCase` stands for `=`. -/
def pathIn (path : Str) (paths : List Str) : Bool := paths.any (eqIgnoreAsciiCase path)

/-- `path IN (…) OR id IN (SELECT project_id FROM project_alias WHERE alias_path IN (…))`. -/
def matchesPaths (s : Store) (paths : List Str) (r : ProjectRow) : Bool :=
  pathIn r.path paths ||
    s.projectAlias.any (fun a => pathIn a.aliasPath paths && a.projectId == r.id)

/-- The two arms of the ancestor walk. -/
def ancestorRows (s : Store) (chain : List Str) : List Found :=
  (s.project.filter (fun p => pathIn p.path chain)).map
      (fun p => ⟨p.path, p.path, p.status, 0, p.sourceRepo⟩) ++
    (s.projectAlias.filter (fun a => pathIn a.aliasPath chain)).flatMap (fun a =>
      (s.project.filter (fun p => p.id == a.projectId)).map
        (fun p => ⟨a.aliasPath, p.path, p.status, 1, p.sourceRepo⟩))

/-- `project_grant g JOIN project p ON p.id = g.project_id WHERE p.owner_user_id IS NULL`. -/
def orgGrants (s : Store) : List StoredGrant :=
  s.projectGrant.flatMap (fun g =>
    (s.orgRows.filter (fun p => p.id == g.projectId)).map
      (fun p => ⟨g.projectId, p.path, g.teamId, g.level⟩))

/-- Put a backslash before what a pattern would not take literally. -/
def likeEscape (value : Str) : Str :=
  value.flatMap fun c => if c = '\\' ∨ c = '%' ∨ c = '_' then ['\\', c] else [c]

/-- The pattern of everything strictly beneath a path. -/
def subtree (path : Str) : Str := likeEscape path ++ "/%".toList

/-- `LIKE … ESCAPE '\\'` under a collation that folds ASCII case. -/
def like : Str → Str → Bool
  | [], s => s.isEmpty
  | '%' :: p, s => s.tails.any (like p)
  | '_' :: p, s => s.tail? |>.any (like p)
  | '\\' :: c :: p, s => s.head?.any (fun d => d.toLower == c.toLower) && like p s.tail
  | c :: p, s => s.head?.any (fun d => d.toLower == c.toLower) && like p s.tail

/-- The weights of a path's characters under its columns' collation: an ASCII letter has that of
its upper case. -/
def weight (s : Str) : Str := s.map Char.toUpper

/-- The order of the path columns. -/
def PathLe (a b : Str) : Prop := weight a ≤ weight b

instance : DecidableRel PathLe := fun a b => inferInstanceAs (Decidable (weight a ≤ weight b))

/-- `path = ? OR id = (SELECT project_id FROM project_alias WHERE alias_path = ?)`. -/
def names (s : Store) (path : Str) (r : ProjectRow) : Bool :=
  eqIgnoreAsciiCase r.path path ||
    (s.projectAlias.find? fun a => eqIgnoreAsciiCase a.aliasPath path).any (·.projectId == r.id)

/-- The `WHERE` of a page. -/
def onPage (under : Option (Str × Str)) (status : Option Int) (after : Option Str)
    (r : ProjectRow) : Bool :=
  under.all (fun (path, pattern) => eqIgnoreAsciiCase r.path path || like pattern r.path) &&
    status.all (r.status == ·) && after.all (fun path => !decide (PathLe r.path path))

section
variable [ServerCollation]

/-- One statement on the store a transaction sees. -/
def Stmt.exec (t : Tick) : (q : Stmt) → Store → Except SqlError (q.Reply × List Write)
  | .selectSyncLockForUpdate, _ => .ok ((), [])
  | .selectOrgProjects, s =>
    .ok (t.order (s.orgRows.map Stored.of), [])
  | .selectAliasIn paths, s =>
    .ok ((t.order ((s.projectAlias.filter (fun a => pathIn a.aliasPath paths)).map
      AliasRow.aliasPath)).head?, [])
  | .selectOrgGrants, s => .ok (t.order (orgGrants s), [])
  | .updateDeclared displayName sourceRepo status actor id, s =>
    let hits := s.project.filter (fun r => r.id == id)
    if hits.all (fun r => (r.declared displayName sourceRepo status actor t.now).fits) then
      .ok ((), [.updateDeclared (hits.map ProjectRow.id) displayName sourceRepo status actor t.now])
    else .error .constraint
  | .insertProject n, s =>
    let row := n.row t.now
    if !row.fits then .error .constraint
    else if s.project.any (fun r => r.id == row.id || eqIgnoreAsciiCase r.path row.path) then
      .error .uniqueViolation
    else .ok ((), [.insertProject row])
  | .updateArchived status actor ids, s =>
    let hits := s.project.filter (fun r => ids.contains r.id)
    if hits.all (fun r => (r.archived status actor t.now).fits) then
      .ok ((), [.updateArchived (hits.map ProjectRow.id) status actor t.now])
    else .error .constraint
  | .deleteGrant projectId teamId, _ => .ok ((), [.deleteGrant projectId teamId])
  | .updateGrant level projectId teamId, _ =>
    if level == 1 || level == 2 then .ok ((), [.updateGrant level projectId teamId])
    else .error .constraint
  | .insertGrant g, s =>
    if !(g.fits && s.project.any (fun r => r.id == g.projectId)) then .error .constraint
    else if s.projectGrant.any (fun h => h.projectId == g.projectId && h.teamId == g.teamId) then
      .error .uniqueViolation
    else .ok ((), [.insertGrant g])
  | .insertWrite projectId userId idemKey rpc fingerprint, s =>
    let row := WriteRow.kept ⟨projectId, userId, idemKey, rpc, [], fingerprint⟩
    if !row.fits then .error .constraint
    else if s.projectWrite.any (fun w => w.key == row.key) then .error .uniqueViolation
    else .ok ((), [.insertWrite row])
  | .selectWriteForUpdate projectId userId idemKey, s =>
    match s.projectWrite.find? (fun w => w.key == ledgerKey projectId userId idemKey) with
    | some w => .ok ((w.rpc, w.response, w.requestFingerprint), [])
    | none => .error .rowNotFound
  | .updateWrite response projectId userId idemKey, _ =>
    if response.length ≤ 4096 then .ok ((), [.updateWrite response projectId userId idemKey])
    else .error .constraint
  | .selectAliasOwner path, s =>
    .ok ((s.projectAlias.find? (fun a => eqIgnoreAsciiCase a.aliasPath path)).map
      AliasRow.projectId, [])
  | .updateLastSeen seconds paths, s =>
    let hits := s.project.filter (fun r =>
      matchesPaths s paths r && r.lastSeenAt.all (· < seconds))
    .ok ((), [.updateLastSeen (hits.map ProjectRow.id) seconds])
  | .countMatching paths, s => .ok ((s.project.filter (matchesPaths s paths)).length, [])
  | .selectAncestors chain, s => .ok (t.order (ancestorRows s chain), [])
  | .selectProject path, s =>
    .ok (((t.order (s.project.filter (names s path))).insertionSort fun p q =>
      eqIgnoreAsciiCase p.path path || !eqIgnoreAsciiCase q.path path).head?, [])
  | .selectPage under status after limit, s =>
    .ok (((t.order (s.project.filter (onPage under status after))).insertionSort fun p q =>
      PathLe p.path q.path).take limit, [])
  | .selectAliases ids, s =>
    .ok ((t.order (s.projectAlias.filter fun a => ids.contains a.projectId)).insertionSort
      fun a b => PathLe a.aliasPath b.aliasPath, [])
  | .selectGrants ids, s =>
    .ok ((t.order (s.projectGrant.flatMap fun g =>
      (s.orgRows.filter fun p => p.id == g.projectId && ids.contains g.projectId).map
        fun _ => g)).insertionSort fun g h => g.teamId ≤ h.teamId, [])

def Write.patch : Write → Store → Store
  | .insertProject row, s => { s with project := s.project ++ [row] }
  | .updateDeclared ids displayName sourceRepo status actor now, s =>
    { s with
      project := updateRows (fun r => ids.contains r.id)
        (ProjectRow.declared displayName sourceRepo status actor now) s.project }
  | .updateArchived ids status actor now, s =>
    { s with
      project := updateRows (fun r => ids.contains r.id)
        (ProjectRow.archived status actor now) s.project }
  | .updateLastSeen ids seconds, s =>
    { s with
      project := updateRows (fun r => ids.contains r.id) (ProjectRow.seen seconds) s.project }
  | .deleteGrant projectId teamId, s =>
    { s with
      projectGrant :=
        s.projectGrant.filter (fun g => !(g.projectId == projectId && g.teamId == teamId)) }
  | .updateGrant level projectId teamId, s =>
    { s with
      projectGrant := s.projectGrant.map (fun g =>
        if g.projectId == projectId && g.teamId == teamId then { g with level := level } else g) }
  | .insertGrant g, s => { s with projectGrant := s.projectGrant ++ [g] }
  | .insertWrite w, s => { s with projectWrite := s.projectWrite ++ [w] }
  | .updateWrite response projectId userId idemKey, s =>
    { s with
      projectWrite := s.projectWrite.map (fun w =>
        if w.key == ledgerKey projectId userId idemKey then { w with response := response }
        else w) }

def Write.records : Write → List Record
  | .insertProject row => [.project row.id, .path (toAsciiLowercase row.path)]
  | .updateDeclared ids .. => ids.map .project
  | .updateArchived ids .. => ids.map .project
  | .updateLastSeen ids _ => ids.map .project
  | .deleteGrant projectId teamId => [.grant projectId teamId]
  | .updateGrant _ projectId teamId => [.grant projectId teamId]
  | .insertGrant g => [.grant g.projectId g.teamId]
  | .insertWrite w => [.write w.key]
  | .updateWrite _ projectId userId idemKey => [.write (ledgerKey projectId userId idemKey)]

/-- The records of a write that were there before it. -/
def Write.revised : Write → List Record
  | .insertProject _ => []
  | .insertGrant _ => []
  | .insertWrite _ => []
  | w => w.records

/-- A plain `SELECT`, which reads the transaction's view and locks nothing. -/
def Stmt.nonlocking : Stmt → Bool
  | .selectOrgProjects => true
  | .selectAliasIn _ => true
  | .selectOrgGrants => true
  | .selectAliasOwner _ => true
  | .countMatching _ => true
  | .selectAncestors _ => true
  | .selectProject _ => true
  | .selectPage .. => true
  | .selectAliases _ => true
  | .selectGrants _ => true
  | _ => false

def Stmt.locks : Stmt → List Record
  | .selectSyncLockForUpdate => [.syncLock]
  | .selectWriteForUpdate projectId userId idemKey => [.write (ledgerKey projectId userId idemKey)]
  | _ => []

def Op.exec (t : Tick) : (o : Op) → Store → o.Reply × List Write
  | .nowV7, _ => (t.uuid, [])
  | .sql q, s =>
    match t.fault with
    | some f => (.error (.fault f), [])
    | none =>
      match q.exec t s with
      | .ok (a, ws) => (.ok a, ws)
      | .error e => (.error e, [])

/-- MariaDB as this service uses it, at `REPEATABLE READ`. -/
def engine : Mvcc.Rules Store Write Record SqlError Op Op.Reply Tick where
  exec := Op.exec
  patch := Write.patch
  refused := fun t => t.fault.map .fault
  landed := fun t => t.fault == some .replyLost
  nonlocking := fun
    | .nowV7 => false
    | .sql q => q.nonlocking
  locks := fun t o _ =>
    match o, t.fault with
    | .sql q, none => q.locks
    | _, _ => []
  writes := Write.records
  revises := Write.revised
  stale := fun
    | .nowV7 => []
    | .sql _ => .error .checkRead

end

end ProjectDb
