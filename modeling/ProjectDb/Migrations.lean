import ProjectDb.Ddl
import ProjectDb.Restart
import ProjectDb.Sql

namespace ProjectDb.Schema
open Text Ddl Restart
set_option autoImplicit true

/-- The tables, columns, keys and constraints of the store. -/
inductive Name
  | project | project_alias | project_write | project_sync_lock | project_grant
  | id | version | path | display_name | status | source_repo | owner_user_id | visibility
  | created_by | updated_by | created_at | updated_at | last_seen_at
  | alias_path | project_id | user_id | idem_key | rpc | response | request_fingerprint
  | team_id | level
  | uq_project_path | ix_project_status | ix_project_alias_project
  | ck_project_class | ck_project_class_path | ck_project_sync_lock_one
  | fk_project_grant_project | ck_project_grant_level
  deriving DecidableEq, Repr

/-- The collation the migrations name, and the server's default for `utf8mb4`. -/
inductive Collation
  | utf8mb4GeneralCi
  | collationServer
  deriving DecidableEq, Repr

/-- `CHECK ((source_repo IS NOT NULL) <> (owner_user_id IS NOT NULL))`. -/
def ckProjectClass : Check Name :=
  ⟨.ck_project_class, .differ (.isNotNull .source_repo) (.isNotNull .owner_user_id)⟩

/-- `CHECK ((owner_user_id IS NOT NULL) = (path LIKE 'local/%'))`. -/
def ckProjectClassPath : Check Name :=
  ⟨.ck_project_class_path, .equal (.isNotNull .owner_user_id) (.like .path "local/%".toList)⟩

def createProject : Migration (Statement Name Collation) where
  version := 1
  name := "create_project"
  sql := [.createTable false .project
    [⟨.id, .varchar 96, none, false, none⟩,
      ⟨.version, .bigintUnsigned, none, false, some (.int 1)⟩,
      ⟨.path, .varchar 255, some .utf8mb4GeneralCi, false, none⟩,
      ⟨.display_name, .varchar 255, none, false, none⟩,
      ⟨.status, .tinyint, none, false, none⟩,
      ⟨.source_repo, .varchar 255, none, true, none⟩,
      ⟨.owner_user_id, .varchar 64, none, true, none⟩,
      ⟨.visibility, .tinyint, none, false, none⟩,
      ⟨.created_by, .varchar 64, none, false, none⟩,
      ⟨.updated_by, .varchar 64, none, false, none⟩,
      ⟨.created_at, .timestamp, none, false, some .currentTimestamp⟩,
      ⟨.updated_at, .timestamp, none, false, some .currentTimestamp⟩,
      ⟨.last_seen_at, .timestamp, none, true, some .null⟩]
    [⟨.primary, none, [.id]⟩, ⟨.unique, some .uq_project_path, [.path]⟩,
      ⟨.plain, some .ix_project_status, [.status]⟩]
    [] [ckProjectClass, ckProjectClassPath]]

def projectAlias : Migration (Statement Name Collation) where
  version := 2
  name := "project_alias"
  sql := [.createTable false .project_alias
    [⟨.alias_path, .varchar 255, none, false, none⟩,
      ⟨.project_id, .varchar 96, none, false, none⟩,
      ⟨.created_at, .timestamp, none, false, some .currentTimestamp⟩]
    [⟨.primary, none, [.alias_path]⟩, ⟨.plain, some .ix_project_alias_project, [.project_id]⟩]
    [] []]

def projectWriteIdempotency : Migration (Statement Name Collation) where
  version := 3
  name := "project_write_idempotency"
  sql := [.createTable false .project_write
    [⟨.project_id, .varchar 255, none, false, none⟩,
      ⟨.user_id, .varchar 64, none, false, none⟩,
      ⟨.idem_key, .varchar 255, none, false, none⟩,
      ⟨.rpc, .varchar 32, none, false, none⟩,
      ⟨.response, .varbinary 4096, none, false, none⟩,
      ⟨.request_fingerprint, .binary 32, none, false, none⟩,
      ⟨.created_at, .timestamp, none, false, some .currentTimestamp⟩]
    [⟨.primary, none, [.project_id, .user_id, .idem_key]⟩]
    [] []]

def pinThePathCollation : Migration (Statement Name Collation) where
  version := 4
  name := "pin_the_path_collation"
  sql := [
    .modifyColumn .project ⟨.path, .varchar 255, some .utf8mb4GeneralCi, false, none⟩,
    .modifyColumn .project_alias ⟨.alias_path, .varchar 255, some .utf8mb4GeneralCi, false, none⟩]

def projectSyncLock : Migration (Statement Name Collation) where
  version := 5
  name := "project_sync_lock"
  sql := [
    .createTable true .project_sync_lock [⟨.id, .tinyintUnsigned, none, false, none⟩]
      [⟨.primary, none, [.id]⟩] [] [⟨.ck_project_sync_lock_one, .isIn .id [1]⟩],
    .insertIgnore .project_sync_lock [(.id, .int 1)]]

def projectClassColumns : Migration (Statement Name Collation) where
  version := 6
  name := "project_class_columns"
  sql := [
    .addColumns .project
      [(⟨.source_repo, .varchar 255, none, true, none⟩, .status),
        (⟨.owner_user_id, .varchar 64, none, true, none⟩, .source_repo),
        (⟨.visibility, .tinyint, none, false, none⟩, .owner_user_id)],
    .addCheck .project ckProjectClass,
    .addCheck .project ckProjectClassPath]

def projectGrant : Migration (Statement Name Collation) where
  version := 7
  name := "project_grant"
  sql := [.createTable true .project_grant
    [⟨.project_id, .varchar 96, none, false, none⟩,
      ⟨.team_id, .varchar 96, none, false, none⟩,
      ⟨.level, .tinyint, none, false, none⟩]
    [⟨.primary, none, [.project_id, .team_id]⟩]
    [⟨.fk_project_grant_project, .project_id, .project, .id, true⟩]
    [⟨.ck_project_grant_level, .isIn .level [1, 2]⟩]]

def migrations : List (Migration (Statement Name Collation)) :=
  [createProject, projectAlias, projectWriteIdempotency, pinThePathCollation, projectSyncLock,
    projectClassColumns, projectGrant]

/-- The first migration as v0.1.x has it. -/
def createProjectV0_1 : Migration (Statement Name Collation) where
  version := 1
  name := "create_project"
  sql := [.createTable false .project
    [⟨.id, .varchar 96, none, false, none⟩,
      ⟨.version, .bigintUnsigned, none, false, some (.int 1)⟩,
      ⟨.path, .varchar 255, none, false, none⟩,
      ⟨.display_name, .varchar 255, none, false, none⟩,
      ⟨.status, .tinyint, none, false, none⟩,
      ⟨.created_by, .varchar 64, none, false, none⟩,
      ⟨.updated_by, .varchar 64, none, false, none⟩,
      ⟨.created_at, .timestamp, none, false, some .currentTimestamp⟩,
      ⟨.updated_at, .timestamp, none, false, some .currentTimestamp⟩,
      ⟨.last_seen_at, .timestamp, none, true, some .null⟩]
    [⟨.primary, none, [.id]⟩, ⟨.unique, some .uq_project_path, [.path]⟩,
      ⟨.plain, some .ix_project_status, [.status]⟩]
    [] []]

/-- The migrations of v0.1.x, whose others are those of this set. -/
def v0_1 : List (Migration (Statement Name Collation)) :=
  [createProjectV0_1, projectAlias, projectWriteIdempotency, pinThePathCollation]

abbrev Store := Database (Tables Name Collation)

/-- The columns of `project` that every version has, before those of the class and after. -/
def identity (path : Collation) : List (Column Name Collation) :=
  [⟨.id, .varchar 96, some .collationServer, false, none⟩,
    ⟨.version, .bigintUnsigned, none, false, some (.int 1)⟩,
    ⟨.path, .varchar 255, some path, false, none⟩,
    ⟨.display_name, .varchar 255, some .collationServer, false, none⟩,
    ⟨.status, .tinyint, none, false, none⟩]

def stamps : List (Column Name Collation) :=
  [⟨.created_by, .varchar 64, some .collationServer, false, none⟩,
    ⟨.updated_by, .varchar 64, some .collationServer, false, none⟩,
    ⟨.created_at, .timestamp, none, false, some .currentTimestamp⟩,
    ⟨.updated_at, .timestamp, none, false, some .currentTimestamp⟩,
    ⟨.last_seen_at, .timestamp, none, true, some .null⟩]

def classes : List (Column Name Collation) :=
  [⟨.source_repo, .varchar 255, some .collationServer, true, none⟩,
    ⟨.owner_user_id, .varchar 64, some .collationServer, true, none⟩,
    ⟨.visibility, .tinyint, none, false, none⟩]

def projectTable (columns : List (Column Name Collation)) (checks : List (Check Name)) :
    Table Name Collation where
  columns := columns
  keys := [⟨.primary, none, [.id]⟩, ⟨.unique, some .uq_project_path, [.path]⟩,
    ⟨.plain, some .ix_project_status, [.status]⟩]
  foreignKeys := []
  checks := checks
  rows := []

/-- The table of projects with the class columns, and some checks. -/
def checked (checks : List (Check Name)) : Table Name Collation :=
  projectTable (identity .utf8mb4GeneralCi ++ classes ++ stamps) checks

/-- The table of projects that this release has. -/
def classed : Table Name Collation := checked [ckProjectClass, ckProjectClassPath]

/-- The table of projects that v0.1.x has, without a row. -/
def unclassed : Table Name Collation := projectTable (identity .utf8mb4GeneralCi ++ stamps) []

def aliasTable (path : Collation) (rows : List (List Value)) : Table Name Collation where
  columns := [⟨.alias_path, .varchar 255, some path, false, none⟩,
    ⟨.project_id, .varchar 96, some .collationServer, false, none⟩,
    ⟨.created_at, .timestamp, none, false, some .currentTimestamp⟩]
  keys := [⟨.primary, none, [.alias_path]⟩,
    ⟨.plain, some .ix_project_alias_project, [.project_id]⟩]
  foreignKeys := []
  checks := []
  rows := rows

def writeTable (rows : List (List Value)) : Table Name Collation where
  columns := [⟨.project_id, .varchar 255, some .collationServer, false, none⟩,
    ⟨.user_id, .varchar 64, some .collationServer, false, none⟩,
    ⟨.idem_key, .varchar 255, some .collationServer, false, none⟩,
    ⟨.rpc, .varchar 32, some .collationServer, false, none⟩,
    ⟨.response, .varbinary 4096, none, false, none⟩,
    ⟨.request_fingerprint, .binary 32, none, false, none⟩,
    ⟨.created_at, .timestamp, none, false, some .currentTimestamp⟩]
  keys := [⟨.primary, none, [.project_id, .user_id, .idem_key]⟩]
  foreignKeys := []
  checks := []
  rows := rows

def lockTable (rows : List (List Value)) : Table Name Collation where
  columns := [⟨.id, .tinyintUnsigned, none, false, none⟩]
  keys := [⟨.primary, none, [.id]⟩]
  foreignKeys := []
  checks := [⟨.ck_project_sync_lock_one, .isIn .id [1]⟩]
  rows := rows

def grantTable : Table Name Collation where
  columns := [⟨.project_id, .varchar 96, some .collationServer, false, none⟩,
    ⟨.team_id, .varchar 96, some .collationServer, false, none⟩,
    ⟨.level, .tinyint, none, false, none⟩]
  keys := [⟨.primary, none, [.project_id, .team_id]⟩]
  foreignKeys := [⟨.fk_project_grant_project, .project_id, .project, .id, true⟩]
  checks := [⟨.ck_project_grant_level, .isIn .level [1, 2]⟩]
  rows := []

/-- The tables of a store from migration 4 on. -/
def tables (project : Table Name Collation) (aliases writes : List (List Value))
    (rest : Tables Name Collation) : Tables Name Collation :=
  (.project, project) :: (.project_alias, aliasTable .utf8mb4GeneralCi aliases) ::
    (.project_write, writeTable writes) :: rest

/-- The tables of a store from migration 5 on, with the sentinel row. -/
def locked (project : Table Name Collation) (aliases writes : List (List Value))
    (rest : Tables Name Collation) : Tables Name Collation :=
  tables project aliases writes ((.project_sync_lock, lockTable [[.int 1]]) :: rest)

/-- The tables of this release. -/
def released (aliases writes : List (List Value)) : Tables Name Collation :=
  locked classed aliases writes [(.project_grant, grantTable)]

/-- The server a store runs on, whatever its comparisons and its clock. -/
def server (same like : Collation → Str → Str → Bool) (now : Int) : Server Collation :=
  ⟨.collationServer, same, like, now⟩

variable {same like : Collation → Str → Str → Bool} {now : Int}

theorem forall_single {p : α → Prop} (h : p a) : ∀ x ∈ [a], p x :=
  List.forall_mem_cons.2 ⟨h, fun _ h => nomatch h⟩

theorem forall_pair {p : α → Prop} (ha : p a) (hb : p b) : ∀ x ∈ [a, b], p x :=
  List.forall_mem_cons.2 ⟨ha, forall_single hb⟩

theorem forall_triple {p : α → Prop} (ha : p a) (hb : p b) (hc : p c) : ∀ x ∈ [a, b, c], p x :=
  List.forall_mem_cons.2 ⟨ha, forall_pair hb hc⟩

theorem pinThePathCollation_retraces : Retraces (exec (server same like now)) []
    pinThePathCollation.sql
    [(.project, classed), (.project_alias, aliasTable .collationServer []),
      (.project_write, writeTable [])] (tables classed [] [] []) :=
  ⟨[(.project, classed), (.project_alias, aliasTable .collationServer []),
    (.project_write, writeTable [])], rfl, forall_single rfl,
    tables classed [] [] [], rfl, forall_pair rfl rfl, rfl⟩

theorem projectSyncLock_retraces (project : Table Name Collation) (aliases writes) :
    Retraces (exec (server same like now)) [] projectSyncLock.sql
      (tables project aliases writes []) (locked project aliases writes []) :=
  ⟨tables project aliases writes [(.project_sync_lock, lockTable [])], rfl, forall_single rfl,
    locked project aliases writes [], rfl, forall_pair rfl rfl, rfl⟩

theorem projectClassColumns_classed (aliases writes) :
    Retraces (exec (server same like now)) [] projectClassColumns.sql
      (locked classed aliases writes []) (locked classed aliases writes []) :=
  ⟨locked classed aliases writes [], rfl, forall_single rfl,
    locked classed aliases writes [], rfl, forall_pair rfl rfl,
    locked classed aliases writes [], rfl, forall_triple rfl rfl rfl, rfl⟩

theorem projectClassColumns_unclassed (aliases writes) :
    Retraces (exec (server same like now)) [] projectClassColumns.sql
      (locked unclassed aliases writes []) (locked classed aliases writes []) :=
  ⟨locked (checked []) aliases writes [], rfl, forall_single rfl,
    locked (checked [ckProjectClass]) aliases writes [], rfl, forall_pair rfl rfl,
    locked classed aliases writes [], rfl, forall_triple rfl rfl rfl, rfl⟩

theorem projectGrant_retraces (aliases writes) :
    Retraces (exec (server same like now)) [] projectGrant.sql
      (locked classed aliases writes []) (released aliases writes) :=
  ⟨released aliases writes, rfl, forall_single rfl, rfl⟩

/-- The versions that create a table without asking whether it is there. -/
def Unguarded (version : Nat) : Prop := version ∈ [1, 2, 3]

instance : DecidablePred Unguarded := fun version =>
  inferInstanceAs (Decidable (version ∈ [1, 2, 3]))

theorem migrations_ordered : Ordered migrations := ⟨by decide, by decide⟩

/-- After migration 4 the set may be run again from anywhere. -/
theorem ready_after_four {project : Table Name Collation}
    (h : project = classed ∨ project = unclassed) (aliases writes) :
    Ready (exec (server same like now)) Unguarded
      [projectSyncLock, projectClassColumns, projectGrant]
      (tables project aliases writes []) (released aliases writes) := by
  have hclass : Retraces (exec (server same like now)) [] projectClassColumns.sql
      (locked project aliases writes []) (locked classed aliases writes []) := by
    rcases h with rfl | rfl
    · exact projectClassColumns_classed aliases writes
    · exact projectClassColumns_unclassed aliases writes
  apply Ready.again (j := 0) (by decide)
    (projectSyncLock_retraces project aliases writes).rerunnable rfl
  apply Ready.again (j := 0) (by decide) hclass.rerunnable rfl
  apply Ready.again (j := 0) (by decide) (projectGrant_retraces aliases writes).rerunnable rfl
  exact .done

theorem ready_empty :
    Ready (exec (server same like now)) Unguarded migrations [] (released [] []) := by
  have hproject : runAll (exec (server same like now)) createProject.sql [] =
      .ok [(.project, classed)] := rfl
  have halias : runAll (exec (server same like now)) projectAlias.sql [(.project, classed)] =
      .ok [(.project, classed), (.project_alias, aliasTable .collationServer [])] := rfl
  have hwrite : runAll (exec (server same like now)) projectWriteIdempotency.sql
      [(.project, classed), (.project_alias, aliasTable .collationServer [])] =
        .ok [(.project, classed), (.project_alias, aliasTable .collationServer []),
          (.project_write, writeTable [])] := rfl
  apply Ready.unguarded (by decide) rfl hproject rfl
  apply Ready.unguarded (by decide) rfl halias rfl
  apply Ready.unguarded (by decide) rfl hwrite rfl
  apply Ready.again (j := 0) (by decide) pinThePathCollation_retraces.rerunnable rfl
  exact ready_after_four (.inl rfl) [] []

/-- What a store may have been before the boots: nothing, or one of v0.1.x without a project. -/
inductive History : Store → Prop
  | empty : History ⟨[], []⟩
  | v0_1 (aliases writes) : History ⟨tables unclassed aliases writes [], [1, 2, 3, 4]⟩

-- a boot of v0.1.x from nothing leaves such a store
example (same like : Collation → Str → Str → Bool) (now : Int) :
    boot (exec (server same like now)) v0_1 ⟨[], []⟩ =
      (none, ⟨tables unclassed [] [] [], [1, 2, 3, 4]⟩) := rfl

theorem History.standing (same like : Collation → Str → Str → Bool) (now : Int) (h : History db) :
    ∃ aliases writes,
    Standing (exec (server same like now)) Unguarded migrations (released aliases writes) db := by
  cases h with
  | empty => exact ⟨[], [], [], migrations, rfl, rfl, ready_empty⟩
  | v0_1 aliases writes =>
    exact ⟨aliases, writes, [createProject, projectAlias, projectWriteIdempotency,
      pinThePathCollation], _, rfl, rfl, ready_after_four (.inr rfl) aliases writes⟩

/-- What a schema is: the tables without their rows, the sentinel row apart. -/
def schema (ts : Tables Name Collation) : Tables Name Collation :=
  ts.map fun e => (e.1, { e.2 with rows := if e.1 = .project_sync_lock then e.2.rows else [] })

/-- After these boots, each cut off after some number of steps, one that is not cut off succeeds,
and leaves the ledger and the schema of an uninterrupted boot from an empty database. -/
def Restarts (S : Server Collation) (cuts : List Nat) (db : Store) : Prop :=
  ∃ db' fresh, boot (exec S) migrations (cutOffs (exec S) migrations cuts db) = (none, db') ∧
    boot (exec S) migrations ⟨[], []⟩ = (none, fresh) ∧
    db'.ledger = [1, 2, 3, 4, 5, 6, 7] ∧ schema db'.tables = schema fresh.tables

theorem restarts_of_spared (h : History db)
    (hcuts : Spared (exec (server same like now)) Unguarded migrations cuts db) :
    Restarts (server same like now) cuts db := by
  obtain ⟨aliases, writes, hstand⟩ := h.standing same like now
  obtain ⟨aliases', writes', hfresh⟩ := History.empty.standing same like now
  exact ⟨_, _, hstand.boot_cutOffs migrations_ordered hcuts, hfresh.boot migrations_ordered, rfl,
    rfl⟩

/-- The migrations restart after every cut but those between a bare `CREATE TABLE` and the row that
records its migration. -/
theorem restarts_iff (same like : Collation → Str → Str → Bool) (now : Int) {db : Store}
    (h : History db) (cuts : List Nat) : Restarts (server same like now) cuts db ↔
      Spared (exec (server same like now)) Unguarded migrations cuts db := by
  refine ⟨fun ⟨db', _, hboot, _⟩ => ?_, restarts_of_spared h⟩
  obtain ⟨aliases, writes, hstand⟩ := h.standing same like now
  by_contra hcuts
  obtain ⟨e, db'', hfails⟩ := hstand.boot_fails migrations_ordered hcuts
  rw [hfails] at hboot
  cases congrArg Prod.fst hboot

theorem upgrade_restarts (same like : Collation → Str → Str → Bool) (now : Int) (aliases writes)
    (cuts : List Nat) : Restarts (server same like now) cuts
      ⟨tables unclassed aliases writes [], [1, 2, 3, 4]⟩ := by
  apply restarts_of_spared (.v0_1 aliases writes)
  apply spared_of_recorded
  intro m _ h
  exact List.mem_append_left [4] h

/-- A server that compares text as the collations here do. -/
def mariadb : Server Collation := server (fun _ => eqIgnoreAsciiCase) (fun _ => ProjectDb.like) 0

/-- A boot cut off after the first migration, and one cut off before the fifth's ledger row. -/
theorem restarts_after_two : Restarts mariadb [2, 9] ⟨[], []⟩ := by
  refine (restarts_iff _ _ _ .empty [2, 9]).2 ⟨?_, ?_, trivial⟩
  · intro ⟨_, _, h, _⟩
    cases h
  · intro ⟨_, _, h, honce⟩
    cases h
    revert honce
    decide

/-- A first boot cut off after `CREATE TABLE project` leaves a table that the next one, whole,
fails on. -/
theorem boot_interrupted : ¬ Restarts mariadb [1] ⟨[], []⟩ := by
  have hfails : boot (exec mariadb) migrations (cutOffs (exec mariadb) migrations [1] ⟨[], []⟩) =
      (some (.tableExists .project), ⟨[(.project, classed)], []⟩) := rfl
  intro ⟨db', _, hboot, _⟩
  rw [hfails] at hboot
  cases congrArg Prod.fst hboot

end ProjectDb.Schema
