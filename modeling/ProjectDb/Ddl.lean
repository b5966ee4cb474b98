import ProjectDb.Text

namespace Ddl
open Text
set_option autoImplicit true

inductive SqlType
  | varchar (n : Nat)
  | varbinary (n : Nat)
  | binary (n : Nat)
  | tinyint
  | tinyintUnsigned
  | bigintUnsigned
  | timestamp
  deriving DecidableEq, Repr

inductive Value
  | null
  | int (n : Int)
  | text (s : Str)
  | bytes (bs : List UInt8)
  deriving DecidableEq, Repr

inductive Default
  | null
  | int (n : Int)
  | currentTimestamp
  deriving DecidableEq, Repr

structure Column (ν κ : Type) where
  name : ν
  type : SqlType
  collation : Option κ
  nullable : Bool
  dflt : Option Default
  deriving DecidableEq, Repr

inductive KeyKind
  | primary
  | unique
  | plain
  deriving DecidableEq, Repr

structure Key (ν : Type) where
  kind : KeyKind
  name : Option ν
  columns : List ν
  deriving DecidableEq, Repr

structure ForeignKey (ν : Type) where
  name : ν
  column : ν
  table : ν
  target : ν
  cascade : Bool
  deriving DecidableEq, Repr

inductive Clause (ν : Type)
  | isNotNull (column : ν)
  | differ (a b : Clause ν)
  | equal (a b : Clause ν)
  | like (column : ν) (pattern : Str)
  | isIn (column : ν) (ns : List Int)
  deriving DecidableEq, Repr

structure Check (ν : Type) where
  name : ν
  clause : Clause ν
  deriving DecidableEq, Repr

structure Table (ν κ : Type) where
  columns : List (Column ν κ)
  keys : List (Key ν)
  foreignKeys : List (ForeignKey ν)
  checks : List (Check ν)
  rows : List (List Value)
  deriving DecidableEq, Repr

abbrev Tables (ν κ : Type) := List (ν × Table ν κ)

/-- What a server brings: the collation of a text column that names none, how text compares under
a collation, and the clock. -/
structure Server (κ : Type) where
  default : κ
  same : κ → Str → Str → Bool
  like : κ → Str → Str → Bool
  now : Int

inductive Statement (ν κ : Type)
  | createTable (unlessExists : Bool) (name : ν) (columns : List (Column ν κ))
    (keys : List (Key ν)) (foreignKeys : List (ForeignKey ν)) (checks : List (Check ν))
  /-- `ALTER TABLE … MODIFY …`. -/
  | modifyColumn (table : ν) (column : Column ν κ)
  /-- `ALTER TABLE … ADD COLUMN IF NOT EXISTS … AFTER …, …`. -/
  | addColumns (table : ν) (columns : List (Column ν κ × ν))
  /-- `ALTER TABLE … ADD CONSTRAINT IF NOT EXISTS … CHECK …`. -/
  | addCheck (table : ν) (check : Check ν)
  /-- `INSERT IGNORE INTO … (…) VALUES (…)`. -/
  | insertIgnore (table : ν) (cells : List (ν × Value))

inductive Error (ν : Type)
  | tableExists (table : ν)
  | noSuchTable (table : ν)
  | noSuchColumn (table column : ν)
  | duplicateEntry (table : ν)
  | checkFailed (name : ν)
  | foreignKeyMalformed (name : ν)
  deriving DecidableEq, Repr

variable {ν κ : Type} [DecidableEq ν] [DecidableEq κ]

def find (ts : Tables ν κ) (name : ν) : Option (Table ν κ) :=
  (ts.find? fun e => e.1 == name).map Prod.snd

def put (ts : Tables ν κ) (name : ν) (t : Table ν κ) : Tables ν κ :=
  ts.map fun e => if e.1 = name then (name, t) else e

/-- A text column that names no collation takes the server's. -/
def Column.settle (S : Server κ) (c : Column ν κ) : Column ν κ :=
  match c.type, c.collation with
  | .varchar _, none => { c with collation := some S.default }
  | _, _ => c

/-- What the column of a row is that brings no value for it. -/
def Column.fill (S : Server κ) (c : Column ν κ) : Value :=
  match c.dflt with
  | some .null => .null
  | some (.int n) => .int n
  | some .currentTimestamp => .int S.now
  | none =>
    if c.nullable then .null
    else
      match c.type with
      | .varchar _ => .text []
      | .varbinary _ | .binary _ => .bytes []
      | _ => .int 0

namespace Table

def index (t : Table ν κ) (column : ν) : Nat := t.columns.findIdx fun c => c.name == column

def column (t : Table ν κ) (name : ν) : Option (Column ν κ) :=
  t.columns.find? fun c => c.name == name

def cell (t : Table ν κ) (row : List Value) (column : ν) : Value :=
  row.getD (t.index column) .null

def collation (S : Server κ) (t : Table ν κ) (column : ν) : κ :=
  ((t.column column).bind Column.collation).getD S.default

/-- A clause over a row, with no answer where a column it compares is null. -/
def eval (S : Server κ) (t : Table ν κ) (row : List Value) : Clause ν → Option Bool
  | .isNotNull c => some (t.cell row c != .null)
  | .differ a b => do return (← t.eval S row a) != (← t.eval S row b)
  | .equal a b => do return (← t.eval S row a) == (← t.eval S row b)
  | .like c pattern =>
    match t.cell row c with
    | .text s => some (S.like (t.collation S c) pattern s)
    | _ => none
  | .isIn c ns =>
    match t.cell row c with
    | .int n => some (ns.contains n)
    | _ => none

/-- A row that a check does not refuse. -/
def passes (S : Server κ) (t : Table ν κ) (row : List Value) (check : Check ν) : Bool :=
  t.eval S row check.clause != some false

def sameCell (S : Server κ) (t : Table ν κ) (column : ν) : Value → Value → Bool
  | .null, _ => false
  | .text a, .text b => S.same (t.collation S column) a b
  | a, b => a == b

/-- Two rows that a key does not admit together. -/
def clash (S : Server κ) (t : Table ν κ) (r r' : List Value) : Bool :=
  t.keys.any fun k => k.kind != .plain &&
    k.columns.all fun c => t.sameCell S c (t.cell r c) (t.cell r' c)

def keyed (S : Server κ) (t : Table ν κ) : Bool :=
  decide (t.rows.Pairwise fun r r' => t.clash S r r' = false)

def addColumn (S : Server κ) (name : ν) (t : Table ν κ) (c : Column ν κ) (after : ν) :
    Except (Error ν) (Table ν κ) :=
  if (t.column c.name).isSome then .ok t
  else if (t.column after).isNone then .error (.noSuchColumn name after)
  else
    .ok { t with
      columns := t.columns.insertIdx (t.index after + 1) (c.settle S)
      rows := t.rows.map fun row => row.insertIdx (t.index after + 1) (c.fill S) }

end Table

/-- A foreign key joins a column to one of its type and collation that a key begins with. -/
def refers (ts : Tables ν κ) (columns : List (Column ν κ)) (k : ForeignKey ν) : Bool :=
  match columns.find? (fun c => c.name == k.column), find ts k.table with
  | some c, some t =>
    (t.column k.target).any (fun target => c.type == target.type && c.collation == target.collation)
      && t.keys.any fun key => key.columns.head? == some k.target
  | _, _ => false

/-- One statement, which is committed whole or fails. -/
def exec (S : Server κ) : Statement ν κ → Tables ν κ → Except (Error ν) (Tables ν κ)
  | .createTable unlessExists name columns keys foreignKeys checks, ts =>
    match find ts name with
    | some _ => if unlessExists then .ok ts else .error (.tableExists name)
    | none =>
      let settled := columns.map (Column.settle S)
      match foreignKeys.find? fun k => !refers ts settled k with
      | some k => .error (.foreignKeyMalformed k.name)
      | none => .ok (ts ++ [(name, ⟨settled, keys, foreignKeys, checks, []⟩)])
  | .modifyColumn table column, ts =>
    match find ts table with
    | none => .error (.noSuchTable table)
    | some t =>
      if (t.column column.name).isNone then .error (.noSuchColumn table column.name)
      else
        let t' := { t with
          columns := t.columns.map fun c => if c.name = column.name then column.settle S else c }
        if t'.keyed S then .ok (put ts table t') else .error (.duplicateEntry table)
  | .addColumns table columns, ts =>
    match find ts table with
    | none => .error (.noSuchTable table)
    | some t => do
      let t' ← columns.foldlM (fun t c => t.addColumn S table c.1 c.2) t
      .ok (put ts table t')
  | .addCheck table check, ts =>
    match find ts table with
    | none => .error (.noSuchTable table)
    | some t =>
      if t.checks.any fun c => c.name == check.name then .ok ts
      else if t.rows.all fun row => t.passes S row check then
        .ok (put ts table { t with checks := t.checks ++ [check] })
      else .error (.checkFailed check.name)
  | .insertIgnore table cells, ts =>
    match find ts table with
    | none => .error (.noSuchTable table)
    | some t =>
      let row := t.columns.map fun c => (cells.lookup c.name).getD (c.fill S)
      if t.rows.any (t.clash S row) || !t.checks.all (t.passes S row) then .ok ts
      else .ok (put ts table { t with rows := t.rows ++ [row] })

end Ddl
