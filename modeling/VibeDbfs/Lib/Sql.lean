import VibeDbfs.Lib.Prog
import Mathlib.Data.List.Sort
import Mathlib.Logic.Function.Basic

/-!
A database file of tables with named columns, the statements that define, fill and rebuild its
tables, and transactions around them. A statement that fails changes nothing; a transaction that
fails leaves the file as it was when it began.
-/

set_option autoImplicit false
set_option relaxedAutoImplicit false

namespace VibeDbfs.Lib.Sql

inductive Value where
  | null
  | integer (value : Int)
  | real (value : Rat)
  | text (value : String)
  | blob (value : List UInt8)
  deriving DecidableEq, Repr

namespace Value

def int? : Value → Option Int
  | .integer value => some value
  | _ => none

@[simp] theorem int?_integer (value : Int) : (integer value).int? = some value := rfl

def blob? : Value → Option (List UInt8)
  | .blob value => some value
  | _ => none

/-- The order of `ORDER BY`. -/
def le : Value → Value → Bool
  | .null, _ => true
  | _, .null => false
  | .integer a, .integer b => a ≤ b
  | .integer a, .real b => a ≤ b
  | .real a, .integer b => a ≤ b
  | .real a, .real b => a ≤ b
  | .integer _, _ | .real _, _ => true
  | _, .integer _ | _, .real _ => false
  | .text a, .text b => a ≤ b
  | .text _, .blob _ => true
  | .blob _, .text _ => false
  | .blob a, .blob b => a ≤ b

end Value

abbrev Row := String → Value

def row (values : List (String × Value)) : Row := fun column => (values.lookup column).getD .null

@[simp] theorem row_nil (column : String) : row [] column = .null := rfl

@[simp] theorem row_cons (name : String) (value : Value) (rest : List (String × Value))
    (column : String) :
    row ((name, value) :: rest) column = if column = name then value else row rest column := by
  rw [row, List.lookup_cons]
  by_cases h : column = name
  · rw [if_pos h, h, beq_self_eq_true]
    rfl
  · rw [if_neg h, beq_false_of_ne h]
    rfl

/-- `ORDER BY first, second`. -/
def orderBy (first second : String) (a b : Row) : Prop :=
  if a first = b first then (a second).le (b second) else (a first).le (b first)

instance (first second : String) : DecidableRel (orderBy first second) := fun a b => by
  unfold orderBy
  infer_instance

/-- A table, or a view. Its columns go by their names in lower case, as SQLite takes names that
differ in case for one name; `capitals` are those that are written with a capital letter. Every
column is `NOT NULL`. `rowid` is the `INTEGER PRIMARY KEY` column, if there is one. A foreign key is
a column and the table whose row id it refers to, with `ON DELETE CASCADE`. -/
structure Table where
  columns : List String
  rowid : Option String
  primaryKey : List String
  foreignKeys : List (String × String)
  rows : List Row
  capitals : List String := []
  view : Bool := false

/-- A table and no view, with the names of its columns in lower case. -/
structure Table.Plain (t : Table) : Prop where
  view : t.view = false
  capitals : t.capitals = []

structure Index where
  name : String
  table : String
  columns : List String
  unique : Bool
  deriving DecidableEq, Repr

/-- Tables, views and indexes go by their names in lower case. -/
structure File where
  userVersion : Int
  tables : String → Option Table
  indexes : List Index

inductive Error where
  | constraint (message : String)
  | full
  | failure (message : String)
  deriving DecidableEq, Repr

/-- What the database engine does beyond the rules of this module: arithmetic and comparisons that
leave the 64-bit integers, column affinities, and failures that the statements do not check for. -/
structure Engine where
  /-- The value of an expression for its operands. -/
  value : String → List Value → Value
  /-- Whether a comparison holds of its operands. -/
  test : String → List Value → Bool
  /-- What a column stores of a real number or a text. -/
  stored : String → Value → Value
  /-- Why a statement that takes the first file to the second fails, if it does. -/
  fault : File → File → Option Error

namespace Engine

/-- An engine with integers only, which never fails. -/
def plain : Engine where
  value _ _ := .null
  test _ _ := false
  stored _ value := value
  fault _ _ := none

def Works (e : Engine) : Prop := ∀ f f', e.fault f f' = none

/-- `value > bound`. A comparison with null fails. -/
def gt (e : Engine) (bound : Int) : Value → Bool
  | .null => false
  | .integer value => bound < value
  | value => e.test ">" [value, .integer bound]

/-- `value >= bound`. -/
def ge (e : Engine) (bound : Int) : Value → Bool
  | .null => false
  | .integer value => bound ≤ value
  | value => e.test ">=" [value, .integer bound]

/-- `a = b`. -/
def eq (e : Engine) : Value → Value → Bool
  | .null, _ | _, .null => false
  | .integer a, .integer b => a = b
  | a, b => e.test "=" [a, b]

def keep (e : Engine) (column : String) : Value → Value
  | .real value => e.stored column (.real value)
  | .text value => e.stored column (.text value)
  | value => value

end Engine

/-- A connection. `saved` is the file as it was when the open transaction began. -/
structure Conn where
  file : File
  foreignKeys : Bool
  saved : Option File
  engine : Engine

/-- The values of `columns`, none where one of them is null: null is not equal to null. -/
def keyOf (columns : List String) (r : Row) : Option (List Value) :=
  if .null ∈ columns.map r then none else some (columns.map r)

/-- Whether a row with the key of `r` is there. -/
def taken (columns : List String) (rows : List Row) (r : Row) : Bool :=
  (keyOf columns r).isSome && rows.any fun other => keyOf columns other = keyOf columns r

def nextRowid (ids : List Value) : Int :=
  match (ids.filterMap Value.int?).max? with
  | none => 1
  | some last => last + 1

namespace Table

/-- `r` with the row id it gets. -/
def numbered (t : Table) (r : Row) : Row :=
  match t.rowid with
  | none => r
  | some column =>
    if r column = .null then
      Function.update r column (.integer (nextRowid (t.rows.map fun other => other column)))
    else r

end Table

namespace File

/-- Whether `r` has a parent row for each foreign key of `t`. -/
def refersTo (f : File) (t : Table) (r : Row) : Bool :=
  t.foreignKeys.all fun key => r key.1 = .null || (f.tables key.2).any fun parent =>
    parent.rowid.any fun column => parent.rows.any fun p => p column = r key.1

def insertRow (f : File) (engine : Engine) (enforce : Bool) (name : String) (t : Table) (r : Row) :
    Except Error Table :=
  let r := t.numbered fun column => engine.keep column (r column)
  if t.rowid.any fun column => (r column).int?.isNone then .error (.failure "datatype mismatch")
  else if t.columns.any fun column => r column = .null then
    .error (.failure ("NOT NULL constraint failed: " ++ name))
  else if taken t.primaryKey t.rows r || f.indexes.any fun index =>
      index.table = name && index.unique && taken index.columns t.rows r then
    .error (.constraint ("UNIQUE constraint failed: " ++ name))
  else if enforce && !f.refersTo t r then .error (.failure "FOREIGN KEY constraint failed")
  else .ok { t with rows := t.rows ++ [r] }

def insertRows (f : File) (engine : Engine) (enforce : Bool) (name : String) (t : Table)
    (rows : List Row) : Except Error Table :=
  rows.foldlM (f.insertRow engine enforce name) t

def setTable (f : File) (name : String) (t : Option Table) : File :=
  { f with tables := Function.update f.tables name t }

def hasIndex (f : File) (name : String) : Bool := f.indexes.any fun index => index.name = name

/-- The rows of a table, none where it is missing. -/
def rowsOf (f : File) (name : String) : List Row := ((f.tables name).map Table.rows).getD []

end File

abbrev Statement (α : Type) := Prog Conn Error α

def change (f : File → File) : Statement Unit := do
  let c ← Prog.get
  match c.engine.fault c.file (f c.file) with
  | some e => Prog.throw e
  | none => Prog.modify fun c => { c with file := f c.file }

/-- `CREATE TABLE`, with an empty table. A view has its name among the tables. -/
def createTable (name : String) (t : Table) (ifNotExists : Bool) : Statement Unit := do
  let c ← Prog.get
  if (c.file.tables name).isSome then
    if ifNotExists then pure () else Prog.throw (.failure ("table already exists: " ++ name))
  else if c.file.hasIndex name then
    Prog.throw (.failure ("there is already an index named " ++ name))
  else change fun f => f.setTable name (some { t with rows := [] })

def findTable (name : String) : Statement Table := do
  match (← Prog.get).file.tables name with
  | some t => pure t
  | none => Prog.throw (.failure ("no such table: " ++ name))

/-- `SELECT columns FROM name`. -/
def select (name : String) (columns : List String) : Statement (List Row) := do
  let t ← findTable name
  if columns.all fun column => column ∈ t.columns then do
    change id
    pure t.rows
  else Prog.throw (.failure ("no such column in " ++ name))

def findBase (name problem : String) : Statement Table := do
  let t ← findTable name
  if t.view then Prog.throw (.failure (problem ++ ": " ++ name)) else pure t

def insertInto (name : String) (rows : List Row) : Statement Unit := do
  let t ← findBase name "cannot modify a view"
  let c ← Prog.get
  match c.file.insertRows c.engine c.foreignKeys name t rows with
  | .ok t => change fun f => f.setTable name (some t)
  | .error e => Prog.throw e

/-- The rows of `t` that an implicit `DELETE FROM name` leaves, where foreign keys are enforced. -/
def cascade (name : String) (t : Table) : Table :=
  { t with rows :=
      t.rows.filter fun r => t.foreignKeys.all fun key => key.2 ≠ name || r key.1 = .null }

def dropTable (name : String) : Statement Unit := do
  let _ ← findBase name "use DROP VIEW to delete view"
  let c ← Prog.get
  change fun f =>
    let f :=
      if c.foreignKeys then { f with tables := fun n => (f.tables n).map (cascade name) } else f
    { f.setTable name none with indexes := f.indexes.filter fun index => index.table ≠ name }

/-- `old` with references to the table `name` following its new name. -/
def retarget (name newName : String) (t : Table) : Table :=
  { t with foreignKeys := t.foreignKeys.map fun key =>
      if key.2 = name then (key.1, newName) else key }

def renameTable (name newName : String) : Statement Unit := do
  let t ← findBase name "a view may not be altered"
  let c ← Prog.get
  if (c.file.tables newName).isSome || c.file.hasIndex newName then
    Prog.throw (.failure ("there is already another table or index with this name: " ++ newName))
  else change fun f =>
    let f := { (f.setTable name none).setTable newName (some t) with
      indexes := f.indexes.map fun index : Index =>
        if index.table = name then { index with table := newName } else index }
    { f with tables := fun n => (f.tables n).map (retarget name newName) }

/-- `ALTER TABLE name ADD COLUMN column NOT NULL DEFAULT value`. -/
def addColumn (name column : String) (value : Value) : Statement Unit := do
  let t ← findBase name "cannot add a column to a view"
  if column ∈ t.columns then Prog.throw (.failure ("duplicate column name: " ++ column))
  else change fun f => f.setTable name (some { t with
    columns := t.columns ++ [column]
    rows := t.rows.map fun r => Function.update r column value })

/-- `CREATE INDEX IF NOT EXISTS`. A unique index needs rows with distinct keys. -/
def createIndex (index : Index) : Statement Unit := do
  let t ← findBase index.table "views may not be indexed"
  let c ← Prog.get
  if (c.file.tables index.name).isSome then
    Prog.throw (.failure ("there is already a table named " ++ index.name))
  else if c.file.hasIndex index.name then pure ()
  else if ¬index.columns.all fun column => column ∈ t.columns then
    Prog.throw (.failure ("no such column in " ++ index.table))
  else if index.unique ∧ ¬(t.rows.filterMap (keyOf index.columns)).Nodup then
    Prog.throw (.constraint ("UNIQUE constraint failed: " ++ index.table))
  else change fun f => { f with indexes := f.indexes ++ [index] }

def setUserVersion (version : Int) : Statement Unit :=
  change fun f => { f with userVersion := version }

/-- `COMMIT` at the end of the body of a transaction. -/
def commit : Statement Unit := change id

variable {ε : Type}

/-- `PRAGMA foreign_keys` has no effect inside a transaction. -/
def Conn.enforce (c : Conn) (foreignKeys : Bool) : Conn :=
  if c.saved.isSome then c else { c with foreignKeys := foreignKeys }

def setForeignKeys (foreignKeys : Bool) : Prog Conn ε Unit :=
  Prog.modify fun c => c.enforce foreignKeys

/-- `body` after `BEGIN`; an error in it rolls the file back. -/
def transaction (body : Prog Conn ε Unit) : Prog Conn ε Unit := do
  Prog.modify fun c => { c with saved := some c.file }
  match ← Prog.attempt body with
  | .ok _ => Prog.modify fun c => { c with saved := none }
  | .error e => do
    Prog.modify fun c => { c with file := c.saved.getD c.file, saved := none }
    Prog.throw e

end VibeDbfs.Lib.Sql
