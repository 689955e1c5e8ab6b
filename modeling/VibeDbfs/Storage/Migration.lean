import VibeDbfs.Lib.Sql
import VibeDbfs.Storage.Methods

/-!
Opening a database file: the tables are created where they are missing, an older layout is rebuilt
step by step in one transaction, and the tables are then those of the store.
-/

set_option autoImplicit false
set_option relaxedAutoImplicit false

namespace VibeDbfs

open Lib Lib.Sql

def schemaVersion : Int := 4

def FileKind.fromI64 : Int → Option FileKind
  | 1 => some .regularFile
  | 2 => some .directory
  | 3 => some .symlink
  | _ => none

namespace Migration

def inodesTable : Table where
  columns := ["ino", "kind", "mode", "uid", "gid", "size", "atime_ns", "mtime_ns",
    "ctime_ns", "nlink"]
  rowid := some "ino"
  primaryKey := ["ino"]
  foreignKeys := []
  rows := []

def direntsTable : Table where
  columns := ["id", "parent_ino", "name", "child_ino"]
  rowid := some "id"
  primaryKey := ["id"]
  foreignKeys := [("parent_ino", "inodes"), ("child_ino", "inodes")]
  rows := []

def fileChunksTable : Table where
  columns := ["id", "data"]
  rowid := some "id"
  primaryKey := ["id"]
  foreignKeys := []
  rows := []

def symlinkTargetsTable : Table where
  columns := ["ino", "target"]
  rowid := some "ino"
  primaryKey := ["ino"]
  foreignKeys := [("ino", "inodes")]
  rows := []

def direntsName : Index := ⟨"dirents_name", "dirents", ["parent_ino", "name"], true⟩

def direntsChild : Index := ⟨"dirents_child", "dirents", ["child_ino"], false⟩

def direntsScan : Index := ⟨"dirents_scan", "dirents", ["parent_ino"], false⟩

/-- The names and tables of the `CREATE TABLE IF NOT EXISTS` batch, in its order. -/
def currentTables : List (String × Table) := [
  ("inodes", inodesTable), ("dirents", direntsTable), ("file_chunks", fileChunksTable),
  ("symlink_targets", symlinkTargetsTable)]

abbrev Opening (α : Type) := Prog Conn DbError α

def dbError : Error → DbError
  | .constraint _ => .alreadyExists
  | .full => .noSpace
  | .failure message => .sqlite message

variable {α : Type}

def sql (statement : Statement α) : Opening α := statement.mapError dbError

def createTables : Opening Unit :=
  Prog.each (fun table => sql (createTable table.1 table.2 true)) currentTables

/-- `PRAGMA table_info` gives the names as they are written, and they are compared as strings. -/
def tableHasColumn (table column : String) : Opening Bool := do
  pure (((← Prog.get).file.tables table).any fun t => column ∈ t.columns ∧ column ∉ t.capitals)

def ensureNsecColumns : Opening Unit :=
  Prog.each (fun column => do
    if ← tableHasColumn "inodes" column then pure ()
    else sql (addColumn "inodes" column (.integer 0))) ["atime_nsec", "mtime_nsec", "ctime_nsec"]

def integerOrReal (n : Int) : Value := if i64Min ≤ n ∧ n ≤ i64Max then .integer n else .real n

/-- The `CASE` that merges seconds and nanoseconds, clamped to the `i64` range. -/
def ns (engine : Engine) : Value → Value → Value
  | .integer secs, .integer nsec =>
    if secs > 9223372035 then .integer 9223372036854775807
    else if secs < -9223372035 then .integer (-9223372036854775807 - 1)
    else if secs < 0 then integerOrReal (secs * 1000000000 - nsec)
    else integerOrReal (secs * 1000000000 + nsec)
  | secs, nsec => engine.value "ns" [secs, nsec]

def mergedRow (engine : Engine) (r : Row) : Row := Sql.row [
  ("ino", r "ino"), ("kind", r "kind"), ("mode", r "mode"), ("uid", r "uid"), ("gid", r "gid"),
  ("size", r "size"), ("atime_ns", ns engine (r "atime") (r "atime_nsec")),
  ("mtime_ns", ns engine (r "mtime") (r "mtime_nsec")),
  ("ctime_ns", ns engine (r "ctime") (r "ctime_nsec")), ("nlink", r "nlink")]

def mergeTimestampColumns : Opening Unit := do
  let engine := (← Prog.get).engine
  sql (createTable "inodes_v4" inodesTable false)
  let rows ← sql (select "inodes" ["ino", "kind", "mode", "uid", "gid", "size",
    "atime", "atime_nsec",
    "mtime", "mtime_nsec", "ctime", "ctime_nsec", "nlink"])
  sql (insertInto "inodes_v4" (rows.map (mergedRow engine)))
  sql (dropTable "inodes")
  sql (renameTable "inodes_v4" "inodes")

/-- `(ino << 24) | chunk_index`, on 64-bit integers. -/
def chunkId (engine : Engine) : Value → Value → Value
  | .integer ino, .integer chunkIndex =>
    .integer ((BitVec.ofInt 64 ino <<< chunkBits ||| BitVec.ofInt 64 chunkIndex).toInt)
  | ino, chunkIndex => engine.value "id" [ino, chunkIndex]

def rekeyedRow (engine : Engine) (r : Row) : Row :=
  Sql.row [("id", chunkId engine (r "ino") (r "chunk_index")), ("data", r "data")]

def tooLarge (engine : Engine) (r : Row) : Bool :=
  engine.ge maxChunks (r "chunk_index") || engine.gt maxIno (r "ino")

def rekeyFileChunks : Opening Unit := do
  let engine := (← Prog.get).engine
  let chunks ← sql (select "file_chunks" ["ino", "chunk_index"])
  let large := chunks.countP (tooLarge engine)
  if large > 0 then
    Prog.throw (.sqlite ("cannot upgrade to schema version 4: " ++ toString large ++
      " chunks belong to data past the 1 TiB file size limit"))
  else
    sql (createTable "file_chunks_v4" fileChunksTable false)
    let chunks ← sql (select "file_chunks" ["ino", "chunk_index", "data"])
    let inodes ← sql (select "inodes" ["ino"])
    let kept := chunks.filter fun r => inodes.any fun i => engine.eq (r "ino") (i "ino")
    sql (insertInto "file_chunks_v4"
      ((kept.insertionSort (orderBy "ino" "chunk_index")).map (rekeyedRow engine)))
    sql (dropTable "file_chunks")
    sql (renameTable "file_chunks_v4" "file_chunks")

def entryRow (r : Row) : Row := Sql.row [
  ("parent_ino", r "parent_ino"), ("name", r "name"), ("child_ino", r "child_ino")]

def rebuildDirents : Opening Unit := do
  sql (createTable "dirents_v3" direntsTable false)
  let rows ← sql (select "dirents" ["parent_ino", "name", "child_ino"])
  sql (insertInto "dirents_v3" ((rows.insertionSort (orderBy "parent_ino" "name")).map entryRow))
  sql (dropTable "dirents")
  sql (renameTable "dirents_v3" "dirents")

def toVersion1 (version : Int) (splitTimestamps : Bool) : Opening Unit :=
  if version < 1 ∧ splitTimestamps then ensureNsecColumns else pure ()

def toVersion2 (version : Int) : Opening Unit :=
  if version < 2 then sql (createIndex direntsChild) else pure ()

def direntColumns : Opening Unit := do
  if ← tableHasColumn "dirents" "id" then pure () else rebuildDirents

def toVersion3 (version : Int) : Opening Unit :=
  if version < 3 then do
    direntColumns
    sql (createIndex direntsName)
    sql (createIndex direntsChild)
    sql (createIndex direntsScan)
  else pure ()

def timestampColumns (splitTimestamps : Bool) : Opening Unit :=
  if splitTimestamps then mergeTimestampColumns else pure ()

def chunkColumns : Opening Unit := do
  if ← tableHasColumn "file_chunks" "chunk_index" then rekeyFileChunks else pure ()

def toVersion4 (version : Int) (splitTimestamps : Bool) : Opening Unit :=
  if version < 4 then do
    timestampColumns splitTimestamps
    chunkColumns
  else pure ()

/-- Steps look at the tables, not only at the version: a new file has version 0 and the current
layout. -/
def migrateSteps (version : Int) : Opening Unit := transaction do
  let hasNs ← tableHasColumn "inodes" "mtime_ns"
  toVersion1 version !hasNs
  toVersion2 version
  toVersion3 version
  toVersion4 version !hasNs
  sql (setUserVersion schemaVersion)
  sql commit

/-- Foreign keys are off around the steps: dropping the old `inodes` would cascade. -/
def migrate : Opening Unit := do
  let c ← Prog.get
  let version := c.file.userVersion
  if version > schemaVersion then Prog.throw (.unsupportedSchema version)
  else if version = schemaVersion then pure ()
  else
    setForeignKeys false
    let result ← Prog.attempt (migrateSteps version)
    setForeignKeys c.foreignKeys
    match result with
    | .ok _ => pure ()
    | .error e => Prog.throw e

end Migration

section Rows

def integer (value : Value) : Int := value.int?.getD 0

/-- The `as u64` of a column. -/
def u64 (value : Value) : Nat :=
  match integer value with
  | .ofNat n => n
  | .negSucc n => u64Size - 1 - n

/-- The `as u32` of a column. -/
def u32 (value : Value) : UInt32 := UInt32.ofNat (integer value % 4294967296).toNat

def InodeRow.ofRow (r : Row) : InodeRow where
  ino := u64 (r "ino")
  kind := (FileKind.fromI64 (integer (r "kind"))).getD .symlink
  mode := u32 (r "mode")
  uid := u32 (r "uid")
  gid := u32 (r "gid")
  size := u64 (r "size")
  atimeNs := integer (r "atime_ns")
  mtimeNs := integer (r "mtime_ns")
  ctimeNs := integer (r "ctime_ns")
  nlink := u64 (r "nlink")
  damaged := (FileKind.fromI64 (integer (r "kind"))).isNone

def Dirent.ofRow (r : Row) : Dirent where
  id := (integer (r "id")).toNat
  parentIno := u64 (r "parent_ino")
  name := (r "name").blob?.getD []
  childIno := u64 (r "child_ino")

def ChunkRow.ofRow (r : Row) : ChunkRow where
  id := integer (r "id")
  data := (r "data").blob?.getD []

def SymlinkRow.ofRow (r : Row) : SymlinkRow where
  ino := u64 (r "ino")
  target := (r "target").blob?.getD []

end Rows

namespace Db

open Migration

/-- The tables of the store. The methods read a row with the casts that its decoding has here. -/
def ofFile (f : File) : Db where
  inodes := (f.rowsOf "inodes").map InodeRow.ofRow
  dirents := (f.rowsOf "dirents").map Dirent.ofRow
  fileChunks := (f.rowsOf "file_chunks").map ChunkRow.ofRow
  symlinkTargets := (f.rowsOf "symlink_targets").map SymlinkRow.ofRow

/-- A root that the statement which claims it passes over. It compares the columns, not their low 32
bits. -/
def ownedRoot (r : Row) : Bool :=
  r "ino" = .integer 1 && !(r "uid" = .integer 0 && r "gid" = .integer 0)

/-- The statements of `initialize`; those after the migration run on the store. -/
def initializeFile (mountUid mountGid : UInt32) (now : Timestamp) : Opening Db := do
  createTables
  migrate
  let _ ← sql (findBase "inodes" "cannot modify a view")
  let inodes ← sql (select "inodes" inodesTable.columns)
  let _ ← sql (select "dirents" ["parent_ino", "child_ino"])
  let db := ofFile (← Prog.get).file
  pure (db.initializeRows (!inodes.any ownedRoot) mountUid mountGid now)

/-- Opening `f`: the store or the error, and the file as table creation and migration leave it. -/
def openFile (engine : Engine) (f : File) (mountUid mountGid : UInt32) (now : Timestamp) :
    Except DbError Db × File :=
  let (result, c) := initializeFile mountUid mountGid now ⟨f, true, none, engine⟩
  (result, c.file)

end Db

end VibeDbfs
