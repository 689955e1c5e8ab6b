import VibeDbfs.Storage.Chunks
import VibeDbfs.Storage.Migration

/-!
The layouts of versions 0 to 3 and what a store in one of them holds: its inodes, entries, chunks
and symlink targets, and what looking up, listing and reading give there.
-/

set_option autoImplicit false
set_option relaxedAutoImplicit false

namespace VibeDbfs

open Lib Lib.Sql Lib.Bytes Migration

/-- An inode of an older store, without its times. -/
structure LegacyInode where
  ino : Nat
  kind : FileKind
  mode : UInt32
  uid : UInt32
  gid : UInt32
  size : Nat
  nlink : Nat
  deriving DecidableEq, Repr

structure LegacyEntry where
  parentIno : Nat
  name : Name
  childIno : Nat
  deriving DecidableEq, Repr

structure LegacyChunk where
  ino : Nat
  chunkIndex : Nat
  data : Bytes
  deriving DecidableEq, Repr

structure Legacy where
  inodes : List LegacyInode
  entries : List LegacyEntry
  chunks : List LegacyChunk
  targets : List SymlinkRow
  deriving DecidableEq, Repr

section Rows

def u32? (value : Value) : Option UInt32 :=
  value.int?.bind fun i => if 0 ≤ i ∧ i < 4294967296 then some (UInt32.ofNat i.toNat) else none

def nat? (value : Value) : Option Nat :=
  value.int?.bind fun i => if 0 ≤ i then some i.toNat else none

def LegacyInode.ofRow (r : Row) : Option LegacyInode := do
  some {
    ino := ← nat? (r "ino")
    kind := ← (r "kind").int?.bind FileKind.fromI64
    mode := ← u32? (r "mode")
    uid := ← u32? (r "uid")
    gid := ← u32? (r "gid")
    size := ← nat? (r "size")
    nlink := ← nat? (r "nlink") }

def LegacyEntry.ofRow (r : Row) : Option LegacyEntry := do
  some {
    parentIno := ← nat? (r "parent_ino")
    name := ← (r "name").blob?
    childIno := ← nat? (r "child_ino") }

def LegacyTarget.ofRow (r : Row) : Option SymlinkRow := do
  some { ino := ← nat? (r "ino"), target := ← (r "target").blob? }

def Dirent.triple (d : Dirent) : Nat × Name × Nat := (d.parentIno, d.name, d.childIno)

def LegacyEntry.triple (e : LegacyEntry) : Nat × Name × Nat := (e.parentIno, e.name, e.childIno)

def LegacyChunk.ofRow (r : Row) : Option LegacyChunk := do
  some {
    ino := ← nat? (r "ino")
    chunkIndex := ← nat? (r "chunk_index")
    data := ← (r "data").blob? }

def LegacyChunk.row (e : LegacyChunk) : Int × Bytes := (chunkKey e.ino e.chunkIndex, e.data)

end Rows

namespace Legacy

def ofFile (f : File) : Option Legacy := do
  some {
    inodes := ← (f.rowsOf "inodes").mapM LegacyInode.ofRow
    entries := ← (f.rowsOf "dirents").mapM LegacyEntry.ofRow
    chunks := ← (f.rowsOf "file_chunks").mapM LegacyChunk.ofRow
    targets := ← (f.rowsOf "symlink_targets").mapM LegacyTarget.ofRow }

def nsecColumns : List String := ["atime_nsec", "mtime_nsec", "ctime_nsec"]

/-- `inodes` with seconds, and with the nanosecond columns from version 1 on. -/
structure InodesLayout (version : Int) (t : Table) : Prop where
  columns : ∀ column ∈ ["ino", "kind", "mode", "uid", "gid", "size", "atime", "mtime", "ctime",
    "nlink"], column ∈ t.columns
  split : "mtime_ns" ∉ t.columns
  nsec : 1 ≤ version → ∀ column ∈ nsecColumns, column ∈ t.columns
  seconds : ∀ r ∈ t.rows, ∀ column ∈ ["atime", "mtime", "ctime"], ∃ secs, r column = .integer secs
  fractions : ∀ r ∈ t.rows, ∀ column ∈ nsecColumns, column ∈ t.columns →
    ∃ nsec, r column = .integer nsec ∧ 0 ≤ nsec ∧ nsec < 1000000000

/-- `dirents`, with an id from version 3 on. -/
structure DirentsLayout (version : Int) (t : Table) : Prop where
  columns : ∀ column ∈ ["parent_ino", "name", "child_ino"], column ∈ t.columns
  stable : 3 ≤ version → "id" ∈ t.columns
  ids : "id" ∈ t.columns → ∀ r ∈ t.rows, ∃ id, r "id" = .integer id ∧ 0 ≤ id

/-- A file of version 0 to 3 in the layout of its version. Tables that no row was written to may be
missing. -/
structure Layout (f : File) : Prop where
  version : 0 ≤ f.userVersion ∧ f.userVersion < schemaVersion
  tables : ∀ name, (f.tables name).isSome →
    name ∈ ["inodes", "dirents", "file_chunks", "symlink_targets"]
  plain : ∀ name t, f.tables name = some t → t.Plain
  indexes : ∀ index ∈ f.indexes, index ∈ [direntsName, direntsChild, direntsScan]
  inodes : ∃ t, f.tables "inodes" = some t ∧ InodesLayout f.userVersion t
  dirents : ∀ t, f.tables "dirents" = some t → DirentsLayout f.userVersion t
  chunks : ∀ t, f.tables "file_chunks" = some t →
    ∀ column ∈ ["ino", "chunk_index", "data"], column ∈ t.columns
  targets : ∀ t, f.tables "symlink_targets" = some t →
    ∀ column ∈ ["ino", "target"], column ∈ t.columns

/-- The primary and foreign keys hold, the root is there, the numbers are in range, and only
directories may have no link. -/
structure Valid (old : Legacy) : Prop where
  inodes : (old.inodes.map LegacyInode.ino).Nodup
  inos : ∀ o ∈ old.inodes, 0 < o.ino ∧ o.ino ≤ maxIno
  root : ∃ o ∈ old.inodes, o.ino = 1
  sizes : ∀ o ∈ old.inodes, o.size < 2 ^ 63
  links : ∀ o ∈ old.inodes, o.kind ≠ .directory → 0 < o.nlink
  names : (old.entries.map fun e => (e.parentIno, e.name)).Nodup
  parents : ∀ e ∈ old.entries, ∃ o ∈ old.inodes, o.ino = e.parentIno
  children : ∀ e ∈ old.entries, ∃ o ∈ old.inodes, o.ino = e.childIno
  chunks : (old.chunks.map fun c => (c.ino, c.chunkIndex)).Nodup
  owners : ∀ c ∈ old.chunks, ∃ o ∈ old.inodes, o.ino = c.ino
  indexes : ∀ c ∈ old.chunks, c.chunkIndex < maxChunks

theorem Valid.owner_le {old : Legacy} (hold : old.Valid) {e : LegacyChunk} (he : e ∈ old.chunks) :
    e.ino ≤ maxIno := by
  obtain ⟨o, ho, hoe⟩ := hold.owners e he
  exact hoe ▸ (hold.inos o ho).2

section Contents

variable (old : Legacy)

def inode (ino : Nat) : Option LegacyInode := old.inodes.find? fun o => o.ino = ino

def child (parent : Nat) (name : Name) : Option Nat :=
  (old.entries.find? fun e => (e.parentIno, e.name) = (parent, name)).map LegacyEntry.childIno

def chunk (ino c : Nat) : Bytes :=
  ((old.chunks.find? fun e => (e.ino, e.chunkIndex) = (ino, c)).map LegacyChunk.data).getD []

/-- The byte of `ino` at `offset`; a hole reads as zeros. -/
def byte (ino offset : Nat) : UInt8 :=
  byteAt (old.chunk ino (offset / chunkSize)) (offset % chunkSize)

def lookup (parent : Nat) (name : Name) : Except DbError LegacyInode := do
  checkName name
  match (old.child parent name).bind old.inode with
  | some o => .ok o
  | none => .error .notFound

def listDir (ino : Nat) : Except DbError (List DirEntry) :=
  match old.inode ino with
  | none => .error .notFound
  | some o =>
    if o.kind ≠ .directory then .error .notDirectory
    else
      let entries := (old.entries.filter fun e => e.parentIno = ino).filterMap fun e =>
        (old.inode e.childIno).map fun o => (⟨e.name, o.ino, o.kind⟩ : DirEntry)
      .ok (entries.insertionSort fun a b => a.name ≤ b.name)

def readSymlink (ino : Nat) : Except DbError Bytes :=
  match old.inode ino with
  | none => .error .notFound
  | some o =>
    if o.kind ≠ .symlink then .error .invalidInput
    else
      match old.targets.find? fun r => r.ino = ino with
      | some r => .ok r.target
      | none => .error .notFound

def readFile (ino offset size : Nat) : Except DbError Bytes :=
  match old.inode ino with
  | none => .error .notFound
  | some o =>
    match o.kind.regularFileError with
    | some error => .error error
    | none => .ok (tabulate (min size (o.size - offset)) fun p => old.byte ino (offset + p))

end Contents

end Legacy

/-- The inode of an older store. The owner of the root, the link counts of directories and the times
are not compared. -/
structure LegacyInode.Matches (o : LegacyInode) (inode : Inode) : Prop where
  ino : inode.ino = o.ino
  kind : inode.kind = o.kind
  mode : inode.mode = o.mode
  size : inode.size = o.size
  owner : o.ino ≠ 1 → inode.uid = o.uid ∧ inode.gid = o.gid
  nlink : o.kind ≠ .directory → inode.nlink = o.nlink

/-- Everything that the older store holds is in `db`, and nothing else. -/
structure Legacy.Preserved (old : Legacy) (db : Db) : Prop where
  lookup : ∀ parent name, match old.lookup parent name with
    | .ok o => ∃ inode, db.lookup parent name = .ok inode ∧ o.Matches inode
    | .error error => db.lookup parent name = .error error
  listDir : ∀ ino, db.listDir ino = old.listDir ino
  readSymlink : ∀ ino, db.readSymlink ino = old.readSymlink ino
  readFile : ∀ ino offset size, db.readFile ino offset size = old.readFile ino offset size
  inodes : db.inodes.map InodeRow.ino = old.inodes.map LegacyInode.ino
  entries : (db.dirents.map Dirent.triple).Perm (old.entries.map LegacyEntry.triple)
  chunks : (db.fileChunks.map fun r => (r.id, r.data)).Perm (old.chunks.map LegacyChunk.row)

end VibeDbfs
