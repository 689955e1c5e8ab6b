import VibeDbfs.Storage.ChunkSpan
import Mathlib.Data.List.Sort

/-!
The four tables and the SQL statements that change them. A table is the list of its rows; a
statement is a filter, a map or an insertion, and the constraints it can violate are checked here.
-/

set_option autoImplicit false
set_option relaxedAutoImplicit false

namespace VibeDbfs

/-- `damaged`: the column `kind` holds a number that is no kind, and `kind` here says nothing. -/
structure InodeRow where
  ino : Nat
  kind : FileKind
  mode : UInt32
  uid : UInt32
  gid : UInt32
  size : Nat
  atimeNs : Int
  mtimeNs : Int
  ctimeNs : Int
  nlink : Nat
  damaged : Bool := false
  deriving DecidableEq, Repr

structure Dirent where
  id : Nat
  parentIno : Nat
  name : Name
  childIno : Nat
  deriving DecidableEq, Repr

structure ChunkRow where
  id : Int
  data : Bytes
  deriving DecidableEq, Repr

structure SymlinkRow where
  ino : Nat
  target : Bytes
  deriving DecidableEq, Repr

structure Db where
  inodes : List InodeRow
  dirents : List Dirent
  fileChunks : List ChunkRow
  symlinkTargets : List SymlinkRow
  deriving DecidableEq, Repr

def nextRowid (ids : List Nat) : Nat := ids.foldr max 0 + 1

theorem lt_nextRowid {ids : List Nat} {i : Nat} (h : i ∈ ids) : i < nextRowid ids := by
  induction ids with
  | nil => simp at h
  | cons a ids ih =>
    simp only [nextRowid, List.foldr_cons] at ih ⊢
    rcases List.mem_cons.mp h with rfl | h
    · omega
    · have := ih h
      omega

namespace Db

def empty : Db := ⟨[], [], [], []⟩

def findInode (db : Db) (ino : Nat) : Option InodeRow := db.inodes.find? fun r => r.ino = ino

/-- At most one row answers: `dirents_name` is a unique index on `(parent_ino, name)`. -/
def findEntry (db : Db) (parent : Nat) (name : Name) : Option Dirent :=
  db.dirents.find? fun d => d.parentIno = parent ∧ d.name = name

def findChunk (db : Db) (key : Int) : Option Bytes :=
  (db.fileChunks.find? fun r => r.id = key).map ChunkRow.data

def updateInode (db : Db) (ino : Nat) (f : InodeRow → InodeRow) : Db :=
  { db with inodes := db.inodes.map fun r => if r.ino = ino then f r else r }

/-- `UPDATE inodes SET size, mtime_ns, ctime_ns`. -/
def setSize (db : Db) (ino size : Nat) (modified : Timestamp) : Db :=
  db.updateInode ino fun r =>
    { r with size := size, mtimeNs := modified.toNs, ctimeNs := modified.toNs }

def touchDir (db : Db) (ino : Nat) (now : Timestamp) : Db :=
  db.updateInode ino fun r => { r with mtimeNs := now.toNs, ctimeNs := now.toNs }

def addDirectoryNlink (db : Db) (ino : Nat) (delta : Int) : Db :=
  db.updateInode ino fun r => { r with nlink := (r.nlink + delta).toNat }

def setNlink (db : Db) (ino nlink : Nat) (now : Timestamp) : Db :=
  db.updateInode ino fun r => { r with nlink := nlink, ctimeNs := now.toNs }

def insertDirent (db : Db) (parent : Nat) (name : Name) (child : Nat) : Except DbError Db :=
  if db.dirents.any fun d => d.parentIno = parent ∧ d.name = name then
    .error .alreadyExists
  else if (db.findInode parent).isNone || (db.findInode child).isNone then
    .error (.sqlite "FOREIGN KEY constraint failed")
  else
    .ok { db with
      dirents := db.dirents ++ [⟨nextRowid (db.dirents.map Dirent.id), parent, name, child⟩] }

def deleteDirent (db : Db) (parent : Nat) (name : Name) : Db :=
  { db with dirents := db.dirents.filter fun d => ¬(d.parentIno = parent ∧ d.name = name) }

/-- `UPDATE dirents SET parent_ino, name`: the row keeps its id. -/
def moveDirent (db : Db) (parent : Nat) (name : Name) (newParent : Nat) (newName : Name) : Db :=
  { db with dirents := db.dirents.map fun d =>
      if d.parentIno = parent ∧ d.name = name then
        { d with parentIno := newParent, name := newName }
      else d }

def insertSymlink (db : Db) (ino : Nat) (target : Bytes) : Except DbError Db :=
  if db.symlinkTargets.any fun r => r.ino = ino then .error .alreadyExists
  else .ok { db with symlinkTargets := db.symlinkTargets ++ [⟨ino, target⟩] }

def upsertChunk (db : Db) (key : Int) (data : Bytes) : Db :=
  if db.fileChunks.any fun r => r.id = key then
    { db with fileChunks := db.fileChunks.map fun r => if r.id = key then ⟨key, data⟩ else r }
  else
    { db with fileChunks := db.fileChunks ++ [⟨key, data⟩] }

def deleteChunksBetween (db : Db) (first last : Int) : Db :=
  { db with fileChunks := db.fileChunks.filter fun r => ¬(first ≤ r.id ∧ r.id ≤ last) }

def deleteChunksAfter (db : Db) (key last : Int) : Db :=
  { db with fileChunks := db.fileChunks.filter fun r => ¬(key < r.id ∧ r.id ≤ last) }

/-- `SET data = substr(data, 1, len) WHERE length(data) > len`. -/
def cutChunk (db : Db) (key : Int) (len : Nat) : Db :=
  { db with fileChunks := db.fileChunks.map fun r =>
      if r.id = key ∧ len < r.data.length then { r with data := r.data.take len } else r }

/-- Delete inode `ino` and its chunk range. Entries and the symlink target go through their
foreign-key cascades; chunks have no foreign key. -/
def deleteInodeRows (db : Db) (ino : Nat) : Db :=
  let (first, last) := chunkKeys ino
  let db := db.deleteChunksBetween first last
  { db with
    inodes := db.inodes.filter fun r => ¬(r.ino = ino)
    dirents := db.dirents.filter fun d => ¬(d.parentIno = ino ∨ d.childIno = ino)
    symlinkTargets := db.symlinkTargets.filter fun r => ¬(r.ino = ino) }

/-- Removes the inode behind a deleted entry, or drops one link. `isOpen` keeps an inode whose
last name went away, with `nlink = 0`. -/
def dropUnlinkedInode (db : Db) (target : Inode) (now : Timestamp) (isOpen : Bool) : Db :=
  if target.kind = .directory then db.deleteInodeRows target.ino
  else if target.nlink > 1 ∨ isOpen then db.setNlink target.ino (target.nlink - 1) now
  else db.deleteInodeRows target.ino

def recomputeDirectoryNlink (db : Db) : Db :=
  { db with inodes := db.inodes.map fun r =>
      if r.kind = .directory then
        { r with nlink := 2 + db.dirents.countP fun d => d.parentIno = r.ino ∧
            db.inodes.any fun child => child.ino = d.childIno ∧ child.kind = .directory }
      else r }

end Db

end VibeDbfs
