import VibeDbfs.Storage.Tables

/-!
The methods of `Db`. Each is one transaction at most: it returns the new tables, or an error and
no tables, which is what a rollback leaves.
-/

set_option autoImplicit false
set_option relaxedAutoImplicit false

namespace VibeDbfs

open Lib.Bytes

def nameMax : Nat := 255

def checkName (name : Name) : Except DbError Unit :=
  if name.length > nameMax then .error .nameTooLong else .ok ()

namespace InodeRow

def inode (r : InodeRow) : Inode where
  ino := r.ino
  kind := r.kind
  mode := r.mode
  uid := r.uid
  gid := r.gid
  size := r.size
  atime := .fromNs r.atimeNs
  mtime := .fromNs r.mtimeNs
  ctime := .fromNs r.ctimeNs
  nlink := r.nlink

/-- `FileKind::from_i64` on the column `kind`. -/
def readKind (r : InodeRow) : Except DbError FileKind :=
  if r.damaged then .error .corrupt else .ok r.kind

/-- The error of a row mapper that fails on the kind, in column `index` of its query. -/
def conversionError (index : Nat) : DbError :=
  .sqlite ("Conversion error from type Integer at index: " ++ toString index ++ ", Corrupt")

end InodeRow

def inodeFromRow (r : InodeRow) : Except DbError Inode :=
  if r.damaged then .error (InodeRow.conversionError 1) else .ok r.inode

structure DirEntry where
  name : Name
  ino : Nat
  kind : FileKind
  deriving DecidableEq, Repr

inductive NewNode where
  | directory (mode : UInt32)
  | file (mode : UInt32)
  | symlink (target : Bytes)
  deriving DecidableEq, Repr

namespace NewNode

def kind : NewNode → FileKind
  | .directory _ => .directory
  | .file _ => .regularFile
  | .symlink _ => .symlink

def mode : NewNode → UInt32
  | .directory mode => mode
  | .file mode => mode
  | .symlink _ => 0o777

def size : NewNode → Nat
  | .directory _ => 0
  | .file _ => 0
  | .symlink target => target.length

def nlink : NewNode → Nat
  | .directory _ => 2
  | _ => 1

end NewNode

namespace Db

def getInode (db : Db) (ino : Nat) : Except DbError Inode :=
  match db.findInode ino with
  | some r => inodeFromRow r
  | none => .error .notFound

def inodeHead (db : Db) (ino : Nat) : Except DbError (FileKind × Nat) :=
  match db.findInode ino with
  | some r => do .ok (← r.readKind, r.size)
  | none => .error .notFound

def inodeKindOf (db : Db) (ino : Nat) : Except DbError FileKind :=
  match db.findInode ino with
  | some r => r.readKind
  | none => .error .notFound

def lookup (db : Db) (parent : Nat) (name : Name) : Except DbError Inode := do
  checkName name
  match (db.findEntry parent name).bind fun d => db.findInode d.childIno with
  | some r => inodeFromRow r
  | none => .error .notFound

def listDir (db : Db) (ino : Nat) : Except DbError (List DirEntry) := do
  if (← db.inodeKindOf ino) ≠ .directory then .error .notDirectory
  else
    let found := (db.dirents.filter fun d => d.parentIno = ino).filterMap fun d =>
      (db.findInode d.childIno).map fun r => (d.name, r)
    if found.any fun entry => entry.2.damaged then .error (InodeRow.conversionError 2)
    else
      let entries := found.map fun entry => (⟨entry.1, entry.2.ino, entry.2.kind⟩ : DirEntry)
      .ok (entries.insertionSort fun a b => a.name ≤ b.name)

def createNode (db : Db) (parent : Nat) (name : Name) (node : NewNode) (uid gid : UInt32)
    (now : Timestamp) : Except DbError (Inode × Db) := do
  checkName name
  if (← db.inodeKindOf parent) ≠ .directory then .error .notDirectory
  else
    let ino := nextRowid (db.inodes.map InodeRow.ino)
    let row : InodeRow := {
      ino := ino, kind := node.kind, mode := node.mode, uid := uid, gid := gid, size := node.size
      atimeNs := now.toNs, mtimeNs := now.toNs, ctimeNs := now.toNs, nlink := node.nlink }
    let db := { db with inodes := db.inodes ++ [row] }
    if ino > maxIno then .error .noSpace
    else
      let db ← db.insertDirent parent name ino
      let db ← match node with
        | .symlink target => db.insertSymlink ino target
        | _ => pure db
      let db := db.touchDir parent now
      let db := if node.kind = .directory then db.addDirectoryNlink parent 1 else db
      .ok ({ ino := ino, kind := node.kind, mode := node.mode, uid := uid, gid := gid
             size := node.size, atime := now, mtime := now, ctime := now, nlink := node.nlink }, db)

def createDir (db : Db) (parent : Nat) (name : Name) (mode uid gid : UInt32) (now : Timestamp) :
    Except DbError (Inode × Db) :=
  db.createNode parent name (.directory mode) uid gid now

def createFile (db : Db) (parent : Nat) (name : Name) (mode uid gid : UInt32) (now : Timestamp) :
    Except DbError (Inode × Db) :=
  db.createNode parent name (.file mode) uid gid now

def createSymlink (db : Db) (parent : Nat) (name : Name) (target : Bytes) (uid gid : UInt32)
    (now : Timestamp) : Except DbError (Inode × Db) :=
  db.createNode parent name (.symlink target) uid gid now

def readSymlink (db : Db) (ino : Nat) : Except DbError Bytes := do
  if (← db.inodeKindOf ino) ≠ .symlink then .error .invalidInput
  else
    match db.symlinkTargets.find? fun r => r.ino = ino with
    | some r => .ok r.target
    | none => .error .notFound

def deleteInode (db : Db) (ino : Nat) : Except DbError Db := .ok (db.deleteInodeRows ino)

def link (db : Db) (ino newParent : Nat) (newName : Name) (now : Timestamp) :
    Except DbError (Inode × Db) := do
  checkName newName
  let inode ← db.getInode ino
  if inode.kind = .directory then .error .isDirectory
  else if (← db.inodeKindOf newParent) ≠ .directory then .error .notDirectory
  else
    let db ← db.insertDirent newParent newName ino
    let newNlink := inode.nlink + 1
    let db := db.setNlink ino newNlink now
    let db := db.touchDir newParent now
    .ok ({ inode with nlink := newNlink, ctime := now }, db)

/-- Copies the stored bytes of `ino` from `offset` on into `out`. Holes leave `out` as it is. -/
def readInto (db : Db) (ino offset : Nat) (out : Bytes) : Bytes :=
  match ChunkSpan.new offset out.length with
  | none => out
  | some span =>
    if span.first ≥ maxChunks then out
    else
      let last := min span.last (maxChunks - 1)
      let rows := (db.fileChunks.filter fun r =>
        chunkKey ino span.first ≤ r.id ∧ r.id ≤ chunkKey ino last).insertionSort
          fun a b => a.id ≤ b.id
      rows.foldl (fun out r => span.copyOut (chunkIndexOf r.id) r.data out) out

def readFile (db : Db) (ino offset size : Nat) : Except DbError Bytes := do
  let (kind, fileSize) ← db.inodeHead ino
  match kind.regularFileError with
  | some error => .error error
  | none =>
    if offset ≥ fileSize ∨ size = 0 then .ok []
    else .ok (db.readInto ino offset (zeros (min size (fileSize - offset))))

/-- One piece of a direct write: a full chunk is replaced, a partial one is read, padded and
overwritten. -/
def writePiece (ino : Nat) (span : ChunkSpan) (data : Bytes) (db : Db) (c : Nat) : Db :=
  let piece := span.piece c
  let input := slice piece.buf.start (piece.buf.stop - piece.buf.start) data
  let key := chunkKey ino c
  if piece.isFullChunk then db.upsertChunk key input
  else
    let scratch := (db.findChunk key).getD []
    let scratch := if scratch.length < piece.chunk.stop then resize piece.chunk.stop scratch
      else scratch
    db.upsertChunk key (splice piece.chunk.start input scratch)

def writeOne (ino : Nat) (acc : Db × Nat) (write : Nat × Bytes) : Db × Nat :=
  match ChunkSpan.new write.1 write.2.length with
  | none => acc
  | some span =>
    (span.chunks.foldl (writePiece ino span write.2) acc.1,
      max acc.2 (write.1 + write.2.length))

def writeFileBatchAt (db : Db) (ino : Nat) (writes : List (Nat × Bytes)) (modified : Timestamp) :
    Except DbError (Nat × Db) := do
  let (kind, size) ← db.inodeHead ino
  match kind.regularFileError with
  | some error => .error error
  | none =>
    if writes.all fun w => w.2.isEmpty then .ok (0, db)
    else if writes.any fun w => min (w.1 + w.2.length) (u64Size - 1) > maxFileSize then
      .error .fileTooLarge
    else
      let (db, newSize) := writes.foldl (writeOne ino) (db, size)
      .ok ((writes.map fun w => w.2.length).sum % 4294967296, db.setSize ino newSize modified)

def writeFile (db : Db) (ino offset : Nat) (data : Bytes) (now : Timestamp) :
    Except DbError (Nat × Db) :=
  db.writeFileBatchAt ino [(offset, data)] now

def readChunkInto (db : Db) (ino c : Nat) : Bytes :=
  ((db.findChunk (chunkKey ino c)).getD []).take chunkSize

/-- Upserts `chunks` and sets size and mtime. -/
def replaceChunks (db : Db) (ino size : Nat) (chunks : List (Nat × Bytes)) (now : Timestamp) :
    Except DbError Db :=
  .ok ((chunks.foldl (fun db c => db.upsertChunk (chunkKey ino c.1) c.2) db).setSize ino size now)

def truncateFile (db : Db) (ino size : Nat) (now : Timestamp) : Except DbError Db := do
  match (← db.inodeKindOf ino).regularFileError with
  | some error => .error error
  | none =>
    if size > maxFileSize then .error .fileTooLarge
    else
      let (firstKey, lastKey) := chunkKeys ino
      let db :=
        if size = 0 then db.deleteChunksBetween firstKey lastKey
        else
          let finalChunkIndex := (size - 1) / chunkSize
          let finalChunkLen := (size - 1) % chunkSize + 1
          let finalKey := chunkKey ino finalChunkIndex
          (db.deleteChunksAfter finalKey lastKey).cutChunk finalKey finalChunkLen
      .ok (db.setSize ino size now)

def unlinkEntry (db : Db) (parent : Nat) (name : Name) (target : Inode) (isOpen : Bool)
    (now : Timestamp) : Except DbError Db :=
  if target.kind = .directory then .error .isDirectory
  else
    .ok (((db.deleteDirent parent name).dropUnlinkedInode target now isOpen).touchDir parent now)

def unlinkFile (db : Db) (parent : Nat) (name : Name) (now : Timestamp) : Except DbError Db := do
  let target ← db.lookup parent name
  db.unlinkEntry parent name target false now

def removeDir (db : Db) (parent : Nat) (name : Name) (now : Timestamp) : Except DbError Db := do
  let target ← db.lookup parent name
  if target.kind ≠ .directory then .error .notDirectory
  else if (db.dirents.countP fun d => d.parentIno = target.ino) ≠ 0 then .error .directoryNotEmpty
  else
    .ok ((((db.deleteDirent parent name).deleteInodeRows target.ino).touchDir parent now)
      |>.addDirectoryNlink parent (-1))

/-- The loop of `is_descendant`. `none` means that the fuel ran out before the loop ended. -/
def climb (db : Db) (possibleAncestor : Nat) : Nat → Nat → Option Bool
  | 0, _ => none
  | fuel + 1, current =>
    if current = 1 then some false
    else
      match db.dirents.find? fun d => d.childIno = current with
      | none => some false
      | some d => if d.parentIno = possibleAncestor then some true
          else climb db possibleAncestor fuel d.parentIno

def isDescendant (db : Db) (ino possibleAncestor : Nat) : Option Bool :=
  if ino = possibleAncestor then some true
  else db.climb possibleAncestor (db.dirents.length + 1) ino

def renameTargetError (db : Db) (source target : Inode) : Except DbError Unit :=
  match source.kind, target.kind with
  | .regularFile, .directory => .error .isDirectory
  | .symlink, .directory => .error .isDirectory
  | .directory, .regularFile => .error .notDirectory
  | .directory, .symlink => .error .notDirectory
  | .directory, .directory => do
    if (← db.listDir target.ino) ≠ [] then .error .directoryNotEmpty else .ok ()
  | _, _ => .ok ()

/-- The second half of the transaction of `rename_entry`: the entry moves, and directories keep
their link counts. -/
def moveEntry (db : Db) (parent : Nat) (name : Name) (newParent : Nat) (newName : Name)
    (sourceIsDir targetIsDir : Bool) (now : Timestamp) : Db :=
  let db := db.moveDirent parent name newParent newName
  let db := db.touchDir parent now
  let db := if newParent ≠ parent then db.touchDir newParent now else db
  let db := if sourceIsDir ∧ parent ≠ newParent then
      (db.addDirectoryNlink parent (-1)).addDirectoryNlink newParent 1
    else db
  if targetIsDir then db.addDirectoryNlink newParent (-1) else db

/-- The transaction of `rename_entry`, after its checks. -/
def renameTx (db : Db) (parent : Nat) (name : Name) (newParent : Nat) (newName : Name)
    (source : Inode) (existingTarget : Option Inode) (isOpen : Nat → Bool) (now : Timestamp) : Db :=
  let sourceIsDir := source.kind = .directory
  let targetIsDir := existingTarget.any fun target => target.kind = .directory
  let db := match existingTarget with
    | some target =>
      (db.deleteDirent newParent newName).dropUnlinkedInode target now (isOpen target.ino)
    | none => db
  db.moveEntry parent name newParent newName sourceIsDir targetIsDir now

/-- Whether a rename would put a directory below itself. An `is_descendant` loop that never ends is
an error here; no reachable store has one. -/
def movesBelow (db : Db) (newParent : Nat) (source : Inode) : Except DbError Bool :=
  if source.kind = .directory then
    match db.isDescendant newParent source.ino with
    | some below => .ok below
    | none => .error .corrupt
  else .ok false

def existingTarget (db : Db) (newParent : Nat) (newName : Name) : Except DbError (Option Inode) :=
  match db.lookup newParent newName with
  | .ok target => .ok (some target)
  | .error .notFound => .ok none
  | .error error => .error error

def renameEntry (db : Db) (parent : Nat) (name : Name) (newParent : Nat) (newName : Name)
    (noreplace : Bool) (isOpen : Nat → Bool) (now : Timestamp) :
    Except DbError (Option Inode × Db) := do
  checkName newName
  let source ← db.lookup parent name
  if (← db.inodeKindOf newParent) ≠ .directory then .error .notDirectory
  else
    let below ← db.movesBelow newParent source
    if below then .error .invalidInput
    else if parent = newParent ∧ name = newName then .ok (none, db)
    else
      let existing ← db.existingTarget newParent newName
      if noreplace ∧ existing.isSome then .error .alreadyExists
      else
        existing.forM fun target => db.renameTargetError source target
        .ok (existing, db.renameTx parent name newParent newName source existing isOpen now)

def rename (db : Db) (parent : Nat) (name : Name) (newParent : Nat) (newName : Name)
    (now : Timestamp) : Except DbError Db := do
  let (_, db) ← db.renameEntry parent name newParent newName false (fun _ => false) now
  .ok db

/-- The `UPDATE` of `update_metadata`; the method then reads the row again. -/
def updateMetadata (db : Db) (ino : Nat) (update : MetadataUpdate) (now : Timestamp) :
    Except DbError Db := do
  let inode ← db.getInode ino
  .ok (db.updateInode ino fun r => { r with
    mode := update.mode.getD inode.mode
    uid := update.uid.getD inode.uid
    gid := update.gid.getD inode.gid
    atimeNs := (update.atime.getD inode.atime).toNs
    mtimeNs := (update.mtime.getD inode.mtime).toNs
    ctimeNs := now.toNs })

/-- `INSERT OR IGNORE` of the root directory. -/
def insertRoot (db : Db) (mountUid mountGid : UInt32) (now : Timestamp) : Db :=
  let root : InodeRow := {
    ino := 1, kind := .directory, mode := 0o755, uid := mountUid, gid := mountGid, size := 0
    atimeNs := now.toNs, mtimeNs := now.toNs, ctimeNs := now.toNs, nlink := 2 }
  if (db.findInode 1).isNone then { db with inodes := db.inodes ++ [root] } else db

def claimRoot (db : Db) (mountUid mountGid : UInt32) (now : Timestamp) : Db :=
  db.updateInode 1 fun r =>
    if r.uid = 0 ∧ r.gid = 0 then
      { r with uid := mountUid, gid := mountGid, ctimeNs := now.toNs }
    else r

def sweepOrphans (db : Db) : Db :=
  ((db.inodes.filter fun r => r.nlink = 0 ∧ r.ino ≠ 1).map InodeRow.ino).foldl deleteInodeRows db

/-- What `initialize` does once the schema is current, with `claim` where a root that user and group
0 own is to be claimed. -/
def initializeRows (db : Db) (claim : Bool) (mountUid mountGid : UInt32) (now : Timestamp) : Db :=
  let db := db.insertRoot mountUid mountGid now
  let db := if claim then db.claimRoot mountUid mountGid now else db
  db.recomputeDirectoryNlink.sweepOrphans

/-- The same for a store whose owner columns hold what the rows say. -/
def initializeTables (db : Db) (mountUid mountGid : UInt32) (now : Timestamp) : Db :=
  db.initializeRows true mountUid mountGid now

def fresh (mountUid mountGid : UInt32) (now : Timestamp) : Db :=
  Db.empty.initializeTables mountUid mountGid now

end Db

end VibeDbfs
