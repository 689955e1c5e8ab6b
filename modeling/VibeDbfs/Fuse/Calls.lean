import VibeDbfs.Fuse.Slots
import VibeDbfs.Lib.Runs

/-!
The methods of `Dbfs` that the FUSE session calls, and runs of them. A method that leaves the table
lock between two parts is the sequence of its parts.
-/

set_option autoImplicit false
set_option relaxedAutoImplicit false

namespace VibeDbfs

open Lib Lib.Bytes

structure FileAttr where
  ino : Nat
  size : Nat
  blocks : Nat
  atime : SystemTime
  mtime : SystemTime
  ctime : SystemTime
  crtime : SystemTime
  kind : FileKind
  perm : UInt16
  nlink : Nat
  uid : UInt32
  gid : UInt32
  rdev : UInt32
  blksize : UInt32
  flags : UInt32
  deriving DecidableEq, Repr

def fileAttrFromInode (inode : Inode) : FileAttr where
  ino := inode.ino
  size := inode.size
  blocks := (inode.size + 511) / 512
  atime := inode.atime.toSystemTime
  mtime := inode.mtime.toSystemTime
  ctime := inode.ctime.toSystemTime
  crtime := 0
  kind := inode.kind
  perm := inode.mode.toUInt16
  nlink := inode.nlink
  uid := inode.uid
  gid := inode.gid
  rdev := 0
  blksize := 65536
  flags := 0

def OpenTable.overlayAttr (t : OpenTable) (attr : FileAttr) : FileAttr :=
  match t.inodes.find attr.ino with
  | none => attr
  | some slot =>
    let o := t.inodes.get slot
    let attr := { attr with size := o.size, blocks := (o.size + 511) / 512 }
    if o.dirty.isEmpty then attr
    else { attr with mtime := o.mtime.toSystemTime, ctime := o.mtime.toSystemTime }

namespace Fs

def liftExcept {α : Type} : Except Errno α → Fs α
  | .ok a => pure a
  | .error errno => Prog.throw errno

def getattrRow (env : Env) (ino : Nat) : Fs FileAttr := do
  let inode ← query env fun db => db.getInode ino
  pure (fileAttrFromInode inode)

def lookupRow (env : Env) (parent : Nat) (name : Name) : Fs FileAttr := do
  let inode ← query env fun db => db.lookup parent name
  pure (fileAttrFromInode inode)

def overlayAttr (attr : FileAttr) : Fs FileAttr := do
  let t ← table
  pure (t.overlayAttr attr)

def getattr (env : Env) (ino : Nat) : Fs FileAttr := do
  let attr ← getattrRow env ino
  overlayAttr attr

def lookup (env : Env) (parent : Nat) (name : Name) : Fs FileAttr := do
  let attr ← lookupRow env parent name
  overlayAttr attr

def createNode (env : Env) (parent : Nat) (name : Name) (node : NewNode) (uid gid : UInt32) :
    Fs FileAttr := do
  let modified ← now env
  let inode ← access env fun db => db.createNode parent name node uid gid modified
  record
  pure (fileAttrFromInode inode)

def mkdir (env : Env) (parent : Nat) (name : Name) (mode umask uid gid : UInt32) : Fs FileAttr :=
  createNode env parent name (.directory (mode &&& ~~~umask)) uid gid

def create (env : Env) (parent : Nat) (name : Name) (mode umask uid gid : UInt32) : Fs FileAttr :=
  createNode env parent name (.file (mode &&& ~~~umask)) uid gid

def symlink (env : Env) (parent : Nat) (name : Name) (target : Bytes) (uid gid : UInt32) :
    Fs FileAttr :=
  createNode env parent name (.symlink target) uid gid

def link (env : Env) (ino newParent : Nat) (newName : Name) : Fs FileAttr := do
  let modified ← now env
  let inode ← access env fun db => db.link ino newParent newName modified
  pure (fileAttrFromInode inode)

/-- `update_metadata` updates the row and then reads it again, in two statements. -/
def updateMetadata (env : Env) (ino : Nat) (update : MetadataUpdate) : Fs Inode := do
  let modified ← now env
  exec env fun db => db.updateMetadata ino update modified
  query env fun db => db.getInode ino

def setattr (env : Env) (ino : Nat) (mode uid gid : Option UInt32) (size : Option Nat)
    (atime mtime : Option SystemTime) : Fs FileAttr := do
  let t ← table
  ifSome (t.inodes.find ino) fun slot => do
    flushSlot env slot .persist
    freeIfIdle slot
  ifSome size fun size => truncateLocked env ino size
  let inode ← updateMetadata env ino
    ⟨mode, uid, gid, atime.map .fromSystemTime, mtime.map .fromSystemTime⟩
  pure (fileAttrFromInode inode)

def openFile (env : Env) (ino : Nat) : Fs Nat := do
  let slot ← slotFor env ino
  openSlot slot

/-- The part of `read` under the table lock: `none` if `ino` has no slot. -/
def readLocked (env : Env) (ino offset size : Nat) : Fs (Option Bytes) := do
  let t ← table
  match t.inodes.find ino with
  | some slot => some <$> readSlot env slot offset size
  | none => pure none

/-- The part of `read` after it released the table lock. -/
def readStored (env : Env) (ino offset size : Nat) : Option Bytes → Fs Bytes
  | some data => pure data
  | none => query env fun db => db.readFile ino offset size

def read (env : Env) (ino offset size : Nat) : Fs Bytes := do
  let data ← readLocked env ino offset size
  readStored env ino offset size data

def readFh (env : Env) (fh offset size : Nat) : Fs Bytes := do
  let t ← table
  let slot ← orErrno .EBADF (t.handles.get fh)
  readSlot env slot offset size

def write (env : Env) (ino offset : Nat) (data : Bytes) : Fs Nat :=
  if data.isEmpty then pure 0
  else do
    let slot ← slotFor env ino
    let result ← Prog.attempt (writeSlot env slot offset data)
    freeIfIdle slot
    liftExcept result

def writeFh (env : Env) (fh offset : Nat) (data : Bytes) : Fs Nat := do
  let t ← table
  let slot ← orErrno .EBADF (t.handles.get fh)
  writeSlot env slot offset data

def fallocFlKeepSize : UInt32 := 1

/-- The checks of `fallocate` before it takes the table lock: the new end of the file, or `none`
if the size is to be kept. -/
def fallocateCheck (env : Env) (ino : Nat) (offset length : Int) (mode : UInt32) :
    Fs (Option Nat) :=
  if offset < 0 ∨ length ≤ 0 then Prog.throw .EINVAL
  else if mode &&& ~~~fallocFlKeepSize ≠ 0 then Prog.throw .EOPNOTSUPP
  else do
    let kind ← query env fun db => db.inodeKindOf ino
    if kind ≠ .regularFile then Prog.throw .ENODEV
    else if offset + length > i64Max then Prog.throw .EFBIG
    else
      let stop := (offset + length).toNat
      if stop > maxFileSize then Prog.throw .EFBIG
      else if mode &&& fallocFlKeepSize ≠ 0 then pure none
      else pure (some stop)

def currentSize (env : Env) (ino : Nat) : Fs Nat := do
  let t ← table
  match t.inodes.find ino with
  | some slot => pure (t.inodes.get slot).size
  | none => do
    let head ← query env fun db => db.inodeHead ino
    pure head.2

def fallocateLocked (env : Env) (ino : Nat) : Option Nat → Fs Unit
  | none => pure ()
  | some stop => do
    let size ← currentSize env ino
    if stop ≤ size then pure () else truncateLocked env ino stop

def fallocate (env : Env) (ino : Nat) (offset length : Int) (mode : UInt32) : Fs Unit := do
  let stop ← fallocateCheck env ino offset length mode
  fallocateLocked env ino stop

def flushFile (env : Env) (ino : Nat) : Fs Unit := do
  let t ← table
  ifSome (t.inodes.find ino) fun slot => do
    flushSlot env slot .skip
    freeIfIdle slot

def flushFh (env : Env) (fh : Nat) : Fs Unit := do
  let t ← table
  let slot ← orErrno .EBADF (t.handles.get fh)
  flushSlot env slot .skip

def syncFh (env : Env) (fh : Nat) : Fs Unit := do
  flushFh env fh
  syncDurable env

def unlinkLocked (env : Env) (parent : Nat) (name : Name) (inode : Inode) : Fs Unit := do
  let t ← table
  let modified ← now env
  exec env fun db => db.unlinkEntry parent name inode (t.isOpen inode.ino) modified
  updateTable fun t => t.entryRemoved inode

def unlink (env : Env) (parent : Nat) (name : Name) : Fs Unit := do
  let inode ← query env fun db => db.lookup parent name
  unlinkLocked env parent name inode

def rmdir (env : Env) (parent : Nat) (name : Name) : Fs Unit := do
  let modified ← now env
  exec env fun db => db.removeDir parent name modified

def renameNoreplace : UInt32 := 1

def rename (env : Env) (parent : Nat) (name : Name) (newParent : Nat) (newName : Name)
    (flags : UInt32) : Fs Unit :=
  if flags &&& ~~~renameNoreplace ≠ 0 then Prog.throw .EINVAL
  else do
    let t ← table
    let modified ← now env
    let replaced ← access env fun db => db.renameEntry parent name newParent newName
      (flags &&& renameNoreplace ≠ 0) t.isOpen modified
    match replaced with
    | some target => updateTable fun t => t.entryRemoved target
    | none => pure ()

def createOpenLocked (attr : FileAttr) : Fs (FileAttr × Nat) := do
  let t ← table
  let (slot, inodes) := t.inodes.insert attr.ino .regularFile 0
  updateTable fun t => { t with inodes := inodes }
  let fh ← openSlot slot
  pure (attr, fh)

def createOpen (env : Env) (parent : Nat) (name : Name) (mode umask uid gid : UInt32) :
    Fs (FileAttr × Nat) := do
  let attr ← create env parent name mode umask uid gid
  createOpenLocked attr

end Fs

inductive Call where
  | getattr (ino : Nat)
  | lookup (parent : Nat) (name : Name)
  | mkdir (parent : Nat) (name : Name) (mode umask uid gid : UInt32)
  | create (parent : Nat) (name : Name) (mode umask uid gid : UInt32)
  | symlink (parent : Nat) (name : Name) (target : Bytes) (uid gid : UInt32)
  | link (ino newParent : Nat) (newName : Name)
  | setattr (ino : Nat) (mode uid gid : Option UInt32) (size : Option Nat)
      (atime mtime : Option SystemTime)
  | openFile (ino : Nat)
  | read (ino offset size : Nat)
  | readFh (fh offset size : Nat)
  | write (ino offset : Nat) (data : Bytes)
  | writeFh (fh offset : Nat) (data : Bytes)
  | fallocate (ino : Nat) (offset length : Int) (mode : UInt32)
  | flushFile (ino : Nat)
  | flushFh (fh : Nat)
  | syncFh (fh : Nat)
  | flushAll
  | releaseFile (fh : Nat)
  | unlink (parent : Nat) (name : Name)
  | rmdir (parent : Nat) (name : Name)
  | rename (parent : Nat) (name : Name) (newParent : Nat) (newName : Name) (flags : UInt32)
  | createOpen (parent : Nat) (name : Name) (mode umask uid gid : UInt32)
  deriving DecidableEq, Repr

inductive Reply where
  | empty
  | attr (attr : FileAttr)
  | created (attr : FileAttr) (fh : Nat)
  | opened (fh : Nat)
  | data (data : Bytes)
  | written (written : Nat)
  deriving DecidableEq, Repr

namespace Dbfs

def call (env : Env) : Call → Fs Reply
  | .getattr ino => .attr <$> Fs.getattr env ino
  | .lookup parent name => .attr <$> Fs.lookup env parent name
  | .mkdir parent name mode umask uid gid => .attr <$> Fs.mkdir env parent name mode umask uid gid
  | .create parent name mode umask uid gid => .attr <$> Fs.create env parent name mode umask uid gid
  | .symlink parent name target uid gid => .attr <$> Fs.symlink env parent name target uid gid
  | .link ino newParent newName => .attr <$> Fs.link env ino newParent newName
  | .setattr ino mode uid gid size atime mtime =>
    .attr <$> Fs.setattr env ino mode uid gid size atime mtime
  | .openFile ino => .opened <$> Fs.openFile env ino
  | .read ino offset size => .data <$> Fs.read env ino offset size
  | .readFh fh offset size => .data <$> Fs.readFh env fh offset size
  | .write ino offset data => .written <$> Fs.write env ino offset data
  | .writeFh fh offset data => .written <$> Fs.writeFh env fh offset data
  | .fallocate ino offset length mode =>
    (fun _ => .empty) <$> Fs.fallocate env ino offset length mode
  | .flushFile ino => (fun _ => .empty) <$> Fs.flushFile env ino
  | .flushFh fh => (fun _ => .empty) <$> Fs.flushFh env fh
  | .syncFh fh => (fun _ => .empty) <$> Fs.syncFh env fh
  | .flushAll => (fun _ => .empty) <$> Fs.flushAll env
  | .releaseFile fh => (fun _ => .empty) <$> Fs.releaseFh env fh
  | .unlink parent name => (fun _ => .empty) <$> Fs.unlink env parent name
  | .rmdir parent name => (fun _ => .empty) <$> Fs.rmdir env parent name
  | .rename parent name newParent newName flags =>
    (fun _ => .empty) <$> Fs.rename env parent name newParent newName flags
  | .createOpen parent name mode umask uid gid =>
    (fun r => .created r.1 r.2) <$> Fs.createOpen env parent name mode umask uid gid

/-- The inodes whose data a successful call promises to have made persistent. -/
def saves (s : Shared) : Call → Nat → Bool
  | .flushFile i, ino => i = ino
  | .flushFh fh, ino => s.table.handleIno fh = some ino
  | .syncFh fh, ino => s.table.handleIno fh = some ino
  | .releaseFile fh, ino => s.table.handleIno fh = some ino
  | .setattr i _ _ _ size _ _, ino => i = ino ∧ size.isSome
  | .flushAll, _ => true
  | _, _ => false

def reply (env : Env) (s : Shared) (c : Call) : Except Errno Reply := (call env c s).1

def step (env : Env) (s : Shared) (c : Call) : Shared :=
  (call env c s).2.record fun ino => (reply env s c).isOk && saves s c ino

def run (env : Env) (s : Shared) (calls : List Call) : Shared := runFrom (step env) s calls

/-- The calls as the kernel issues them: it opens no directory that could be removed, links only
inodes that still have a name, and its offsets are those of the FUSE handlers, so that the end of
a write fits in 64 bits. -/
def Legal (s : Shared) : Call → Prop
  | .openFile ino => ∀ r ∈ s.db.findInode ino, r.kind = .directory → ino = 1
  | .link ino _ _ => ∀ r ∈ s.db.findInode ino, 0 < r.nlink
  | .write _ offset data => offset + data.length < u64Size
  | .writeFh _ offset data => offset + data.length < u64Size
  | _ => True

instance (s : Shared) : ∀ c, Decidable (Legal s c)
  | .openFile ino => inferInstanceAs (Decidable (∀ r ∈ s.db.findInode ino, _))
  | .link ino _ _ => inferInstanceAs (Decidable (∀ r ∈ s.db.findInode ino, _))
  | .write _ offset data => inferInstanceAs (Decidable (offset + data.length < u64Size))
  | .writeFh _ offset data => inferInstanceAs (Decidable (offset + data.length < u64Size))
  | .getattr .. | .lookup .. | .mkdir .. | .create .. | .symlink .. | .setattr .. | .read ..
  | .readFh .. | .fallocate .. | .flushFile .. | .flushFh .. | .syncFh .. | .flushAll
  | .releaseFile .. | .unlink .. | .rmdir .. | .rename .. | .createOpen .. =>
    inferInstanceAs (Decidable True)

def LegalCalls (env : Env) (s : Shared) (calls : List Call) : Prop :=
  LegalRun (step env) Legal s calls

instance (env : Env) (s : Shared) (calls : List Call) : Decidable (LegalCalls env s calls) :=
  decidableLegalRun (step env) Legal s calls

end Dbfs

end VibeDbfs
