import VibeDbfs.Fuse.Shared

/-!
The functions of `Shared`: flushing, reading and writing through the open-inode table.
-/

set_option autoImplicit false
set_option relaxedAutoImplicit false

namespace VibeDbfs

open Lib Lib.Bytes

/-- Whether a flush also persists an inode that was unlinked while open. -/
inductive Unlinked where
  | skip
  | persist
  deriving DecidableEq, Repr

namespace Fs

def errnoOfKind (kind : FileKind) : Fs Unit :=
  match kind.regularFileError with
  | some error => Prog.throw (errnoFromDbError error)
  | none => pure ()

def dirtyChunks (t : OpenTable) (o : OpenInode) : List (Nat × Bytes) :=
  o.dirty.entries.map fun e => (e.1, t.arena.chunk e.2)

/-- Writes the dirty chunks of `slot` to the database. On failure they stay buffered. -/
def flushSlot (env : Env) (slot : Slot) (unlinked : Unlinked) : Fs Unit := do
  let t ← table
  let o := t.inodes.get slot
  if o.dirty.isEmpty || (o.unlinked && unlinked == .skip) then pure ()
  else do
    exec env fun db => db.replaceChunks o.ino o.size (dirtyChunks t o) o.mtime
    updateTable fun t => t.releaseDirty slot
    record

def freeIfIdle (slot : Slot) : Fs Unit := updateTable fun t => t.freeIfIdle slot

/-- The loop of `flush_all`. A failing inode stays dirty and the loop moves on. -/
def flushEach (env : Env) : List Slot → Option Errno → Fs (Option Errno)
  | [], firstError => pure firstError
  | slot :: slots, firstError => do
    match ← Prog.attempt (flushSlot env slot .skip) with
    | .ok () => do
      freeIfIdle slot
      flushEach env slots firstError
    | .error errno => flushEach env slots (firstError <|> some errno)

/-- The part of `flush_all` under the table lock: the first error, if any. -/
def flushAllLocked (env : Env) : Fs (Option Errno) := do
  let order ← Fs.order env
  let t ← table
  flushEach env (order t.inodes.values) none

/-- The part of `flush_all` after it released the table lock. -/
def flushAllSync (env : Env) (firstError : Option Errno) : Fs Unit := do
  let synced ← Prog.attempt (syncDurable env)
  match firstError, synced with
  | some errno, _ => Prog.throw errno
  | none, .error errno => Prog.throw errno
  | none, .ok () => pure ()

def flushAll (env : Env) : Fs Unit := do
  let firstError ← flushAllLocked env
  flushAllSync env firstError

def refuseWrites : Fs Unit := updateTable fun t => { t with closing := true }

def recordFlush (result : Except Errno Unit) : Fs Unit := Prog.modify fun s =>
  { s with lastFlush := result }

/-- The slot of `ino`, loading kind and size from the database if it has none. -/
def slotFor (env : Env) (ino : Nat) : Fs Slot := do
  let t ← table
  match t.inodes.find ino with
  | some slot => pure slot
  | none => do
    let (kind, size) ← query env fun db => db.inodeHead ino
    let (slot, inodes) := t.inodes.insert ino kind size
    updateTable fun t => { t with inodes := inodes }
    pure slot

def orErrno {α : Type} (errno : Errno) : Option α → Fs α
  | some a => pure a
  | none => Prog.throw errno

def openSlot (slot : Slot) : Fs Nat := fun s =>
  let (fh, t) := s.table.openSlot slot
  (.ok fh, { s with table := t })

/-- The dirty chunks overlaid on the stored bytes in `output`. -/
def overlayDirty (t : OpenTable) (o : OpenInode) (offset : Nat) (output : Bytes) : Bytes :=
  match ChunkSpan.new offset output.length with
  | none => output
  | some span => (o.dirty.range span.first span.last).foldl
      (fun output e => span.copyOut e.1 (t.arena.chunk e.2) output) output

def readSlot (env : Env) (slot : Slot) (offset size : Nat) : Fs Bytes := do
  let t ← table
  let o := t.inodes.get slot
  errnoOfKind o.kind
  if offset ≥ o.size ∨ size = 0 then pure []
  else do
    let output ← query env fun db =>
      .ok (db.readInto o.ino offset (zeros (min size (o.size - offset))))
    pure (overlayDirty t o offset output)

/-- The loop of `alloc_chunk`, with fuel: flush the inode with the most dirty chunks until a slot
is free. -/
def allocChunk (env : Env) (writing : Slot) : Nat → Fs ArenaSlot
  | 0 => Prog.throw Errno.EIO
  | fuel + 1 => do
    let t ← table
    match t.arena.alloc with
    | some (a, arena) => do
      updateTable fun t => { t with arena := arena }
      pure a
    | none => do
      let order ← Fs.order env
      let victim ← orErrno Errno.EIO (t.inodes.largestDirty order)
      flushSlot env victim .persist
      onlyIf (victim ≠ writing) (freeIfIdle victim)
      allocChunk env writing fuel

/-- The fuel given to `allocChunk`; its loop never needs more than two turns. -/
def allocFuel : Nat := 3

/-- Fills the buffer of `a` with the stored chunk, or returns `a` to the arena. -/
def loadChunk (env : Env) (ino c : Nat) (a : ArenaSlot) : Fs Unit := do
  match ← Prog.attempt (query env fun db => .ok (db.readChunkInto ino c)) with
  | .ok data => updateTable fun t =>
      { t with arena := (t.arena.fillBuffer a data).setLen a data.length }
  | .error errno => do
    updateTable fun t => { t with arena := t.arena.release a }
    Prog.throw errno

/-- `Result::unwrap_err`, which panics on `ok`. -/
def unwrapErr : Except Nat Nat → Nat
  | .error position => position
  | .ok position => position

/-- The arena slot of chunk `c`, allocated and indexed if the chunk is not dirty yet. -/
def chunkSlot (env : Env) (slot : Slot) (ino c : Nat) (piece : ChunkPiece) : Fs ArenaSlot := do
  let t ← table
  match (t.inodes.get slot).dirty.find c with
  | .ok position => pure ((t.inodes.get slot).dirty.slotAt position)
  | .error _ => do
    -- this may flush the inode being written, so the position is looked up again after it
    let a ← allocChunk env slot allocFuel
    onlyIf (¬piece.isFullChunk) (loadChunk env ino c a)
    updateTable fun t => t.updateSlot slot fun o =>
      { o with dirty := o.dirty.insert (unwrapErr (o.dirty.find c)) c a }
    pure a

/-- One turn of the loop of `write_slot`. -/
def writeChunk (env : Env) (slot : Slot) (ino : Nat) (span : ChunkSpan) (data : Bytes) (c : Nat) :
    Fs Unit := do
  let piece := span.piece c
  let a ← chunkSlot env slot ino c piece
  let input := slice piece.buf.start (piece.buf.stop - piece.buf.start) data
  updateTable fun t => { t with arena := t.arena.write a piece.chunk input }
  let chunkEnd := u64Add (u64Mul c chunkSize) piece.chunk.stop
  updateTable fun t => t.updateSlot slot fun o => { o with size := max o.size chunkEnd }
  record

def writeSlot (env : Env) (slot : Slot) (offset : Nat) (data : Bytes) : Fs Nat := do
  let t ← table
  let o := t.inodes.get slot
  errnoOfKind o.kind
  if t.closing then Prog.throw Errno.EIO
  else
    match ChunkSpan.new offset data.length with
    | none => pure 0
    | some span =>
      if span.stop > maxFileSize then Prog.throw .EFBIG
      else do
        let modified ← now env
        updateTable fun t => t.updateSlot slot fun o => { o with mtime := modified }
        Prog.each (writeChunk env slot o.ino span data) span.chunks
        pure (data.length % 4294967296)

/-- What is left to do for `slot` after a handle went. -/
def dropHandle (env : Env) (slot : Slot) : Fs Unit := do
  let t ← table
  let o := t.inodes.get slot
  if o.refs = 0 ∧ o.unlinked then do
    updateTable fun t => t.discardSlot slot
    exec env fun db => db.deleteInode o.ino
  else do
    flushSlot env slot .skip
    freeIfIdle slot

/-- Drops one handle. The last handle of an inode unlinked while open deletes it; otherwise the
dirty data is flushed and an idle slot is freed. -/
def releaseFh (env : Env) (fh : Nat) : Fs Unit := do
  let t ← table
  let closed ← orErrno .EBADF (t.handles.release fh)
  updateTable fun t => { t with handles := closed.2 }
  updateTable fun t => t.updateSlot closed.1 fun o => { o with refs := o.refs - 1 }
  dropHandle env closed.1

def truncateLocked (env : Env) (ino size : Nat) : Fs Unit := do
  let t ← table
  let slot := t.inodes.find ino
  ifSome slot fun slot => flushSlot env slot .persist
  let modified ← now env
  exec env fun db => db.truncateFile ino size modified
  ifSome slot fun slot => do
    updateTable fun t => t.updateSlot slot fun o => { o with size := size }
    freeIfIdle slot
  record

end Fs

end VibeDbfs
