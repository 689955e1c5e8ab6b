import VibeDbfs.Open.Arena

/-!
The open-inode table: process-lifetime state for inodes that have open handles or unflushed data.
-/

set_option autoImplicit false
set_option relaxedAutoImplicit false

namespace VibeDbfs

abbrev Slot := Nat

/-- The arrays of `OpenInodes` at one slot; they always have one length. -/
structure OpenInode where
  ino : Nat
  kind : FileKind
  size : Nat
  mtime : Timestamp
  refs : Nat
  unlinked : Bool
  dirty : DirtyIdx
  deriving DecidableEq, Repr

def OpenInode.absent : OpenInode := ⟨0, .regularFile, 0, ⟨0, 0⟩, 0, false, .empty⟩

structure OpenInodes where
  slots : List OpenInode
  byIno : List (Nat × Slot)
  free : List Slot

namespace OpenInodes

def empty : OpenInodes := ⟨[], [], []⟩

def get (inodes : OpenInodes) (slot : Slot) : OpenInode := inodes.slots.getD slot .absent

def update (inodes : OpenInodes) (slot : Slot) (f : OpenInode → OpenInode) : OpenInodes :=
  { inodes with slots := inodes.slots.modify slot f }

def find (inodes : OpenInodes) (ino : Nat) : Option Slot :=
  (inodes.byIno.find? fun e => e.1 = ino).map Prod.snd

/-- Adds a slot for `ino` with no handles and no dirty data. -/
def insert (inodes : OpenInodes) (ino : Nat) (kind : FileKind) (size : Nat) : Slot × OpenInodes :=
  let reset (o : OpenInode) : OpenInode :=
    { o with ino := ino, kind := kind, size := size, mtime := ⟨0, 0⟩, refs := 0, unlinked := false }
  let byIno (slot : Slot) := (ino, slot) :: inodes.byIno.filter fun e => e.1 ≠ ino
  match inodes.free with
  | slot :: free => (slot, ⟨inodes.slots.modify slot reset, byIno slot, free⟩)
  | [] =>
    let slot := inodes.slots.length
    (slot, ⟨inodes.slots ++ [⟨ino, kind, size, ⟨0, 0⟩, 0, false, .empty⟩], byIno slot, []⟩)

/-- Frees `slot`. The caller has already dealt with its dirty chunks. -/
def remove (inodes : OpenInodes) (slot : Slot) : OpenInodes :=
  let ino := (inodes.get slot).ino
  { slots := inodes.slots.modify slot fun o => { o with refs := 0, unlinked := false }
    byIno := inodes.byIno.filter fun e => e.1 ≠ ino
    free := slot :: inodes.free }

def isOpen (inodes : OpenInodes) (slot : Slot) : Bool := (inodes.get slot).refs > 0

/-- The live slots, in the order in which `byIno` lists them. -/
def values (inodes : OpenInodes) : List Slot := inodes.byIno.map Prod.snd

def laterMax (key : Slot → Nat) (best : Option Slot) (slot : Slot) : Option Slot :=
  match best with
  | none => some slot
  | some b => if key b ≤ key slot then some slot else some b

/-- `Iterator::max_by_key`: the last of the elements with the largest key. -/
def maxByKey (key : Slot → Nat) (slots : List Slot) : Option Slot :=
  slots.foldl (laterMax key) none

/-- The live slot with the most dirty chunks, when the map iterates in the order `order`. -/
def largestDirty (inodes : OpenInodes) (order : List Slot → List Slot) : Option Slot :=
  maxByKey (fun slot => (inodes.get slot).dirty.entries.length)
    ((order inodes.values).filter fun slot => !(inodes.get slot).dirty.isEmpty)

end OpenInodes

/-- FUSE file handle to slot. `none` is the source's `NO_SLOT`. -/
structure Handles where
  slot : List (Option Slot)
  free : List Nat

namespace Handles

def empty : Handles := ⟨[], []⟩

def alloc (handles : Handles) (slot : Slot) : Nat × Handles :=
  match handles.free with
  | fh :: free => (fh, ⟨handles.slot.set fh (some slot), free⟩)
  | [] => (handles.slot.length, ⟨handles.slot ++ [some slot], []⟩)

def get (handles : Handles) (fh : Nat) : Option Slot := (handles.slot[fh]?).join

/-- Frees `fh` and returns the slot it pointed at. -/
def release (handles : Handles) (fh : Nat) : Option (Slot × Handles) :=
  (handles.get fh).map fun slot => (slot, ⟨handles.slot.set fh none, fh :: handles.free⟩)

end Handles

structure OpenTable where
  inodes : OpenInodes
  handles : Handles
  arena : ChunkArena
  closing : Bool

namespace OpenTable

/-- A table whose dirty data may use up to `writeBuffer` bytes. -/
def new (writeBuffer : Nat) : OpenTable := ⟨.empty, .empty, .new writeBuffer, false⟩

def handleIno (t : OpenTable) (fh : Nat) : Option Nat :=
  (t.handles.get fh).map fun slot => (t.inodes.get slot).ino

def updateSlot (t : OpenTable) (slot : Slot) (f : OpenInode → OpenInode) : OpenTable :=
  { t with inodes := t.inodes.update slot f }

/-- The dirty chunks of `slot` go back to the arena. -/
def releaseDirty (t : OpenTable) (slot : Slot) : OpenTable :=
  let (dirty, arena) := (t.inodes.get slot).dirty.releaseInto t.arena
  { t with inodes := t.inodes.update slot fun o => { o with dirty := dirty }, arena := arena }

/-- Frees `slot` if nothing needs it any more: no handles and no dirty data. -/
def freeIfIdle (t : OpenTable) (slot : Slot) : OpenTable :=
  let o := t.inodes.get slot
  if o.refs = 0 ∧ o.dirty.isEmpty then { t with inodes := t.inodes.remove slot } else t

/-- Drops `slot` and its dirty data without writing anything: its inode is gone. -/
def discardSlot (t : OpenTable) (slot : Slot) : OpenTable :=
  let t := t.releaseDirty slot
  { t with inodes := t.inodes.remove slot }

/-- Adds a handle to `slot` and returns it as the FUSE fh. -/
def openSlot (t : OpenTable) (slot : Slot) : Nat × OpenTable :=
  let t := t.updateSlot slot fun o => { o with refs := o.refs + 1 }
  let (fh, handles) := t.handles.alloc slot
  (fh, { t with handles := handles })

def isOpen (t : OpenTable) (ino : Nat) : Bool :=
  match t.inodes.find ino with
  | some slot => t.inodes.isOpen slot
  | none => false

/-- After the entry for `target` was removed: forget an inode the database deleted, or mark one
that stays because it is still open. -/
def entryRemoved (t : OpenTable) (target : Inode) : OpenTable :=
  if target.kind = .directory ∨ target.nlink > 1 then t
  else
    match t.inodes.find target.ino with
    | none => t
    | some slot =>
      if t.inodes.isOpen slot then t.updateSlot slot fun o => { o with unlinked := true }
      else t.discardSlot slot

end OpenTable

end VibeDbfs
