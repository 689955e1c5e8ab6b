import VibeDbfs.Storage.ChunkSpan

/-!
Memory for buffered chunk data: one byte buffer carved into slots of `chunkSize` bytes, and the
sorted index of the dirty chunks of one inode.
-/

set_option autoImplicit false
set_option relaxedAutoImplicit false

namespace VibeDbfs

open Lib.Bytes

/-- Index of a slot in a `ChunkArena`: a `u32` in the source, enough for 2^48 bytes of memory. -/
abbrev ArenaSlot := Nat

/-- `bytes` is the memory; its first `len.length * chunkSize` bytes are its vector. The head of
`free` is the slot pushed last. -/
structure ChunkArena where
  bytes : Nat → UInt8
  len : List Nat
  free : List ArenaSlot
  maxSlots : Nat

namespace ChunkArena

/-- Where the buffer of `slot` starts. -/
def base (slot : ArenaSlot) : Nat := chunkSize * slot

def new (budget : Nat) : ChunkArena := ⟨fun _ => 0, [], [], max (budget / chunkSize) 1⟩

/-- A slot with no valid bytes, or `none` when the budget is used up. -/
def alloc (arena : ChunkArena) : Option (ArenaSlot × ChunkArena) :=
  match arena.free with
  | slot :: free => some (slot, { arena with free := free, len := arena.len.set slot 0 })
  | [] =>
    if arena.len.length < arena.maxSlots then
      some (arena.len.length, { arena with
        bytes := wipe arena.bytes (base arena.len.length) chunkSize
        len := arena.len ++ [0] })
    else none

def release (arena : ChunkArena) (slot : ArenaSlot) : ChunkArena :=
  { arena with free := slot :: arena.free }

/-- The valid bytes of `slot`. -/
def chunk (arena : ChunkArena) (slot : ArenaSlot) : Bytes :=
  tabulate (arena.len.getD slot 0) fun i => arena.bytes (base slot + i)

/-- `data` copied to the start of the buffer of `slot`. -/
def fillBuffer (arena : ChunkArena) (slot : ArenaSlot) (data : Bytes) : ChunkArena :=
  { arena with bytes := poke arena.bytes (base slot) data }

def setLen (arena : ChunkArena) (slot : ArenaSlot) (len : Nat) : ChunkArena :=
  { arena with len := arena.len.set slot len }

/-- Copies `data` to `range` of `slot`, zeroing a gap between the old end and `range.start`. -/
def write (arena : ChunkArena) (slot : ArenaSlot) (range : Range) (data : Bytes) : ChunkArena :=
  let len := arena.len.getD slot 0
  let bytes := if range.start > len then wipe arena.bytes (base slot + len) (range.start - len)
    else arena.bytes
  { arena with
    bytes := poke bytes (base slot + range.start) data
    len := arena.len.set slot (max len range.stop) }

end ChunkArena

/-- Dirty chunks of one inode, `(chunk index, arena slot)`, sorted by chunk index. -/
structure DirtyIdx where
  entries : List (Nat × ArenaSlot)
  deriving DecidableEq, Repr

/-- `slice::partition_point`: the number of leading elements that satisfy `p`. -/
def partitionPoint {α : Type} (p : α → Bool) (xs : List α) : Nat := (xs.takeWhile p).length

/-- `slice::binary_search_by_key` on entries with distinct sorted keys. -/
def binarySearchByKey (c : Nat) (entries : List (Nat × ArenaSlot)) : Except Nat Nat :=
  let position := partitionPoint (fun e => e.1 < c) entries
  match entries[position]? with
  | some e => if e.1 = c then .ok position else .error position
  | none => .error position

namespace DirtyIdx

def empty : DirtyIdx := ⟨[]⟩

def isEmpty (idx : DirtyIdx) : Bool := idx.entries.isEmpty

/-- The position of `c`, or the position at which to insert it. -/
def find (idx : DirtyIdx) (c : Nat) : Except Nat Nat :=
  match idx.entries.getLast? with
  | none => .error 0
  | some (last, _) =>
    if last = c then .ok (idx.entries.length - 1)
    else if last < c then .error idx.entries.length
    else binarySearchByKey c idx.entries

def slotAt (idx : DirtyIdx) (position : Nat) : ArenaSlot := (idx.entries.getD position (0, 0)).2

def insert (idx : DirtyIdx) (position c : Nat) (slot : ArenaSlot) : DirtyIdx :=
  ⟨idx.entries.insertIdx position (c, slot)⟩

/-- Entries with chunk index in `first..=last`. -/
def range (idx : DirtyIdx) (first last : Nat) : List (Nat × ArenaSlot) :=
  let start := partitionPoint (fun e => e.1 < first) idx.entries
  let stop := partitionPoint (fun e => e.1 ≤ last) idx.entries
  slice start (stop - start) idx.entries

/-- Returns every slot to `arena` and empties the index. -/
def releaseInto (idx : DirtyIdx) (arena : ChunkArena) : DirtyIdx × ChunkArena :=
  (empty, idx.entries.foldl (fun arena e => arena.release e.2) arena)

end DirtyIdx

end VibeDbfs
