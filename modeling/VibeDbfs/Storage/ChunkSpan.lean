import VibeDbfs.Lib.Bytes
import VibeDbfs.Storage.Records
import Mathlib.Data.UInt

/-!
Chunk keys and chunk boundary arithmetic. A file is cut into chunks of `chunkSize` bytes; chunk
`c` of inode `ino` is the row `chunkKey ino c`. The arithmetic is that of `u64`, with its wrap.
-/

set_option autoImplicit false
set_option relaxedAutoImplicit false

namespace VibeDbfs

open Lib.Bytes

def chunkSize : Nat := 65536

def chunkBits : Nat := 24

def maxChunks : Nat := 16777216

def maxFileSize : Nat := 1099511627776

/-- The largest inode number whose chunk keys fit in a positive `i64`. -/
def maxIno : Nat := 549755813887

def u64Size : Nat := 18446744073709551616

def u64Add (a b : Nat) : Nat := (a + b) % u64Size

def u64Sub (a b : Nat) : Nat := (a + (u64Size - b)) % u64Size

def u64Mul (a b : Nat) : Nat := (a * b) % u64Size

def asI64 (n : Nat) : Int := if n < 9223372036854775808 then n else (n : Int) - u64Size

/-- Row id of chunk `c` of `ino`. -/
def chunkKey (ino c : Nat) : Int := asI64 (((ino <<< chunkBits) % u64Size) ||| c)

/-- Inclusive row id range of every chunk of `ino`. -/
def chunkKeys (ino : Nat) : Int × Int := (chunkKey ino 0, chunkKey ino (maxChunks - 1))

def chunkIndexOf (key : Int) : Nat := (key % u64Size).toNat &&& (maxChunks - 1)

structure Range where
  start : Nat
  stop : Nat
  deriving DecidableEq, Repr

/-- The chunks covered by the byte range `start .. stop`. -/
structure ChunkSpan where
  start : Nat
  stop : Nat
  first : Nat
  last : Nat
  deriving DecidableEq, Repr

/-- The part of one chunk that a span touches: its place in the chunk and in the buffer. -/
structure ChunkPiece where
  chunk : Range
  buf : Range
  deriving DecidableEq, Repr

def ChunkPiece.isFullChunk (p : ChunkPiece) : Bool :=
  p.chunk.start == 0 && p.chunk.stop == chunkSize

namespace ChunkSpan

def new (offset len : Nat) : Option ChunkSpan :=
  if len = 0 then none
  else
    let stop := u64Add offset len
    some ⟨offset, stop, offset / chunkSize, u64Sub stop 1 / chunkSize⟩

def piece (span : ChunkSpan) (c : Nat) : ChunkPiece :=
  let chunkStart := u64Mul c chunkSize
  let start := max span.start chunkStart
  let stop := min span.stop (u64Add chunkStart chunkSize)
  { chunk := ⟨u64Sub start chunkStart, u64Sub stop chunkStart⟩
    buf := ⟨u64Sub start span.start, u64Sub stop span.start⟩ }

/-- Copy the bytes of a stored chunk that fall in this span into its buffer `out`. -/
def copyOut (span : ChunkSpan) (c : Nat) (data out : Bytes) : Bytes :=
  let p := span.piece c
  let avail := min data.length p.chunk.stop
  if avail ≤ p.chunk.start then out
  else splice p.buf.start (slice p.chunk.start (avail - p.chunk.start) data) out

/-- The chunk indexes `first..=last`. -/
def chunks (span : ChunkSpan) : List Nat := List.range' span.first (span.last + 1 - span.first)

end ChunkSpan

end VibeDbfs
