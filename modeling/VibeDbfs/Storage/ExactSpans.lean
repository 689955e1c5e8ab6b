import VibeDbfs.Storage.ByteArray

/-!
Where the `u64` arithmetic of spans does not wrap. One predicate for each function says that every
addition, multiplication and subtraction it makes is exact.
-/

set_option autoImplicit false
set_option relaxedAutoImplicit false

namespace VibeDbfs

open Lib Lib.Bytes

namespace ChunkSpan

/-- `offset + len` and `end - 1`. -/
def NewExact (offset len : Nat) : Prop := offset + len < u64Size ∧ 1 ≤ offset + len

/-- The start and the end of the chunk, and the two ranges of the piece. -/
def PieceExact (span : ChunkSpan) (c : Nat) : Prop :=
  let chunkStart := c * chunkSize
  let start := max span.start chunkStart
  let stop := min span.stop (chunkStart + chunkSize)
  chunkStart < u64Size ∧ chunkStart + chunkSize < u64Size ∧ chunkStart ≤ start ∧
    chunkStart ≤ stop ∧ span.start ≤ start ∧ span.start ≤ stop

def CopyExact (span : ChunkSpan) (c : Nat) (data : Bytes) : Prop :=
  let p := span.piece c
  let avail := min data.length p.chunk.stop
  span.PieceExact c ∧ (¬avail ≤ p.chunk.start → p.chunk.start ≤ avail ∧
    p.buf.start + (avail - p.chunk.start) < u64Size)

variable {offset len c : Nat}

theorem newExact_of_le (hlen : 0 < len) (h : offset + len ≤ maxFileSize) : NewExact offset len := by
  simp only [NewExact, u64Size, maxFileSize] at *
  omega

theorem pieceExact (hlen : 0 < len) (h : offset + len ≤ 2 ^ 63)
    (hc : c ∈ (ofRange offset len).chunks) : (ofRange offset len).PieceExact c := by
  rw [mem_chunks hlen] at hc
  simp only [PieceExact, ofRange, chunkSize, u64Size] at *
  omega

theorem pieceExact_of_le (hlen : 0 < len) (h : offset + len ≤ maxFileSize)
    (hc : c ∈ (ofRange offset len).chunks) : (ofRange offset len).PieceExact c := by
  simp only [maxFileSize] at h
  exact pieceExact hlen (by omega) hc

theorem copyExact_of_le (hlen : 0 < len) (h : offset + len ≤ maxFileSize)
    (hc : c ∈ (ofRange offset len).chunks) (data : Bytes) :
    (ofRange offset len).CopyExact c data := by
  have h63 : offset + len ≤ 2 ^ 63 := by
    simp only [maxFileSize] at h
    omega
  have hpiece := piece_ofRange h63 hc hlen
  have hmem := (mem_chunks hlen).mp hc
  refine ⟨pieceExact_of_le hlen h hc, ?_⟩
  rw [hpiece]
  dsimp only
  intro hsome
  simp only [pieceStart, pieceStop, chunkSize, u64Size, maxFileSize] at *
  omega

end ChunkSpan

open ChunkSpan

/-- Nothing wraps in a direct write, once it has passed the check of its end. -/
def DirectWriteExact (offset len : Nat) : Prop :=
  ¬min (offset + len) (u64Size - 1) > maxFileSize → NewExact offset len ∧
    ∀ span, ChunkSpan.new offset len = some span → ∀ c ∈ span.chunks, span.PieceExact c

theorem directWriteExact {offset len : Nat} (hlen : 0 < len) : DirectWriteExact offset len := by
  intro hpassed
  have hmax : offset + len ≤ maxFileSize := by
    simp only [u64Size, maxFileSize] at *
    omega
  have hexact := newExact_of_le hlen hmax
  refine ⟨hexact, fun span hspan c hc => ?_⟩
  rw [ChunkSpan.new_eq hlen hexact.1] at hspan
  obtain rfl := Option.some.inj hspan
  exact pieceExact_of_le hlen hmax hc

namespace Db

variable {db : Db} {ino offset size len : Nat}

/-- Nothing wraps in `read_into`, whatever rows it reads. -/
def ReadIntoExact (db : Db) (ino offset len : Nat) : Prop :=
  NewExact offset len ∧ ∀ span, ChunkSpan.new offset len = some span → span.first < maxChunks →
    ∀ r ∈ db.fileChunks, chunkKey ino span.first ≤ r.id →
      r.id ≤ chunkKey ino (min span.last (maxChunks - 1)) →
        span.CopyExact (chunkIndexOf r.id) r.data

/-- Nothing wraps in `read_file`. -/
def ReadExact (db : Db) (ino offset size : Nat) : Prop :=
  ¬(offset ≥ db.storedSize ino ∨ size = 0) → offset ≤ db.storedSize ino ∧
    db.ReadIntoExact ino offset (min size (db.storedSize ino - offset))

theorem readIntoExact (hino : ino ≤ maxIno) (hlen : 0 < len) (h : offset + len ≤ maxFileSize) :
    db.ReadIntoExact ino offset len := by
  have hexact := newExact_of_le hlen h
  refine ⟨hexact, fun span hspan hfirst r _ hlow hhigh => ?_⟩
  rw [ChunkSpan.new_eq hlen hexact.1] at hspan
  obtain rfl := Option.some.inj hspan
  have hlast : min (ofRange offset len).last (maxChunks - 1) < maxChunks := by
    simp only [maxChunks]
    omega
  obtain ⟨d, hd, hkey⟩ := chunkKey_of_between hino hfirst hlast hlow hhigh
  rw [hkey, chunkKey_le_iff hino hfirst hd] at hlow
  rw [hkey, chunkKey_le_iff hino hd hlast] at hhigh
  rw [hkey, chunkIndexOf_chunkKey hino hd]
  apply copyExact_of_le hlen h
  rw [chunks, List.mem_range'_1]
  omega

theorem readExact (hino : ino ≤ maxIno) (hmax : db.storedSize ino ≤ maxFileSize) :
    db.ReadExact ino offset size := by
  intro hsome
  refine ⟨by omega, readIntoExact hino ?_ ?_⟩
  · omega
  · omega

end Db

end VibeDbfs
