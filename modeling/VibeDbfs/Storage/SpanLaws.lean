import VibeDbfs.Storage.ChunkSpan

/-!
What the chunk arithmetic computes where nothing wraps: keys are pairs packed in order, and the
pieces of a span are the chunk-wise parts of its byte range.
-/

set_option autoImplicit false
set_option relaxedAutoImplicit false

namespace VibeDbfs

open Lib.Bytes

theorem u64Add_of_lt {a b : Nat} (h : a + b < u64Size) : u64Add a b = a + b := Nat.mod_eq_of_lt h

theorem u64Mul_of_lt {a b : Nat} (h : a * b < u64Size) : u64Mul a b = a * b := Nat.mod_eq_of_lt h

theorem u64Sub_of_le {a b : Nat} (hba : b ≤ a) (ha : a < u64Size) : u64Sub a b = a - b := by
  have h : a + (u64Size - b) = (a - b) + u64Size := by omega
  rw [u64Sub, h, Nat.add_mod_right, Nat.mod_eq_of_lt (by omega)]

theorem chunkKey_eq {ino c : Nat} (hino : ino ≤ maxIno) (hc : c < maxChunks) :
    chunkKey ino c = ((ino * maxChunks + c : Nat) : Int) := by
  simp only [maxIno, maxChunks] at hino hc
  have hshift : (ino <<< chunkBits) % u64Size = 2 ^ 24 * ino := by
    rw [Nat.shiftLeft_eq, chunkBits, Nat.mod_eq_of_lt (by simp only [u64Size]; omega)]
    omega
  have hor : 2 ^ 24 * ino ||| c = 2 ^ 24 * ino + c :=
    (Nat.two_pow_add_eq_or_of_lt (by omega) ino).symm
  rw [chunkKey, hshift, hor, asI64, if_pos (by omega)]
  simp only [maxChunks]
  omega

theorem chunkIndexOf_chunkKey {ino c : Nat} (hino : ino ≤ maxIno) (hc : c < maxChunks) :
    chunkIndexOf (chunkKey ino c) = c := by
  have hmask : maxChunks - 1 = 2 ^ 24 - 1 := rfl
  rw [chunkIndexOf, chunkKey_eq hino hc, hmask, Nat.and_two_pow_sub_one_eq_mod]
  simp only [maxIno, maxChunks, u64Size] at *
  omega

theorem chunkKey_le_iff {ino c d : Nat} (hino : ino ≤ maxIno) (hc : c < maxChunks)
    (hd : d < maxChunks) : chunkKey ino c ≤ chunkKey ino d ↔ c ≤ d := by
  rw [chunkKey_eq hino hc, chunkKey_eq hino hd]
  omega

theorem chunkKey_inj {a b c d : Nat} (ha : a ≤ maxIno) (hb : b ≤ maxIno) (hc : c < maxChunks)
    (hd : d < maxChunks) : chunkKey a c = chunkKey b d ↔ a = b ∧ c = d := by
  rw [chunkKey_eq ha hc, chunkKey_eq hb hd]
  simp only [maxChunks] at *
  omega

theorem chunkKey_between_iff {a b d : Nat} (ha : a ≤ maxIno) (hb : b ≤ maxIno)
    (hd : d < maxChunks) {first last : Nat} (hfirst : first < maxChunks)
      (hlast : last < maxChunks) :
    (chunkKey a first ≤ chunkKey b d ∧ chunkKey b d ≤ chunkKey a last) ↔
      a = b ∧ first ≤ d ∧ d ≤ last := by
  rw [chunkKey_eq ha hfirst, chunkKey_eq hb hd, chunkKey_eq ha hlast]
  simp only [maxChunks] at *
  omega

theorem chunkKey_after_iff {a b d : Nat} (ha : a ≤ maxIno) (hb : b ≤ maxIno) (hd : d < maxChunks)
    {first : Nat} (hfirst : first < maxChunks) :
    (chunkKey a first < chunkKey b d ∧ chunkKey b d ≤ chunkKey a (maxChunks - 1)) ↔
      b = a ∧ first < d := by
  rw [chunkKey_eq ha hfirst, chunkKey_eq hb hd, chunkKey_eq ha (by simp [maxChunks])]
  simp only [maxChunks] at *
  omega

theorem chunkKey_of_between {ino first last : Nat} (hino : ino ≤ maxIno)
    (hfirst : first < maxChunks)
    (hlast : last < maxChunks) {key : Int} (hlow : chunkKey ino first ≤ key)
    (hhigh : key ≤ chunkKey ino last) : ∃ d < maxChunks, key = chunkKey ino d := by
  rw [chunkKey_eq hino hfirst] at hlow
  rw [chunkKey_eq hino hlast] at hhigh
  simp only [maxIno, maxChunks] at *
  refine ⟨(key - (ino * 16777216 : Nat)).toNat, by omega, ?_⟩
  rw [chunkKey_eq hino (by simp only [maxChunks]; omega)]
  simp only [maxChunks]
  omega

namespace ChunkSpan

/-- The span of `offset .. offset + len` in natural numbers. -/
def ofRange (offset len : Nat) : ChunkSpan :=
  ⟨offset, offset + len, offset / chunkSize, (offset + len - 1) / chunkSize⟩

theorem new_eq {offset len : Nat} (hlen : 0 < len) (h : offset + len < u64Size) :
    new offset len = some (ofRange offset len) := by
  have hne : len ≠ 0 := by omega
  rw [new, if_neg hne]
  simp only [u64Add_of_lt h, u64Sub_of_le (show 1 ≤ offset + len by omega) h, ofRange]

theorem new_zero (offset : Nat) : new offset 0 = none := rfl

/-- The part of chunk `c` in `offset .. offset + len`, as a range of the chunk. -/
def pieceStart (offset c : Nat) : Nat := max offset (c * chunkSize) - c * chunkSize

def pieceStop (offset len c : Nat) : Nat :=
  min (offset + len) (c * chunkSize + chunkSize) - c * chunkSize

theorem mem_chunks {offset len c : Nat} (hlen : 0 < len) :
    c ∈ (ofRange offset len).chunks ↔ c * chunkSize < offset + len ∧ offset < (c + 1) *
      chunkSize := by
  simp only [chunks, ofRange, List.mem_range'_1, chunkSize]
  omega

theorem piece_ofRange {offset len c : Nat} (h : offset + len ≤ 2 ^ 63)
    (hc : c ∈ (ofRange offset len).chunks) (hlen : 0 < len) :
    (ofRange offset len).piece c =
      { chunk := ⟨pieceStart offset c, pieceStop offset len c⟩
        buf := ⟨c * chunkSize + pieceStart offset c - offset,
          c * chunkSize + pieceStop offset len c - offset⟩ } := by
  rw [mem_chunks hlen] at hc
  simp only [chunkSize] at hc
  have hmul : u64Mul c chunkSize = c * chunkSize :=
    u64Mul_of_lt (by simp only [chunkSize, u64Size]; omega)
  have hadd : u64Add (c * chunkSize) chunkSize = c * chunkSize + chunkSize :=
    u64Add_of_lt (by simp only [chunkSize, u64Size]; omega)
  simp only [piece, hmul, hadd, ofRange]
  rw [u64Sub_of_le, u64Sub_of_le, u64Sub_of_le, u64Sub_of_le]
  · simp only [pieceStart, pieceStop, chunkSize, ChunkPiece.mk.injEq, Range.mk.injEq, true_and]
    omega
  all_goals simp only [chunkSize, u64Size]; omega

theorem pieceStart_lt_pieceStop {offset len c : Nat} (hlen : 0 < len)
    (hc : c ∈ (ofRange offset len).chunks) : pieceStart offset c < pieceStop offset len c := by
  rw [mem_chunks hlen] at hc
  simp only [pieceStart, pieceStop, chunkSize] at *
  omega

theorem pieceStop_le (offset len c : Nat) : pieceStop offset len c ≤ chunkSize := by
  simp only [pieceStop]
  omega

theorem isFullChunk_iff {offset len c : Nat} (h : offset + len ≤ 2 ^ 63)
    (hc : c ∈ (ofRange offset len).chunks) (hlen : 0 < len) :
    ((ofRange offset len).piece c).isFullChunk = true ↔
      pieceStart offset c = 0 ∧ pieceStop offset len c = chunkSize := by
  simp [piece_ofRange h hc hlen, ChunkPiece.isFullChunk]

theorem copyOut_spec {offset c : Nat} (data out : Bytes) (h : offset + out.length ≤ 2 ^ 63)
    (hlen : 0 < out.length) (hc : c ∈ (ofRange offset out.length).chunks) :
    ((ofRange offset out.length).copyOut c data out).length = out.length ∧
    ∀ p < out.length, byteAt ((ofRange offset out.length).copyOut c data out) p =
      if (offset + p) / chunkSize = c ∧ (offset + p) % chunkSize < data.length then
        byteAt data ((offset + p) % chunkSize)
      else byteAt out p := by
  have hpiece := piece_ofRange h hc hlen
  rw [mem_chunks hlen] at hc
  simp only [copyOut, hpiece]
  set start := pieceStart offset c with hstart
  set avail := min data.length (pieceStop offset out.length c) with havail
  simp only [pieceStart, pieceStop, chunkSize] at hstart havail hc
  -- the copied part, in positions of the buffer
  have hpos : ∀ p < out.length, ((offset + p) / chunkSize = c ∧
      (offset + p) % chunkSize < data.length ↔
      start < avail ∧ c * 65536 + start ≤ offset + p ∧ offset + p < c * 65536 + avail) := by
    intro p hp
    simp only [chunkSize]
    omega
  split
  · next hle =>
    refine ⟨rfl, fun p hp => ?_⟩
    rw [if_neg]
    rw [hpos p hp]
    omega
  · next hlt =>
    have hslice : (slice start (avail - start) data).length = avail - start := by
      rw [length_slice]
      omega
    have hbase : c * chunkSize = c * 65536 := rfl
    rw [hbase]
    refine ⟨by rw [length_splice, hslice]; omega, fun p hp => ?_⟩
    rw [byteAt_splice, hslice]
    by_cases hin : (offset + p) / chunkSize = c ∧ (offset + p) % chunkSize < data.length
    · have hin' := (hpos p hp).mp hin
      rw [if_pos hin, if_pos (by omega), byteAt_slice, if_pos (by omega)]
      congr 1
      simp only [chunkSize] at hin ⊢
      omega
    · rw [if_neg hin, if_neg]
      rw [hpos p hp] at hin
      omega

/-- Folding `copy_out` over rows with distinct chunk indexes reads each position from its own
chunk, if there is one. -/
theorem foldl_copyOut {α : Type} {offset : Nat} (index : α → Nat) (bytes : α → Bytes)
    (rows : List α) (out : Bytes) (h : offset + out.length ≤ 2 ^ 63) (hlen : 0 < out.length)
    (hrows : ∀ r ∈ rows, index r ∈ (ofRange offset out.length).chunks)
    (hnodup : (rows.map index).Nodup) :
    let result := rows.foldl
      (fun out' r => (ofRange offset out.length).copyOut (index r) (bytes r) out') out
    result.length = out.length ∧
    (∀ p < out.length, ∀ r ∈ rows, index r = (offset + p) / chunkSize →
      byteAt result p = if (offset + p) % chunkSize < (bytes r).length then
        byteAt (bytes r) ((offset + p) % chunkSize) else byteAt out p) ∧
    (∀ p < out.length, (∀ r ∈ rows, index r ≠ (offset + p) / chunkSize) →
      byteAt result p = byteAt out p) := by
  -- induction on the rows; the buffer changes but keeps its length
  generalize hn : out.length = n at *
  induction rows generalizing out with
  | nil => simp [hn]
  | cons r rows ih =>
    have hr := hrows r List.mem_cons_self
    rw [List.map_cons, List.nodup_cons] at hnodup
    have hcopy := copyOut_spec (bytes r) out (show offset + out.length ≤ 2 ^ 63 by omega)
      (by omega) (show index r ∈ _ by rwa [hn])
    rw [hn] at hcopy
    obtain ⟨ihlen, ihhit, ihmiss⟩ := ih ((ofRange offset n).copyOut (index r) (bytes r) out)
      hnodup.2 hcopy.1 fun r' hr' => hrows r' (List.mem_cons_of_mem _ hr')
    simp only [List.foldl_cons]
    refine ⟨ihlen, fun p hp r' hr' hidx => ?_, fun p hp hmiss => ?_⟩
    · rcases List.mem_cons.mp hr' with rfl | hr'
      · rw [ihmiss p hp, hcopy.2 p hp]
        · simp [hidx]
        · intro r'' hr'' he
          exact hnodup.1 (hidx.trans he.symm ▸ List.mem_map_of_mem hr'')
      · have hne : ¬((offset + p) / chunkSize = index r ∧
            (offset + p) % chunkSize < (bytes r).length) := by
          rintro ⟨he, -⟩
          exact hnodup.1 (he.symm.trans hidx.symm ▸ List.mem_map_of_mem hr')
        rw [ihhit p hp r' hr' hidx, hcopy.2 p hp, if_neg hne]
    · rw [ihmiss p hp fun r' hr' => hmiss r' (List.mem_cons_of_mem _ hr'), hcopy.2 p hp, if_neg]
      rintro ⟨he, -⟩
      exact hmiss r List.mem_cons_self he.symm

end ChunkSpan

end VibeDbfs
