import VibeDbfs.Storage.ExactSpans

/-!
Chunk boundaries and chunk keys as a whole. The pieces of a span tile its buffer and put the stored
bytes in their places, and the packed keys keep the chunks of the inodes apart.
-/

set_option autoImplicit false
set_option relaxedAutoImplicit false

namespace VibeDbfs

open Lib Lib.Bytes

section Tiles

/-- The ranges are not empty, and each starts where the one before it stops, from `start` to
`stop`. -/
def Tiles : List Range → Nat → Nat → Prop
  | [], start, stop => start = stop
  | r :: rs, start, stop => r.start = start ∧ r.start < r.stop ∧ Tiles rs r.stop stop

private theorem tiles_range' (f : Nat → Range) (n : Nat) : ∀ c,
    (∀ i, c ≤ i → i ≤ c + n → (f i).start < (f i).stop) →
    (∀ i, c ≤ i → i < c + n → (f i).stop = (f (i + 1)).start) →
      Tiles ((List.range' c (n + 1)).map f) (f c).start (f (c + n)).stop := by
  induction n with
  | zero =>
    intro c hnonempty _
    exact ⟨rfl, hnonempty c (by omega) (by omega), rfl⟩
  | succ n ih =>
    intro c hnonempty hadjacent
    rw [List.range'_succ, List.map_cons]
    refine ⟨rfl, hnonempty c (by omega) (by omega), ?_⟩
    rw [hadjacent c (by omega) (by omega)]
    have hrest := ih (c + 1) (fun i hlow hhigh => hnonempty i (by omega) (by omega))
      fun i hlow hhigh => hadjacent i (by omega) (by omega)
    rwa [show c + (n + 1) = c + 1 + n by omega]

end Tiles

namespace ChunkSpan

variable {offset len c : Nat}

/-- The slices that `copy_out` takes lie within its arguments. -/
def CopyInBounds (span : ChunkSpan) (c : Nat) (data out : Bytes) : Prop :=
  let p := span.piece c
  let avail := min data.length p.chunk.stop
  avail ≤ p.chunk.start ∨
    avail ≤ data.length ∧ p.buf.start + (avail - p.chunk.start) ≤ out.length

private theorem mem_chunks_iff {span : ChunkSpan} (hle : span.first ≤ span.last) :
    c ∈ span.chunks ↔ span.first ≤ c ∧ c ≤ span.last := by
  rw [chunks, List.mem_range'_1]
  omega

private theorem chunks_ofRange (hlen : 0 < len) : (ofRange offset len).chunks =
    List.range' (offset / chunkSize)
      ((offset + len - 1) / chunkSize - offset / chunkSize + 1) := by
  have hle : offset / chunkSize ≤ (offset + len - 1) / chunkSize :=
    Nat.div_le_div_right (by omega)
  change List.range' (offset / chunkSize) _ = _
  congr 1
  change (offset + len - 1) / chunkSize + 1 - offset / chunkSize = _
  omega

private theorem buf_ofRange (h : offset + len ≤ 2 ^ 63) (hc : c ∈ (ofRange offset len).chunks)
    (hlen : 0 < len) : ((ofRange offset len).piece c).buf =
      ⟨c * chunkSize + pieceStart offset c - offset,
        c * chunkSize + pieceStop offset len c - offset⟩ := by
  rw [piece_ofRange h hc hlen]

private theorem buf_nonempty (hlen : 0 < len) (h : offset + len ≤ 2 ^ 63)
    (hc : c ∈ (ofRange offset len).chunks) :
    ((ofRange offset len).piece c).buf.start < ((ofRange offset len).piece c).buf.stop := by
  rw [buf_ofRange h hc hlen]
  rw [mem_chunks hlen] at hc
  simp only [pieceStart, pieceStop, chunkSize] at *
  omega

/-- The piece of a chunk stops where that of the next chunk starts. -/
private theorem buf_adjacent (hlen : 0 < len) (h : offset + len ≤ 2 ^ 63)
    (hc : c ∈ (ofRange offset len).chunks) (hnext : c + 1 ∈ (ofRange offset len).chunks) :
    ((ofRange offset len).piece c).buf.stop = ((ofRange offset len).piece (c + 1)).buf.start := by
  rw [buf_ofRange h hc hlen, buf_ofRange h hnext hlen]
  rw [mem_chunks hlen] at hc hnext
  simp only [pieceStart, pieceStop, chunkSize] at *
  omega

private theorem tiles_pieces (hlen : 0 < len) (h : offset + len ≤ 2 ^ 63) :
    Tiles (((ofRange offset len).chunks.map (ofRange offset len).piece).map ChunkPiece.buf)
      0 len := by
  set first := offset / chunkSize with hfirst
  set n := (offset + len - 1) / chunkSize - first with hn
  have hle : first ≤ (offset + len - 1) / chunkSize := Nat.div_le_div_right (by omega)
  have hchunks : (ofRange offset len).chunks = List.range' first (n + 1) := chunks_ofRange hlen
  have hmem : ∀ i, first ≤ i → i ≤ first + n → i ∈ (ofRange offset len).chunks := by
    intro i hlow hhigh
    rw [hchunks, List.mem_range'_1]
    omega
  have htiles := tiles_range' (fun i => ((ofRange offset len).piece i).buf) n first
    (fun i hlow hhigh => buf_nonempty hlen h (hmem i hlow hhigh))
    fun i hlow hhigh => buf_adjacent hlen h (hmem i hlow (by omega))
      (hmem (i + 1) (by omega) (by omega))
  have hfirstmem := hmem first (by omega) (by omega)
  have hlastmem := hmem (first + n) (by omega) (by omega)
  have hstart : first * chunkSize + pieceStart offset first - offset = 0 := by
    simp only [pieceStart, chunkSize] at hfirst ⊢
    omega
  have hstop : (first + n) * chunkSize + pieceStop offset len (first + n) - offset = len := by
    rw [mem_chunks hlen] at hlastmem
    simp only [pieceStop, chunkSize] at hn hle hlastmem ⊢
    omega
  rw [buf_ofRange h hfirstmem hlen, buf_ofRange h hlastmem hlen] at htiles
  rw [List.map_map, hchunks]
  rwa [hstart, hstop] at htiles

private theorem copyOut_at (hlen : 0 < len) (h : offset + len ≤ 2 ^ 63)
    (hc : c ∈ (ofRange offset len).chunks) (data out : Bytes) (hout : out.length = len) :
    (ofRange offset len).CopyInBounds c data out ∧
      ((ofRange offset len).copyOut c data out).length = len ∧
      ∀ p < len, byteAt ((ofRange offset len).copyOut c data out) p =
        if c * chunkSize ≤ offset + p ∧ offset + p < c * chunkSize + min data.length chunkSize then
          byteAt data (offset + p - c * chunkSize)
        else byteAt out p := by
  subst hout
  obtain ⟨hlength, hbytes⟩ := copyOut_spec data out h hlen hc
  refine ⟨?_, hlength, fun p hp => ?_⟩
  · unfold CopyInBounds
    rw [piece_ofRange h hc hlen]
    rw [mem_chunks hlen] at hc
    simp only [pieceStart, pieceStop, chunkSize] at *
    omega
  · rw [hbytes p hp]
    by_cases hin : (offset + p) / chunkSize = c ∧ (offset + p) % chunkSize < data.length
    · have hplace : offset + p - c * chunkSize = (offset + p) % chunkSize := by
        simp only [chunkSize] at *
        omega
      rw [if_pos hin, if_pos, hplace]
      simp only [chunkSize] at *
      omega
    · rw [if_neg hin, if_neg]
      simp only [chunkSize] at *
      omega

/-- The chunk range of `p` is a part of chunk `c`, and its buffer range is the same bytes in a
buffer that starts at `offset`. -/
structure Placed (p : ChunkPiece) (c offset : Nat) : Prop where
  length : p.chunk.stop - p.chunk.start = p.buf.stop - p.buf.start
  nonempty : p.chunk.start < p.chunk.stop
  bound : p.chunk.stop ≤ chunkSize
  place : c * chunkSize + p.chunk.start = offset + p.buf.start

private theorem placed_piece (hlen : 0 < len) (h : offset + len ≤ 2 ^ 63)
    (hc : c ∈ (ofRange offset len).chunks) : Placed ((ofRange offset len).piece c) c offset := by
  rw [piece_ofRange h hc hlen]
  rw [mem_chunks hlen] at hc
  constructor <;> simp only [pieceStart, pieceStop, chunkSize] at * <;> omega

/-- A span splits its byte range: the pieces tile the buffer, each is where it belongs in its chunk,
and copying a chunk of any length sets the bytes that it stores and no others. -/
theorem new_splits (offset len : Nat) (hlen : 0 < len) (h : offset + len ≤ 2 ^ 63) :
    ∃ span, ChunkSpan.new offset len = some span ∧
      Tiles ((span.chunks.map span.piece).map ChunkPiece.buf) 0 len ∧
      ∀ c, span.first ≤ c → c ≤ span.last → span.PieceExact c ∧
        Placed (span.piece c) c offset ∧
        ∀ data out : Bytes, out.length = len → span.CopyInBounds c data out ∧
          (span.copyOut c data out).length = len ∧
          ∀ p < len, byteAt (span.copyOut c data out) p =
            if c * chunkSize ≤ offset + p ∧
                offset + p < c * chunkSize + min data.length chunkSize then
              byteAt data (offset + p - c * chunkSize)
            else byteAt out p := by
  have hnew : ChunkSpan.new offset len = some (ofRange offset len) :=
    new_eq hlen (by simp only [u64Size]; omega)
  refine ⟨ofRange offset len, hnew, tiles_pieces hlen h, fun c hlow hhigh => ?_⟩
  have hle : (ofRange offset len).first ≤ (ofRange offset len).last :=
    Nat.div_le_div_right (by omega)
  have hc : c ∈ (ofRange offset len).chunks := (mem_chunks_iff hle).mpr ⟨hlow, hhigh⟩
  exact ⟨pieceExact hlen h hc, placed_piece hlen h hc, copyOut_at hlen h hc⟩

/-- One byte of chunk 0, all of chunk 1, and one byte of chunk 2. -/
theorem new_splits_three : ∃ span, ChunkSpan.new 65535 65538 = some span ∧
    Tiles ((span.chunks.map span.piece).map ChunkPiece.buf) 0 65538 ∧ span.last = 2 := by
  obtain ⟨span, hnew, htiles, -⟩ := new_splits 65535 65538 (by decide) (by decide)
  refine ⟨span, hnew, htiles, ?_⟩
  rw [new_eq (by decide) (by decide)] at hnew
  obtain rfl := Option.some.inj hnew
  rfl

end ChunkSpan

section Keys

variable {a b c d first last : Nat} {key : Int}

/-- `key` is the row id of a chunk of `ino`. -/
def IsChunkOf (ino : Nat) (key : Int) : Prop := ∃ c < maxChunks, key = chunkKey ino c

private theorem chunkKey_nonneg (ha : a ≤ maxIno) (hc : c < maxChunks) : 0 ≤ chunkKey a c := by
  rw [chunkKey_eq ha hc]
  exact Int.natCast_nonneg _

private theorem chunkKey_lt_iff (ha : a ≤ maxIno) (hb : b ≤ maxIno) (hc : c < maxChunks)
    (hd : d < maxChunks) : chunkKey a c < chunkKey b d ↔ a < b ∨ a = b ∧ c < d := by
  rw [chunkKey_eq ha hc, chunkKey_eq hb hd]
  simp only [maxChunks] at *
  omega

private theorem between_keys_iff (ha : a ≤ maxIno) (hfirst : first < maxChunks)
    (hlast : last < maxChunks) :
    (chunkKey a first ≤ key ∧ key ≤ chunkKey a last) ↔
      IsChunkOf a key ∧ first ≤ chunkIndexOf key ∧ chunkIndexOf key ≤ last := by
  constructor
  · intro hkey
    obtain ⟨c, hc, rfl⟩ := chunkKey_of_between ha hfirst hlast hkey.1 hkey.2
    rw [chunkKey_between_iff ha ha hc hfirst hlast] at hkey
    rw [chunkIndexOf_chunkKey ha hc]
    exact ⟨⟨c, hc, rfl⟩, hkey.2⟩
  · rintro ⟨⟨c, hc, hkey⟩, hindex⟩
    subst hkey
    rw [chunkIndexOf_chunkKey ha hc] at hindex
    exact (chunkKey_between_iff ha ha hc hfirst hlast).mpr ⟨rfl, hindex⟩

private theorem chunkIndexOf_lt (ha : a ≤ maxIno) (hkey : IsChunkOf a key) :
    chunkIndexOf key < maxChunks := by
  obtain ⟨c, hc, rfl⟩ := hkey
  rwa [chunkIndexOf_chunkKey ha hc]

private theorem chunkKeys_iff (ha : a ≤ maxIno) :
    ((chunkKeys a).1 ≤ key ∧ key ≤ (chunkKeys a).2) ↔ IsChunkOf a key := by
  have hrange : ((chunkKeys a).1 ≤ key ∧ key ≤ (chunkKeys a).2) ↔ _ :=
    between_keys_iff ha (show 0 < maxChunks by decide) (show maxChunks - 1 < maxChunks by decide)
  refine hrange.trans ⟨fun h => h.1, fun h => ⟨h, Nat.zero_le _, ?_⟩⟩
  exact Nat.le_sub_one_of_lt (chunkIndexOf_lt ha h)

private theorem after_key_iff (ha : a ≤ maxIno) (hfirst : first < maxChunks) :
    (chunkKey a first < key ∧ key ≤ (chunkKeys a).2) ↔
      IsChunkOf a key ∧ first < chunkIndexOf key := by
  constructor
  · intro hkey
    obtain ⟨c, hc, rfl⟩ := chunkKey_of_between ha hfirst (show maxChunks - 1 < maxChunks by decide)
      (Int.le_of_lt hkey.1) hkey.2
    rw [chunkIndexOf_chunkKey ha hc]
    exact ⟨⟨c, hc, rfl⟩, ((chunkKey_after_iff ha ha hc hfirst).mp hkey).2⟩
  · rintro ⟨⟨c, hc, hkey⟩, hindex⟩
    subst hkey
    rw [chunkIndexOf_chunkKey ha hc] at hindex
    exact (chunkKey_after_iff ha ha hc hfirst).mpr ⟨rfl, hindex⟩

private theorem isChunkOf_chunkKey (ha : a ≤ maxIno) (hb : b ≤ maxIno) (hd : d < maxChunks) :
    IsChunkOf a (chunkKey b d) ↔ a = b := by
  constructor
  · rintro ⟨c, hc, hkey⟩
    exact ((chunkKey_inj hb ha hd hc).mp hkey).1.symm
  · intro hab
    exact ⟨d, hd, hab ▸ rfl⟩

end Keys

namespace Db

variable {db db' : Db} {a size : Nat} {now : Timestamp} {row : ChunkRow}

/-- `truncate_file` to `size` deletes the row `key`: a chunk of `ino` past the final one. -/
def CutOff (ino size : Nat) (key : Int) : Prop :=
  IsChunkOf ino key ∧ (size = 0 ∨ (size - 1) / chunkSize < chunkIndexOf key)

/-- What `truncate_file` to `size` makes of a row that stays: the final chunk is cut. -/
def cutRow (ino size : Nat) (row : ChunkRow) : ChunkRow :=
  if 0 < size ∧ row.id = chunkKey ino ((size - 1) / chunkSize) then
    { row with data := row.data.take ((size - 1) % chunkSize + 1) }
  else row

private theorem mem_deleteInodeRows (ha : a ≤ maxIno) :
    row ∈ (db.deleteInodeRows a).fileChunks ↔ row ∈ db.fileChunks ∧ ¬IsChunkOf a row.id := by
  change row ∈ db.fileChunks.filter _ ↔ _
  rw [List.mem_filter, decide_eq_true_eq]
  exact and_congr_right fun _ => not_congr (chunkKeys_iff ha)

private theorem cutRow_eq (hsize : 0 < size) : cutRow a size row =
    if row.id = chunkKey a ((size - 1) / chunkSize) ∧
        (size - 1) % chunkSize + 1 < row.data.length then
      { row with data := row.data.take ((size - 1) % chunkSize + 1) }
    else row := by
  unfold cutRow
  by_cases hkey : row.id = chunkKey a ((size - 1) / chunkSize)
  · rw [if_pos ⟨hsize, hkey⟩]
    split
    · rfl
    · next hshort =>
      rw [List.take_of_length_le (Nat.le_of_not_lt fun h => hshort ⟨hkey, h⟩)]
  · rw [if_neg fun h => hkey h.2, if_neg fun h => hkey h.1]

private theorem mem_cutAt_iff (ha : a ≤ maxIno) (hsize : size ≤ maxFileSize) :
    row ∈ (db.cutAt a size).fileChunks ↔
      ∃ old ∈ db.fileChunks, ¬CutOff a size old.id ∧ row = cutRow a size old := by
  unfold cutAt CutOff
  split
  · next hzero =>
    change row ∈ db.fileChunks.filter _ ↔ _
    rw [List.mem_filter, decide_eq_true_eq, chunkKeys_iff ha]
    constructor
    · rintro ⟨hrow, hout⟩
      exact ⟨row, hrow, fun h => hout h.1, (if_neg fun h => by omega).symm⟩
    · rintro ⟨old, hold, hout, hrow⟩
      rw [cutRow, if_neg fun h => by omega] at hrow
      exact hrow ▸ ⟨hold, fun h => hout ⟨h, .inl hzero⟩⟩
  · next hpos =>
    have hfinal : (size - 1) / chunkSize < maxChunks := by
      simp only [chunkSize, maxChunks, maxFileSize] at *
      omega
    change row ∈ (db.fileChunks.filter _).map _ ↔ _
    rw [List.mem_map]
    constructor
    · rintro ⟨old, hold, hrow⟩
      rw [List.mem_filter, decide_eq_true_eq, after_key_iff ha hfinal] at hold
      refine ⟨old, hold.1, fun h => hold.2 ⟨h.1, h.2.resolve_left hpos⟩, hrow.symm.trans ?_⟩
      exact (cutRow_eq (Nat.pos_of_ne_zero hpos)).symm
    · rintro ⟨old, hold, hout, hrow⟩
      refine ⟨old, ?_, (cutRow_eq (Nat.pos_of_ne_zero hpos)).symm.trans hrow.symm⟩
      rw [List.mem_filter, decide_eq_true_eq, after_key_iff ha hfinal]
      exact ⟨hold, fun h => hout ⟨h.1, .inr h.2⟩⟩

private theorem readInto_rows (db : Db) (ha : a ≤ maxIno) {offset : Nat} {out : Bytes}
    {span : ChunkSpan} (hnew : ChunkSpan.new offset out.length = some span) :
    ∃ rows : List ChunkRow, db.readInto a offset out =
        rows.foldl (fun out r => span.copyOut (chunkIndexOf r.id) r.data out) out ∧
      ∀ row, row ∈ rows ↔ row ∈ db.fileChunks ∧ IsChunkOf a row.id ∧
        span.first ≤ chunkIndexOf row.id ∧ chunkIndexOf row.id ≤ span.last := by
  by_cases hfirst : span.first < maxChunks
  · have hlast : min span.last (maxChunks - 1) < maxChunks :=
      (Nat.min_le_right _ _).trans_lt (by decide)
    refine ⟨db.chunkRows a span.first (min span.last (maxChunks - 1)), ?_, fun row => ?_⟩
    · unfold readInto
      rw [hnew]
      dsimp only
      rw [if_neg (Nat.not_le.mpr hfirst)]
      rfl
    · rw [mem_chunkRows, between_keys_iff ha hfirst hlast]
      refine and_congr_right fun _ => and_congr_right fun hkey => and_congr_right fun _ => ?_
      have hindex := chunkIndexOf_lt ha hkey
      omega
  · refine ⟨[], ?_, fun row => ?_⟩
    · unfold readInto
      rw [hnew]
      exact if_pos (Nat.le_of_not_lt hfirst)
    · constructor
      · intro hmem
        cases hmem
      · rintro ⟨-, hkey, hlow, -⟩
        exact absurd (hlow.trans_lt (chunkIndexOf_lt ha hkey)) hfirst

/-- Chunk keys are apart in the order of inode and chunk, and each statement with a range of keys
touches the chunks of its own inode. -/
theorem chunkKeys_isolate (db : Db) {a : Nat} (ha : a ≤ maxIno) :
    (∀ c < maxChunks, 0 ≤ chunkKey a c ∧ chunkIndexOf (chunkKey a c) = c) ∧
    (∀ b ≤ maxIno, ∀ c < maxChunks, ∀ d < maxChunks,
      (chunkKey a c = chunkKey b d → a = b ∧ c = d) ∧
      (chunkKey a c < chunkKey b d ↔ a < b ∨ a = b ∧ c < d) ∧
      ((chunkKeys a).1 ≤ chunkKey b d ∧ chunkKey b d ≤ (chunkKeys a).2 ↔ a = b)) ∧
    (∀ row, row ∈ (db.deleteInodeRows a).fileChunks ↔
      row ∈ db.fileChunks ∧ ¬IsChunkOf a row.id) ∧
    (∀ size now db', db.truncateFile a size now = .ok db' → ∀ row, row ∈ db'.fileChunks ↔
      ∃ old ∈ db.fileChunks, ¬CutOff a size old.id ∧ row = cutRow a size old) ∧
    ∀ offset (out : Bytes) span, ChunkSpan.new offset out.length = some span →
      ∃ rows : List ChunkRow, db.readInto a offset out =
          rows.foldl (fun out r => span.copyOut (chunkIndexOf r.id) r.data out) out ∧
        ∀ row, row ∈ rows ↔ row ∈ db.fileChunks ∧ IsChunkOf a row.id ∧
          span.first ≤ chunkIndexOf row.id ∧ chunkIndexOf row.id ≤ span.last := by
  refine ⟨fun c hc => ⟨chunkKey_nonneg ha hc, chunkIndexOf_chunkKey ha hc⟩,
    fun b hb c hc d hd => ⟨(chunkKey_inj ha hb hc hd).mp, chunkKey_lt_iff ha hb hc hd,
      (chunkKeys_iff ha).trans (isChunkOf_chunkKey ha hb hd)⟩,
    fun row => mem_deleteInodeRows ha, fun size now db' hok row => ?_,
    fun offset out span hnew => readInto_rows db ha hnew⟩
  obtain ⟨-, hsize, rfl⟩ := truncateFile_cases hok
  exact mem_cutAt_iff ha hsize

/-- The last chunk of one inode is before the first chunk of the next one. -/
theorem chunkKeys_isolate_next : chunkKey 6 (maxChunks - 1) < chunkKey 7 0 ∧
    ¬(chunkKey 7 0 ≤ (chunkKeys 6).2) := by
  obtain ⟨-, horder, -⟩ := chunkKeys_isolate ⟨[], [], [], []⟩ (show 6 ≤ maxIno by decide)
  obtain ⟨-, hlt, hrange⟩ :=
    horder 7 (by decide) (maxChunks - 1) (by decide) 0 (by decide)
  refine ⟨hlt.mpr (.inl (by decide)), fun hle => ?_⟩
  exact absurd (hrange.mp ⟨by decide, hle⟩) (by decide)

end Db

end VibeDbfs
