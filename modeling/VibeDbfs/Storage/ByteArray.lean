import VibeDbfs.Lib.Runs
import VibeDbfs.Storage.DirectWrites

/-!
The direct methods of the store as a byte array: batches of writes and truncations in any order do
to a file what they do to an array, and to no other file anything.
-/

set_option autoImplicit false
set_option relaxedAutoImplicit false

namespace VibeDbfs

open Lib Lib.Bytes

inductive DataCall where
  | write (writes : List (Nat × Bytes))
  | truncate (size : Nat)
  deriving DecidableEq, Repr

namespace DataCall

/-- A call that the store refuses: a batch with data and a write that ends too far, or a size
beyond the limit. -/
def TooLarge : DataCall → Prop
  | .write writes => (∃ w ∈ writes, w.2 ≠ []) ∧ ∃ w ∈ writes, maxFileSize < w.1 + w.2.length
  | .truncate size => maxFileSize < size

instance : ∀ call, Decidable (TooLarge call)
  | .write writes => inferInstanceAs (Decidable ((∃ w ∈ writes, _) ∧ ∃ w ∈ writes, _))
  | .truncate size => inferInstanceAs (Decidable (maxFileSize < size))

/-- One write into the array; one without data does not even extend it. -/
def writeArray (bytes : Bytes) (write : Nat × Bytes) : Bytes :=
  if write.2 = [] then bytes else splice write.1 write.2 bytes

def changed (bytes : Bytes) : DataCall → Bytes
  | .write writes => writes.foldl writeArray bytes
  | .truncate size => resize size bytes

def onArray (bytes : Bytes) (call : DataCall) : Bytes :=
  if call.TooLarge then bytes else changed bytes call

def perform (db : Db) (ino : Nat) (now : Timestamp) : DataCall → Except DbError Db
  | .write writes => (db.writeFileBatchAt ino writes now).map Prod.snd
  | .truncate size => db.truncateFile ino size now

def step (ino : Nat) (db : Db) (call : Timestamp × DataCall) : Db :=
  match perform db ino call.1 call.2 with
  | .ok db' => db'
  | .error _ => db

end DataCall

namespace Db

variable {db db' : Db} {ino j p c size : Nat} {data : Bytes} {now : Timestamp}

/-- The stored byte at `p`. No chunk lies past the largest file. -/
def byte (db : Db) (ino p : Nat) : UInt8 :=
  if p / chunkSize < maxChunks then byteAt (db.chunk ino (p / chunkSize)) (p % chunkSize) else 0

def array (db : Db) (ino : Nat) : Bytes := tabulate (db.storedSize ino) (db.byte ino)

/-- The stored chunks of `ino` lie within its size. -/
def ChunksWithin (db : Db) (ino : Nat) : Prop :=
  ∀ c < maxChunks, ∀ bytes, db.findChunk (chunkKey ino c) = some bytes →
    c * chunkSize + bytes.length ≤ db.storedSize ino

/-- Past `size` a file reads as zero. -/
def ZeroFrom (db : Db) (ino size : Nat) : Prop := ∀ p, size ≤ p → db.byte ino p = 0

theorem ChunksWithin.zeroFrom (h : db.ChunksWithin ino) : db.ZeroFrom ino (db.storedSize ino) := by
  intro p hp
  unfold byte
  split
  · next hc =>
    apply byteAt_of_le
    rcases hfind : db.findChunk (chunkKey ino (p / chunkSize)) with _ | bytes
    · rw [chunk, hfind]
      exact Nat.zero_le _
    · have hend := h _ hc bytes hfind
      have hdiv := Nat.div_add_mod' p chunkSize
      rw [chunk, hfind, Option.getD_some]
      omega
  · rfl

private theorem readFile_array (hk : db.Keys) (hkind : db.kindOf ino = some .regularFile)
    (hmax : db.storedSize ino < 2 ^ 63) (offset size : Nat) :
    db.readFile ino offset size = .ok (slice offset size (db.array ino)) := by
  have hlen : (db.array ino).length = db.storedSize ino := length_tabulate _ _
  rw [readFile_of_regular hk hkind]
  split
  · next hempty =>
    have hnil : slice offset size (db.array ino) = [] := by
      rw [← List.length_eq_zero_iff, length_slice, hlen]
      omega
    rw [hnil]
  · next hne =>
    rw [not_or] at hne
    have hread : db.readInto ino offset (zeros (min size (db.storedSize ino - offset))) =
        tabulate (min size (db.storedSize ino - offset)) fun p => db.byte ino (offset + p) :=
      readInto_eq hk (hk.range (by simp [hkind])).2 (by omega) (by omega)
    rw [hread]
    congr 1
    refine ext_byteAt (by rw [length_tabulate, length_slice, hlen]) fun p hp => ?_
    rw [length_tabulate] at hp
    rw [byteAt_tabulate, if_pos hp, byteAt_slice, if_pos (by omega), array, byteAt_tabulate,
      if_pos (by omega)]

section Pieces

variable {offset : Nat}

/-- The bytes stored for a piece: those of the write where the piece lies, and the old ones. -/
private theorem byteAt_pieceBytes (db : Db) (ino : Nat) (hlen : 0 < data.length)
    (hend : offset + data.length ≤ maxFileSize)
    (hc : c ∈ (ChunkSpan.ofRange offset data.length).chunks) {q : Nat} (hq : q < chunkSize) :
    byteAt (db.pieceBytes ino ((ChunkSpan.ofRange offset data.length).piece c) data c) q =
      if offset ≤ c * chunkSize + q ∧ c * chunkSize + q < offset + data.length then
        byteAt data (c * chunkSize + q - offset)
      else byteAt (db.chunk ino c) q := by
  have hlimit : offset + data.length ≤ 2 ^ 63 := hend.trans (by simp [maxFileSize])
  rw [ChunkSpan.piece_ofRange hlimit hc hlen]
  have hstart := ChunkSpan.pieceStart_lt_pieceStop hlen hc
  rw [ChunkSpan.mem_chunks hlen, Nat.succ_mul] at hc
  unfold pieceBytes
  simp only [ChunkPiece.isFullChunk, Bool.and_eq_true, beq_iff_eq]
  unfold ChunkSpan.pieceStart ChunkSpan.pieceStop at *
  generalize c * chunkSize = base at *
  split
  · next hfull =>
    rw [byteAt_slice, if_pos (by omega), if_pos (by omega)]
    congr 1
    omega
  · rw [byteAt_splice, length_slice]
    by_cases hin : offset ≤ base + q ∧ base + q < offset + data.length
    · rw [if_pos (by omega), if_pos hin, byteAt_slice, if_pos (by omega)]
      congr 1
      omega
    · rw [if_neg (by omega), if_neg hin]
      split
      · rw [byteAt_resize, chunk]
        split
        · rfl
        · exact (byteAt_of_le (by omega)).symm
      · rfl

private theorem byte_writePiece (hino : ino ≤ maxIno) (hj : j ≤ maxIno) (hlen : 0 < data.length)
    (hend : offset + data.length ≤ maxFileSize)
    (hc : c ∈ (ChunkSpan.ofRange offset data.length).chunks) (p : Nat) :
    (writePiece ino (ChunkSpan.ofRange offset data.length) data db c).byte j p =
      if j = ino ∧ p / chunkSize = c ∧ offset ≤ p ∧ p < offset + data.length then
        byteAt data (p - offset)
      else db.byte j p := by
  have hcmax : c < maxChunks := by
    have hindex := (ChunkSpan.mem_chunks hlen).mp hc
    simp only [chunkSize, maxFileSize, maxChunks] at *
    omega
  have hchunk : ∀ d < maxChunks, (writePiece ino
      (ChunkSpan.ofRange offset data.length) data db c).chunk
      j d = if j = ino ∧ d = c then
        db.pieceBytes ino ((ChunkSpan.ofRange offset data.length).piece c) data c
      else db.chunk j d := by
    intro d hd
    rw [writePiece_eq, upsertAll, List.foldl_cons, List.foldl_nil, chunk,
      findChunk_upsertChunk_key hino hcmax hj hd]
    split
    · rfl
    · rfl
  unfold byte
  have hp := Nat.div_add_mod' p chunkSize
  have hmod : p % chunkSize < chunkSize := Nat.mod_lt _ (by decide)
  by_cases hmax : p / chunkSize < maxChunks
  · rw [if_pos hmax, if_pos hmax, hchunk _ hmax]
    by_cases hpiece : j = ino ∧ p / chunkSize = c
    · obtain ⟨rfl, rfl⟩ := hpiece
      rw [if_pos ⟨rfl, rfl⟩, byteAt_pieceBytes db j hlen hend hc hmod, hp]
      simp only [true_and]
    · rw [if_neg hpiece, if_neg fun h => hpiece ⟨h.1, h.2.1⟩]
  · have hother : p / chunkSize ≠ c := fun heq => hmax (heq ▸ hcmax)
    simp only [hmax, hother, false_and, and_false, if_false]

/-- The pieces stored so far are those of the chunks in `chunks`. -/
private theorem byte_foldl_writePiece (hino : ino ≤ maxIno) (hj : j ≤ maxIno)
    (hlen : 0 < data.length) (hend : offset + data.length ≤ maxFileSize) (chunks : List Nat)
    (hchunks : ∀ c ∈ chunks, c ∈ (ChunkSpan.ofRange offset data.length).chunks) (p : Nat) :
    (chunks.foldl (writePiece ino (ChunkSpan.ofRange offset data.length) data) db).byte j p =
      if j = ino ∧ p / chunkSize ∈ chunks ∧ offset ≤ p ∧ p < offset + data.length then
        byteAt data (p - offset)
      else db.byte j p := by
  induction chunks generalizing db with
  | nil => simp only [List.foldl_nil, List.not_mem_nil, false_and, and_false, if_false]
  | cons c chunks ih =>
    rw [List.foldl_cons, ih fun d hd => hchunks d (List.mem_cons_of_mem _ hd),
      byte_writePiece hino hj hlen hend (hchunks c List.mem_cons_self)]
    by_cases hrest : j = ino ∧ p / chunkSize ∈ chunks ∧ offset ≤ p ∧ p < offset + data.length
    · rw [if_pos hrest, if_pos ⟨hrest.1, List.mem_cons_of_mem _ hrest.2.1, hrest.2.2⟩]
    · rw [if_neg hrest]
      apply if_congr _ rfl rfl
      constructor
      · rintro ⟨hj, hc, hp⟩
        exact ⟨hj, hc ▸ List.mem_cons_self, hp⟩
      · rintro ⟨hj, hc, hp⟩
        rcases List.mem_cons.mp hc with hc | hc
        · exact ⟨hj, hc, hp⟩
        · exact (hrest ⟨hj, hc, hp⟩).elim

private theorem byte_writeOne (hino : ino ≤ maxIno) (hj : j ≤ maxIno) {write : Nat × Bytes}
    (hend : write.1 + write.2.length ≤ maxFileSize) (acc : Db × Nat) (p : Nat) :
    (writeOne ino acc write).1.byte j p =
      if j = ino ∧ write.1 ≤ p ∧ p < write.1 + write.2.length then byteAt write.2 (p - write.1)
      else acc.1.byte j p := by
  unfold writeOne
  rcases Nat.eq_zero_or_pos write.2.length with hzero | hlen
  · rw [hzero, ChunkSpan.new_zero, if_neg (by omega)]
  · rw [ChunkSpan.new_eq hlen (hend.trans_lt (by simp [maxFileSize, u64Size]))]
    dsimp only
    rw [byte_foldl_writePiece hino hj hlen hend _ fun _ h => h]
    refine if_congr ?_ rfl rfl
    constructor
    · rintro ⟨hj, -, hp⟩
      exact ⟨hj, hp⟩
    · rintro ⟨hj, hp⟩
      refine ⟨hj, (ChunkSpan.mem_chunks hlen).mpr ?_, hp⟩
      simp only [chunkSize]
      omega

end Pieces

section Truncate

private theorem final_place (hpos : size ≠ 0) {q : Nat} (hq : q < chunkSize) (c : Nat) :
    (c < (size - 1) / chunkSize → ¬size ≤ c * chunkSize + q) ∧
      ((size - 1) / chunkSize < c → size ≤ c * chunkSize + q) ∧
        (c = (size - 1) / chunkSize →
          (q < (size - 1) % chunkSize + 1 ↔ ¬size ≤ c * chunkSize + q)) := by
  simp only [chunkSize] at *
  omega

private theorem byteAt_chunk_cutAt (hino : ino ≤ maxIno) (hj : j ≤ maxIno)
    (hmax : size ≤ maxFileSize) (hc : c < maxChunks) {q : Nat} (hq : q < chunkSize) :
    byteAt ((db.cutAt ino size).chunk j c) q =
      if j = ino ∧ size ≤ c * chunkSize + q then 0 else byteAt (db.chunk j c) q := by
  have hlast : maxChunks - 1 < maxChunks := by simp [maxChunks]
  unfold chunk cutAt
  split
  · next hzero =>
    have hrange : ((chunkKeys ino).1 ≤ chunkKey j c ∧ chunkKey j c ≤ (chunkKeys ino).2) ↔ j = ino :=
      (chunkKey_between_iff hino hj hc (show 0 < maxChunks by simp [maxChunks]) hlast).trans
        ⟨fun h => h.1.symm, fun h => ⟨h.symm, Nat.zero_le c, Nat.le_sub_one_of_lt hc⟩⟩
    rw [findChunk_deleteChunksBetween]
    by_cases heq : j = ino
    · rw [if_pos (hrange.mpr heq), if_pos ⟨heq, by omega⟩]
      rfl
    · rw [if_neg fun h => heq (hrange.mp h), if_neg fun h => heq h.1]
  · next hpos =>
    have hfinal : (size - 1) / chunkSize < maxChunks := by
      simp only [chunkSize, maxChunks, maxFileSize] at *
      omega
    have hkey := chunkKey_inj hj hino hc hfinal
    have hafter : (chunkKey ino ((size - 1) / chunkSize) < chunkKey j c ∧
        chunkKey j c ≤ (chunkKeys ino).2) ↔ j = ino ∧ (size - 1) / chunkSize < c :=
      chunkKey_after_iff hino hj hc hfinal
    obtain ⟨hbefore, hbeyond, hin⟩ := final_place hpos hq c
    rw [findChunk_cutChunk, findChunk_deleteChunksAfter]
    by_cases heq : j = ino
    · subst heq
      rcases Nat.lt_trichotomy c ((size - 1) / chunkSize) with hlt | hsame | hgt
      · rw [if_neg fun h => Nat.ne_of_lt hlt (hkey.mp h).2,
          if_neg fun h => Nat.lt_asymm hlt (hafter.mp h).2, if_neg fun h => hbefore hlt h.2]
      · rw [if_pos (hkey.mpr ⟨rfl, hsame⟩), if_neg fun h => Nat.ne_of_gt (hafter.mp h).2 hsame]
        rcases db.findChunk (chunkKey j c) with _ | bytes
        · rw [Option.map_none, Option.getD_none, byteAt_nil, ite_self]
        · rw [Option.map_some, Option.getD_some, Option.getD_some, byteAt_take]
          by_cases hbelow : q < (size - 1) % chunkSize + 1
          · rw [if_pos hbelow, if_neg fun h => (hin hsame).mp hbelow h.2]
          · rw [if_neg hbelow, if_pos ⟨rfl, not_not.mp (mt (hin hsame).mpr hbelow)⟩]
      · rw [if_neg fun h => Nat.ne_of_gt hgt (hkey.mp h).2, if_pos (hafter.mpr ⟨rfl, hgt⟩),
          if_pos ⟨rfl, hbeyond hgt⟩]
        rfl
    · rw [if_neg fun h => heq (hkey.mp h).1, if_neg fun h => heq (hafter.mp h).1,
        if_neg fun h => heq h.1]

private theorem byte_cutAt (hino : ino ≤ maxIno) (hj : j ≤ maxIno)
    (hmax : size ≤ maxFileSize) (p : Nat) :
    (db.cutAt ino size).byte j p = if j = ino ∧ size ≤ p then 0 else db.byte j p := by
  unfold byte
  split
  · next hc =>
    rw [byteAt_chunk_cutAt hino hj hmax hc (Nat.mod_lt p (by decide)), Nat.div_add_mod']
  · rw [ite_self]

end Truncate

/-- The store holds the regular file `ino`, and its bytes are `bytes`. Sizes are 64-bit numbers. -/
structure Holds (db : Db) (ino : Nat) (bytes : Bytes) : Prop where
  keys : db.Keys
  sizes : ∀ r ∈ db.inodes, r.size < 2 ^ 63
  kind : db.kindOf ino = some .regularFile
  size : db.storedSize ino = bytes.length
  bytes : ∀ p, db.byte ino p = byteAt bytes p

/-- All files but `ino` are as they were. -/
structure Others (ino : Nat) (db db' : Db) : Prop where
  rows : ∀ j, j ≠ ino → db'.findInode j = db.findInode j
  bytes : ∀ j, j ≠ ino → j ≤ maxIno → ∀ p, db'.byte j p = db.byte j p

variable {bytes : Bytes} {writes : List (Nat × Bytes)} {before : Db}

private theorem Holds.le_maxIno (h : db.Holds ino bytes) : ino ≤ maxIno :=
  (h.keys.range (by rw [h.kind]; rfl)).2

private theorem storedSize_lt (hsizes : ∀ r ∈ db.inodes, r.size < 2 ^ 63) (ino : Nat) :
    db.storedSize ino < 2 ^ 63 := by
  rcases hr : db.findInode ino with _ | r
  · rw [storedSize, hr]
    exact Nat.two_pow_pos 63
  · rw [storedSize_of_find hr]
    exact hsizes r (List.mem_of_find?_eq_some hr)

theorem Holds.array_eq (h : db.Holds ino bytes) : db.array ino = bytes := by
  apply ext_byteAt
  · rw [array, length_tabulate, h.size]
  · intro p hp
    rw [array, length_tabulate] at hp
    rw [array, byteAt_tabulate, if_pos hp, h.bytes]

theorem Holds.readFile (h : db.Holds ino bytes) (offset size : Nat) :
    db.readFile ino offset size = .ok (slice offset size bytes) := by
  rw [readFile_array h.keys h.kind (storedSize_lt h.sizes ino), h.array_eq]

private theorem Others.refl (ino : Nat) (db : Db) : Others ino db db :=
  ⟨fun _ _ => rfl, fun _ _ _ _ => rfl⟩

private theorem Others.trans {db'' : Db} (h : Others ino db db') (h' : Others ino db' db'') :
    Others ino db db'' :=
  ⟨fun j hj => (h'.rows j hj).trans (h.rows j hj),
    fun j hj hmax p => (h'.bytes j hj hmax p).trans (h.bytes j hj hmax p)⟩

private theorem Others.readFile (h : Others ino db db') (hk : db.Keys) (hk' : db'.Keys)
    (hsizes : ∀ r ∈ db.inodes, r.size < 2 ^ 63) (hj : j ≠ ino) (offset size : Nat) :
    db'.readFile j offset size = db.readFile j offset size := by
  have hrow := h.rows j hj
  have hkinds : db'.kindOf j = db.kindOf j := congrArg (Option.map InodeRow.kind) hrow
  have hstored : db'.storedSize j = db.storedSize j := by rw [storedSize, storedSize, hrow]
  by_cases hkind : db.kindOf j = some .regularFile
  · have hmax := storedSize_lt hsizes j
    have hino : j ≤ maxIno := (hk.range (by rw [hkind]; rfl)).2
    rw [readFile_array hk hkind hmax, readFile_array hk' (hkinds.trans hkind)
      (hstored ▸ hmax), array,
      array, hstored]
    congr 2
    exact tabulate_congr fun p _ => h.bytes j hj hino p
  · have hhead : db'.inodeHead j = db.inodeHead j := by
      rw [Db.inodeHead, hrow]
      rfl
    unfold Db.readFile
    rw [hhead]
    cases hr : db.findInode j with
    | none =>
      rw [inodeHead_none hr]
      rfl
    | some r =>
      rw [hk.inodeHead hr]
      simp only [bind, Except.bind]
      split
      · rfl
      · next hnone =>
        apply (hkind _).elim
        rw [kindOf_of_find hr, FileKind.regularFileError_eq_none.mp hnone]

section UnderWay

open DataCall

theorem byteAt_writeArray (bytes : Bytes) (write : Nat × Bytes) (p : Nat) :
    byteAt (writeArray bytes write) p =
      if write.1 ≤ p ∧ p < write.1 + write.2.length then byteAt write.2 (p - write.1)
      else byteAt bytes p := by
  unfold writeArray
  split
  · next hnil =>
    rw [hnil, List.length_nil, if_neg (by omega)]
  · exact byteAt_splice ..

private theorem length_writeArray (bytes : Bytes) (write : Nat × Bytes) :
    (writeArray bytes write).length =
      if write.2.length = 0 then bytes.length else max bytes.length (write.1 + write.2.length) := by
  unfold writeArray
  simp only [List.length_eq_zero_iff]
  split
  · rfl
  · exact length_splice ..

/-- A change that has not stored its size yet: the rows are as before, and the chunks of `ino` hold
`bytes`. -/
structure UnderWay (before : Db) (ino : Nat) (acc : Db × Nat) (bytes : Bytes) : Prop where
  keys : acc.1.Keys
  inodes : acc.1.inodes = before.inodes
  size : acc.2 = bytes.length
  bytes : ∀ p, acc.1.byte ino p = byteAt bytes p
  others : ∀ j, j ≠ ino → j ≤ maxIno → ∀ p, acc.1.byte j p = before.byte j p

variable {acc : Db × Nat}

private theorem writeOne_rows (hk : acc.1.Keys) (write : Nat × Bytes) :
    (writeOne ino acc write).1.Keys ∧ (writeOne ino acc write).1.inodes = acc.1.inodes := by
  unfold writeOne
  split
  · exact ⟨hk, rfl⟩
  · next span _ =>
    have hfold : ∀ (chunks : List Nat) (db : Db), db.Keys →
        (chunks.foldl (writePiece ino span write.2) db).Keys ∧
          (chunks.foldl (writePiece ino span write.2) db).inodes = db.inodes := by
      intro chunks
      induction chunks with
      | nil => exact fun db h => ⟨h, rfl⟩
      | cons c chunks ih =>
        intro db h
        have hone : (writePiece ino span write.2 db c).Keys := (writePiece_rows span h).1
        obtain ⟨hkeys, hinodes⟩ := ih _ hone
        refine ⟨hkeys, hinodes.trans ?_⟩
        rw [writePiece_eq, upsertAll_rows.1]
    exact hfold _ _ hk

private theorem snd_writeOne (acc : Db × Nat) (write : Nat × Bytes) : (writeOne ino acc write).2 =
    if write.2.length = 0 then acc.2 else max acc.2 (write.1 + write.2.length) := by
  unfold writeOne ChunkSpan.new
  split
  · next h =>
    split at h
    · next hzero => rw [if_pos hzero]
    · cases h
  · next h =>
    split at h
    · cases h
    · next hne => rw [if_neg hne]

private theorem UnderWay.writeOne (hino : ino ≤ maxIno) (h : UnderWay before ino acc bytes)
    {write : Nat × Bytes} (hend : write.1 + write.2.length ≤ maxFileSize) :
    UnderWay before ino (writeOne ino acc write) (writeArray bytes write) := by
  have hrows : (Db.writeOne ino acc write).1.Keys ∧
      (Db.writeOne ino acc write).1.inodes = acc.1.inodes := writeOne_rows h.keys write
  constructor
  · exact hrows.1
  · exact hrows.2.trans h.inodes
  · rw [snd_writeOne, length_writeArray, h.size]
  · intro p
    rw [byte_writeOne hino hino hend, byteAt_writeArray, h.bytes]
    simp only [true_and]
  · intro j hj hmax p
    rw [byte_writeOne hino hmax hend, if_neg fun hin => hj hin.1, h.others j hj hmax]

theorem UnderWay.foldl (hino : ino ≤ maxIno) (h : UnderWay before ino acc bytes)
    (hends : ∀ w ∈ writes, w.1 + w.2.length ≤ maxFileSize) :
    UnderWay before ino (writes.foldl (Db.writeOne ino) acc) (writes.foldl writeArray bytes) := by
  induction writes generalizing acc bytes with
  | nil => exact h
  | cons w writes ih =>
    rw [List.foldl_cons, List.foldl_cons]
    apply ih (h.writeOne hino (hends w List.mem_cons_self))
    intro w' hw'
    exact hends w' (List.mem_cons_of_mem _ hw')

private theorem length_foldl_writeArray (hmax : bytes.length < 2 ^ 63)
    (hends : ∀ w ∈ writes, w.1 + w.2.length ≤ maxFileSize) :
    (writes.foldl writeArray bytes).length < 2 ^ 63 := by
  induction writes generalizing bytes with
  | nil => exact hmax
  | cons w writes ih =>
    rw [List.foldl_cons]
    refine ih ?_ fun w' hw' => hends w' (List.mem_cons_of_mem _ hw')
    have hend := hends w List.mem_cons_self
    rw [length_writeArray]
    simp only [maxFileSize] at hend
    split <;> omega

private theorem UnderWay.setSize (h : UnderWay before ino acc bytes) {old : Bytes}
    (hold : before.Holds ino old) (hmax : bytes.length < 2 ^ 63) (now : Timestamp) :
    (acc.1.setSize ino acc.2 now).Holds ino bytes ∧
      Others ino before (acc.1.setSize ino acc.2 now) := by
  have hfind : ∀ j, acc.1.findInode j = before.findInode j := by
    intro j
    rw [findInode, findInode, h.inodes]
  have hkind : acc.1.kindOf ino = some .regularFile := by
    rw [kindOf, hfind]
    exact hold.kind
  constructor
  · constructor
    · exact h.keys.setSize acc.2 now
    · intro r hr
      obtain ⟨q, hq, rfl⟩ := List.mem_map.mp hr
      rw [h.inodes] at hq
      split
      · rw [h.size]
        exact hmax
      · exact hold.sizes q hq
    · rw [kindOf_setSize, hkind]
    · rw [storedSize_setSize now (by rw [hkind]; rfl), if_pos rfl, h.size]
    · exact h.bytes
  · constructor
    · intro j hj
      rw [Db.setSize, findInode_updateInode, if_neg hj, hfind]
      exact fun _ => rfl
    · exact h.others

end UnderWay

end Db

namespace DataCall

variable {db : Db} {ino : Nat} {bytes : Bytes} {now : Timestamp} {writes : List (Nat × Bytes)}

theorem writeFileBatchAt_of_regular (hk : db.Keys) (hkind : db.kindOf ino = some .regularFile) :
    db.writeFileBatchAt ino writes now =
      if ∀ w ∈ writes, w.2 = [] then .ok (0, db)
      else if ∃ w ∈ writes, maxFileSize < w.1 + w.2.length then .error .fileTooLarge
      else .ok ((writes.map fun w => w.2.length).sum % 4294967296,
        (writes.foldl (Db.writeOne ino) (db, db.storedSize ino)).1.setSize ino
          (writes.foldl (Db.writeOne ino) (db, db.storedSize ino)).2 now) := by
  have hempty : (writes.all fun w => w.2.isEmpty) = true ↔ ∀ w ∈ writes, w.2 = [] := by
    simp only [List.all_eq_true, List.isEmpty_iff]
  have hlarge : (writes.any fun w => min (w.1 + w.2.length) (u64Size - 1) > maxFileSize) = true ↔
      ∃ w ∈ writes, maxFileSize < w.1 + w.2.length := by
    simp only [List.any_eq_true, decide_eq_true_eq]
    apply exists_congr
    intro w
    apply and_congr_right
    intro _
    simp only [u64Size, maxFileSize]
    omega
  unfold Db.writeFileBatchAt
  rw [hk.inodeHead_of_kind hkind]
  simp only [bind, Except.bind, FileKind.regularFileError, hempty, hlarge]

private theorem foldl_writeArray_of_empty (h : ∀ w ∈ writes, w.2 = []) :
    writes.foldl writeArray bytes = bytes := by
  induction writes with
  | nil => rfl
  | cons w writes ih =>
    rw [List.foldl_cons, writeArray, if_pos (h w List.mem_cons_self)]
    exact ih fun w' hw' => h w' (List.mem_cons_of_mem _ hw')

private theorem write_spec (h : db.Holds ino bytes) (now : Timestamp)
    (writes : List (Nat × Bytes)) :
    (TooLarge (.write writes) → db.writeFileBatchAt ino writes now = .error .fileTooLarge) ∧
      (¬TooLarge (.write writes) → ∃ n db', db.writeFileBatchAt ino writes now = .ok (n, db') ∧
        db'.Holds ino (writes.foldl writeArray bytes) ∧ Db.Others ino db db') := by
  have hmax : bytes.length < 2 ^ 63 := h.size ▸ Db.storedSize_lt h.sizes ino
  have hstart : Db.UnderWay db ino (db, db.storedSize ino) bytes :=
    ⟨h.keys, rfl, h.size, h.bytes, fun _ _ _ _ => rfl⟩
  rw [writeFileBatchAt_of_regular h.keys h.kind]
  by_cases hempty : ∀ w ∈ writes, w.2 = []
  · rw [if_pos hempty]
    constructor
    · rintro ⟨⟨w, hw, hne⟩, -⟩
      exact (hne (hempty w hw)).elim
    · intro _
      refine ⟨0, db, rfl, ?_, .refl ino db⟩
      rw [foldl_writeArray_of_empty hempty]
      exact h
  · rw [if_neg hempty]
    by_cases hlarge : ∃ w ∈ writes, maxFileSize < w.1 + w.2.length
    · rw [if_pos hlarge]
      refine ⟨fun _ => rfl, fun hsmall => (hsmall ⟨?_, hlarge⟩).elim⟩
      simpa only [not_forall, exists_prop] using hempty
    · rw [if_neg hlarge]
      have hends : ∀ w ∈ writes, w.1 + w.2.length ≤ maxFileSize := by
        intro w hw
        exact Nat.le_of_not_lt fun hlt => hlarge ⟨w, hw, hlt⟩
      obtain ⟨hholds, hothers⟩ := (hstart.foldl h.le_maxIno hends).setSize h
        (Db.length_foldl_writeArray hmax hends) now
      exact ⟨fun hbig => (hlarge hbig.2).elim, fun _ => ⟨_, _, rfl, hholds, hothers⟩⟩

private theorem truncate_spec (h : db.Holds ino bytes) (now : Timestamp) (size : Nat) :
    (TooLarge (.truncate size) → db.truncateFile ino size now = .error .fileTooLarge) ∧
      (¬TooLarge (.truncate size) → ∃ db', db.truncateFile ino size now = .ok db' ∧
        db'.Holds ino (resize size bytes) ∧ Db.Others ino db db') := by
  have hkind : db.inodeKindOf ino = .ok .regularFile := h.keys.inodeKindOf_eq_ok.mpr h.kind
  have heq : db.truncateFile ino size now = if size > maxFileSize then .error .fileTooLarge
      else .ok ((db.cutAt ino size).setSize ino size now) := by
    unfold Db.truncateFile
    rw [hkind]
    rfl
  rw [heq]
  by_cases hlarge : size > maxFileSize
  · rw [if_pos hlarge]
    exact ⟨fun _ => rfl, fun hsmall => (hsmall hlarge).elim⟩
  · rw [if_neg hlarge]
    have hmax : size ≤ maxFileSize := Nat.le_of_not_lt hlarge
    have hcut : Db.UnderWay db ino (db.cutAt ino size, size) (resize size bytes) := by
      constructor
      · exact h.keys.cutAt
      · exact (Db.cutAt_rows db ino size).1
      · exact (length_resize size bytes).symm
      · intro p
        rw [Db.byte_cutAt h.le_maxIno h.le_maxIno hmax, byteAt_resize, h.bytes]
        by_cases hp : size ≤ p
        · rw [if_pos ⟨rfl, hp⟩, if_neg (Nat.not_lt.mpr hp)]
        · rw [if_neg fun hin => hp hin.2, if_pos (Nat.lt_of_not_le hp)]
      · intro j hj hino p
        rw [Db.byte_cutAt h.le_maxIno hino hmax, if_neg fun hin => hj hin.1]
    obtain ⟨hholds, hothers⟩ := hcut.setSize h
      (by rw [length_resize]; exact hmax.trans_lt (by decide)) now
    exact ⟨fun hbig => (hlarge hbig).elim, fun _ => ⟨_, rfl, hholds, hothers⟩⟩

/-- One call: the file becomes what the array becomes, the others stay, and exactly the calls that
are too large are refused. -/
private theorem perform_spec (h : db.Holds ino bytes) (now : Timestamp) (call : DataCall) :
    (TooLarge call → perform db ino now call = .error .fileTooLarge) ∧
      (¬TooLarge call → ∃ db', perform db ino now call = .ok db' ∧
        db'.Holds ino (onArray bytes call) ∧ Db.Others ino db db') := by
  cases call with
  | write writes =>
    obtain ⟨hlarge, hsmall⟩ := write_spec h now writes
    constructor
    · intro htoo
      rw [perform, hlarge htoo]
      rfl
    · intro hnot
      obtain ⟨n, db', hok, hholds, hothers⟩ := hsmall hnot
      refine ⟨db', ?_, ?_, hothers⟩
      · rw [perform, hok]
        rfl
      · rw [onArray, if_neg hnot]
        exact hholds
  | truncate size =>
    obtain ⟨hlarge, hsmall⟩ := truncate_spec h now size
    constructor
    · exact hlarge
    · intro hnot
      obtain ⟨db', hok, hholds, hothers⟩ := hsmall hnot
      refine ⟨db', hok, ?_, hothers⟩
      rw [onArray, if_neg hnot]
      exact hholds

theorem step_spec (h : db.Holds ino bytes) (call : Timestamp × DataCall) :
    (step ino db call).Holds ino (onArray bytes call.2) ∧ Db.Others ino db (step ino db call) := by
  obtain ⟨hlarge, hsmall⟩ := perform_spec h call.1 call.2
  unfold step
  by_cases htoo : TooLarge call.2
  · rw [hlarge htoo, onArray, if_pos htoo]
    exact ⟨h, .refl ino db⟩
  · obtain ⟨db', hok, hholds, hothers⟩ := hsmall htoo
    rw [hok]
    exact ⟨hholds, hothers⟩

/-- Any sequence of calls does to the file what it does to the array. -/
private theorem run_holds (h : db.Holds ino bytes) (calls : List (Timestamp × DataCall)) :
    (runFrom (step ino) db calls).Holds ino ((calls.map Prod.snd).foldl onArray bytes) ∧
      Db.Others ino db (runFrom (step ino) db calls) := by
  induction calls generalizing db bytes with
  | nil => exact ⟨h, .refl ino db⟩
  | cons call calls ih =>
    obtain ⟨hholds, hothers⟩ := step_spec h call
    obtain ⟨hholds', hothers'⟩ := ih hholds
    exact ⟨hholds', hothers.trans hothers'⟩

/-- The direct chunk store refines a byte array. -/
theorem run_refines (hk : db.Keys) (hsizes : ∀ r ∈ db.inodes, r.size < 2 ^ 63)
    (hkind : db.kindOf ino = some .regularFile) (hwithin : db.ChunksWithin ino)
    (calls : List (Timestamp × DataCall)) :
    let db' := runFrom (step ino) db calls
    let bytes := (calls.map Prod.snd).foldl onArray (db.array ino)
    (∀ offset size, db'.readFile ino offset size = .ok (slice offset size bytes)) ∧
      db'.storedSize ino = bytes.length ∧
      (∀ now call, TooLarge call → perform db' ino now call = .error .fileTooLarge ∧
        step ino db' (now, call) = db') ∧
      (∀ now call, ¬TooLarge call → ∃ db'', perform db' ino now call = .ok db'') ∧
      ∀ j, j ≠ ino → db'.storedSize j = db.storedSize j ∧
        ∀ offset size, db'.readFile j offset size = db.readFile j offset size := by
  intro db' bytes
  have hstart : db.Holds ino (db.array ino) := by
    refine ⟨hk, hsizes, hkind, (length_tabulate _ _).symm, fun p => ?_⟩
    rw [Db.array, byteAt_tabulate]
    split
    · rfl
    · next hp => exact hwithin.zeroFrom p (Nat.le_of_not_lt hp)
  obtain ⟨hholds, hothers⟩ := run_holds hstart calls
  refine ⟨hholds.readFile, hholds.size, ?_, ?_, ?_⟩
  · intro now call htoo
    have hperform := (perform_spec hholds now call).1 htoo
    exact ⟨hperform, by rw [step, hperform]⟩
  · intro now call hnot
    obtain ⟨db'', hok, -⟩ := (perform_spec hholds now call).2 hnot
    exact ⟨db'', hok⟩
  · intro j hj
    refine ⟨?_, hothers.readFile hk hholds.keys hsizes hj⟩
    rw [Db.storedSize, Db.storedSize, hothers.rows j hj]

def sparseFile : Db where
  inodes := [⟨1, .directory, 0o755, 0, 0, 0, 0, 0, 0, 2, false⟩,
    ⟨2, .regularFile, 0o644, 0, 0, 5, 0, 0, 0, 1, false⟩]
  dirents := [⟨1, 1, [97], 2⟩]
  fileChunks := []
  symlinkTargets := []

/-- Overlapping writes in one batch, a cut, and a batch that ends too far. -/
theorem run_refines_of_sparseFile :
    (runFrom (step 2) sparseFile [(⟨1, 0⟩, .write [(3, [7, 8]), (4, [9])]), (⟨2, 0⟩, .truncate 4),
      (⟨3, 0⟩, .write [(0, [1]), (maxFileSize, [2])])]).readFile 2 1 10 = .ok [0, 0, 7] := by
  have hkeys : sparseFile.Keys := ⟨by decide, by decide, by decide, by decide⟩
  have hread := (run_refines hkeys
    (by decide : ∀ r ∈ sparseFile.inodes, r.size < 2 ^ 63)
    (show sparseFile.kindOf 2 = some .regularFile by decide)
    (by intro c _ bytes h; cases h)
    [(⟨1, 0⟩, .write [(3, [7, 8]), (4, [9])]), (⟨2, 0⟩, .truncate 4),
      (⟨3, 0⟩, .write [(0, [1]), (maxFileSize, [2])])]).1 1 10
  exact hread.trans (by decide)

end DataCall

end VibeDbfs
