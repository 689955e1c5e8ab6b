import VibeDbfs.Storage.Data

/-!
Direct writes to the store: whatever the batch, every chunk row stays owned and below the new size.
-/

set_option autoImplicit false
set_option relaxedAutoImplicit false

namespace VibeDbfs

open Lib Lib.Bytes

namespace Db

variable {db db' : Db} {ino c size : Nat} {now : Timestamp}

private theorem setSize_setSize :
    (db.setSize ino size now).setSize ino size now = db.setSize ino size now := by
  simp only [setSize, updateInode, List.map_map, Db.mk.injEq, and_true]
  refine List.map_congr_left fun r _ => ?_
  simp only [Function.comp]
  split <;> simp_all

private theorem setSize_upsertAll {chunks : List (Nat × Bytes)} :
    (db.setSize ino size now).upsertAll ino chunks =
      (db.upsertAll ino chunks).setSize ino size now := by
  induction chunks generalizing db with
  | nil => rfl
  | cons e chunks ih =>
    have hone : (db.setSize ino size now).upsertChunk (chunkKey ino e.1) e.2 =
        (db.upsertChunk (chunkKey ino e.1) e.2).setSize ino size now := by
      unfold upsertChunk
      change (if (db.fileChunks.any fun r => r.id = chunkKey ino e.1) = true then _ else _) = _
      split <;> rfl
    simp only [upsertAll, List.foldl_cons] at ih ⊢
    rw [hone, ih]

section Pieces

variable {offset : Nat} {data : Bytes}

def pieceBytes (db : Db) (ino : Nat) (piece : ChunkPiece) (data : Bytes) (c : Nat) : Bytes :=
  let input := slice piece.buf.start (piece.buf.stop - piece.buf.start) data
  let old := (db.findChunk (chunkKey ino c)).getD []
  if piece.isFullChunk then input
  else splice piece.chunk.start input
    (if old.length < piece.chunk.stop then resize piece.chunk.stop old else old)

theorem writePiece_eq (span : ChunkSpan) : writePiece ino span data db c =
    db.upsertAll ino [(c, db.pieceBytes ino (span.piece c) data c)] := by
  unfold writePiece pieceBytes
  dsimp only
  split <;> rfl

/-- A piece never reaches beyond the old chunk and the end of the write. -/
private theorem length_pieceBytes (db : Db) (ino : Nat) (hlen : 0 < data.length)
    (hend : offset + data.length ≤ maxFileSize)
    (hc : c ∈ (ChunkSpan.ofRange offset data.length).chunks) :
    (db.pieceBytes ino ((ChunkSpan.ofRange offset data.length).piece c) data c).length ≤
      max (db.chunk ino c).length (ChunkSpan.pieceStop offset data.length c) := by
  have hlimit : offset + data.length ≤ 2 ^ 63 := hend.trans (by simp [maxFileSize])
  have hpiece := ChunkSpan.piece_ofRange hlimit hc hlen
  have hstart := ChunkSpan.pieceStart_lt_pieceStop hlen hc
  rw [ChunkSpan.mem_chunks hlen] at hc
  have hinput : ∀ n, (slice n (c * chunkSize + ChunkSpan.pieceStop offset data.length c - offset -
      (c * chunkSize + ChunkSpan.pieceStart offset c - offset)) data).length ≤
      ChunkSpan.pieceStop offset data.length c - ChunkSpan.pieceStart offset c := by
    intro n
    rw [length_slice]
    generalize c * chunkSize = base at *
    omega
  unfold pieceBytes
  rw [hpiece]
  dsimp only
  split
  · exact (hinput _).trans ((Nat.sub_le _ _).trans (Nat.le_max_right _ _))
  · rw [length_splice]
    have h := hinput (c * chunkSize + ChunkSpan.pieceStart offset c - offset)
    unfold chunk
    split
    · rw [length_resize]
      omega
    · omega

private theorem Owned.writePiece (ho : (db.setSize ino size now).Owned) (hk : db.Keys)
    (hkind : db.kindOf ino = some .regularFile) (hmax : size ≤ maxFileSize) (hlen : 0 < data.length)
    (hend : offset + data.length ≤ size) (hc : c ∈ (ChunkSpan.ofRange offset data.length).chunks) :
    ((writePiece ino (ChunkSpan.ofRange offset data.length) data db c).setSize ino size
      now).Owned := by
  have hino : ino ≤ maxIno := (hk.range (by simp [hkind])).2
  have hkeys : (db.setSize ino size now).Keys := hk.setSize size now
  have hbytes := length_pieceBytes db ino hlen (hend.trans hmax) hc
  have hstop := ChunkSpan.pieceStop_le offset data.length c
  have hindex := (ChunkSpan.mem_chunks hlen).mp hc
  have hcmax : c < maxChunks := by
    have h : c * chunkSize < maxFileSize := hindex.1.trans_le (hend.trans hmax)
    simp only [chunkSize, maxFileSize, maxChunks] at *
    omega
  have hpieceEnd : c * chunkSize + ChunkSpan.pieceStop offset data.length c ≤ size := by
    unfold ChunkSpan.pieceStop
    have h := hindex.1
    generalize c * chunkSize = base at *
    omega
  have holdlen : (db.chunk ino c).length ≤ chunkSize := ho.chunk_length hkeys hino hcmax
  have holdend : db.chunk ino c = [] ∨ c * chunkSize + (db.chunk ino c).length ≤ size := by
    by_cases hnil : db.chunk ino c = []
    · exact .inl hnil
    · have := ho.chunk_end hkeys hino hcmax hnil
      rw [storedSize_setSize now (by simp [hkind]), if_pos rfl] at this
      exact .inr this
  have hfits : (db.setSize ino size now).Fits ino size
      [(c, db.pieceBytes ino ((ChunkSpan.ofRange offset data.length).piece c) data c)] := by
    refine ⟨by rw [kindOf_setSize, hkind],
      le_of_eq ((storedSize_setSize now (by simp [hkind])).trans (if_pos rfl)), hmax, by simp,
      by simpa using hcmax, ?_, ?_⟩
    · simp only [List.mem_singleton, forall_eq]
      omega
    · simp only [List.mem_singleton, forall_eq]
      rcases holdend with hnil | hle
      · rw [hnil, List.length_nil, Nat.zero_max] at hbytes
        generalize c * chunkSize = base at *
        omega
      · generalize c * chunkSize = base at *
        omega
  have hstep : (((db.setSize ino size now).upsertAll ino
      [(c, db.pieceBytes ino ((ChunkSpan.ofRange offset data.length).piece c) data c)]).setSize
      ino size now).Owned := ho.upsertAll hkeys hfits
  rwa [setSize_upsertAll, setSize_setSize, ← writePiece_eq] at hstep

theorem writePiece_rows (span : ChunkSpan) (hk : db.Keys) :
    (writePiece ino span data db c).Keys ∧ (writePiece ino span data db c).names = db.names := by
  rw [writePiece_eq]
  refine ⟨hk.upsertAll, ?_⟩
  simp only [names, Names.mk.injEq]
  exact ⟨funext fun _ => kindOf_upsertAll, funext fun _ => nlinkOf_upsertAll, upsertAll_rows.2.1⟩

end Pieces

section Batch

variable {writes : List (Nat × Bytes)}

/-- The state of a batch: keys, names and the file as they were, and rows owned up to `size`. -/
structure Batch (before db : Db) (ino size : Nat) : Prop where
  keys : db.Keys
  inodes : db.inodes = before.inodes
  names : db.names = before.names
  symlinks : db.symlinkTargets = before.symlinkTargets
  grows : before.storedSize ino ≤ size
  limit : size ≤ maxFileSize
  owned : ∀ now, (db.setSize ino size now).Owned

variable {before : Db}

theorem Batch.kind (hb : Batch before db ino size) : db.kindOf ino = before.kindOf ino :=
  congrFun (congrArg Names.kind hb.names) ino

private theorem Batch.grow (hb : Batch before db ino size)
    (hkind : before.kindOf ino = some .regularFile)
    {size' : Nat} (hle : size ≤ size') (hmax : size' ≤ maxFileSize) :
      Batch before db ino size' := by
  have hk := hb.kind.trans hkind
  refine ⟨hb.keys, hb.inodes, hb.names, hb.symlinks, hb.grows.trans hle, hmax, fun now => ?_⟩
  have hfits : (db.setSize ino size now).Fits ino size' [] := by
    refine ⟨by rw [kindOf_setSize, hk], ?_, hmax, by simp, by simp, by simp, by simp⟩
    rw [storedSize_setSize now (by simp [hk]), if_pos rfl]
    exact hle
  have hstep : ((db.setSize ino size now).setSize ino size' now).Owned :=
    (hb.owned now).upsertAll (hb.keys.setSize size now) hfits
  have hsame : (db.setSize ino size now).setSize ino size' now = db.setSize ino size' now := by
    simp only [setSize, updateInode, List.map_map, Db.mk.injEq, and_true]
    refine List.map_congr_left fun r _ => ?_
    simp only [Function.comp]
    split <;> simp_all
  rwa [hsame] at hstep

private theorem Batch.writePiece (hb : Batch before db ino size)
    (hkind : before.kindOf ino = some .regularFile) {offset : Nat} {data : Bytes}
    (hlen : 0 < data.length) (hend : offset + data.length ≤ size)
    (hc : c ∈ (ChunkSpan.ofRange offset data.length).chunks) :
    Batch before (writePiece ino (ChunkSpan.ofRange offset data.length) data db c) ino size := by
  have hrows : (Db.writePiece ino (ChunkSpan.ofRange offset data.length) data db c).Keys ∧
      (Db.writePiece ino (ChunkSpan.ofRange offset data.length) data db c).names = db.names :=
    writePiece_rows _ hb.keys
  refine ⟨hrows.1, ?_, hrows.2.trans hb.names, ?_, hb.grows, hb.limit, fun now =>
    (hb.owned now).writePiece hb.keys (hb.kind.trans hkind) hb.limit hlen hend hc⟩
  · rw [writePiece_eq, upsertAll_rows.1, hb.inodes]
  · rw [writePiece_eq, upsertAll_rows.2.2, hb.symlinks]

private theorem Batch.writeOne (hb : Batch before db ino size)
    (hkind : before.kindOf ino = some .regularFile) {write : Nat × Bytes}
    (hend : write.1 + write.2.length ≤ maxFileSize) :
    Batch before (writeOne ino (db, size) write).1 ino (writeOne ino (db, size) write).2 := by
  unfold Db.writeOne
  by_cases hlen : write.2.length = 0
  · rw [hlen, ChunkSpan.new_zero]
    exact hb
  · have hspan : ChunkSpan.new write.1 write.2.length =
        some (ChunkSpan.ofRange write.1 write.2.length) :=
      ChunkSpan.new_eq (Nat.pos_of_ne_zero hlen) (hend.trans_lt (by simp [maxFileSize, u64Size]))
    rw [hspan]
    dsimp only
    have hgrown := hb.grow hkind (Nat.le_max_left size (write.1 + write.2.length))
      (Nat.max_le.mpr ⟨hb.limit, hend⟩)
    -- the size is already that of the whole write while its pieces are stored
    have hfold : ∀ (chunks : List Nat) (db : Db),
        (∀ c ∈ chunks, c ∈ (ChunkSpan.ofRange write.1 write.2.length).chunks) →
        Batch before db ino (max size (write.1 + write.2.length)) →
        Batch before (chunks.foldl (Db.writePiece ino (ChunkSpan.ofRange write.1 write.2.length)
          write.2) db) ino (max size (write.1 + write.2.length)) := by
      intro chunks
      induction chunks with
      | nil => exact fun _ _ h => h
      | cons c chunks ih =>
        intro db hmem h
        exact ih _ (fun d hd => hmem d (List.mem_cons_of_mem _ hd))
          (h.writePiece hkind (Nat.pos_of_ne_zero hlen) (Nat.le_max_right _ _)
            (hmem c List.mem_cons_self))
    exact hfold _ _ (fun _ h => h) hgrown

private theorem Batch.foldl_writes (hkind : before.kindOf ino = some .regularFile) (acc : Db × Nat)
    (hacc : Batch before acc.1 ino acc.2) (hends : ∀ w ∈ writes, w.1 + w.2.length ≤ maxFileSize) :
    Batch before (writes.foldl (Db.writeOne ino) acc).1 ino
      (writes.foldl (Db.writeOne ino) acc).2 := by
  induction writes generalizing acc with
  | nil => exact hacc
  | cons w writes ih =>
    exact ih _ (hacc.writeOne hkind (hends w List.mem_cons_self)) fun w' hw' =>
      hends w' (List.mem_cons_of_mem _ hw')

theorem writeFileBatchAt_cases (hk : db.Keys) (ho : db.Owned) {written : Nat}
    (h : db.writeFileBatchAt ino writes now = .ok (written, db')) :
    db' = db ∨ db.kindOf ino = some .regularFile ∧
      ∃ mid size, Batch db mid ino size ∧ db' = mid.setSize ino size now := by
  obtain ⟨⟨kind, size⟩, hhead, h⟩ := except_bind_eq_ok.mp h
  dsimp only at h
  obtain ⟨r, hr, rfl, rfl⟩ := head_of_read hhead
  split at h
  · cases h
  · next hregular =>
    have hkind : db.kindOf ino = some .regularFile := by
      rw [kindOf_of_find hr, FileKind.regularFileError_eq_none.mp hregular]
    split at h
    · cases h
      exact .inl rfl
    · split at h
      · cases h
      · next hlimit =>
        cases h
        refine .inr ⟨hkind, _, _, Batch.foldl_writes hkind (db, r.size) ?_ fun w hw => ?_, rfl⟩
        · have hsize := storedSize_of_find hr
          refine ⟨hk, rfl, rfl, rfl, le_of_eq hsize, hsize ▸ ho.sizes ino hkind, fun now => ?_⟩
          refine ho.congr rfl (fun i hi => by rwa [kindOf_setSize]) (fun i _ => ?_)
            fun i hi => .inl (by rwa [kindOf_setSize] at hi)
          rw [storedSize_setSize now (by simp [hkind])]
          split
          · next heq => rw [heq, hsize]
          · rfl
        · have hw' : ¬min (w.1 + w.2.length) (u64Size - 1) > maxFileSize := fun hgt =>
            hlimit (List.any_eq_true.mpr ⟨w, hw, decide_eq_true hgt⟩)
          simp only [u64Size, maxFileSize] at *
          omega

end Batch

end Db

end VibeDbfs
