import VibeDbfs.Storage.SpanLaws
import VibeDbfs.Storage.Startup

/-!
The stored chunks of a file: who owns a chunk row, what the statements on `file_chunks` leave, and
the stored content that a read sees.
-/

set_option autoImplicit false
set_option relaxedAutoImplicit false

namespace VibeDbfs

open Lib Lib.Bytes

namespace Db

/-- The stored bytes of chunk `c`, none for a hole. -/
def chunk (db : Db) (ino c : Nat) : Bytes := (db.findChunk (chunkKey ino c)).getD []

/-- The stored bytes of `ino`. -/
def content (db : Db) (ino : Nat) : Bytes :=
  tabulate (db.storedSize ino) fun p => byteAt (db.chunk ino (p / chunkSize)) (p % chunkSize)

/-- `row` is a chunk of the regular file `ino` and lies below its stored end. -/
def OwnedBy (db : Db) (row : ChunkRow) (ino c : Nat) : Prop :=
  c < maxChunks ∧ row.id = chunkKey ino c ∧ db.kindOf ino = some .regularFile ∧
    row.data.length ≤ chunkSize ∧ c * chunkSize + row.data.length ≤ db.storedSize ino

/-- Every chunk row has an owner, and no file is larger than the chunk keys allow. -/
structure Owned (db : Db) : Prop where
  rows : ∀ row ∈ db.fileChunks, ∃ ino c, db.OwnedBy row ino c
  sizes : ∀ ino, db.kindOf ino = some .regularFile → db.storedSize ino ≤ maxFileSize

variable {db db' : Db} {ino c j : Nat} {key k : Int} {data : Bytes}

section Statements

theorem findChunk_eq_some (hk : db.Keys) :
    db.findChunk key = some data ↔ ⟨key, data⟩ ∈ db.fileChunks := by
  rw [findChunk, Option.map_eq_some_iff]
  constructor
  · rintro ⟨row, hrow, rfl⟩
    obtain ⟨hmem, rfl⟩ := (Keyed.find_eq_some_iff hk.chunks).mp hrow
    exact hmem
  · exact fun hmem => ⟨_, (Keyed.find_eq_some_iff hk.chunks).mpr ⟨hmem, rfl⟩, rfl⟩

theorem findChunk_upsertChunk :
    (db.upsertChunk key data).findChunk k = if k = key then some data else db.findChunk k := by
  unfold upsertChunk
  split
  · next hany =>
    rw [findChunk]
    by_cases hk : k = key
    · subst hk
      rw [if_pos rfl, Keyed.find_map fun r => by split <;> simp_all]
      obtain ⟨row, hrow⟩ := Option.isSome_iff_exists.mp
        (Keyed.find_isSome_iff.mpr (by simpa using hany))
      have hid : row.id = k := by simpa using List.find?_some hrow
      rw [hrow, Option.map_some, Option.map_some, if_pos hid]
    · rw [if_neg hk, findChunk, Keyed.find_map fun r => by split <;> simp_all]
      rcases hrow : db.fileChunks.find? (fun r => r.id = k) with _ | row
      · rw [hrow]
        rfl
      · have hid : row.id = k := by simpa using List.find?_some hrow
        rw [hrow, Option.map_some, if_neg (hid ▸ hk)]
  · next hany =>
    have hnone : ∀ r ∈ db.fileChunks, r.id ≠ key := fun r hr he =>
      hany (List.any_eq_true.mpr ⟨r, hr, by simpa using he⟩)
    have hfind : (db.fileChunks ++ [(⟨key, data⟩ : ChunkRow)]).find? (fun r => r.id = k) =
        if k = key then some ⟨key, data⟩ else db.fileChunks.find? fun r => r.id = k :=
      Keyed.find_append_singleton hnone
    rw [findChunk, hfind]
    split <;> rfl

theorem Keys.upsertChunk (hk : db.Keys) : (db.upsertChunk key data).Keys := by
  unfold Db.upsertChunk
  split
  · refine ⟨hk.inodes, hk.inos, Keyed.nodup_map_keep (fun r _ => ?_) hk.chunks, hk.intact⟩
    split <;> simp_all
  · next hany =>
    refine ⟨hk.inodes, hk.inos, Keyed.nodup_append_singleton hk.chunks fun r hr he => ?_, hk.intact⟩
    exact hany (List.any_eq_true.mpr ⟨r, hr, by simpa using he⟩)

theorem findChunk_deleteChunksBetween {first last : Int} :
    (db.deleteChunksBetween first last).findChunk k =
      if first ≤ k ∧ k ≤ last then none else db.findChunk k := by
  unfold findChunk deleteChunksBetween
  split
  · next hin => rw [Keyed.find_filter_of_drop fun r _ hr => by simp [hr, hin]]; rfl
  · next hout => rw [Keyed.find_filter_of_keep fun r _ hr => by simp [hr, hout]]

theorem findChunk_deleteChunksAfter {last : Int} :
    (db.deleteChunksAfter key last).findChunk k =
      if key < k ∧ k ≤ last then none else db.findChunk k := by
  unfold findChunk deleteChunksAfter
  split
  · next hin => rw [Keyed.find_filter_of_drop fun r _ hr => by simp [hr, hin]]; rfl
  · next hout => rw [Keyed.find_filter_of_keep fun r _ hr => by simp [hr, hout]]

theorem findChunk_cutChunk {len : Nat} :
    (db.cutChunk key len).findChunk k =
      if k = key then (db.findChunk k).map (List.take len) else db.findChunk k := by
  unfold findChunk cutChunk
  rw [Keyed.find_map fun r => by split <;> rfl]
  rcases hrow : db.fileChunks.find? (fun r => r.id = k) with _ | row
  · simp [hrow]
  · have hid : row.id = k := by simpa using List.find?_some hrow
    simp only [hrow, Option.map_some, hid]
    split
    · next h => rw [if_pos h.1]
    · next h =>
      split
      · next hk => rw [List.take_of_length_le (Nat.le_of_not_lt fun hlt => h ⟨hk, hlt⟩)]
      · rfl

theorem Keys.filterChunks (hk : db.Keys) (p : ChunkRow → Bool) :
    ({ db with fileChunks := db.fileChunks.filter p } : Db).Keys :=
  ⟨hk.inodes, hk.inos, Keyed.nodup_filter hk.chunks, hk.intact⟩

theorem Keys.cutChunk (hk : db.Keys) {len : Nat} : (db.cutChunk key len).Keys :=
  ⟨hk.inodes, hk.inos, Keyed.nodup_map_keep (fun r _ => by split <;> rfl) hk.chunks, hk.intact⟩

end Statements

section Owners

theorem Owned.of_findChunk (ho : db.Owned) (hk : db.Keys) (hino : ino ≤ maxIno)
    (hc : c < maxChunks) (h : db.findChunk (chunkKey ino c) = some data) :
    db.kindOf ino = some .regularFile ∧ data.length ≤ chunkSize ∧
      c * chunkSize + data.length ≤ db.storedSize ino := by
  obtain ⟨i, d, hd, hid, hkind, hlen, hend⟩ := ho.rows _ ((findChunk_eq_some hk).mp h)
  obtain ⟨rfl, rfl⟩ := (chunkKey_inj hino (hk.range (by simp [hkind])).2 hc hd).mp hid
  exact ⟨hkind, hlen, hend⟩

theorem Owned.chunk_length (ho : db.Owned) (hk : db.Keys) (hino : ino ≤ maxIno)
    (hc : c < maxChunks) : (db.chunk ino c).length ≤ chunkSize := by
  rcases hfind : db.findChunk (chunkKey ino c) with _ | data
  · simp [chunk, hfind]
  · rw [chunk, hfind]
    exact (ho.of_findChunk hk hino hc hfind).2.1

theorem Owned.chunk_end (ho : db.Owned) (hk : db.Keys) (hino : ino ≤ maxIno) (hc : c < maxChunks)
    (hne : db.chunk ino c ≠ []) : c * chunkSize + (db.chunk ino c).length ≤ db.storedSize ino := by
  rcases hfind : db.findChunk (chunkKey ino c) with _ | data
  · simp [chunk, hfind] at hne
  · rw [chunk, hfind]
    exact (ho.of_findChunk hk hino hc hfind).2.2

theorem Owned.of_chunks (hk : db'.Keys)
    (hkeys : ∀ row ∈ db'.fileChunks, ∃ i d, i ≤ maxIno ∧ d < maxChunks ∧ row.id = chunkKey i d)
    (hchunk : ∀ i d data, i ≤ maxIno → d < maxChunks → db'.findChunk (chunkKey i d) = some data →
      db'.kindOf i = some .regularFile ∧ data.length ≤ chunkSize ∧
        d * chunkSize + data.length ≤ db'.storedSize i)
    (hsizes : ∀ i, db'.kindOf i = some .regularFile → db'.storedSize i ≤ maxFileSize) :
    db'.Owned := by
  refine ⟨fun row hrow => ?_, hsizes⟩
  obtain ⟨i, d, hi, hd, hid⟩ := hkeys row hrow
  obtain ⟨hkind, hlen, hend⟩ := hchunk i d row.data hi hd
    (hid ▸ (findChunk_eq_some hk).mpr hrow)
  exact ⟨i, d, hd, hid, hkind, hlen, hend⟩

theorem Owned.keys (ho : db.Owned) (hk : db.Keys) :
    ∀ row ∈ db.fileChunks, ∃ i d, i ≤ maxIno ∧ d < maxChunks ∧ row.id = chunkKey i d := by
  intro row hrow
  obtain ⟨i, d, hd, hid, hkind, -⟩ := ho.rows row hrow
  exact ⟨i, d, (hk.range (by simp [hkind])).2, hd, hid⟩

/-- Only kinds, sizes and chunk rows matter, and kinds may change where there are no chunks. -/
theorem Owned.congr (ho : db.Owned) (hchunks : db'.fileChunks = db.fileChunks)
    (hkind : ∀ i, db.kindOf i = some .regularFile → db'.kindOf i = some .regularFile)
    (hsize : ∀ i, db.kindOf i = some .regularFile → db'.storedSize i = db.storedSize i)
    (hnew : ∀ i, db'.kindOf i = some .regularFile →
      db.kindOf i = some .regularFile ∨ db'.storedSize i ≤ maxFileSize) : db'.Owned := by
  refine ⟨fun row hrow => ?_, fun i hi => ?_⟩
  · obtain ⟨i, d, hd, hid, hk, hlen, hend⟩ := ho.rows row (hchunks ▸ hrow)
    exact ⟨i, d, hd, hid, hkind i hk, hlen, hsize i hk ▸ hend⟩
  · rcases hnew i hi with hold | hle
    · exact hsize i hold ▸ ho.sizes i hold
    · exact hle

end Owners

section Delete

private theorem findChunk_deleteInodeRows :
    (db.deleteInodeRows ino).findChunk k =
      if chunkKey ino 0 ≤ k ∧ k ≤ chunkKey ino (maxChunks - 1) then none else db.findChunk k :=
  findChunk_deleteChunksBetween

theorem chunk_deleteInodeRows (hino : ino ≤ maxIno) (hj : j ≤ maxIno) (hc : c < maxChunks) :
    (db.deleteInodeRows ino).chunk j c = if j = ino then [] else db.chunk j c := by
  rw [chunk, findChunk_deleteInodeRows]
  have hrange := chunkKey_between_iff hino hj hc (show 0 < maxChunks by simp [maxChunks])
    (show maxChunks - 1 < maxChunks by simp [maxChunks])
  by_cases h : j = ino
  · rw [if_pos (hrange.mpr ⟨h.symm, by omega, by omega⟩), if_pos h]
    rfl
  · rw [if_neg fun hin => h (hrange.mp hin).1.symm, if_neg h]
    rfl

theorem Owned.deleteInodeRows (ho : db.Owned) (hino : ino ≤ maxIno) :
    (db.deleteInodeRows ino).Owned := by
  have hsub : ∀ row ∈ (db.deleteInodeRows ino).fileChunks, row ∈ db.fileChunks ∧
      ¬(chunkKey ino 0 ≤ row.id ∧ row.id ≤ chunkKey ino (maxChunks - 1)) := fun row hrow =>
    ⟨(List.mem_filter.mp hrow).1, of_decide_eq_true (List.mem_filter.mp hrow).2⟩
  refine ⟨fun row hrow => ?_, fun i hi => ?_⟩
  · obtain ⟨hmem, hout⟩ := hsub row hrow
    obtain ⟨i, d, hd, hid, hkind, hlen, hend⟩ := ho.rows row hmem
    have hne : i ≠ ino := by
      rintro rfl
      rw [hid] at hout
      exact hout ((chunkKey_between_iff hino hino hd (show 0 < maxChunks by simp [maxChunks])
        (show maxChunks - 1 < maxChunks by simp [maxChunks])).mpr ⟨rfl, by omega, by omega⟩)
    exact ⟨i, d, hd, hid, by rw [kindOf_deleteInodeRows, if_neg hne, hkind], hlen,
      by rwa [storedSize_deleteInodeRows hne]⟩
  · rw [kindOf_deleteInodeRows] at hi
    split at hi
    · cases hi
    · next hne =>
      rw [storedSize_deleteInodeRows hne]
      exact ho.sizes i hi

end Delete

end Db

end VibeDbfs
