import VibeDbfs.Storage.Chunks

/-!
The methods that change stored data: each keeps every chunk row owned and below the stored size,
and a read gives the bytes of the chunks that it covers.
-/

set_option autoImplicit false
set_option relaxedAutoImplicit false

namespace VibeDbfs

open Lib Lib.Bytes

namespace Db

variable {db db' : Db} {ino c j : Nat} {key k : Int} {data : Bytes} {now : Timestamp}

private theorem mem_upsertChunk {row : ChunkRow} (h : row ∈ (db.upsertChunk key data).fileChunks) :
    row.id = key ∨ row ∈ db.fileChunks := by
  unfold upsertChunk at h
  split at h
  · obtain ⟨r, hr, rfl⟩ := List.mem_map.mp h
    split
    · exact .inl rfl
    · exact .inr hr
  · rcases List.mem_append.mp h with h | h
    · exact .inr h
    · exact .inl (by rw [List.mem_singleton.mp h])

theorem findChunk_upsertChunk_key (hino : ino ≤ maxIno) (hc : c < maxChunks) {i d : Nat}
    (hi : i ≤ maxIno) (hd : d < maxChunks) :
    (db.upsertChunk (chunkKey ino c) data).findChunk (chunkKey i d) =
      if i = ino ∧ d = c then some data else db.findChunk (chunkKey i d) := by
  rw [findChunk_upsertChunk]
  exact if_congr (chunkKey_inj hi hino hd hc) rfl rfl

private theorem upsertChunk_rows (db : Db) (key : Int) (data : Bytes) :
    (db.upsertChunk key data).inodes = db.inodes ∧
    (db.upsertChunk key data).dirents = db.dirents ∧
    (db.upsertChunk key data).symlinkTargets = db.symlinkTargets := by
  unfold upsertChunk
  split <;> exact ⟨rfl, rfl, rfl⟩

section Replace

/-- The bytes that `chunks` has for chunk `c`. -/
def replacement (chunks : List (Nat × Bytes)) (c : Nat) : Option Bytes :=
  (chunks.find? fun e => e.1 = c).map Prod.snd

def upsertAll (db : Db) (ino : Nat) (chunks : List (Nat × Bytes)) : Db :=
  chunks.foldl (fun db e => db.upsertChunk (chunkKey ino e.1) e.2) db

variable {chunks : List (Nat × Bytes)} {size : Nat}

theorem upsertAll_rows : (db.upsertAll ino chunks).inodes = db.inodes ∧
    (db.upsertAll ino chunks).dirents = db.dirents ∧
    (db.upsertAll ino chunks).symlinkTargets = db.symlinkTargets := by
  induction chunks generalizing db with
  | nil => exact ⟨rfl, rfl, rfl⟩
  | cons e chunks ih =>
    have hone := upsertChunk_rows db (chunkKey ino e.1) e.2
    obtain ⟨h1, h2, h3⟩ := @ih (db.upsertChunk (chunkKey ino e.1) e.2)
    exact ⟨h1.trans hone.1, h2.trans hone.2.1, h3.trans hone.2.2⟩

theorem kindOf_upsertAll : (db.upsertAll ino chunks).kindOf j = db.kindOf j := by
  simp only [kindOf, findInode, upsertAll_rows.1]

theorem nlinkOf_upsertAll : (db.upsertAll ino chunks).nlinkOf j = db.nlinkOf j := by
  simp only [nlinkOf, findInode, upsertAll_rows.1]

theorem storedSize_upsertAll : (db.upsertAll ino chunks).storedSize j = db.storedSize j := by
  simp only [storedSize, findInode, upsertAll_rows.1]

theorem Keys.upsertAll (hk : db.Keys) : (db.upsertAll ino chunks).Keys := by
  induction chunks generalizing db with
  | nil => exact hk
  | cons e chunks ih => exact ih hk.upsertChunk

theorem findChunk_upsertAll (hino : ino ≤ maxIno) (hchunks : ∀ e ∈ chunks, e.1 < maxChunks)
    (hnodup : (chunks.map Prod.fst).Nodup) (hj : j ≤ maxIno) (hc : c < maxChunks) :
    (db.upsertAll ino chunks).findChunk (chunkKey j c) =
      if j = ino then (replacement chunks c).or (db.findChunk (chunkKey j c))
      else db.findChunk (chunkKey j c) := by
  induction chunks generalizing db with
  | nil => simp [upsertAll, replacement]
  | cons e chunks ih =>
    rw [List.map_cons, List.nodup_cons] at hnodup
    have he := hchunks e List.mem_cons_self
    rw [upsertAll, List.foldl_cons]
    refine (ih (fun e' h => hchunks e' (List.mem_cons_of_mem _ h)) hnodup.2).trans ?_
    rw [findChunk_upsertChunk_key hino he hj hc]
    by_cases hjino : j = ino
    · rw [if_pos hjino, if_pos hjino, replacement, replacement]
      by_cases hce : c = e.1
      · have hnone : chunks.find? (fun e' => e'.1 = c) = none := by
          refine Keyed.find_eq_none_iff.mpr fun e' he' heq => hnodup.1 ?_
          exact hce ▸ heq ▸ List.mem_map_of_mem he'
        rw [hnone, List.find?_cons_of_pos (by simpa using hce.symm), if_pos ⟨hjino, hce⟩]
        rfl
      · rw [List.find?_cons_of_neg (by simpa using Ne.symm hce), if_neg fun h => hce h.2]
    · rw [if_neg hjino, if_neg hjino, if_neg fun h => hjino h.1]

private theorem chunk_upsertAll (hino : ino ≤ maxIno) (hchunks : ∀ e ∈ chunks, e.1 < maxChunks)
    (hnodup : (chunks.map Prod.fst).Nodup) (hj : j ≤ maxIno) (hc : c < maxChunks) :
    (db.upsertAll ino chunks).chunk j c =
      if j = ino then (replacement chunks c).getD (db.chunk j c) else db.chunk j c := by
  rw [chunk, findChunk_upsertAll hino hchunks hnodup hj hc]
  split
  · rcases replacement chunks c with _ | bytes <;> rfl
  · rfl

/-- What `replace_chunks` needs of the file and the chunks to keep the rows owned. -/
structure Fits (db : Db) (ino size : Nat) (chunks : List (Nat × Bytes)) : Prop where
  kind : db.kindOf ino = some .regularFile
  grows : db.storedSize ino ≤ size
  max : size ≤ maxFileSize
  nodup : (chunks.map Prod.fst).Nodup
  index : ∀ e ∈ chunks, e.1 < maxChunks
  length : ∀ e ∈ chunks, e.2.length ≤ chunkSize
  stop : ∀ e ∈ chunks, e.1 * chunkSize + e.2.length ≤ size

theorem Owned.upsertAll (ho : db.Owned) (hk : db.Keys) (hfits : db.Fits ino size chunks) :
    ((db.upsertAll ino chunks).setSize ino size now).Owned := by
  have hino : ino ≤ maxIno := (hk.range (by simp [hfits.kind])).2
  have hsome : ((db.upsertAll ino chunks).kindOf ino).isSome := by
    simp [kindOf_upsertAll, hfits.kind]
  have hsizes : ∀ i, ((db.upsertAll ino chunks).setSize ino size now).storedSize i =
      if i = ino then size else db.storedSize i := by
    intro i
    rw [storedSize_setSize now hsome, storedSize_upsertAll]
  refine Owned.of_chunks (hk.upsertAll.setSize size now) ?_ (fun i d bytes hi hd hfind => ?_)
    (fun i hi => ?_)
  · change ∀ row ∈ (db.upsertAll ino chunks).fileChunks, _
    have hindex := hfits.index
    have hkeys := ho.keys hk
    clear hsizes hsome hk ho hfits
    induction chunks generalizing db with
    | nil => exact hkeys
    | cons e chunks ih =>
      refine @ih (db.upsertChunk (chunkKey ino e.1) e.2)
        (fun e' h => hindex e' (List.mem_cons_of_mem _ h)) fun row hrow => ?_
      rcases mem_upsertChunk hrow with hid | hmem
      · exact ⟨ino, e.1, hino, hindex e List.mem_cons_self, hid⟩
      · exact hkeys row hmem
  · change (db.upsertAll ino chunks).findChunk _ = _ at hfind
    rw [findChunk_upsertAll hino hfits.index hfits.nodup hi hd] at hfind
    rw [kindOf_setSize, kindOf_upsertAll, hsizes]
    -- a chunk of `ino` is a new one or lies below the old end
    have hold : db.findChunk (chunkKey i d) = some bytes → db.kindOf i = some .regularFile ∧
        bytes.length ≤ chunkSize ∧
        d * chunkSize + bytes.length ≤ if i = ino then size else db.storedSize i := by
      intro h
      obtain ⟨hkind, hlen, hend⟩ := ho.of_findChunk hk hi hd h
      refine ⟨hkind, hlen, hend.trans ?_⟩
      split
      · next heq => exact heq ▸ hfits.grows
      · exact Nat.le_refl _
    split at hfind
    · next heq =>
      rcases hnew : replacement chunks d with _ | b
      · rw [hnew] at hfind
        exact hold hfind
      · rw [hnew] at hfind
        obtain rfl : b = bytes := Option.some.inj hfind
        obtain ⟨e, he, rfl⟩ := Option.map_eq_some_iff.mp hnew
        obtain ⟨hmem, rfl⟩ := (Keyed.find_eq_some_iff hfits.nodup).mp he
        rw [if_pos heq]
        exact ⟨heq ▸ hfits.kind, hfits.length e hmem, hfits.stop e hmem⟩
    · exact hold hfind
  · rw [kindOf_setSize, kindOf_upsertAll] at hi
    rw [hsizes]
    split
    · exact hfits.max
    · exact ho.sizes i hi

theorem replaceChunks_eq (h : db.replaceChunks ino size chunks now = .ok db') :
    db' = (db.upsertAll ino chunks).setSize ino size now :=
  (Except.ok.inj h).symm

theorem chunk_replaceChunks (hk : db.Keys) (hfits : db.Fits ino size chunks) (hj : j ≤ maxIno)
    (hc : c < maxChunks) :
    ((db.upsertAll ino chunks).setSize ino size now).chunk j c =
      if j = ino then (replacement chunks c).getD (db.chunk j c) else db.chunk j c :=
  chunk_upsertAll (hk.range (by simp [hfits.kind])).2 hfits.index hfits.nodup hj hc

end Replace

section Truncate

/-- The chunk rows that `truncate_file` leaves. -/
def cutAt (db : Db) (ino size : Nat) : Db :=
  if size = 0 then db.deleteChunksBetween (chunkKeys ino).1 (chunkKeys ino).2
  else
    (db.deleteChunksAfter (chunkKey ino ((size - 1) / chunkSize)) (chunkKeys ino).2).cutChunk
      (chunkKey ino ((size - 1) / chunkSize)) ((size - 1) % chunkSize + 1)

variable {size : Nat}

theorem truncateFile_cases (h : db.truncateFile ino size now = .ok db') :
    db.kindOf ino = some .regularFile ∧ size ≤ maxFileSize ∧
      db' = (db.cutAt ino size).setSize ino size now := by
  obtain ⟨k, hkind, h⟩ := except_bind_eq_ok.mp h
  replace hkind := kindOf_of_read hkind
  split at h
  · cases h
  · next hregular =>
    rw [FileKind.regularFileError_eq_none] at hregular
    split at h
    · cases h
    · next hmax => exact ⟨hregular ▸ hkind, Nat.le_of_not_lt hmax, (Except.ok.inj h).symm⟩

theorem cutAt_rows (db : Db) (ino size : Nat) : (db.cutAt ino size).inodes = db.inodes ∧
    (db.cutAt ino size).dirents = db.dirents ∧
    (db.cutAt ino size).symlinkTargets = db.symlinkTargets := by
  unfold cutAt
  split <;> exact ⟨rfl, rfl, rfl⟩

theorem Keys.cutAt (hk : db.Keys) : (db.cutAt ino size).Keys := by
  unfold Db.cutAt
  split
  · exact hk.filterChunks _
  · exact Keys.cutChunk (hk.filterChunks _)

private theorem findChunk_cutAt (ho : db.Owned) (hk : db.Keys) (hino : ino ≤ maxIno)
    (hmax : size ≤ maxFileSize) (hj : j ≤ maxIno) (hc : c < maxChunks) :
    (db.cutAt ino size).findChunk (chunkKey j c) =
      if j = ino then
        if c * chunkSize < size then
          (db.findChunk (chunkKey j c)).map (List.take (size - c * chunkSize))
        else none
      else db.findChunk (chunkKey j c) := by
  have hlast : maxChunks - 1 < maxChunks := by simp [maxChunks]
  unfold cutAt
  split
  · next hzero =>
    have hrange : ((chunkKeys ino).1 ≤ chunkKey j c ∧ chunkKey j c ≤ (chunkKeys ino).2) ↔ j = ino :=
      (chunkKey_between_iff hino hj hc (show 0 < maxChunks by simp [maxChunks]) hlast).trans
        ⟨fun h => h.1.symm, fun h => ⟨h.symm, by omega, by omega⟩⟩
    rw [findChunk_deleteChunksBetween, if_neg (show ¬c * chunkSize < size by omega)]
    exact if_congr hrange rfl rfl
  · next hpos =>
    have hfinal : (size - 1) / chunkSize * chunkSize < size ∧
        size ≤ (size - 1) / chunkSize * chunkSize + chunkSize ∧
        (size - 1) % chunkSize + 1 = size - (size - 1) / chunkSize * chunkSize := by
      simp only [chunkSize]
      omega
    have hfinalc : (size - 1) / chunkSize < maxChunks := by
      simp only [chunkSize, maxChunks, maxFileSize] at *
      omega
    rw [hfinal.2.2]
    revert hfinal hfinalc
    generalize (size - 1) / chunkSize = final
    rintro ⟨hlow, hhigh, -⟩ hfinalc
    have hkey := chunkKey_inj hj hino hc hfinalc
    have hafter : (chunkKey ino final < chunkKey j c ∧ chunkKey j c ≤ (chunkKeys ino).2) ↔
        j = ino ∧ final < c := chunkKey_after_iff hino hj hc hfinalc
    rw [findChunk_cutChunk, findChunk_deleteChunksAfter]
    by_cases h : j = ino
    · subst h
      rw [if_pos rfl]
      rcases Nat.lt_trichotomy c final with hlt | rfl | hgt
      · -- a chunk before the last one stays whole
        have hbelow : c * chunkSize + chunkSize < size :=
          Nat.lt_of_le_of_lt ((Nat.succ_mul c chunkSize).symm.trans_le
            (Nat.mul_le_mul_right chunkSize hlt)) hlow
        rw [if_neg (fun he => Nat.ne_of_lt hlt (hkey.mp he).2),
          if_neg (fun hin => Nat.lt_asymm hlt (hafter.mp hin).2), if_pos (by omega)]
        rcases hfind : db.findChunk (chunkKey j c) with _ | bytes
        · rfl
        · have hlen := (ho.of_findChunk hk hj hc hfind).2.1
          rw [Option.map_some, List.take_of_length_le (by omega)]
      · rw [if_pos rfl, if_neg (fun hin => Nat.lt_irrefl _ (hafter.mp hin).2), if_pos hlow]
      · have hbeyond : ¬c * chunkSize < size := by
          simp only [chunkSize] at *
          omega
        rw [if_neg (fun he => Nat.ne_of_gt hgt (hkey.mp he).2), if_pos (hafter.mpr ⟨rfl, hgt⟩),
          if_neg hbeyond]
    · rw [if_neg (fun he => h (hkey.mp he).1), if_neg (fun hin => h (hafter.mp hin).1), if_neg h]

theorem chunk_cutAt (ho : db.Owned) (hk : db.Keys) (hino : ino ≤ maxIno) (hmax : size ≤ maxFileSize)
    (hj : j ≤ maxIno) (hc : c < maxChunks) :
    (db.cutAt ino size).chunk j c =
      if j = ino then (db.chunk j c).take (size - c * chunkSize) else db.chunk j c := by
  rw [chunk, findChunk_cutAt ho hk hino hmax hj hc, chunk]
  split
  · split
    · rcases db.findChunk (chunkKey j c) with _ | bytes
      · rw [Option.map_none, Option.getD_none, List.take_nil]
      · rw [Option.map_some, Option.getD_some, Option.getD_some]
    · next hbeyond => rw [Nat.sub_eq_zero_of_le (Nat.le_of_not_lt hbeyond), List.take_zero]; rfl
  · rfl

private theorem mem_cutAt {row : ChunkRow} (h : row ∈ (db.cutAt ino size).fileChunks) :
    ∃ row' ∈ db.fileChunks, row'.id = row.id := by
  unfold cutAt at h
  split at h
  · exact ⟨row, (List.mem_filter.mp h).1, rfl⟩
  · obtain ⟨r, hr, rfl⟩ := List.mem_map.mp h
    refine ⟨r, (List.mem_filter.mp hr).1, ?_⟩
    split <;> rfl

theorem Owned.cutAt (ho : db.Owned) (hk : db.Keys) (hkind : db.kindOf ino = some .regularFile)
    (hmax : size ≤ maxFileSize) : ((db.cutAt ino size).setSize ino size now).Owned := by
  have hino : ino ≤ maxIno := (hk.range (by simp [hkind])).2
  have hkinds : ∀ i, (db.cutAt ino size).kindOf i = db.kindOf i := fun i => by
    simp only [kindOf, findInode, (cutAt_rows db ino size).1]
  have hsizes : ∀ i, ((db.cutAt ino size).setSize ino size now).storedSize i =
      if i = ino then size else db.storedSize i := fun i => by
    rw [storedSize_setSize now (by simp [hkinds, hkind])]
    simp only [storedSize, findInode, (cutAt_rows db ino size).1]
  refine Owned.of_chunks (hk.cutAt.setSize size now) (fun row hrow => ?_)
    (fun i d bytes hi hd hfind => ?_) (fun i hi => ?_)
  · obtain ⟨row', hrow', hid⟩ := mem_cutAt hrow
    exact hid ▸ ho.keys hk row' hrow'
  · change (db.cutAt ino size).findChunk _ = _ at hfind
    rw [findChunk_cutAt ho hk hino hmax hi hd] at hfind
    rw [kindOf_setSize, hkinds, hsizes]
    split at hfind
    · next heq =>
      split at hfind
      · next hbelow =>
        obtain ⟨old, hold, rfl⟩ := Option.map_eq_some_iff.mp hfind
        obtain ⟨hik, hlen, -⟩ := ho.of_findChunk hk hi hd hold
        rw [if_pos heq, List.length_take]
        refine ⟨hik, (Nat.min_le_right _ _).trans hlen, ?_⟩
        exact (Nat.add_le_add_left (Nat.min_le_left _ _) _).trans_eq
          (Nat.add_sub_cancel' (Nat.le_of_lt hbelow))
      · cases hfind
    · next hne =>
      rw [if_neg hne]
      exact ho.of_findChunk hk hi hd hfind
  · rw [kindOf_setSize, hkinds] at hi
    rw [hsizes]
    split
    · exact hmax
    · exact ho.sizes i hi

end Truncate

section Read

/-- The chunk rows of `ino` from chunk `first` to chunk `last`, as `read_into` selects them. -/
def chunkRows (db : Db) (ino first last : Nat) : List ChunkRow :=
  (db.fileChunks.filter fun r => chunkKey ino first ≤ r.id ∧ r.id ≤ chunkKey ino last).insertionSort
    fun a b => a.id ≤ b.id

variable {first last : Nat}

theorem mem_chunkRows {row : ChunkRow} : row ∈ db.chunkRows ino first last ↔
    row ∈ db.fileChunks ∧ chunkKey ino first ≤ row.id ∧ row.id ≤ chunkKey ino last := by
  rw [chunkRows, (List.perm_insertionSort (fun a b : ChunkRow => a.id ≤ b.id) _).mem_iff,
    List.mem_filter, decide_eq_true_eq]

private theorem chunkRows_key (hino : ino ≤ maxIno) (hfirst : first < maxChunks)
    (hlast : last < maxChunks) {row : ChunkRow}
    (h : row ∈ db.chunkRows ino first last) :
    row.id = chunkKey ino (chunkIndexOf row.id) ∧ first ≤ chunkIndexOf row.id ∧
      chunkIndexOf row.id ≤ last := by
  obtain ⟨-, hrange⟩ := mem_chunkRows.mp h
  obtain ⟨d, hd, hid⟩ := chunkKey_of_between hino hfirst hlast hrange.1 hrange.2
  rw [hid] at hrange ⊢
  obtain ⟨-, hlow, hhigh⟩ := (chunkKey_between_iff hino hino hd hfirst hlast).mp hrange
  rw [chunkIndexOf_chunkKey hino hd]
  exact ⟨rfl, hlow, hhigh⟩

private theorem chunkRows_nodup (hk : db.Keys) (hino : ino ≤ maxIno)
    (hfirst : first < maxChunks) (hlast : last < maxChunks) :
    ((db.chunkRows ino first last).map fun r => chunkIndexOf r.id).Nodup := by
  have hperm := List.perm_insertionSort (fun a b : ChunkRow => a.id ≤ b.id)
    (db.fileChunks.filter fun r => chunkKey ino first ≤ r.id ∧ r.id ≤ chunkKey ino last)
  have hids : ((db.chunkRows ino first last).map ChunkRow.id).Nodup :=
    (hperm.map ChunkRow.id).nodup_iff.mpr (Keyed.nodup_filter hk.chunks)
  have hsplit : (db.chunkRows ino first last).map (fun r => chunkIndexOf r.id) =
      ((db.chunkRows ino first last).map ChunkRow.id).map chunkIndexOf := by
    rw [List.map_map]
    rfl
  rw [hsplit]
  refine hids.map_on fun a ha b hb heq => ?_
  obtain ⟨r, hr, rfl⟩ := List.mem_map.mp ha
  obtain ⟨q, hq, rfl⟩ := List.mem_map.mp hb
  rw [(chunkRows_key hino hfirst hlast hr).1, (chunkRows_key hino hfirst hlast hq).1,
    heq]

/-- A read gives the bytes of the stored chunks, and zeros where there are none. No chunk lies past
the largest file. -/
theorem readInto_eq (hk : db.Keys) (hino : ino ≤ maxIno)
    {offset n : Nat} (hn : 0 < n) (hend : offset + n ≤ 2 ^ 63) :
    db.readInto ino offset (zeros n) = tabulate n fun p =>
      if (offset + p) / chunkSize < maxChunks then
        byteAt (db.chunk ino ((offset + p) / chunkSize)) ((offset + p) % chunkSize)
      else 0 := by
  have hnew : ChunkSpan.new offset (zeros n : Bytes).length =
      some (ChunkSpan.ofRange offset n) := by
    rw [length_zeros]
    exact ChunkSpan.new_eq hn (by simp only [u64Size]; omega)
  have hbelow : ∀ p, offset / chunkSize ≤ (offset + p) / chunkSize :=
    fun p => Nat.div_le_div_right (Nat.le_add_right offset p)
  by_cases hfirst : offset / chunkSize < maxChunks
  · have hlast : min ((offset + n - 1) / chunkSize) (maxChunks - 1) < maxChunks :=
      (Nat.min_le_right _ _).trans_lt (by decide)
    have hread : db.readInto ino offset (zeros n) =
        (db.chunkRows ino (offset / chunkSize)
          (min ((offset + n - 1) / chunkSize) (maxChunks - 1))).foldl (fun out r =>
            (ChunkSpan.ofRange offset n).copyOut (chunkIndexOf r.id) r.data out) (zeros n) := by
      unfold readInto
      rw [hnew]
      dsimp only
      rw [if_neg (show ¬(ChunkSpan.ofRange offset n).first ≥ maxChunks from Nat.not_le.mpr hfirst)]
      rfl
    have hfold := ChunkSpan.foldl_copyOut (fun r : ChunkRow => chunkIndexOf r.id) ChunkRow.data
      (db.chunkRows ino (offset / chunkSize) (min ((offset + n - 1) / chunkSize) (maxChunks - 1)))
      (zeros n) (show offset + (zeros n : Bytes).length ≤ 2 ^ 63 by rwa [length_zeros])
      (by rwa [length_zeros])
      (fun r hr => by
        obtain ⟨-, hlow, hhigh⟩ := chunkRows_key hino hfirst hlast hr
        rw [length_zeros, ChunkSpan.mem_chunks hn]
        simp only [chunkSize] at *
        omega)
      (chunkRows_nodup hk hino hfirst hlast)
    rw [length_zeros] at hfold
    obtain ⟨hlen, hhit, hmiss⟩ := hfold
    rw [hread]
    refine ext_byteAt (by rw [hlen, length_tabulate]) fun p hp => ?_
    rw [hlen] at hp
    rw [byteAt_tabulate, if_pos hp]
    split
    · next hp' =>
      rcases hfind : db.findChunk (chunkKey ino ((offset + p) / chunkSize)) with _ | bytes
      · rw [hmiss p hp, byteAt_zeros, chunk, hfind]
        · rfl
        · intro r hr heq
          have hid := (chunkRows_key hino hfirst hlast hr).1
          rw [heq] at hid
          have hsome : db.findChunk r.id = some r.data :=
            (findChunk_eq_some hk).mpr (mem_chunkRows.mp hr).1
          rw [hid, hfind] at hsome
          cases hsome
      · have hmem : ⟨chunkKey ino ((offset + p) / chunkSize), bytes⟩ ∈
            db.chunkRows ino (offset / chunkSize)
              (min ((offset + n - 1) / chunkSize) (maxChunks - 1)) := by
          refine mem_chunkRows.mpr ⟨(findChunk_eq_some hk).mp hfind,
            (chunkKey_between_iff hino hino hp' hfirst hlast).mpr ⟨rfl, hbelow p, ?_⟩⟩
          exact Nat.le_min.mpr ⟨Nat.div_le_div_right (by omega), Nat.le_sub_one_of_lt hp'⟩
        rw [hhit p hp _ hmem (chunkIndexOf_chunkKey hino hp'), chunk, hfind, Option.getD_some]
        split
        · rfl
        · next hshort => rw [byteAt_zeros, byteAt_of_le (Nat.le_of_not_lt hshort)]
    · next hp' =>
      rw [hmiss p hp, byteAt_zeros]
      intro r hr heq
      obtain ⟨-, -, hhigh⟩ := chunkRows_key hino hfirst hlast hr
      exact hp' (heq ▸ hhigh.trans_lt hlast)
  · have hread : db.readInto ino offset (zeros n) = zeros n := by
      unfold readInto
      rw [hnew]
      exact if_pos (Nat.le_of_not_lt hfirst)
    rw [hread]
    refine ext_byteAt (by rw [length_zeros, length_tabulate]) fun p hp => ?_
    rw [length_zeros] at hp
    rw [byteAt_zeros, byteAt_tabulate, if_pos hp,
      if_neg fun h => hfirst ((hbelow p).trans_lt h)]

theorem readInto_spec (hk : db.Keys) (hino : ino ≤ maxIno) {offset n : Nat}
    (hn : 0 < n) (hend : offset + n ≤ maxFileSize) :
    db.readInto ino offset (zeros n) = tabulate n fun p =>
      byteAt (db.chunk ino ((offset + p) / chunkSize)) ((offset + p) % chunkSize) := by
  simp only [maxFileSize] at hend
  rw [readInto_eq hk hino hn (by omega)]
  refine ext_byteAt (by rw [length_tabulate, length_tabulate]) fun p hp => ?_
  rw [length_tabulate] at hp
  have hindex : (offset + p) / chunkSize < maxChunks := by
    simp only [chunkSize, maxChunks]
    omega
  rw [byteAt_tabulate, byteAt_tabulate, if_pos hp, if_pos hp, if_pos hindex]

theorem readFile_of_regular (hk : db.Keys) (hkind : db.kindOf ino = some .regularFile)
    (offset size : Nat) :
    db.readFile ino offset size =
      if offset ≥ db.storedSize ino ∨ size = 0 then .ok []
      else .ok (db.readInto ino offset (zeros (min size (db.storedSize ino - offset)))) := by
  unfold readFile
  rw [hk.inodeHead_of_kind hkind]
  rfl

theorem readFile_eq (ho : db.Owned) (hk : db.Keys) (hkind : db.kindOf ino = some .regularFile)
    (offset size : Nat) : db.readFile ino offset size =
      .ok (slice offset size (db.content ino)) := by
  have hmax := ho.sizes ino hkind
  have hlen : (db.content ino).length = db.storedSize ino := length_tabulate _ _
  rw [readFile_of_regular hk hkind]
  split
  · next hempty =>
    have hnil : slice offset size (db.content ino) = [] := by
      rw [← List.length_eq_zero_iff, length_slice, hlen]
      omega
    rw [hnil]
  · next hne =>
    rw [not_or] at hne
    rw [readInto_spec hk (hk.range (by simp [hkind])).2 (by omega) (by omega)]
    congr 1
    refine ext_byteAt (by rw [length_tabulate, length_slice, hlen]) fun p hp => ?_
    rw [length_tabulate] at hp
    rw [byteAt_tabulate, if_pos hp, byteAt_slice, if_pos (by omega), content, byteAt_tabulate,
      if_pos (by omega)]

end Read

end Db

end VibeDbfs
