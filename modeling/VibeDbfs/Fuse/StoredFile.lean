import VibeDbfs.Fuse.File

/-!
The stored part of each file, and what the methods of the store do to it.
-/

set_option autoImplicit false
set_option relaxedAutoImplicit false

namespace VibeDbfs

open Lib Lib.Bytes

def StoredFile.absent : StoredFile := ⟨none, 0, 0, fun _ => []⟩

namespace Db

/-- The stored part of the file `ino`. -/
def file (db : Db) (ino : Nat) : StoredFile where
  kind := db.kindOf ino
  nlink := db.nlinkOf ino
  size := db.storedSize ino
  chunk c := if db.kindOf ino = some .regularFile ∧ c < maxChunks then db.chunk ino c else []

variable {db db' : Db} {ino j size : Nat} {now : Timestamp} {chunks : List (Nat × Bytes)}

theorem Keys.le_maxIno (hk : db.Keys) {k : FileKind} (hkind : db.kindOf ino = some k) :
    ino ≤ maxIno :=
  (hk.range (by rw [hkind]; rfl : (db.kindOf ino).isSome)).2

theorem Sound.file_ok (hs : db.Sound) (ino : Nat) : (db.file ino).Ok := by
  refine ⟨fun c => ?_, hs.owned.sizes ino⟩
  change (if db.kindOf ino = some .regularFile ∧ c < maxChunks then db.chunk ino c else []).length ≤
    chunkSize ∧ ((if db.kindOf ino = some .regularFile ∧ c <
      maxChunks then db.chunk ino c else []) ≠
      [] → c * chunkSize + (if db.kindOf ino = some .regularFile ∧ c < maxChunks then db.chunk ino c
        else []).length ≤ db.storedSize ino)
  split
  · next h =>
    have hino := hs.keys.le_maxIno h.1
    exact ⟨hs.owned.chunk_length hs.keys hino h.2, hs.owned.chunk_end hs.keys hino h.2⟩
  · exact ⟨Nat.zero_le _, fun hne => (hne rfl).elim⟩

theorem chunk_file {c : Nat} (hkind : db.kindOf ino = some .regularFile) (hc : c < maxChunks) :
    (db.file ino).chunk c = db.chunk ino c :=
  if_pos ⟨hkind, hc⟩

theorem file_of_none (h : db.kindOf ino = none) : db.file ino = .absent := by
  have hfind : db.findInode ino = none := by simpa [kindOf] using h
  simp [file, StoredFile.absent, nlinkOf_of_none, storedSize, hfind, h]

theorem Sound.content_eq (hs : db.Sound) (hkind : db.kindOf ino = some .regularFile) :
    db.content ino = glue chunkSize (db.file ino).size (db.file ino).chunk := by
  refine tabulate_congr fun p hp => ?_
  have hmax := hs.owned.sizes ino hkind
  rw [chunk_file hkind]
  simp only [chunkSize, maxChunks, maxFileSize] at *
  omega

theorem file_congr (hkind : db'.kindOf j = db.kindOf j) (hnlink : db'.nlinkOf j = db.nlinkOf j)
    (hsize : db'.storedSize j = db.storedSize j) (hchunks : db'.fileChunks = db.fileChunks) :
    db'.file j = db.file j := by
  simp only [file, hkind, hnlink, hsize, chunk, findChunk, hchunks]

theorem file_upsertAll (hs : db.Sound) (hfits : db.Fits ino size chunks) (j : Nat) :
    ((db.upsertAll ino chunks).setSize ino size now).file j =
      if j = ino then { db.file ino with
        size := size, chunk := fun c => (replacement chunks c).getD ((db.file ino).chunk c) }
      else db.file j := by
  have hkind : ((db.upsertAll ino chunks).setSize ino size now).kindOf j = db.kindOf j := by
    rw [kindOf_setSize, kindOf_upsertAll]
  have hnlink : ((db.upsertAll ino chunks).setSize ino size now).nlinkOf j = db.nlinkOf j := by
    rw [nlinkOf_setSize, nlinkOf_upsertAll]
  have hsize : ((db.upsertAll ino chunks).setSize ino size now).storedSize j =
      if j = ino then size else db.storedSize j := by
    rw [storedSize_setSize now (by simp [kindOf_upsertAll, hfits.kind]), storedSize_upsertAll]
  have hchunk : ∀ c, (((db.upsertAll ino chunks).setSize ino size now).file j).chunk c =
      if j = ino then (replacement chunks c).getD
        ((db.file ino).chunk c) else (db.file j).chunk c := by
    intro c
    change (if _ ∧ _ then _ else _) = _
    rw [hkind]
    by_cases hin : db.kindOf j = some .regularFile ∧ c < maxChunks
    · rw [if_pos hin, chunk_replaceChunks hs.keys hfits (hs.keys.le_maxIno hin.1) hin.2]
      split
      · next heq => rw [heq, chunk_file (heq ▸ hin.1) hin.2]
      · rw [chunk_file hin.1 hin.2]
    · rw [if_neg hin]
      split
      · next heq =>
        -- no dirty chunk lies beyond the last chunk index
        have hc : ¬c < maxChunks := fun hc => hin ⟨heq ▸ hfits.kind, hc⟩
        have hnone : replacement chunks c = none := by
          rw [replacement, Option.map_eq_none_iff]
          exact Keyed.find_eq_none_iff.mpr fun e he heq => hc (heq ▸ hfits.index e he)
        rw [hnone]
        exact (if_neg fun h => hc h.2).symm
      · exact (if_neg hin).symm
  split
  · next heq =>
    subst heq
    simp only [if_true] at hsize hchunk
    exact (StoredFile.mk.injEq ..).mpr ⟨hkind, hnlink, hsize, funext hchunk⟩
  · next hne =>
    simp only [if_neg hne] at hsize hchunk
    exact (StoredFile.mk.injEq ..).mpr ⟨hkind, hnlink, hsize, funext hchunk⟩

theorem file_cutAt (hs : db.Sound) (hkind : db.kindOf ino = some .regularFile)
    (hmax : size ≤ maxFileSize) (j : Nat) :
    ((db.cutAt ino size).setSize ino size now).file j =
      if j = ino then (db.file ino).cut size else db.file j := by
  have hrows := cutAt_rows db ino size
  have hkinds : ∀ i, (db.cutAt ino size).kindOf i = db.kindOf i := fun i => by
    simp only [kindOf, findInode, hrows.1]
  have hkind' : ((db.cutAt ino size).setSize ino size now).kindOf j = db.kindOf j := by
    rw [kindOf_setSize, hkinds]
  have hnlink : ((db.cutAt ino size).setSize ino size now).nlinkOf j = db.nlinkOf j := by
    rw [nlinkOf_setSize]
    simp only [nlinkOf, findInode, hrows.1]
  have hsize : ((db.cutAt ino size).setSize ino size now).storedSize j =
      if j = ino then size else db.storedSize j := by
    rw [storedSize_setSize now (by rw [hkinds, hkind]; rfl)]
    simp only [storedSize, findInode, hrows.1]
  have hchunk : ∀ c, (((db.cutAt ino size).setSize ino size now).file j).chunk c =
      if j = ino then ((db.file ino).cut size).chunk c else (db.file j).chunk c := by
    intro c
    change (if _ ∧ _ then _ else _) = if j = ino then
      ((db.file ino).chunk c).take (size - c * chunkSize) else _
    rw [hkind']
    by_cases hin : db.kindOf j = some .regularFile ∧ c < maxChunks
    · rw [if_pos hin]
      refine (chunk_cutAt hs.owned hs.keys (hs.keys.le_maxIno hkind) hmax
        (hs.keys.le_maxIno hin.1) hin.2).trans ?_
      split
      · next heq => rw [heq, chunk_file hkind hin.2]
      · rw [chunk_file hin.1 hin.2]
    · rw [if_neg hin]
      split
      · next heq => rw [show (db.file ino).chunk c = [] from if_neg (heq ▸ hin), List.take_nil]
      · exact (if_neg hin).symm
  split
  · next heq =>
    subst heq
    simp only [if_true] at hsize hchunk
    exact (StoredFile.mk.injEq ..).mpr ⟨hkind', hnlink, hsize, funext hchunk⟩
  · next hne =>
    simp only [if_neg hne] at hsize hchunk
    exact (StoredFile.mk.injEq ..).mpr ⟨hkind', hnlink, hsize, funext hchunk⟩

theorem file_deleteInodeRows (hk : db.Keys) (hino : ino ≤ maxIno) (j : Nat) :
    (db.deleteInodeRows ino).file j = if j = ino then .absent else db.file j := by
  have hkind : (db.deleteInodeRows ino).kindOf j = if j = ino then none else db.kindOf j :=
    kindOf_deleteInodeRows
  split
  · next heq =>
    rw [if_pos heq] at hkind
    exact file_of_none hkind
  · next hne =>
    rw [if_neg hne] at hkind
    refine (StoredFile.mk.injEq ..).mpr ⟨hkind, nlinkOf_deleteInodeRows hne,
      storedSize_deleteInodeRows hne, funext fun c => ?_⟩
    rw [hkind]
    by_cases hin : db.kindOf j = some .regularFile ∧ c < maxChunks
    · rw [if_pos hin, if_pos hin, chunk_deleteInodeRows hino (hk.le_maxIno hin.1) hin.2, if_neg hne]
    · rw [if_neg hin, if_neg hin]

private theorem file_sweep {inos : List Nat} (hk : db.Keys)
    (hinos : ∀ i ∈ inos, i ≤ maxIno) (j : Nat) :
    (inos.foldl deleteInodeRows db).file j = if j ∈ inos then .absent else db.file j := by
  induction inos generalizing db with
  | nil => exact (if_neg List.not_mem_nil).symm
  | cons i inos ih =>
    refine (ih (hk.deleteInodeRows i) fun k hk' => hinos k (List.mem_cons_of_mem _ hk')).trans ?_
    rw [file_deleteInodeRows hk (hinos i List.mem_cons_self)]
    by_cases hi : j = i
    · rw [if_pos hi, ite_self, if_pos (hi ▸ List.mem_cons_self)]
    · rw [if_neg hi]
      exact if_congr (by rw [List.mem_cons, or_iff_right hi]) rfl rfl

theorem Sound.file_initialize (hs : db.Sound) (mountUid mountGid : UInt32) (j : Nat) :
    (db.initializeTables mountUid mountGid now).file j =
      if db.nlinkOf j = 0 then .absent else db.file j := by
  have hclaim : (db.claimRoot mountUid mountGid now).file j = db.file j := by
    have hnames : (db.claimRoot mountUid mountGid now).names = db.names :=
      names_claimRoot mountUid mountGid now
    exact file_congr (congrFun (congrArg Names.kind hnames) j)
      (congrFun (congrArg Names.nlink hnames) j) (storedSize_claimRoot mountUid mountGid now) rfl
  have horphans := fun i => mem_orphans_claimRoot (j := i) mountUid mountGid now hs.toLinked
  rw [initialize_eq mountUid mountGid now hs.toLinked,
    file_sweep (keys_claimRoot mountUid mountGid now hs.keys) fun i hi =>
      (hs.keys.range ((horphans i).mp hi).1).2, hclaim]
  by_cases hnlink : db.nlinkOf j = 0
  · rw [if_pos hnlink]
    split
    · rfl
    · next hout =>
      refine file_of_none (Option.not_isSome_iff_eq_none.mp fun hsome => hout ?_)
      exact (horphans j).mpr ⟨hsome, hnlink⟩
  · rw [if_neg hnlink, if_neg fun hin => hnlink ((horphans j).mp hin).2]

end Db

end VibeDbfs
