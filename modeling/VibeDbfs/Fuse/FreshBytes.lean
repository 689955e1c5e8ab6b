import VibeDbfs.Fuse.Contents
import VibeDbfs.Storage.ByteArray

/-!
No old bytes. Every chunk belongs to a file and lies below its end, and whatever makes a file
longer, or gives the number of a deleted file to a new one, shows zeros behind the old end.
-/

set_option autoImplicit false
set_option relaxedAutoImplicit false

namespace VibeDbfs

open Lib Lib.Bytes Shared

/-- Behind the end of `old` the content `new` has zeros, but for the positions `own`. -/
def ZerosBehind (own : Nat → Prop) (old new : Bytes) : Prop :=
  ∀ p, old.length ≤ p → ¬own p → byteAt new p = 0

/-- The positions of `ino` that a method of the store fills with data. -/
def StoreCall.fills (ino p : Nat) : StoreCall → Prop
  | .writeFileBatch i writes => i = ino ∧ ∃ w ∈ writes, w.1 ≤ p ∧ p < w.1 + w.2.length
  | _ => False

/-- The positions of `ino` that a call fills with data. -/
def Dbfs.fills (s : Shared) (c : Call) (ino p : Nat) : Prop :=
  ∃ offset data, Dbfs.writeOf s c = some (ino, offset, data) ∧ offset ≤ p ∧ p < offset + data.length

section Bytes

variable {own : Nat → Prop} {old new : Bytes} {offset size c p : Nat} {data : Bytes}

private theorem ZerosBehind.of_le (h : new.length ≤ old.length) : ZerosBehind own old new :=
  fun _ hp _ => byteAt_of_le (h.trans hp)

private theorem ZerosBehind.of_same (h : ∀ p, ¬own p → byteAt new p = byteAt old p) :
    ZerosBehind own old new :=
  fun p hp hown => (h p hown).trans (byteAt_of_le hp)

private theorem zerosBehind_resize : ZerosBehind own old (resize size old) := by
  intro p hp _
  rw [byteAt_resize, byteAt_of_le hp, ite_self]

private theorem byteAt_written (h : ¬(offset ≤ p ∧ p < offset + data.length)) :
    byteAt (written offset data old) p = byteAt old p := by
  unfold written
  split
  · rfl
  · rw [byteAt_splice, if_neg h]

private theorem byteAt_put (hfit : offset + data.length < u64Size)
    (hc : c ∈ (ChunkSpan.ofRange offset data.length).chunks)
    (h : ¬(offset ≤ p ∧ p < offset + data.length)) :
    byteAt ((ChunkSpan.ofRange offset data.length).put data old c) p = byteAt old p := by
  have hlast : c * chunkSize < u64Size := by
    rw [ChunkSpan.chunks, List.mem_range'_1] at hc
    have hle : c ≤ (offset + data.length - 1) / chunkSize := by
      change offset / chunkSize ≤ c ∧ c < offset / chunkSize +
        ((offset + data.length - 1) / chunkSize + 1 - offset / chunkSize) at hc
      omega
    have hdiv := Nat.div_mul_le_self (offset + data.length - 1) chunkSize
    have hmul := Nat.mul_le_mul_right chunkSize hle
    omega
  have hmul : u64Mul c chunkSize = c * chunkSize := Nat.mod_eq_of_lt hlast
  have hstart : max offset (c * chunkSize) < u64Size := by omega
  have hplace : c * chunkSize + ((ChunkSpan.ofRange offset data.length).piece c).chunk.start =
      max offset (c * chunkSize) := by
    change c * chunkSize + u64Sub (max offset (u64Mul c chunkSize)) (u64Mul c chunkSize) = _
    rw [hmul, u64Sub_of_le (Nat.le_max_right ..) hstart]
    omega
  have hinput : ((ChunkSpan.ofRange offset data.length).input data c).length ≤
      data.length - (max offset (c * chunkSize) - offset) := by
    have hbuf : ((ChunkSpan.ofRange offset data.length).piece c).buf.start =
        max offset (c * chunkSize) - offset := by
      change u64Sub (max offset (u64Mul c chunkSize)) offset = _
      rw [hmul, u64Sub_of_le (Nat.le_max_left ..) hstart]
    rw [ChunkSpan.input, length_slice, hbuf]
    exact Nat.min_le_right ..
  rw [ChunkSpan.put, byteAt_splice, hplace, if_neg]
  omega

private theorem byteAt_partlyWritten (hfit : offset + data.length < u64Size)
    (hpartly : PartlyWritten offset data old new) (h : ¬(offset ≤ p ∧ p < offset + data.length)) :
    byteAt new p = byteAt old p := by
  obtain ⟨k, rfl⟩ := hpartly
  have hfold : ∀ pieces : List Nat, ∀ bytes : Bytes,
      (∀ c ∈ pieces, c ∈ (ChunkSpan.ofRange offset data.length).chunks) →
      byteAt (pieces.foldl ((ChunkSpan.ofRange offset data.length).put data) bytes) p =
        byteAt bytes p := by
    intro pieces
    induction pieces with
    | nil => exact fun _ _ => rfl
    | cons c pieces ih =>
      intro bytes hin
      rw [List.foldl_cons, ih _ fun c' hc' => hin c' (List.mem_cons_of_mem _ hc')]
      exact byteAt_put hfit (hin c List.mem_cons_self) h
  exact hfold _ old fun c hc => List.mem_of_mem_take hc

private theorem byteAt_foldl_writeArray {writes : List (Nat × Bytes)}
    (h : ¬∃ w ∈ writes, w.1 ≤ p ∧ p < w.1 + w.2.length) :
    byteAt (writes.foldl DataCall.writeArray old) p = byteAt old p := by
  induction writes generalizing old with
  | nil => rfl
  | cons w writes ih =>
    rw [List.foldl_cons, ih fun ⟨w', hw', hin⟩ => h ⟨w', List.mem_cons_of_mem _ hw', hin⟩]
    rw [Db.byteAt_writeArray, if_neg fun hin => h ⟨w, List.mem_cons_self, hin⟩]

end Bytes

namespace Db

variable {db db' : Db} {ino size : Nat} {now : Timestamp}

private theorem length_content : (db.content ino).length = db.storedSize ino := length_tabulate ..

private theorem Sound.byteAt_content (hs : db.Sound)
    (hkind : db.kindOf ino = some .regularFile) (p : Nat) :
    byteAt (db.content ino) p = db.byte ino p := by
  have hmax := hs.owned.sizes ino hkind
  have hino := hs.keys.le_maxIno hkind
  have hwithin : db.ChunksWithin ino := fun c hc bytes hfind =>
    (hs.owned.of_findChunk hs.keys hino hc hfind).2.2
  rw [content, byteAt_tabulate]
  split
  · rw [byte, if_pos]
    simp only [chunkSize, maxChunks, maxFileSize] at *
    omega
  · next hp => exact (hwithin.zeroFrom p (Nat.le_of_not_lt hp)).symm

private theorem Sound.zerosBehind_writes (hs : db.Sound) {i written : Nat}
    {writes : List (Nat × Bytes)} (h : db.writeFileBatchAt i writes now = .ok (written, db'))
    (hkind : db'.kindOf ino = some .regularFile) :
    ZerosBehind ((StoreCall.writeFileBatch i writes).fills ino) (db.content ino)
      (db'.content ino) := by
  have hs' := hs.writeFileBatchAt h
  rcases writeFileBatchAt_cases hs.keys hs.owned h with rfl | ⟨hregular, mid, size, hbatch, hdb⟩
  · exact .of_le (Nat.le_refl _)
  · have hkind₀ : db.kindOf ino = some .regularFile := by
      rw [hdb, kindOf_setSize, show mid.kindOf ino = db.kindOf ino from
        congrFun (congrArg Names.kind hbatch.names) ino] at hkind
      exact hkind
    have hi := hs.keys.le_maxIno hregular
    have hino := hs.keys.le_maxIno hkind₀
    rw [DataCall.writeFileBatchAt_of_regular hs.keys hregular] at h
    split at h
    · cases h
      exact .of_le (Nat.le_refl _)
    · split at h
      · cases h
      · next hends =>
        have hstart : Db.UnderWay db i (db, db.storedSize i) (db.content i) :=
          ⟨hs.keys, rfl, length_content.symm, fun p => (hs.byteAt_content hregular p).symm,
            fun _ _ _ _ => rfl⟩
        have hdone := hstart.foldl hi fun w hw => Nat.le_of_not_lt fun hlt => hends ⟨w, hw, hlt⟩
        cases h
        refine .of_same fun p hout => ?_
        rw [hs'.byteAt_content hkind, hs.byteAt_content hkind₀]
        by_cases heq : ino = i
        · subst heq
          refine (hdone.bytes p).trans ((byteAt_foldl_writeArray fun hin => hout ⟨rfl, hin⟩).trans
            ?_)
          exact hs.byteAt_content hregular p
        · exact hdone.others ino heq hino p

private theorem Sound.content_truncateFile (hs : db.Sound)
    (h : db.truncateFile ino size now = .ok db') :
    db'.Sound ∧ db'.kindOf ino = some .regularFile ∧
      db'.content ino = resize size (db.content ino) := by
  have hs' := hs.truncateFile h
  obtain ⟨hkind, hmax, rfl⟩ := truncateFile_cases h
  have hfile : ((db.cutAt ino size).setSize ino size now).file ino = (db.file ino).cut size :=
    (file_cutAt hs hkind hmax ino).trans (if_pos rfl)
  have hkind' : ((db.cutAt ino size).setSize ino size now).kindOf ino = some .regularFile :=
    (congrArg StoredFile.kind hfile).trans hkind
  refine ⟨hs', hkind', ?_⟩
  rw [hs'.content_eq hkind', hs.content_eq hkind, hfile]
  exact (File.cut_spec (hs.file_ok ino) hmax).2

private theorem content_createNode {parent : Nat} {name : Name} {mode uid gid : UInt32}
    {inode : Inode}
    (hs : db.Sound) (h : db.createNode parent name (.file mode) uid gid now = .ok (inode, db')) :
    db'.content inode.ino = [] := by
  obtain ⟨-, hino, -, -, -, hsize⟩ := relinked_createNode hs h
  rw [content, hino, hsize]
  rfl

private theorem storedSize_of_none (h : db.kindOf ino = none) : db.storedSize ino = 0 :=
  congrArg StoredFile.size (file_of_none h)

private theorem zerosBehind_of_relinked {own : Nat → Prop} (h : Relinked db db')
    (hsome : (db.kindOf ino).isSome) (hsome' : (db'.kindOf ino).isSome) :
    ZerosBehind own (db.content ino) (db'.content ino) := by
  apply ZerosBehind.of_le
  rw [length_content, length_content]
  exact (congrArg StoredFile.size (h.file ino hsome hsome')).le

private theorem zerosBehind_of_fewer {own : Nat → Prop} (h : Relinked db db')
    (hfewer : Fewer db db') (hkind : db'.kindOf ino = some .regularFile) :
    ZerosBehind own (db.content ino) (db'.content ino) := by
  have hsome' := Option.isSome_of_eq_some hkind
  exact zerosBehind_of_relinked h (hfewer.kind ino hsome' ▸ hsome') hsome'

private theorem zerosBehind_of_size {own : Nat → Prop}
    (h : db'.storedSize ino = db.storedSize ino) :
    ZerosBehind own (db.content ino) (db'.content ino) :=
  .of_le (by rw [length_content, length_content, h])

private theorem Sound.zerosBehind_perform (hs : db.Sound) {call : StoreCall}
    (hallowed : db.Allowed (now, call))
    (h : db.perform now call = .ok db') (hkind : db'.kindOf ino = some .regularFile) :
    ZerosBehind (call.fills ino) (db.content ino) (db'.content ino) := by
  cases call with
  | createNode parent name node uid gid =>
    obtain ⟨⟨inode, db''⟩, h, ⟨⟩⟩ := except_bind_eq_ok.mp h
    obtain ⟨hrelinked, -, -, -, hkinds, hsize⟩ := relinked_createNode hs h
    have hnew := hkinds ino
    rw [hkind] at hnew
    split at hnew
    · next heq =>
      -- the new file is empty
      apply ZerosBehind.of_le
      rw [length_content, heq, hsize]
      cases node with
      | file mode => exact Nat.zero_le _
      | directory mode => cases hnew
      | symlink target => cases hnew
    · exact zerosBehind_of_relinked hrelinked (hnew ▸ rfl) (hkind ▸ rfl)
  | link i newParent newName =>
    obtain ⟨⟨inode, db''⟩, h, ⟨⟩⟩ := except_bind_eq_ok.mp h
    exact zerosBehind_of_size ((sameData_link h).size ino)
  | unlinkEntry parent name isOpen =>
    obtain ⟨target, hlookup, h⟩ := except_bind_eq_ok.mp h
    exact zerosBehind_of_fewer (relinked_unlinkEntry hs hlookup h)
      (fewer_unlinkEntry hs hlookup h) hkind
  | removeDir parent name =>
    exact zerosBehind_of_fewer (relinked_removeDir hs h) (fewer_removeDir hs h) hkind
  | renameEntry parent name newParent newName noreplace isOpen =>
    obtain ⟨⟨replaced, db''⟩, h, ⟨⟩⟩ := except_bind_eq_ok.mp h
    exact zerosBehind_of_fewer (relinked_renameEntry hs h) (fewer_renameEntry hs h) hkind
  | deleteInode i =>
    cases h
    have hne : ino ≠ i := by
      rintro rfl
      rw [show db.deleteInodeRows ino = _ from rfl, kindOf_deleteInodeRows, if_pos rfl] at hkind
      cases hkind
    exact zerosBehind_of_size (storedSize_deleteInodeRows hne)
  | writeFileBatch i writes =>
    obtain ⟨⟨written, db''⟩, h, ⟨⟩⟩ := except_bind_eq_ok.mp h
    exact hs.zerosBehind_writes h hkind
  | truncateFile i size =>
    obtain ⟨hregular, hmax, rfl⟩ := truncateFile_cases h
    by_cases heq : ino = i
    · subst heq
      rw [(hs.content_truncateFile h).2.2]
      exact zerosBehind_resize
    · exact zerosBehind_of_size (congrArg StoredFile.size
        ((file_cutAt hs hregular hmax ino).trans (if_neg heq)))
  | updateMetadata i update =>
    exact zerosBehind_of_size ((sameData_updateMetadata h).1.size ino)
  | reopen mountUid mountGid =>
    cases h
    have hfile : (db.initializeTables mountUid mountGid now).file ino =
        if db.nlinkOf ino = 0 then .absent else db.file ino :=
      hs.file_initialize mountUid mountGid ino
    split at hfile
    · cases (congrArg StoredFile.kind hfile).symm.trans hkind
    · exact zerosBehind_of_size (congrArg StoredFile.size hfile)

private theorem Sound.zerosBehind_step (hs : db.Sound) {call : Timestamp × StoreCall}
    (hallowed : db.Allowed call) (hkind : (db.step call).kindOf ino = some .regularFile) :
    ZerosBehind (call.2.fills ino) (db.content ino) ((db.step call).content ino) := by
  unfold Db.step at hkind ⊢
  split at hkind
  · next h => exact hs.zerosBehind_perform hallowed h hkind
  · exact zerosBehind_of_size rfl

end Db

namespace Dbfs

variable {s s' : Shared} {env : Env} {busy : Nat → Prop} {c : Call} {ino : Nat}

private theorem writeOf_fits {offset : Nat} {data : Bytes} (hadm : Admissible busy s c)
    (h : writeOf s c = some (ino, offset, data)) : offset + data.length < u64Size := by
  cases c with
  | write =>
    cases h
    exact hadm
  | writeFh fh =>
    obtain ⟨i, hi, heq⟩ := Option.map_eq_some_iff.mp h
    cases heq
    exact hadm
  | getattr | lookup | mkdir | create | symlink | link | setattr | openFile | read | readFh
  | fallocate | flushFile | flushFh | syncFh | flushAll | releaseFile | unlink | rmdir | rename
  | createOpen => cases h

private theorem zerosBehind_of_changes {bytes new : Bytes} (hadm : Admissible busy s c)
    (hchanges : changes s c = some ino) (h : new = newContent c bytes ∨ Attempted c bytes new) :
    ZerosBehind (fills s c ino) bytes new := by
  have hwrite : ∀ {offset : Nat} {data : Bytes}, writeOf s c = some (ino, offset, data) →
      new = written offset data bytes ∨ PartlyWritten offset data bytes new →
      ZerosBehind (fills s c ino) bytes new := by
    intro offset data hof hnew
    apply ZerosBehind.of_same
    intro p hout
    have hrange : ¬(offset ≤ p ∧ p < offset + data.length) := fun hin => hout ⟨_, _, hof, hin⟩
    rcases hnew with rfl | hpartly
    · exact byteAt_written hrange
    · exact byteAt_partlyWritten (writeOf_fits hadm hof) hpartly hrange
  have hresized : ∀ size : Option Nat, new = bytes ∨ new = Fs.resized size bytes →
      ZerosBehind (fills s c ino) bytes new := by
    rintro size (rfl | rfl)
    · exact .of_le (Nat.le_refl _)
    · cases size with
      | none => exact .of_le (Nat.le_refl _)
      | some size => exact zerosBehind_resize
  cases c with
  | write i offset data =>
    cases hchanges
    exact hwrite rfl h
  | writeFh fh offset data =>
    exact hwrite (Option.map_eq_some_iff.mpr ⟨ino, hchanges, rfl⟩) h
  | setattr i mode uid gid size atime mtime =>
    rcases h with hnew | hold | hnew
    · exact hresized size (.inr hnew)
    · exact hresized size (.inl hold)
    · exact hresized size (.inr hnew)
  | fallocate i offset length mode =>
    rcases h with hnew | hold
    · exact hresized _ (.inr hnew)
    · exact hresized none (.inl hold)
  | getattr | lookup | mkdir | create | symlink | link | openFile | read | readFh | flushFile
  | flushFh | syncFh | flushAll | releaseFile | unlink | rmdir | rename | createOpen =>
      cases hchanges

private theorem Fills.zerosBehind {r : Except Errno Reply} (h : Fills env s c r s')
    (hadm : Admissible busy s c) (hkind : s'.db.kindOf ino = some .regularFile) :
    ZerosBehind (fills s c ino) (s.file ino).bytes (s'.file ino).bytes := by
  by_cases hchanges : changes s c = some ino
  · rcases hok : r.isOk
    · rcases h.failed hok ino hchanges with hsame | ⟨-, hattempted⟩
      · exact .of_le (congrArg List.length hsame).le
      · exact zerosBehind_of_changes hadm hchanges (.inr hattempted)
    · exact zerosBehind_of_changes hadm hchanges (.inl (h.done hok ino hchanges))
  · apply ZerosBehind.of_le
    rcases hbefore : s.db.kindOf ino with _ | k
    · rw [(h.made ino hbefore hkind).1]
      exact Nat.zero_le _
    · rw [File.length_bytes, File.length_bytes]
      exact h.ends ino hchanges (hbefore ▸ rfl) (hkind ▸ rfl)

private theorem zerosBehind_step (h : s.Inv [] busy) (hadm : Admissible busy s c)
    (hkind : (step env s c).db.kindOf ino = some .regularFile) :
    ZerosBehind (fills s c ino) (s.file ino).bytes ((step env s c).file ino).bytes := by
  have hfills : Fills env s c (reply env s c) (call env c s).2 := call_fills h hadm
  exact hfills.zerosBehind hadm hkind

private theorem slice_of_read (h : s.Core [] busy) {offset size : Nat} {data : Bytes}
    (hreply : reply env s (.read ino offset size) = .ok (.data data)) :
    data = slice offset size (s.file ino).bytes := by
  have hspec : Prog.wp (call env (.read ino offset size)) (fun r _ => r = .ok (.data data) →
      data = slice offset size (s.file ino).bytes) s := by
    refine (Prog.wp_map ..).mpr (Prog.wp_mono (Fs.read_spec h) ?_)
    rintro (e | data') s' ⟨-, hresult⟩ hok
    · cases hok
    · cases hok
      exact hresult.2.2
  exact hspec hreply

private theorem slice_of_readFh (h : s.Core [] busy) {fh offset size : Nat} {data : Bytes}
    (hfh : s.table.handleIno fh = some ino)
    (hreply : reply env s (.readFh fh offset size) = .ok (.data data)) :
    data = slice offset size (s.file ino).bytes := by
  have hspec : Prog.wp (call env (.readFh fh offset size)) (fun r _ => r = .ok (.data data) →
      data = slice offset size (s.file ino).bytes) s := by
    refine (Prog.wp_map ..).mpr (Prog.wp_mono (Fs.readFh_spec h) fun r s' hr hok => ?_)
    rw [hfh] at hr
    rcases r with e | data'
    · cases hok
    · cases hok
      exact hr.2.2.2
  exact hspec hreply

private theorem bytes_of_none (h : s.Core [] busy) (hnone : s.db.kindOf ino = none) :
    (s.file ino).bytes = [] := by
  have hclosed : s.table.file ino = none := by
    rcases ho : s.table.file ino with _ | o
    · rfl
    · cases hnone.symm.trans (h.kindOf ho)
  apply List.length_eq_zero_iff.mp
  rw [File.length_bytes, Shared.file, hclosed, File.size_none, Db.file_of_none hnone]
  rfl

end Dbfs

structure Db.HidesOld (db : Db) : Prop where
  none : ∀ ino, db.kindOf ino = none → db.content ino = []
  step : ∀ call, db.Allowed call → ∀ ino, (db.step call).kindOf ino = some .regularFile →
    ZerosBehind (call.2.fills ino) (db.content ino) ((db.step call).content ino)
  read : ∀ ino, db.kindOf ino = some .regularFile → ∀ offset size,
    db.readFile ino offset size = .ok (slice offset size (db.content ino))

/-- No call shows old bytes, with what is buffered seen over what is stored. -/
structure Dbfs.HidesOld (env : Env) (s : Shared) : Prop where
  none : ∀ ino, s.db.kindOf ino = none → (s.file ino).bytes = []
  step : ∀ c, Legal s c → ∀ ino, (Dbfs.step env s c).db.kindOf ino = some .regularFile →
    ZerosBehind (fills s c ino) (s.file ino).bytes ((Dbfs.step env s c).file ino).bytes
  read : ∀ ino offset size data, reply env s (.read ino offset size) = .ok (.data data) →
    data = slice offset size (s.file ino).bytes
  readFh : ∀ fh ino offset size data, s.table.handleIno fh = some ino →
    reply env s (.readFh fh offset size) = .ok (.data data) →
      data = slice offset size (s.file ino).bytes

namespace Db

variable {db : Db}

private theorem Sound.hidesOld (hs : db.Sound) : db.HidesOld where
  none ino hnone := by
    apply List.length_eq_zero_iff.mp
    rw [length_content, storedSize_of_none hnone]
  step _ hallowed _ := hs.zerosBehind_step hallowed
  read _ hkind := readFile_eq hs.owned hs.keys hkind

/-- In every database the program can have left each chunk row belongs to a regular file and ends
below its size. So an extended file reads as zeros behind its old end and a new one throughout,
whichever method or call extends it, and whether the call succeeds or not. -/
theorem chunks_of_reached (h : db.Reached) :
    (∀ row ∈ db.fileChunks, ∃ ino c, db.OwnedBy row ino c) ∧
    (∀ ino size now db', db.truncateFile ino size now = .ok db' → ∀ offset count,
      db'.readFile ino offset count = .ok (slice offset count (resize size (db.content ino)))) ∧
    (∀ parent name mode uid gid now inode created,
      db.createNode parent name (.file mode) uid gid now =
      .ok (inode, created) → ∀ size now db', created.truncateFile inode.ino size now = .ok db' →
        ∀ offset count, db'.readFile inode.ino offset count =
          .ok (slice offset count (zeros size))) ∧
    db.HidesOld ∧
    ∀ writeBuffer env calls, Dbfs.LegalCalls env (.withWriteBuffer db writeBuffer) calls →
      Dbfs.HidesOld env (Dbfs.run env (.withWriteBuffer db writeBuffer) calls) := by
  have hs := h.sound
  refine ⟨hs.owned.rows, fun ino size now db' htruncate offset count => ?_,
    fun parent name mode uid gid now inode created hcreate size now' db' htruncate
      offset count => ?_,
    hs.hidesOld, fun writeBuffer env calls hcalls => ?_⟩
  · obtain ⟨hs', hkind, hcontent⟩ := hs.content_truncateFile htruncate
    rw [readFile_eq hs'.owned hs'.keys hkind, hcontent]
  · obtain ⟨hs', hkind, hcontent⟩ := (hs.createNode hcreate).content_truncateFile htruncate
    rw [readFile_eq hs'.owned hs'.keys hkind, hcontent, content_createNode hs hcreate, resize,
      List.take_nil, List.nil_append]
    rfl
  · have hinv := (Dbfs.inv_of_run h writeBuffer hcalls).1
    exact {
      none := fun _ => Dbfs.bytes_of_none hinv.toCore
      step := fun _ hlegal _ => Dbfs.zerosBehind_step hinv (hlegal.admissible hinv)
      read := fun _ _ _ _ => Dbfs.slice_of_read hinv.toCore
      readFh := fun _ _ _ _ _ => Dbfs.slice_of_readFh hinv.toCore }

/-- A file is written and removed, its number goes to a new file, and that one is cut. -/
def recycledNumber : List (Timestamp × StoreCall) := [
  (⟨1, 0⟩, .createNode 1 [97] (.file 0o644) 0 0),
  (⟨2, 0⟩, .writeFileBatch 2 [(0, [1, 2, 3, 4, 5])]),
  (⟨3, 0⟩, .unlinkEntry 1 [97] false),
  (⟨4, 0⟩, .createNode 1 [98] (.file 0o644) 0 0),
  (⟨5, 0⟩, .writeFileBatch 2 [(0, [7, 8, 9])]),
  (⟨6, 0⟩, .truncateFile 2 1)]

/-- The cut file grows again, in the store and by `fallocate`. -/
theorem chunks_of_recycledNumber :
    let db := (Db.fresh 0 0 ⟨0, 0⟩).runCalls recycledNumber
    db.fileChunks = [⟨chunkKey 2 0, [7]⟩] ∧ db.content 2 = [7] ∧
      (db.step (⟨7, 0⟩, .truncateFile 2 4)).readFile 2 0 9 = .ok [7, 0, 0, 0] ∧
      ∀ p, 1 ≤ p → byteAt ((Dbfs.step Dbfs.calm (.withWriteBuffer db 65536)
        (.fallocate 2 0 9 0)).file 2).bytes p = 0 := by
  intro db
  have hallowed : (Db.fresh 0 0 ⟨0, 0⟩).AllowedCalls recycledNumber := by decide
  have hreached : db.Reached := Reached.runCalls (.fresh 0 0 ⟨0, 0⟩) hallowed
  have hcontent : db.content 2 = [7] := by decide
  obtain ⟨-, htruncate, -, -, hcalls⟩ := chunks_of_reached hreached
  have hzeros := (hcalls 65536 Dbfs.calm [] trivial).step (.fallocate 2 0 9 0) trivial 2 (by decide)
  refine ⟨by decide, hcontent, ?_, fun p hp => hzeros p ?_ ?_⟩
  · have hread := htruncate 2 4 ⟨7, 0⟩ (db.step (⟨7, 0⟩, .truncateFile 2 4)) (by rfl) 0 9
    rw [hcontent] at hread
    exact hread
  · rw [File.length_bytes]
    exact hp
  · rintro ⟨_, _, hnone, -⟩
    cases hnone

end Db

end VibeDbfs
