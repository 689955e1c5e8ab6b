import VibeDbfs.Fuse.Resizing

/-!
The calls that change nothing: reads give slices of the content, and attribute replies show its
size.
-/

set_option autoImplicit false
set_option relaxedAutoImplicit false

namespace VibeDbfs

open Lib Lib.Bytes Shared

variable {s s' : Shared} {env : Env} {held : List ArenaSlot} {busy touched : Nat → Prop}
  {ino offset size n : Nat} {slot : Slot}

/-- A step that leaves the store, the table and the history alone. -/
structure Shared.Idle (s s' : Shared) : Prop where
  db : s'.db = s.db
  table : s'.table = s.table
  moments : s'.moments = s.moments

namespace Shared

theorem Idle.refl (s : Shared) : Idle s s := ⟨rfl, rfl, rfl⟩

theorem Idle.trans {s'' : Shared} (h : Idle s s') (h' : Idle s' s'') : Idle s s'' :=
  ⟨h'.db.trans h.db, h'.table.trans h.table, h'.moments.trans h.moments⟩

theorem Idle.quiet (h : Idle s s') : Quiet s s' := Frame.of_eq h.db h.table

theorem Idle.file (h : Idle s s') (ino : Nat) : s'.file ino = s.file ino := by
  rw [Shared.file, Shared.file, h.db, h.table]

theorem Inv.of_idle (h : s.Inv held busy) (hidle : Idle s s') : s'.Inv held busy :=
  h.of_eq hidle.db hidle.table hidle.moments

private theorem byteAt_bytes (f : File) {p : Nat} (hp : p < f.size) :
    byteAt f.bytes p = byteAt (f.chunk (p / chunkSize)) (p % chunkSize) := by
  rw [File.bytes, glue, byteAt_tabulate, if_pos hp]

end Shared

namespace Fs

section Slot

private theorem overlayDirty_eq (h : s.Core held busy) (hf : s.table.inodes.find ino = some slot)
    (hkind : (s.table.fileAt slot).kind = .regularFile) (hn : 0 < n)
    (hend : offset + n ≤ (s.table.inodes.get slot).size) :
    overlayDirty s.table (s.table.inodes.get slot) offset (s.db.readInto ino offset (zeros n)) =
      slice offset n (s.file ino).bytes := by
  have hfile := OpenTable.file_of_find hf
  have ha := h.live ino _ hfile
  have hsorted := h.table.sorted slot
  have hbefore : s.file ino = ⟨s.db.file ino, some (s.table.fileAt slot)⟩ := by
    rw [Shared.file, hfile]
  have hregular : s.db.kindOf ino = some .regularFile := (h.kindOf hfile).trans (congrArg _ hkind)
  have hmax : offset + n ≤ maxFileSize := hend.trans (ha.max hkind)
  have hstored := Db.readInto_spec h.sound.keys (h.sound.keys.le_maxIno hregular) hn hmax
  have hlen : (s.db.readInto ino offset (zeros n)).length = n := by rw [hstored, length_tabulate]
  have hsize : (s.file ino).size = (s.table.inodes.get slot).size := by
    rw [hbefore]
    rfl
  have hindex : ∀ p, p < n → (offset + p) / chunkSize < maxChunks := by
    intro p hp
    simp only [chunkSize, maxChunks, maxFileSize] at *
    omega
  have hold : ∀ p, p < n → byteAt (s.db.readInto ino offset (zeros n)) p =
      byteAt ((s.db.file ino).chunk ((offset + p) / chunkSize)) ((offset + p) % chunkSize) := by
    intro p hp
    rw [hstored, byteAt_tabulate, if_pos hp, Db.chunk_file hregular (hindex p hp)]
  have hnew : ChunkSpan.new offset n = some (ChunkSpan.ofRange offset n) :=
    ChunkSpan.new_eq hn (by simp only [maxFileSize, u64Size] at *; omega)
  unfold overlayDirty
  rw [hlen, hnew]
  generalize hout : s.db.readInto ino offset (zeros n) = out at *
  subst hlen
  obtain ⟨hlen, hhit, hmiss⟩ := ChunkSpan.foldl_copyOut (fun e : Nat × ArenaSlot => e.1)
    (fun e => s.table.arena.chunk e.2)
    ((s.table.inodes.get slot).dirty.range (ChunkSpan.ofRange offset out.length).first
      (ChunkSpan.ofRange offset out.length).last) out
    (show offset + out.length ≤ 2 ^ 63 by simp only [maxFileSize] at hmax; omega) hn
    (fun e he => by
      obtain ⟨-, hlow, hhigh⟩ := (DirtyIdx.mem_range hsorted).mp he
      rw [ChunkSpan.chunks, List.mem_range'_1]
      omega)
    (hsorted.nodup.sublist (DirtyIdx.range_sublist.map Prod.fst))
  refine ext_byteAt ?_ fun p hp => ?_
  · rw [hlen, length_slice, File.length_bytes, hsize]
    omega
  · rw [hlen] at hp
    rw [byteAt_slice, if_pos hp, byteAt_bytes _ (by rw [hsize]; omega), hbefore]
    change _ = byteAt (((s.table.fileAt slot).dirty ((offset + p) / chunkSize)).getD _) _
    rcases hd : (s.table.inodes.get slot).dirty.lookup ((offset + p) / chunkSize) with _ | a
    · have hdirty : (s.table.fileAt slot).dirty ((offset + p) / chunkSize) = none := by
        change Option.map _ _ = none
        rw [hd]
        rfl
      rw [hdirty, Option.getD_none, hmiss p hp, hold p hp]
      intro e he
      exact DirtyIdx.lookup_eq_none.mp hd e ((DirtyIdx.mem_range hsorted).mp he).1
    · have hdirty : (s.table.fileAt slot).dirty ((offset + p) / chunkSize) =
          some (s.table.arena.chunk a) := by
        change Option.map _ _ = _
        rw [hd]
        rfl
      have hmem : ((offset + p) / chunkSize, a) ∈ (s.table.inodes.get slot).dirty.range
          (ChunkSpan.ofRange offset out.length).first
          (ChunkSpan.ofRange offset out.length).last := by
        refine (DirtyIdx.mem_range hsorted).mpr ⟨(DirtyIdx.lookup_eq_some hsorted).mp hd, ?_, ?_⟩
        · exact Nat.div_le_div_right (Nat.le_add_right offset p)
        · exact Nat.div_le_div_right (show offset + p ≤ offset + out.length - 1 by omega)
      rw [hdirty, Option.getD_some, hhit p hp _ hmem rfl]
      split
      · rfl
      · next hshort =>
        -- beyond a dirty chunk the stored one has nothing either
        have hcover := (ha.dirty _ _ hdirty).2.2.1
        rw [hold p hp, byteAt_of_le (hcover.trans (Nat.le_of_not_lt hshort)),
          byteAt_of_le (Nat.le_of_not_lt hshort)]

private theorem readSlot_spec (h : s.Core held busy) (hf : s.table.inodes.find ino = some slot) :
    Prog.wp (readSlot env slot offset size) (fun r s' => Idle s s' ∧
      match r with
      | .ok data => s'.failures = s.failures ∧ s.db.fileErrno ino = none ∧
          data = slice offset size (s.file ino).bytes
      | .error e => env.Failed s s' ∨ s'.failures = s.failures ∧ s.db.fileErrno ino = some e)
        s := by
  have hfile := OpenTable.file_of_find hf
  have hkind : s.db.kindOf ino = some (s.table.inodes.get slot).kind := h.kindOf hfile
  have hsize : (s.file ino).size = (s.table.inodes.get slot).size := by
    rw [Shared.file, hfile]
    rfl
  have herrno : s.db.fileErrno ino =
      (s.table.inodes.get slot).kind.regularFileError.map errnoFromDbError := by
    rw [Db.fileErrno, hkind]
  rw [readSlot, wp_table_bind]
  rcases hregular : (s.table.inodes.get slot).kind.regularFileError with _ | error
  · rw [hregular] at herrno
    dsimp only
    rw [errnoOfKind, hregular, Prog.wp_pure_bind]
    split
    · next hempty =>
      refine ⟨Idle.refl s, rfl, herrno, (List.length_eq_zero_iff.mp ?_).symm⟩
      rw [length_slice, File.length_bytes, hsize]
      omega
    · next hne =>
      rw [not_or] at hne
      rw [Prog.wp_bind_iff]
      refine wp_query (fun failure hfault => ?_) (fun error herror => by cases herror)
        fun output houtput => ?_
      · exact ⟨⟨rfl, rfl, rfl⟩, .inl ⟨Nat.lt_succ_self _, env.not_healthy hfault⟩⟩
      · obtain rfl := Except.ok.inj houtput
        refine ⟨⟨rfl, rfl, rfl⟩, rfl, herrno, ?_⟩
        rw [h.table.find_ino hf, overlayDirty_eq h hf
          (FileKind.regularFileError_eq_none.mp hregular) (by omega) (by omega)]
        refine ext_byteAt ?_ fun p hp => ?_
        · simp only [length_slice, File.length_bytes, hsize]
          omega
        · simp only [length_slice, File.length_bytes, hsize] at hp
          rw [byteAt_slice, byteAt_slice, if_pos (by omega), if_pos (by omega)]
  · rw [hregular] at herrno
    dsimp only
    rw [errnoOfKind, hregular]
    exact ⟨Idle.refl s, .inr ⟨rfl, herrno⟩⟩

end Slot

private theorem readFile_error {db : Db} {error : DbError} (hs : db.Sound)
    (h : db.readFile ino offset size = .error error) :
    db.fileErrno ino = some (errnoFromDbError error) := by
  by_cases hregular : db.kindOf ino = some .regularFile
  · rw [Db.readFile_eq hs.owned hs.keys hregular] at h
    cases h
  · rw [Db.readFile] at h
    rcases hhead : db.inodeHead ino with e | ⟨kind, size'⟩
    · rw [hhead] at h
      obtain ⟨hnone, rfl⟩ := hs.keys.inodeHead_error hhead
      obtain rfl := Except.error.inj h
      rw [Db.fileErrno, hnone]
      rfl
    · have hkind := (inodeHead_eq_ok hhead).1
      rw [hhead] at h
      rw [Db.fileErrno, hkind]
      cases kind with
      | regularFile => exact (hregular hkind).elim
      | directory =>
        obtain rfl := Except.error.inj h
        rfl
      | symlink =>
        obtain rfl := Except.error.inj h
        rfl

/-- The outcome of a read of `ino` in `s`. -/
def ReadResult (env : Env) (s s' : Shared) (ino offset size : Nat) (r : Except Errno Bytes) :
    Prop :=
  Idle s s' ∧
    match r with
    | .ok data => s'.failures = s.failures ∧ s.db.fileErrno ino = none ∧
        data = slice offset size (s.file ino).bytes
    | .error e => env.Failed s s' ∨ s'.failures = s.failures ∧ s.db.fileErrno ino = some e

theorem read_spec (h : s.Core held busy) :
    Prog.wp (read env ino offset size) (fun r s' => ReadResult env s s' ino offset size r) s := by
  rw [read, Prog.wp_bind_iff, readLocked, wp_table_bind]
  rcases hf : s.table.inodes.find ino with _ | slot
  · change Prog.wp (query env fun db => db.readFile ino offset size)
      (fun r s' => ReadResult env s s' ino offset size r) s
    refine wp_query (fun failure hfault => ?_) (fun error herror => ?_) fun data hdata => ?_
    · exact ⟨⟨rfl, rfl, rfl⟩, .inl ⟨Nat.lt_succ_self _, env.not_healthy hfault⟩⟩
    · exact ⟨⟨rfl, rfl, rfl⟩, .inr ⟨rfl, readFile_error h.sound herror⟩⟩
    · by_cases hregular : s.db.kindOf ino = some .regularFile
      · rw [Db.readFile_eq h.sound.owned h.sound.keys hregular,
          h.sound.content_eq hregular] at hdata
        refine ⟨⟨rfl, rfl, rfl⟩, rfl, Db.fileErrno_eq_none.mpr hregular,
          (Except.ok.inj hdata).symm.trans ?_⟩
        rw [Shared.file, OpenTable.file_eq_none.mpr hf]
        rfl
      · rw [Db.readFile] at hdata
        obtain ⟨⟨kind, size'⟩, hhead, hdata⟩ := except_bind_eq_ok.mp hdata
        have hkind := (inodeHead_eq_ok hhead).1
        cases kind with
        | regularFile => exact (hregular hkind).elim
        | directory => cases hdata
        | symlink => cases hdata
  · refine (Prog.wp_map some (readSlot env slot offset size) _ s).mpr ?_
    refine Prog.wp_mono (readSlot_spec h hf) ?_
    rintro r s' ⟨hidle, hresult⟩
    rcases r with e | data
    · exact ⟨hidle, hresult⟩
    · exact ⟨hidle, hresult⟩

theorem readFh_spec {fh : Nat} (h : s.Core held busy) :
    Prog.wp (readFh env fh offset size) (fun r s' =>
      match s.table.handleIno fh with
      | some ino => ReadResult env s s' ino offset size r
      | none => r = .error .EBADF ∧ s' = s) s := by
  rw [readFh, wp_table_bind]
  rcases hfh : s.table.handles.get fh with _ | slot
  · rw [show s.table.handleIno fh = none from congrArg _ hfh]
    exact ⟨rfl, rfl⟩
  · rw [show s.table.handleIno fh = some _ from congrArg _ hfh]
    exact readSlot_spec h (h.table.find_of_handle hfh)

section Attributes

theorem overlayAttr_spec (h : s.Core held busy) {r : InodeRow} (hr : s.db.findInode ino = some r) :
    Prog.wp (overlayAttr (fileAttrFromInode r.inode)) (fun result s' => s' = s ∧
      ∃ attr, result = .ok attr ∧ attr.ino = ino ∧ s.db.kindOf ino = some attr.kind ∧
        ShowsSize s attr) s := by
  obtain rfl := Db.findInode_ino hr
  refine ⟨rfl, _, rfl, ?_⟩
  rw [OpenTable.overlayAttr, show (fileAttrFromInode r.inode).ino = r.ino from rfl]
  rcases hf : s.table.inodes.find r.ino with _ | slot
  · refine ⟨rfl, Db.kindOf_of_find hr, showsSize_of_row h (fun o ho => ?_) hr⟩
    exact nomatch (OpenTable.file_eq_none.mpr hf).symm.trans ho
  · have hsize : (s.file r.ino).size = (s.table.inodes.get slot).size := by
      rw [Shared.file, OpenTable.file_of_find hf]
      rfl
    dsimp only
    split
    · exact ⟨rfl, Db.kindOf_of_find hr, hsize.symm⟩
    · exact ⟨rfl, Db.kindOf_of_find hr, hsize.symm⟩

def AttrResult (env : Env) (s s' : Shared) (r : Except Errno FileAttr) : Prop :=
  Idle s s' ∧
    match r with
    | .ok attr => s'.failures = s.failures ∧ s.db.kindOf attr.ino = some attr.kind ∧
        ShowsSize s attr
    | .error _ => env.Failed s s' ∨ s'.failures = s.failures

private theorem rowOverlay_spec {f : Db → Except DbError Inode} (h : s.Core held busy)
    (hrow : ∀ inode, f s.db = .ok inode → ∃ r ino, s.db.findInode ino = some r ∧
      inode = r.inode) :
    Prog.wp ((do
      let inode ← query env f
      pure (fileAttrFromInode inode)) >>= overlayAttr) (fun r s' => AttrResult env s s' r) s := by
  rw [Prog.wp_bind_iff, Prog.wp_bind_iff]
  refine wp_query (fun failure hfault => ?_) (fun error herror => ?_) fun inode hinode => ?_
  · exact ⟨⟨rfl, rfl, rfl⟩, .inl ⟨Nat.lt_succ_self _, env.not_healthy hfault⟩⟩
  · exact ⟨⟨rfl, rfl, rfl⟩, .inr rfl⟩
  · obtain ⟨r, ino, hr, rfl⟩ := hrow inode hinode
    have hcore : Shared.Core held busy { s with tick := s.tick + 1 } :=
      ⟨h.sound, h.table, h.live, h.directory, h.chronicle⟩
    dsimp only
    rw [Prog.wp_pure]
    refine Prog.wp_mono (overlayAttr_spec hcore hr) ?_
    rintro result s' ⟨rfl, attr, rfl, rfl, hkind, hsize⟩
    exact ⟨⟨rfl, rfl, rfl⟩, rfl, hkind, hsize⟩

theorem getattr_spec (h : s.Core held busy) :
    Prog.wp (getattr env ino) (fun r s' => AttrResult env s s' r) s := by
  refine rowOverlay_spec h fun inode hinode => ?_
  obtain ⟨r, hr, rfl⟩ := Db.find_of_getInode hinode
  exact ⟨r, ino, hr, rfl⟩

theorem lookup_spec {parent : Nat} {name : Name} (h : s.Core held busy) :
    Prog.wp (lookup env parent name) (fun r s' => AttrResult env s s' r) s := by
  refine rowOverlay_spec h fun inode hinode => ?_
  obtain ⟨-, d, r, -, -, -, hr, rfl⟩ := Db.lookup_cases hinode
  exact ⟨r, _, hr, rfl⟩

end Attributes

end Fs

end VibeDbfs
