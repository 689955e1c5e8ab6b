import VibeDbfs.Fuse.Backing
import VibeDbfs.Fuse.SetAttr

/-!
What becomes of the contents of the files in a call. A file that is held keeps its content, or has
the one that the call makes of it; a new file is empty.
-/

set_option autoImplicit false
set_option relaxedAutoImplicit false

namespace VibeDbfs

open Lib Lib.Bytes Shared

/-- The files that came between `s` and `s'` are empty. -/
def Shared.Made (s s' : Shared) : Prop := ∀ i, s.db.kindOf i = none →
  s'.db.kindOf i = some .regularFile → (s'.file i).bytes = [] ∧ (s'.db.file i).bytes = []

namespace Dbfs

/-- What a call that returns `r` makes of the contents. -/
structure Fills (env : Env) (s : Shared) (c : Call) (r : Except Errno Reply) (s' : Shared) :
    Prop where
  made : Made s s'
  kept : ∀ i, changes s c ≠ some i → (s.db.kindOf i).isSome → s'.Held i →
    (s'.file i).bytes = (s.file i).bytes
  ends : ∀ i, changes s c ≠ some i → (s.db.kindOf i).isSome → (s'.db.kindOf i).isSome →
    (s'.file i).size ≤ (s.file i).size
  done : r.isOk = true → ∀ i, changes s c = some i →
    (s'.file i).bytes = newContent c (s.file i).bytes
  failed : r.isOk = false → ∀ i, changes s c = some i → (s'.file i).bytes = (s.file i).bytes ∨
    env.Failed s s' ∧ Attempted c (s.file i).bytes (s'.file i).bytes

end Dbfs

section Calls

variable {s s' : Shared} {env : Env} {busy : Nat → Prop} {c : Call} {r : Except Errno Reply}
  {i : Nat}

namespace Shared

private theorem Made.of_fewer (h : s.db.Fewer s'.db) : Made s s' := by
  intro i hnone hkind
  have hbefore := (h.kind i (Option.isSome_of_eq_some hkind)).symm.trans hkind
  rw [hnone] at hbefore
  cases hbefore

private theorem Made.of_db (h : s'.db = s.db) : Made s s' := by
  apply Made.of_fewer
  rw [h]
  exact .refl s.db

private theorem Made.of_created {parent : Nat} {name : Name} {node : NewNode} {uid gid : UInt32}
    {attr : FileAttr} (h : s.Inv [] busy) (hinv : s'.Inv [] busy) (hkept : Kept s s')
    (hcreated : Fs.Created s s' parent name node uid gid attr) : Made s s' := by
  obtain ⟨inode, now, hdb, rfl⟩ := hcreated
  obtain ⟨-, -, -, -, hkind, hsize⟩ := Db.relinked_createNode h.sound hdb
  intro i hnone hregular
  have hnew := hregular
  rw [hkind] at hnew
  split at hnew
  · next heq =>
    subst heq
    have hzero : node.size = 0 := by
      cases node with
      | file mode => rfl
      | directory mode => cases hnew
      | symlink target => cases hnew
    have hstored : (s'.db.file s.db.nextIno).bytes = [] := by
      apply List.length_eq_zero_iff.mp
      rw [StoredFile.bytes, length_glue]
      exact hsize.trans hzero
    -- a new inode had no slot, so it has nothing to save
    have hclean : (s'.file s.db.nextIno).Clean := by
      apply hkept.clean
      intro o ho
      cases (Fs.Core.nextIno_closed h.toCore).symm.trans ho
    exact ⟨(hinv.bytes_of_clean hclean).trans hstored, hstored⟩
  · rw [hnone] at hnew
    cases hnew

end Shared

namespace Dbfs

private theorem Fills.of_kept (hnone : changes s c = none) (hmade : Made s s') (h : Kept s s') :
    Fills env s c r s' where
  made := hmade
  kept i _ := h.bytes i
  ends i _ := h.ends i
  done _ _ hi := nomatch hnone.symm.trans hi
  failed _ _ hi := nomatch hnone.symm.trans hi

private theorem Fills.of_quiet (hnone : changes s c = none) (h : Quiet s s') : Fills env s c r s' :=
  .of_kept hnone (.of_fewer (.of_names h.names)) (.of_quiet h)

private theorem Fills.of_error {e : Errno} (h : Quiet s s') : Fills env s c (.error e) s' where
  made := .of_fewer (.of_names h.names)
  kept i _ _ _ := h.bytes i not_false
  ends i _ _ _ := size_le_of_bytes (h.bytes i not_false)
  done hok := by cases hok
  failed _ i _ := .inl (h.bytes i not_false)

private theorem Fills.of_frame {touched : Nat → Prop} {ino : Nat} (hframe : Frame touched s s')
    (htouched : ∀ i, touched i → changes s c = some i)
    (hchanges : ∀ i, changes s c = some i → i = ino)
    (hdone : r.isOk = true → (s'.file ino).bytes = newContent c (s.file ino).bytes)
    (hfailed : r.isOk = false → (s'.file ino).bytes = (s.file ino).bytes ∨
      env.Failed s s' ∧ Attempted c (s.file ino).bytes (s'.file ino).bytes) :
    Fills env s c r s' where
  made := .of_fewer (.of_names hframe.names)
  kept i hi _ _ := hframe.bytes i fun ht => hi (htouched i ht)
  ends i hi _ _ := size_le_of_bytes (hframe.bytes i fun ht => hi (htouched i ht))
  done hok i hi := by
    rw [hchanges i hi]
    exact hdone hok
  failed hok i hi := by
    rw [hchanges i hi]
    exact hfailed hok

private theorem Fills.of_write {ino offset : Nat} {data : Bytes} {r : Except Errno Nat}
    (hchanges : changes s c = some ino) (hnew : newContent c = written offset data)
    (hattempted : Attempted c = PartlyWritten offset data)
    (h : Fs.WriteResult env s s' ino offset data r) : Fills env s c (r.map .written) s' := by
  obtain ⟨hframe, -, hresult⟩ := h
  refine .of_frame hframe (fun i hi => hi ▸ hchanges)
    (fun i hi => Option.some.inj (hi.symm.trans hchanges)) (fun hok => ?_) fun hok => ?_
  · rcases r with e | n
    · cases hok
    · rw [hnew]
      exact hresult.2.2.1
  · rcases r with e | n
    · rcases hresult with ⟨hfailed, hpartly⟩ | ⟨-, hquiet, -⟩
      · rw [hattempted]
        exact .inr ⟨hfailed, hpartly⟩
      · exact .inl (hquiet.bytes ino not_false)
    · cases hok

private theorem changes_setattr {ino i : Nat} {mode uid gid : Option UInt32} {size : Option Nat}
    {atime mtime : Option SystemTime} :
    changes s (.setattr ino mode uid gid size atime mtime) = some i ↔ ino = i ∧ size.isSome := by
  rcases size with _ | n
  · simp [changes]
  · simp [changes]

private theorem fills_setattr {ino : Nat} (given : NewAttrs) (h : s.Inv [] busy) :
    Prog.wp (call env (given.call ino)) (Fills env s (given.call ino)) s := by
  have hspec : Prog.wp (Fs.setattr env ino given.mode given.uid given.gid given.size given.atime
    given.mtime) _ s := Fs.setattr_spec _ _ _ _ _ _ h
  refine (Prog.wp_map ..).mpr (Prog.wp_mono (Prog.wp_and hspec (Fs.setattr_exit given h)) ?_)
  rintro r s' ⟨⟨-, hframe, -, hresult⟩, -, hexit⟩
  refine .of_frame hframe (fun i hi => changes_setattr.mpr ⟨hi.1.symm, hi.2⟩)
    (fun i hi => (changes_setattr.mp hi).1.symm) (fun hok => ?_) fun hok => ?_
  · cases hexit with
    | refused | cut | updated => cases hok
    | done hcuts hwritten hupdate hquery hattains => exact hattains.bytes
  · have hfailed : env.Failed s s' ∨ (s'.file ino).bytes = (s.file ino).bytes := by
      rcases r with e | attr
      · exact hresult.imp_right fun h => h.2.1.bytes ino not_false
      · cases hok
    rcases hfailed with hfailed | hsame
    · cases hexit with
      | refused hrefused hhidden hquiet => exact .inl (hquiet.bytes ino not_false)
      | cut hcuts hwritten hfault hattains => exact .inr ⟨hfailed, .inr hattains.bytes⟩
      | updated hcuts hwritten hupdate hfault hattains =>
        exact .inr ⟨hfailed, .inr hattains.bytes⟩
      | done => cases hok
    · exact .inl hsame

private theorem fills_fallocate {ino : Nat} {offset length : Int} {mode : UInt32}
    (h : s.Inv [] busy) :
    Prog.wp (call env (.fallocate ino offset length mode))
      (Fills env s (.fallocate ino offset length mode)) s := by
  refine (Prog.wp_map ..).mpr (Prog.wp_mono (Fs.fallocate_spec h) ?_)
  have hchanges : ∀ i, changes s (.fallocate ino offset length mode) = some i → i = ino :=
    fun i hi => (Option.some.inj hi).symm
  rintro (e | ⟨⟩) s' ⟨-, hframe, -, hresult⟩
  · exact .of_error hresult.1
  · refine .of_frame hframe (fun i hi => congrArg some hi.symm) hchanges (fun _ => ?_) fun hok => ?_
    · refine hresult.2.2.trans ?_
      rw [newContent, File.length_bytes]
    · cases hok

private theorem fills_releaseFile {fh : Nat} (h : s.Inv [] busy) :
    Prog.wp (call env (.releaseFile fh)) (Fills env s (.releaseFile fh)) s := by
  refine (Prog.wp_map ..).mpr (Prog.wp_mono (Fs.releaseFh_spec h) ?_)
  rintro r s' ⟨-, hresult⟩
  rcases hfh : s.table.handleIno fh with _ | ino
  · rw [hfh] at hresult
    rw [hresult.2]
    exact .of_quiet rfl (Frame.refl s)
  · rw [hfh] at hresult
    obtain ⟨hkept, -, hcase⟩ := hresult
    refine .of_kept rfl (.of_fewer ?_) hkept
    rcases hcase with hclosed | hdeleted
    · exact .of_names hclosed.names
    · rcases r with e | ⟨⟩
      · rw [(hdeleted.error fun hr => by cases hr).2]
        exact .refl s.db
      · rw [(hdeleted.ok rfl).2]
        exact Db.fewer_deleteInodeRows s.db ino

private theorem fills_link {ino newParent : Nat} {newName : Name}
    (hnamed : ∀ r ∈ s.db.findInode ino, 0 < r.nlink) (h : s.Inv [] busy) :
    Prog.wp (call env (.link ino newParent newName)) (Fills env s (.link ino newParent newName))
      s := by
  refine (Prog.wp_map ..).mpr (Prog.wp_mono (Fs.link_spec hnamed h) ?_)
  rintro (e | attr) s' ⟨-, -, hkept, hresult⟩
  · exact .of_kept rfl (.of_db hresult.1) hkept
  · obtain ⟨-, inode, now, hdb, -⟩ := hresult
    obtain ⟨-, row, hr, -⟩ := Db.link_cases hdb
    have hpos : 0 < s.db.nlinkOf ino := (Db.nlinkOf_of_find hr).symm ▸ hnamed row hr
    obtain ⟨hrelinked, hkind⟩ := Db.relinked_link h.sound hpos hdb
    exact .of_kept rfl (.of_fewer (hrelinked.fewer fun i hi => hkind i ▸ hi)) hkept

private theorem fills_unlink {parent : Nat} {name : Name} (h : s.Inv [] busy) :
    Prog.wp (call env (.unlink parent name)) (Fills env s (.unlink parent name)) s := by
  refine (Prog.wp_map ..).mpr (Prog.wp_mono (Fs.unlink_spec h) ?_)
  rintro (e | ⟨⟩) s' ⟨-, hremoved, hresult⟩
  · exact .of_kept rfl (.of_db hresult.1) hremoved.1
  · obtain ⟨-, target, now, hlookup, -, hdb⟩ := hresult
    exact .of_kept rfl (.of_fewer (Db.fewer_unlinkEntry h.sound hlookup hdb)) hremoved.1

private theorem fills_rmdir {parent : Nat} {name : Name} (hclear : Fs.RmdirClear s parent name)
    (h : s.Inv [] busy) :
    Prog.wp (call env (.rmdir parent name)) (Fills env s (.rmdir parent name)) s := by
  refine (Prog.wp_map ..).mpr (Prog.wp_mono (Fs.rmdir_spec hclear h) ?_)
  rintro (e | ⟨⟩) s' ⟨-, hremoved, -, hresult⟩
  · exact .of_kept rfl (.of_db hresult.1) hremoved.1
  · obtain ⟨-, now, hdb⟩ := hresult
    exact .of_kept rfl (.of_fewer (Db.fewer_removeDir h.sound hdb)) hremoved.1

private theorem fills_rename {parent newParent : Nat} {name newName : Name} {flags : UInt32}
    (hclear : Fs.RenameClear s parent name newParent newName flags) (h : s.Inv [] busy) :
    Prog.wp (call env (.rename parent name newParent newName flags))
      (Fills env s (.rename parent name newParent newName flags)) s := by
  refine (Prog.wp_map ..).mpr (Prog.wp_mono (Fs.rename_spec hclear h) ?_)
  rintro (e | ⟨⟩) s' ⟨-, hremoved, hresult⟩
  · exact .of_kept rfl (.of_db hresult.1) hremoved.1
  · obtain ⟨-, replaced, now, -, hdb⟩ := hresult
    exact .of_kept rfl (.of_fewer (Db.fewer_renameEntry h.sound hdb)) hremoved.1

private theorem fills_node {parent : Nat} {name : Name} {node : NewNode} {uid gid : UInt32}
    (hnone : changes s c = none) (h : s.Inv [] busy) :
    Prog.wp (Reply.attr <$> Fs.createNode env parent name node uid gid) (Fills env s c) s := by
  refine (Prog.wp_map ..).mpr (Prog.wp_mono (Fs.createNode_spec h) ?_)
  rintro (e | attr) s' ⟨hinv, -, hkept, hresult⟩
  · exact .of_kept hnone (.of_db hresult.1) hkept
  · exact .of_kept hnone (.of_created h hinv hkept hresult.2) hkept

private theorem fills_createOpen {parent : Nat} {name : Name} {mode umask uid gid : UInt32}
    (h : s.Inv [] busy) :
    Prog.wp (call env (.createOpen parent name mode umask uid gid))
      (Fills env s (.createOpen parent name mode umask uid gid)) s := by
  refine (Prog.wp_map ..).mpr (Prog.wp_mono (Fs.createOpen_spec h) ?_)
  rintro (e | ⟨attr, fh⟩) s' ⟨hinv, hresult⟩
  · exact .of_quiet rfl (Frame.of_eq hresult.1 hresult.2.1)
  · obtain ⟨-, hkept, -, -, hcreated⟩ := hresult
    exact .of_kept rfl (.of_created h hinv hkept hcreated) hkept

theorem call_fills (h : s.Inv [] busy) (hadm : Admissible busy s c) :
    Prog.wp (call env c) (Fills env s c) s := by
  have hidle : ∀ {α : Type} {g : α → Reply} {x : Fs α}, changes s c = none →
      Prog.wp x (fun _ s' => Quiet s s') s → Prog.wp (g <$> x) (Fills env s c) s := by
    intro α g x hnone hx
    exact (Prog.wp_map ..).mpr (Prog.wp_mono hx fun _ _ => .of_quiet hnone)
  cases c with
  | getattr ino =>
    exact hidle rfl (Prog.wp_mono (Fs.getattr_spec h.toCore) fun _ _ hr => hr.1.quiet)
  | lookup parent name =>
    exact hidle rfl (Prog.wp_mono (Fs.lookup_spec h.toCore) fun _ _ hr => hr.1.quiet)
  | read ino offset size =>
    exact hidle rfl (Prog.wp_mono (Fs.read_spec h.toCore) fun _ _ hr => hr.1.quiet)
  | readFh fh offset size =>
    refine hidle rfl (Prog.wp_mono (Fs.readFh_spec h.toCore) fun r s' hr => ?_)
    rcases hfh : s.table.handleIno fh with _ | ino
    · rw [hfh] at hr
      rw [hr.2]
      exact Frame.refl s
    · rw [hfh] at hr
      exact hr.1.quiet
  | mkdir | create | symlink => exact fills_node rfl h
  | createOpen => exact fills_createOpen h
  | link ino newParent newName => exact fills_link hadm h
  | openFile ino =>
    refine (Prog.wp_map ..).mpr (Prog.wp_mono (Fs.openFile_spec h hadm) fun r s' hr => ?_)
    exact .of_kept rfl (.of_db hr.2.1) hr.2.2.1
  | releaseFile fh => exact fills_releaseFile h
  | unlink parent name => exact fills_unlink h
  | rmdir parent name => exact fills_rmdir hadm h
  | rename parent name newParent newName flags => exact fills_rename hadm h
  | flushFile ino => exact hidle rfl (Prog.wp_mono (Fs.flushFile_spec h) fun _ _ hr => hr.2.1)
  | flushFh fh =>
    refine hidle rfl (Prog.wp_mono (Fs.flushFh_spec h) fun r s' hr => ?_)
    rcases hfh : s.table.handleIno fh with _ | ino
    · rw [hfh] at hr
      rw [hr.2.2]
      exact Frame.refl s
    · rw [hfh] at hr
      exact hr.2.1
  | syncFh fh =>
    refine hidle rfl (Prog.wp_mono (Fs.syncFh_spec h) fun r s' hr => ?_)
    rcases hfh : s.table.handleIno fh with _ | ino
    · rw [hfh] at hr
      rw [hr.2.2]
      exact Frame.refl s
    · rw [hfh] at hr
      exact hr.2.1
  | flushAll => exact hidle rfl (Prog.wp_mono (Fs.flushAll_spec h) fun _ _ hr => hr.2.1)
  | setattr ino mode uid gid size atime mtime =>
    exact fills_setattr ⟨mode, uid, gid, size, atime, mtime⟩ h
  | fallocate ino offset length mode => exact fills_fallocate h
  | write ino offset data =>
    refine (Prog.wp_map ..).mpr (Prog.wp_mono (Fs.write_spec hadm h) fun r s' hr => ?_)
    exact .of_write rfl rfl rfl hr.2
  | writeFh fh offset data =>
    refine (Prog.wp_map ..).mpr (Prog.wp_mono (Fs.writeFh_spec hadm h) fun r s' hr => ?_)
    rcases hfh : s.table.handleIno fh with _ | ino
    · rw [hfh] at hr
      rw [hr.2.1, hr.2.2]
      exact .of_error (Frame.refl s)
    · rw [hfh] at hr
      exact .of_write hfh rfl rfl hr.2

theorem call_readFh {fh offset size : Nat} (h : s.Core [] busy)
    (hfh : s.table.handleIno fh = some i) (hkind : s.db.kindOf i = some .regularFile) :
    Prog.wp (call env (.readFh fh offset size)) (fun result s' =>
      result = .ok (.data (slice offset size (s.file i).bytes)) ∨
        env.Failed s s' ∧ result.isOk = false) s := by
  refine (Prog.wp_map ..).mpr (Prog.wp_mono (Fs.readFh_spec h) fun r s' hr => ?_)
  rw [hfh] at hr
  obtain ⟨-, hresult⟩ := hr
  rcases r with e | data
  · rcases hresult with hfailed | ⟨-, herrno⟩
    · exact .inr ⟨hfailed, rfl⟩
    · rw [Db.fileErrno_eq_none.mpr hkind] at herrno
      cases herrno
  · exact .inl (congrArg (fun data => Except.ok (Reply.data data)) hresult.2.2)

private theorem attempted_of_writeOf {ino offset : Nat} {data : Bytes}
    (h : writeOf s c = some (ino, offset, data)) :
    changes s c = some ino ∧ Attempted c = PartlyWritten offset data := by
  cases c with
  | write =>
    cases h
    exact ⟨rfl, rfl⟩
  | writeFh fh =>
    obtain ⟨i, hi, heq⟩ := Option.map_eq_some_iff.mp h
    cases heq
    exact ⟨hi, rfl⟩
  | getattr | lookup | mkdir | create | symlink | link | setattr | openFile | read | readFh
  | fallocate | flushFile | flushFh | syncFh | flushAll | releaseFile | unlink | rmdir | rename
  | createOpen => cases h

theorem Backed.stored (h : Backed s c s') (hnamed : s.db.Named i) (hnamed' : s'.db.Named i) :
    (s'.db.file i).bytes = (s.db.file i).bytes ∨ (s'.db.file i).bytes = (s.file i).bytes ∨
      (s'.db.file i).bytes = (s'.file i).bytes ∨
        changes s c = some i ∧ Attempted c (s.file i).bytes (s'.db.file i).bytes := by
  rcases h with hbacks | ⟨ino, offset, data, hwrite, hpieces⟩
  · rcases hbacks i hnamed hnamed' with hold | hbefore | hafter
    · exact .inl hold
    · exact .inr (.inl hbefore)
    · exact .inr (.inr (.inl hafter))
  · obtain ⟨hchanges, hattempted⟩ := attempted_of_writeOf hwrite
    rcases hpieces i hnamed hnamed' with hold | hbefore | ⟨rfl, hpartly⟩
    · exact .inl hold
    · exact .inr (.inl hbefore)
    · exact .inr (.inr (.inr ⟨hchanges, hattempted ▸ hpartly⟩))

end Dbfs

end Calls

end VibeDbfs
