import VibeDbfs.Fuse.Naming
import VibeDbfs.Fuse.Reading
import VibeDbfs.Storage.Renaming

/-!
Each call keeps the invariant, and so does each run of calls from an opened database.
-/

set_option autoImplicit false
set_option relaxedAutoImplicit false

namespace VibeDbfs

open Lib Lib.Bytes Shared

variable {s s' : Shared} {env : Env} {busy : Nat → Prop} {ino fh : Nat}

namespace Fs

section Flush

/-- A call that flushes `ino`, or does nothing for want of a slot. -/
def FlushResult (env : Env) (s s' : Shared) (ino : Nat) (r : Except Errno Unit) : Prop :=
  Quiet s s' ∧
    match r with
    | .ok _ => s'.failures = s.failures ∧ Settled (s'.file ino)
    | .error _ => env.Failed s s'

theorem flushFile_spec {held : List ArenaSlot} (h : s.Inv held busy) :
    Prog.wp (flushFile env ino) (fun r s' => s'.Inv held busy ∧ FlushResult env s s' ino r) s := by
  rw [flushFile, wp_table_bind]
  rcases hf : s.table.inodes.find ino with _ | slot
  · refine ⟨h, Frame.refl s, rfl, .inl fun o ho => ?_⟩
    exact nomatch (OpenTable.file_eq_none.mpr hf).symm.trans ho
  · refine Prog.wp_mono (flushFree_spec .skip h hf) ?_
    rintro r s' ⟨hinv, hquiet, -, -, hresult⟩
    refine ⟨hinv, hquiet, ?_⟩
    rcases r with e | ⟨⟩
    · exact ⟨hresult.1, hresult.2.1⟩
    · exact ⟨hresult.1, hresult.2.imp_right And.left⟩

theorem flushFh_spec {held : List ArenaSlot} (h : s.Inv held busy) :
    Prog.wp (flushFh env fh) (fun r s' => s'.Inv held busy ∧
      match s.table.handleIno fh with
      | some ino => FlushResult env s s' ino r
      | none => r = .error .EBADF ∧ s' = s) s := by
  rw [flushFh, wp_table_bind]
  rcases hfh : s.table.handles.get fh with _ | slot
  · rw [show s.table.handleIno fh = none from congrArg _ hfh]
    exact ⟨h, rfl, rfl⟩
  · rw [show s.table.handleIno fh = some _ from congrArg _ hfh]
    refine Prog.wp_mono (flushSlot_spec .skip h (h.table.find_of_handle hfh)) ?_
    rintro r s' ⟨hinv, hquiet, -, -, hresult⟩
    refine ⟨hinv, hquiet, ?_⟩
    rcases r with e | ⟨⟩
    · exact ⟨hresult.1, hresult.2.1⟩
    · exact ⟨hresult.1, hresult.2.imp_right And.left⟩

theorem syncFh_spec {held : List ArenaSlot} (h : s.Inv held busy) :
    Prog.wp (syncFh env fh) (fun r s' => s'.Inv held busy ∧
      match s.table.handleIno fh with
      | some ino => FlushResult env s s' ino r
      | none => r = .error .EBADF ∧ s' = s) s := by
  refine Prog.wp_bind (flushFh_spec h) (fun ⟨⟩ s₁ hs₁ => ?_) fun e s₁ hs₁ => hs₁
  obtain ⟨hinv, hresult⟩ := hs₁
  rcases hfh : s.table.handleIno fh with _ | ino
  · rw [hfh] at hresult
    cases hresult.1
  · rw [hfh] at hresult
    obtain ⟨hquiet, hfailures, hsettled⟩ := hresult
    apply wp_syncDurable
    · intro failure hfault
      exact ⟨hinv.of_eq rfl rfl rfl, hquiet.trans (Frame.of_eq rfl rfl),
        hfailures ▸ Nat.lt_succ_self _, env.not_healthy hfault⟩
    · intro _
      exact ⟨hinv.of_eq rfl rfl rfl, hquiet.trans (Frame.of_eq rfl rfl), hfailures, hsettled⟩

/-- A file with a name whose data need not be saved has its content in the store. -/
theorem stored_of_settled {held : List ArenaSlot} (h : s.Core held busy)
    (hsettled : Settled (s.file ino)) (hnamed : s.db.Named ino) :
    (s.file ino).bytes = (s.db.file ino).bytes := by
  apply h.bytes_of_clean
  apply hsettled.resolve_right
  intro hunlinked
  exact Nat.ne_of_gt hnamed.2 (h.nlink_of_unlinked hunlinked)

end Flush

end Fs

namespace Dbfs

/-- What each call may ask of a state in which the directories of `busy` may have slots. -/
def Admissible (busy : Nat → Prop) (s : Shared) : Call → Prop
  | .openFile ino => s.db.kindOf ino = some .directory → ino = 1 ∨ busy ino
  | .link ino _ _ => ∀ r ∈ s.db.findInode ino, 0 < r.nlink
  | .write _ offset data => offset + data.length < u64Size
  | .writeFh _ offset data => offset + data.length < u64Size
  | .rmdir parent name => Fs.RmdirClear s parent name
  | .rename parent name newParent newName flags =>
    Fs.RenameClear s parent name newParent newName flags
  | _ => True

def newHandle : Except Errno Reply → Option Nat
  | .ok (.opened fh) => some fh
  | .ok (.created _ fh) => some fh
  | _ => none

/-- The inode number behind `fh` after a call with this reply. -/
def handleAfter (s : Shared) (fh : Nat) : Call → Except Errno Reply → Option Nat
  | .openFile ino, .ok (.opened k) => if fh = k then some ino else s.table.handleIno fh
  | .createOpen .., .ok (.created attr k) =>
    if fh = k then some attr.ino else s.table.handleIno fh
  | .releaseFile k, _ => if fh = k then none else s.table.handleIno fh
  | _, _ => s.table.handleIno fh

/-- What every call keeps, what it does to the handles, and what it saved if it succeeded. -/
structure Keeps (busy : Nat → Prop) (s : Shared) (c : Call) (r : Except Errno Reply)
    (s' : Shared) : Prop where
  inv : s'.Inv [] busy
  closing : s'.table.closing = s.table.closing
  maxSlots : s'.table.arena.maxSlots = s.table.arena.maxSlots
  handles : ∀ fh, s'.table.handleIno fh = handleAfter s fh c r
  fresh : ∀ fh, newHandle r = some fh → s.table.handleIno fh = none
  saved : r.isOk = true → ∀ ino, saves s c ino = true → s'.db.Named ino →
    (s'.file ino).bytes = (s'.db.file ino).bytes

structure Plain (s : Shared) (c : Call) (r : Except Errno Reply) : Prop where
  handles : ∀ fh, handleAfter s fh c r = s.table.handleIno fh
  old : newHandle r = none

private theorem Keeps.of_frame {touched : Nat → Prop} {c : Call} {r : Except Errno Reply}
    (hplain : Plain s c r) (hinv : s'.Inv [] busy) (hframe : Frame touched s s')
    (hsaves : r.isOk = true → ∀ ino, saves s c ino = true → Fs.Settled (s'.file ino)) :
    Keeps busy s c r s' where
  inv := hinv
  closing := hframe.closing
  maxSlots := hframe.maxSlots
  handles fh := (hframe.handles fh).trans (hplain.handles fh).symm
  fresh _ hfh := nomatch hplain.old.symm.trans hfh
  saved hok ino hino hnamed := Fs.stored_of_settled hinv.toCore (hsaves hok ino hino) hnamed

private theorem Keeps.of_kept {c : Call} {r : Except Errno Reply} (hinv : s'.Inv [] busy)
    (hkept : Kept s s') (hhandles : ∀ fh, s'.table.handleIno fh = handleAfter s fh c r)
    (hfresh : ∀ fh, newHandle r = some fh → s.table.handleIno fh = none)
    (hsaves : ∀ ino, saves s c ino = false) : Keeps busy s c r s' where
  inv := hinv
  closing := hkept.closing
  maxSlots := hkept.maxSlots
  handles := hhandles
  fresh := hfresh
  saved _ ino hino _ := nomatch (hsaves ino).symm.trans hino

private theorem Keeps.of_unsaved {touched : Nat → Prop} {c : Call} {r : Except Errno Reply}
    (hplain : Plain s c r) (hsaves : ∀ ino, saves s c ino = false) (hinv : s'.Inv [] busy)
    (hframe : Frame touched s s') : Keeps busy s c r s' :=
  .of_frame hplain hinv hframe fun _ ino hino => nomatch (hsaves ino).symm.trans hino

private theorem Keeps.of_idle {c : Call} {r : Except Errno Reply} (hplain : Plain s c r)
    (hsaves : ∀ ino, saves s c ino = false) (h : s.Inv [] busy) (hidle : Idle s s') :
    Keeps busy s c r s' :=
  .of_unsaved hplain hsaves (h.of_idle hidle) hidle.quiet

private theorem Keeps.of_removed {c : Call} {r : Except Errno Reply} (hplain : Plain s c r)
    (hsaves : ∀ ino, saves s c ino = false) (hinv : s'.Inv [] busy) (hremoved : Fs.Removed s s') :
    Keeps busy s c r s' :=
  .of_kept hinv hremoved.1 (fun fh => (hremoved.2 fh).trans (hplain.handles fh).symm)
    (fun _ hfh => nomatch hplain.old.symm.trans hfh) hsaves

private theorem Keeps.of_badHandle {c : Call} (hplain : Plain s c (.error .EBADF))
    (h : s.Inv [] busy) :
    Keeps busy s c (.error .EBADF) s :=
  have hquiet : Quiet s s := Frame.refl s
  .of_frame hplain h hquiet nofun

private theorem Keeps.of_flush {c : Call} {r : Except Errno Unit} (hinv : s'.Inv [] busy)
    (hplain : ∀ r, Plain s c (Except.map (fun _ : Unit => Reply.empty) r))
    (hsaves : ∀ i, saves s c i = true → i = ino) (hflush : Fs.FlushResult env s s' ino r) :
    Keeps busy s c (r.map fun _ => .empty) s' := by
  refine .of_frame (hplain r) hinv hflush.1 fun hok i hi => ?_
  rcases r with e | ⟨⟩
  · cases hok
  · rw [hsaves i hi]
    exact hflush.2.2

private theorem plain_attr {c : Call} (h : ∀ r fh, handleAfter s fh c r = s.table.handleIno fh)
    (r : Except Errno FileAttr) : Plain s c (r.map .attr) :=
  ⟨h _, by rcases r with e | a <;> rfl⟩

private theorem plain_empty {c : Call} (h : ∀ r fh, handleAfter s fh c r = s.table.handleIno fh)
    (r : Except Errno Unit) : Plain s c (r.map fun _ => .empty) :=
  ⟨h _, by rcases r with e | a <;> rfl⟩

/-- Each call, from a state of the invariant. -/
theorem call_spec (env : Env) (c : Call) (h : s.Inv [] busy) (hc : Admissible busy s c) :
    Prog.wp (call env c) (fun r s' => Keeps busy s c r s') s := by
  cases c with
  | getattr ino =>
    refine (Prog.wp_map ..).mpr (Prog.wp_mono (Fs.getattr_spec h.toCore) fun r s' hr => ?_)
    exact .of_idle (plain_attr (fun _ _ => rfl) r) (fun _ => rfl) h hr.1
  | lookup parent name =>
    refine (Prog.wp_map ..).mpr (Prog.wp_mono (Fs.lookup_spec h.toCore) fun r s' hr => ?_)
    exact .of_idle (plain_attr (fun _ _ => rfl) r) (fun _ => rfl) h hr.1
  | mkdir parent name mode umask uid gid =>
    refine (Prog.wp_map ..).mpr (Prog.wp_mono (Fs.createNode_spec h) fun r s' hr => ?_)
    exact .of_removed (plain_attr (fun _ _ => rfl) r) (fun _ => rfl) hr.1
      ⟨hr.2.2.1, fun fh => by rw [hr.2.1]⟩
  | create parent name mode umask uid gid =>
    refine (Prog.wp_map ..).mpr (Prog.wp_mono (Fs.createNode_spec h) fun r s' hr => ?_)
    exact .of_removed (plain_attr (fun _ _ => rfl) r) (fun _ => rfl) hr.1
      ⟨hr.2.2.1, fun fh => by rw [hr.2.1]⟩
  | symlink parent name target uid gid =>
    refine (Prog.wp_map ..).mpr (Prog.wp_mono (Fs.createNode_spec h) fun r s' hr => ?_)
    exact .of_removed (plain_attr (fun _ _ => rfl) r) (fun _ => rfl) hr.1
      ⟨hr.2.2.1, fun fh => by rw [hr.2.1]⟩
  | link ino newParent newName =>
    refine (Prog.wp_map ..).mpr (Prog.wp_mono (Fs.link_spec hc h) fun r s' hr => ?_)
    exact .of_removed (plain_attr (fun _ _ => rfl) r) (fun _ => rfl) hr.1
      ⟨hr.2.2.1, fun fh => by rw [hr.2.1]⟩
  | setattr ino mode uid gid size atime mtime =>
    refine (Prog.wp_map ..).mpr
      (Prog.wp_mono (Fs.setattr_spec mode uid gid size atime mtime h) ?_)
    rintro r s' ⟨hinv, hframe, -, hresult⟩
    refine .of_frame (plain_attr (fun _ _ => rfl) r) hinv hframe fun hok i hi => ?_
    obtain ⟨rfl, -⟩ := of_decide_eq_true hi
    rcases r with e | attr
    · cases hok
    · exact .inl hresult.2.2.2.2.2.1
  | openFile ino =>
    refine (Prog.wp_map ..).mpr (Prog.wp_mono (Fs.openFile_spec h hc) ?_)
    rintro r s' ⟨hinv, -, hkept, hresult⟩
    rcases r with e | k
    · exact .of_kept hinv hkept hresult.1.handles nofun fun _ => rfl
    · refine .of_kept hinv hkept hresult.2.2.handles (fun fh hfh => ?_) fun _ => rfl
      obtain rfl : k = fh := Option.some.inj hfh
      exact hresult.2.2.new
  | read ino offset size =>
    refine (Prog.wp_map ..).mpr (Prog.wp_mono (Fs.read_spec h.toCore) fun r s' hr => ?_)
    exact .of_idle ⟨fun _ => rfl, by rcases r with e | a <;> rfl⟩ (fun _ => rfl) h hr.1
  | readFh fh offset size =>
    refine (Prog.wp_map ..).mpr (Prog.wp_mono (Fs.readFh_spec h.toCore) fun r s' hr => ?_)
    rcases hfh : s.table.handleIno fh with _ | ino
    · rw [hfh] at hr
      obtain ⟨rfl, rfl⟩ := hr
      exact .of_badHandle ⟨fun _ => rfl, rfl⟩ h
    · rw [hfh] at hr
      exact .of_idle ⟨fun _ => rfl, by rcases r with e | a <;> rfl⟩ (fun _ => rfl) h hr.1
  | write ino offset data =>
    refine (Prog.wp_map ..).mpr (Prog.wp_mono (Fs.write_spec hc h) fun r s' hr => ?_)
    exact .of_unsaved ⟨fun _ => rfl, by rcases r with e | a <;> rfl⟩ (fun _ => rfl) hr.1 hr.2.1
  | writeFh fh offset data =>
    refine (Prog.wp_map ..).mpr (Prog.wp_mono (Fs.writeFh_spec hc h) fun r s' hr => ?_)
    rcases hfh : s.table.handleIno fh with _ | ino
    · rw [hfh] at hr
      obtain ⟨-, rfl, rfl⟩ := hr
      exact .of_badHandle ⟨fun _ => rfl, rfl⟩ h
    · rw [hfh] at hr
      exact .of_unsaved ⟨fun _ => rfl, by rcases r with e | a <;> rfl⟩ (fun _ => rfl) hr.1 hr.2.1
  | fallocate ino offset length mode =>
    refine (Prog.wp_map ..).mpr (Prog.wp_mono (Fs.fallocate_spec h) fun r s' hr => ?_)
    exact .of_unsaved (plain_empty (fun _ _ => rfl) r) (fun _ => rfl) hr.1 hr.2.1
  | flushFile ino =>
    refine (Prog.wp_map ..).mpr (Prog.wp_mono (Fs.flushFile_spec h) fun r s' hr => ?_)
    exact .of_flush hr.1 (plain_empty fun _ _ => rfl)
      (fun i hi => (of_decide_eq_true hi : ino = i).symm) hr.2
  | flushFh fh =>
    refine (Prog.wp_map ..).mpr (Prog.wp_mono (Fs.flushFh_spec h) fun r s' hr => ?_)
    rcases hfh : s.table.handleIno fh with _ | ino
    · rw [hfh] at hr
      obtain ⟨-, rfl, rfl⟩ := hr
      exact .of_badHandle ⟨fun _ => rfl, rfl⟩ h
    · rw [hfh] at hr
      exact .of_flush hr.1 (plain_empty fun _ _ => rfl)
        (fun i hi => Option.some.inj ((of_decide_eq_true hi).symm.trans hfh)) hr.2
  | syncFh fh =>
    refine (Prog.wp_map ..).mpr (Prog.wp_mono (Fs.syncFh_spec h) fun r s' hr => ?_)
    rcases hfh : s.table.handleIno fh with _ | ino
    · rw [hfh] at hr
      obtain ⟨-, rfl, rfl⟩ := hr
      exact .of_badHandle ⟨fun _ => rfl, rfl⟩ h
    · rw [hfh] at hr
      exact .of_flush hr.1 (plain_empty fun _ _ => rfl)
        (fun i hi => Option.some.inj ((of_decide_eq_true hi).symm.trans hfh)) hr.2
  | flushAll =>
    refine (Prog.wp_map ..).mpr (Prog.wp_mono (Fs.flushAll_spec h) ?_)
    rintro r s' ⟨hinv, hquiet, hok, -⟩
    refine .of_frame (plain_empty (fun _ _ => rfl) r) hinv hquiet fun hr i _ => ?_
    rcases r with e | ⟨⟩
    · cases hr
    · exact (hok rfl).2 i
  | releaseFile fh =>
    refine (Prog.wp_map ..).mpr (Prog.wp_mono (Fs.releaseFh_spec h) ?_)
    rintro r s' ⟨hinv, hresult⟩
    have hold : newHandle (r.map fun _ => .empty) = none := by rcases r with e | ⟨⟩ <;> rfl
    rcases hfh : s.table.handleIno fh with _ | ino
    · rw [hfh] at hresult
      obtain ⟨rfl, rfl⟩ := hresult
      refine ⟨h, rfl, rfl, fun k => ?_, nofun, nofun⟩
      change _ = if k = fh then none else _
      split
      · next heq => rw [heq, hfh]
      · rfl
    · rw [hfh] at hresult
      obtain ⟨hkept, hhandles, hcase⟩ := hresult
      refine ⟨hinv, hkept.closing, hkept.maxSlots, hhandles,
        fun k hk => (nomatch hold.symm.trans hk), fun hok i hi hnamed => ?_⟩
      obtain rfl : ino = i := Option.some.inj (hfh.symm.trans (of_decide_eq_true hi))
      refine Fs.stored_of_settled hinv.toCore ?_ hnamed
      rcases r with e | ⟨⟩
      · cases hok
      · rcases hcase with hclosed | hdeleted
        · rcases (hclosed.ok rfl).2 with hclean | hunlinked
          · exact .inl hclean
          · exact hkept.steady ino (.inr hunlinked)
        · exact .inl fun o ho => nomatch hdeleted.none.symm.trans ho
  | unlink parent name =>
    refine (Prog.wp_map ..).mpr (Prog.wp_mono (Fs.unlink_spec h) fun r s' hr => ?_)
    exact .of_removed (plain_empty (fun _ _ => rfl) r) (fun _ => rfl) hr.1 hr.2.1
  | rmdir parent name =>
    refine (Prog.wp_map ..).mpr (Prog.wp_mono (Fs.rmdir_spec hc h) fun r s' hr => ?_)
    exact .of_removed (plain_empty (fun _ _ => rfl) r) (fun _ => rfl) hr.1 hr.2.1
  | rename parent name newParent newName flags =>
    refine (Prog.wp_map ..).mpr (Prog.wp_mono (Fs.rename_spec hc h) fun r s' hr => ?_)
    exact .of_removed (plain_empty (fun _ _ => rfl) r) (fun _ => rfl) hr.1 hr.2.1
  | createOpen parent name mode umask uid gid =>
    refine (Prog.wp_map ..).mpr (Prog.wp_mono (Fs.createOpen_spec h) ?_)
    rintro r s' ⟨hinv, hresult⟩
    rcases r with e | ⟨attr, k⟩
    · have hquiet : Quiet s s' := Frame.of_eq hresult.1 hresult.2.1
      exact .of_unsaved ⟨fun _ => rfl, rfl⟩ (fun _ => rfl) hinv hquiet
    · refine .of_kept hinv hresult.2.1 hresult.2.2.1.handles (fun fh hfh => ?_) fun _ => rfl
      obtain rfl : k = fh := Option.some.inj hfh
      exact hresult.2.2.1.new

/-- A step keeps the invariant. -/
theorem step_keeps (env : Env) {c : Call} (h : s.Inv [] busy) (hc : Admissible busy s c) :
    Keeps busy s c (reply env s c) (step env s c) := by
  have hkeeps : Keeps busy s c (reply env s c) (call env c s).2 := call_spec env c h hc
  refine { hkeeps with inv := hkeeps.inv.record _ fun ino hnamed hsaves => ?_ }
  rw [Bool.and_eq_true] at hsaves
  exact hkeeps.saved hsaves.1 ino hsaves.2 hnamed

section Legal

/-- Directories other than the root cannot be opened, so none that is removed has a slot. -/
private theorem closed_of_directory (h : s.Inv [] fun _ => False) (hne : ino ≠ 1)
    (hkind : s.db.kindOf ino = some .directory) : s.table.file ino = none := by
  rcases ho : s.table.file ino with _ | o
  · rfl
  · have hdir : o.kind = .directory := Option.some.inj ((h.kindOf ho).symm.trans hkind)
    exact ((h.directory ino o ho hdir).elim hne False.elim).elim

private theorem lookup_ne_root (h : s.Core [] busy) {parent : Nat} {name : Name} {target : Inode}
    (hlookup : s.db.lookup parent name = .ok target) :
    target.ino ≠ 1 ∧ s.db.kindOf target.ino = some target.kind := by
  obtain ⟨-, d, r, hd, -, -, hr, rfl⟩ := Db.lookup_cases hlookup
  have hino : r.inode.ino = d.childIno := Db.findInode_ino hr
  rw [hino]
  exact ⟨h.sound.tree.rootUnnamed d hd, Db.kindOf_of_find hr⟩

theorem Legal.admissible {c : Call} (h : s.Inv [] fun _ => False) (hl : Legal s c) :
    Admissible (fun _ => False) s c := by
  cases c with
  | openFile ino =>
    intro hkind
    obtain ⟨r, hr, hdir⟩ := Option.map_eq_some_iff.mp hkind
    exact .inl (hl r hr hdir)
  | link ino newParent newName => exact hl
  | write ino offset data => exact hl
  | writeFh fh offset data => exact hl
  | rmdir parent name =>
    intro now db hdb target hlookup
    obtain ⟨hne, hkind⟩ := lookup_ne_root h.toCore hlookup
    obtain ⟨target', hlookup', hdb⟩ := except_bind_eq_ok.mp hdb
    obtain rfl := Except.ok.inj (hlookup.symm.trans hlookup')
    split at hdb
    · cases hdb
    · next hdir =>
      rw [not_not] at hdir
      exact closed_of_directory h hne (hdir ▸ hkind)
  | rename parent name newParent newName flags =>
    intro _ isOpen now target db hdb hdir
    obtain ⟨d, r, -, -, -, -, -, -, hcase⟩ := Db.renameEntry_cases hdb
    rcases hcase with ⟨-, hnone, -⟩ | ⟨-, hexisting, -⟩
    · cases hnone
    · obtain ⟨hne, hkind⟩ := lookup_ne_root h.toCore (Db.existingTarget_some hexisting)
      exact closed_of_directory h hne (hdir ▸ hkind)
  | getattr | lookup | mkdir | create | symlink | setattr | read | readFh | fallocate | flushFile
  | flushFh | syncFh | flushAll | releaseFile | unlink | createOpen => trivial

/-- Every legal run keeps the invariant and the budget. -/
theorem run_inv {calls : List Call} (h : s.Inv [] fun _ => False)
    (hcalls : LegalCalls env s calls) :
    (run env s calls).Inv [] (fun _ => False) ∧
      (run env s calls).table.arena.maxSlots = s.table.arena.maxSlots := by
  refine runFrom_induction (I := fun s₁ => s₁.Inv [] (fun _ => False) ∧
    s₁.table.arena.maxSlots = s.table.arena.maxSlots) (fun s₁ c hc hs₁ => ?_) ⟨h, rfl⟩ hcalls
  have hkeeps : Keeps _ s₁ c (reply env s₁ c) (step env s₁ c) :=
    step_keeps env hs₁.1 (Legal.admissible hs₁.1 hc)
  exact ⟨hkeeps.inv, hkeeps.maxSlots.trans hs₁.2⟩

end Legal

end Dbfs

section Start

private theorem OpenTable.WF.new (writeBuffer : Nat) : (OpenTable.new writeBuffer).WF [] := by
  have hget : ∀ slot, (OpenTable.new writeBuffer).inodes.get slot = .absent := fun _ => rfl
  refine ⟨List.nodup_nil, List.Perm.refl _, nofun, fun slot => by rw [hget]; rfl,
    fun slot _ => by rw [hget]; exact ⟨rfl, rfl⟩, fun slot => ?_, ⟨List.nodup_nil, fun fh => ?_⟩,
    nofun, ⟨Nat.lt_of_lt_of_le Nat.zero_lt_one (Nat.le_max_right _ _), Nat.zero_le _⟩,
    List.Perm.refl _⟩
  · rw [hget]
    exact DirtyIdx.sorted_empty
  · exact ⟨nofun, nofun⟩

theorem Shared.Inv.withWriteBuffer {db : Db} (hs : db.Sound) (writeBuffer : Nat) :
    (Shared.withWriteBuffer db writeBuffer).Inv [] busy := by
  have hcore : Shared.Core [] busy ⟨db, .new writeBuffer, .ok (), 0, 0, []⟩ :=
    ⟨hs, .new writeBuffer, nofun, nofun, trivial⟩
  exact hcore.record _ fun ino _ => .inl rfl

end Start

/-- The databases that the program can have left: fresh, changed by a method of the store, or as a
crash of a file system on one of them left it. -/
inductive Db.Reached : Db → Prop
  | fresh (mountUid mountGid : UInt32) (now : Timestamp) : Reached (Db.fresh mountUid mountGid now)
  | store {db : Db} (call : Timestamp × StoreCall) (h : Reached db) (hallowed : db.Allowed call) :
      Reached (db.step call)
  | crash {db : Db} (writeBuffer : Nat) (env : Env) (calls : List Call) (m : Moment)
    (h : Reached db)
      (hlegal : Dbfs.LegalCalls env (.withWriteBuffer db writeBuffer) calls)
      (hm : m ∈ (Dbfs.run env (.withWriteBuffer db writeBuffer) calls).moments) : Reached m.db

private theorem Chronicle.sound {m : Moment} {ms : List Moment} (h : Chronicle ms) (hm : m ∈ ms) :
    m.db.Sound := by
  induction ms with
  | nil => cases hm
  | cons m' ms ih =>
    rcases List.mem_cons.mp hm with rfl | hm
    · exact h.1
    · exact ih h.2.2 hm

theorem Db.Reached.sound {db : Db} (h : db.Reached) : db.Sound := by
  induction h with
  | fresh mountUid mountGid now => exact Db.Sound.fresh mountUid mountGid now
  | store call _ hallowed ih => exact ih.step hallowed
  | crash writeBuffer env calls m _ hlegal hm ih =>
    exact (Dbfs.run_inv (.withWriteBuffer ih writeBuffer) hlegal).1.chronicle.sound hm

theorem Db.Reached.runCalls {db : Db} (h : db.Reached) {calls : List (Timestamp × StoreCall)}
    (hallowed : db.AllowedCalls calls) : (db.runCalls calls).Reached :=
  runFrom_induction (I := Reached) (fun _ call hcall hdb => .store call hdb hcall) h hallowed

namespace Db

/-- A rename succeeds exactly when both names fit, the source exists and may move to its new place.
Then the entries change at the two names only, and a replaced inode loses a link or is deleted. Two
names of one inode are no exception. -/
theorem rename_of_reached {db : Db} (hdb : db.Reached) (parent : Nat) (name : Name)
    (newParent : Nat) (newName : Name) (noreplace : Bool) (isOpen : Nat → Bool) (now : Timestamp) :
    ((∃ result, db.renameEntry parent name newParent newName noreplace isOpen now = .ok result) ↔
      name.length ≤ nameMax ∧ newName.length ≤ nameMax ∧
        ∃ d, db.findEntry parent name = some d ∧ db.MayMove d newParent newName noreplace) ∧
    ∀ replaced db',
      db.renameEntry parent name newParent newName noreplace isOpen now = .ok (replaced, db') →
        ¬(parent = newParent ∧ name = newName) →
          db.Renamed db' parent name newParent newName isOpen := by
  have hs := hdb.sound
  refine ⟨⟨?_, ?_⟩, ?_⟩
  · rintro ⟨⟨replaced, db'⟩, h⟩
    exact mayMove_of_ok hs.keys hs.tree h
  · rintro ⟨hname, hnew, d, hd, hmay⟩
    exact renameEntry_succeeds hs.keys hs.tree hname hnew hd hmay
  · intro replaced db' h hdiff
    exact renameEntry_renamed hs h hdiff

theorem rename_of_subtreeMove :
    let db := (Db.fresh 0 0 ⟨0, 0⟩).runCalls (subtreeMove.take 4)
    db.Reached ∧ ∃ replaced db', db.renameEntry 2 [98] 1 [100] false (fun _ => false) ⟨5, 0⟩ =
      .ok (replaced, db') ∧ db.Renamed db' 2 [98] 1 [100] fun _ => false := by
  intro db
  have hdb : db.Reached := Reached.runCalls (.fresh 0 0 ⟨0, 0⟩) (by decide)
  have hrename := rename_of_reached hdb 2 [98] 1 [100] false (fun _ => false) ⟨5, 0⟩
  have hmay : db.MayMove ⟨2, 2, [98], 3⟩ 1 [100] false := by
    refine ⟨by decide, ?_, .inr (.inr ⟨rfl, ⟨4, 1, [100], 5⟩, by decide, .inr (by decide)⟩)⟩
    -- the root is below no directory
    rintro ⟨-, hup⟩
    rcases Relation.ReflTransGen.cases_head hup with heq | ⟨b, ⟨-, d, hd, hchild, -⟩, -⟩
    · cases heq
    · exact hdb.sound.tree.rootUnnamed d hd hchild
  obtain ⟨⟨replaced, db'⟩, hok⟩ := hrename.1.mpr ⟨by decide, by decide, _, by decide, hmay⟩
  exact ⟨hdb, replaced, db', hok, hrename.2 replaced db' hok (by decide)⟩

end Db

/-- The states of a file system on a reached database after some calls. -/
theorem Dbfs.inv_of_run {db : Db} (h : db.Reached) (writeBuffer : Nat) {calls : List Call}
    (hcalls : LegalCalls env (.withWriteBuffer db writeBuffer) calls) :
    (run env (.withWriteBuffer db writeBuffer) calls).Inv [] (fun _ => False) ∧
      (run env (.withWriteBuffer db writeBuffer) calls).table.arena.maxSlots =
        max (writeBuffer / chunkSize) 1 :=
  run_inv (.withWriteBuffer h.sound writeBuffer) hcalls

end VibeDbfs
