import VibeDbfs.Fuse.Crashes

/-!
How long an inode lives: until its last name and its last handle are gone, and not longer. What
the link count says on disk the table says in memory.
-/

set_option autoImplicit false
set_option relaxedAutoImplicit false

namespace VibeDbfs

open Lib Lib.Bytes Shared

variable {db db' : Db} {env : Env} {held : List ArenaSlot} {busy : Nat → Prop} {ino : Nat}

namespace Db

def Nameless (db : Db) (ino : Nat) : Prop := (db.kindOf ino).isSome ∧ db.nlinkOf ino = 0

private theorem Nameless.before (hs : db.Linked) (hs' : db'.Linked) (h : db'.Nameless ino)
    (hkind : db'.kindOf ino = db.kindOf ino)
    (hkept : ∀ e ∈ db.dirents, e.childIno = ino → ∃ e' ∈ db'.dirents, e'.childIno = ino) :
    db.Nameless ino := by
  have hfile := hs'.not_directory h.1 h.2
  refine ⟨hkind ▸ h.1, hs.nlink_eq_zero (hkind ▸ hfile) fun e he heq => ?_⟩
  obtain ⟨e', he', heq'⟩ := hkept e he heq
  exact hs'.unnamed h.2 e' he' heq'

section Drop

variable {d : Dirent} {r : InodeRow} {isOpen : Bool} {now : Timestamp}

private theorem Nameless.dropped (hs : db.Linked) (hs' : db'.Linked) (hd : d ∈ db.dirents)
    (hr : db.findInode d.childIno = some r) (h : db'.Nameless d.childIno)
    (hgone : LastName r isOpen → db'.kindOf d.childIno = none)
    (hkept : ∀ e ∈ (db.deleteDirent d.parentIno d.name).dirents,
      ∃ e' ∈ db'.dirents, e'.childIno = e.childIno) :
    r.kind ≠ .directory ∧ r.nlink ≤ 1 ∧ isOpen = true := by
  have hmore : ¬LastName r isOpen := fun hlast => by
    have hsome := h.1
    rw [hgone hlast] at hsome
    cases hsome
  obtain ⟨hfile, hopen⟩ := not_or.mp hmore
  have hone : r.nlink ≤ 1 := by
    by_contra hlt
    -- another entry names the inode, and it is still there
    have hexact := hs.exact d.childIno (Option.isSome_of_eq_some (kindOf_of_find hr))
    rw [Names.linkCount, if_neg (by simpa [names, kindOf_of_find hr] using hfile)] at hexact
    change db.nlinkOf d.childIno = db.dirents.countP _ at hexact
    rw [nlinkOf_of_find hr, (perm_deleteDirent hs.tree hd).countP_eq, List.countP_cons,
      if_pos (by simp)] at hexact
    obtain ⟨e, he, heq⟩ := List.countP_pos_iff.mp (show 0 < List.countP
      (fun e => decide (e.childIno = d.childIno))
      (db.deleteDirent d.parentIno d.name).dirents by omega)
    obtain ⟨e', he', heq'⟩ := hkept e he
    exact hs'.unnamed h.2 e' he' (heq'.trans (of_decide_eq_true heq))
  refine ⟨hfile, hone, ?_⟩
  rw [← Bool.not_eq_false]
  intro hclosed
  exact hopen ⟨hone, hclosed⟩

end Drop

end Db

namespace Shared

/-- An inode without a name is there because its slot waits for the last handle to go. -/
def Reclaims (s : Shared) : Prop := ∀ ino, s.db.Nameless ino → (s.file ino).unlinked = true

/-- The inode has no name, and no slot of it waits for the last handle. -/
def Left (s : Shared) (ino : Nat) : Prop := s.db.Nameless ino ∧ (s.file ino).unlinked = false

variable {s s' : Shared} {touched : Nat → Prop}

private theorem reclaims_iff : s.Reclaims ↔ ∀ i, ¬s.Left i := by
  refine ⟨fun h i hleft => ?_, fun h i hnameless => ?_⟩
  · cases (h i hleft.1).symm.trans hleft.2
  · rw [← Bool.not_eq_false]
    exact fun hunlinked => h i ⟨hnameless, hunlinked⟩

/-- What is left in `s'` was left in `s`. -/
def LeavesNone (s s' : Shared) : Prop := ∀ i, s'.Left i → s.Left i

private theorem LeavesNone.of_frame (hframe : Frame touched s s') : LeavesNone s s' := by
  rintro i ⟨hnameless, hunlinked⟩
  exact ⟨⟨hframe.kind ▸ hnameless.1, hframe.nlink ▸ hnameless.2⟩, hframe.unlinked i ▸ hunlinked⟩

private theorem LeavesNone.of_eq (hdb : s'.db = s.db) (htable : s'.table = s.table) :
    LeavesNone s s' := by
  have hquiet : Quiet s s' := Frame.of_eq hdb htable
  exact .of_frame hquiet

private theorem LeavesNone.of_added (hs : s.db.Linked) (hs' : s'.db.Linked)
    (htable : s'.table = s.table)
    (hkind : ∀ i, s'.db.kindOf i = s.db.kindOf i ∨ ∃ e' ∈ s'.db.dirents, e'.childIno = i)
    (hentries : ∀ e ∈ s.db.dirents, e ∈ s'.db.dirents) : LeavesNone s s' := by
  rintro i ⟨hnameless, hunlinked⟩
  rcases hkind i with hkind | ⟨e', he', heq⟩
  · refine ⟨hnameless.before hs hs' hkind fun e he heq => ⟨e, hentries e he, heq⟩, ?_⟩
    change ((s.table.file i).map OpenFile.unlinked).getD false = false
    rw [← htable]
    exact hunlinked
  · exact (hs'.unnamed hnameless.2 e' he' heq).elim

private theorem LeavesNone.of_removed {d : Dirent} {r : InodeRow} {isOpen : Bool}
    (hcore : s.Core held busy) (hs' : s'.db.Linked) (hd : d ∈ s.db.dirents)
    (hr : s.db.findInode d.childIno = some r)
    (htable : s'.table = s.table.entryRemoved r.inode)
    (hopen : r.kind ≠ .directory → isOpen = s.table.isOpen d.childIno)
    (hkind : ∀ i, i ≠ d.childIno → s'.db.kindOf i = s.db.kindOf i)
    (hgone : Db.LastName r isOpen → s'.db.kindOf d.childIno = none)
    (hkept : ∀ e ∈ (s.db.deleteDirent d.parentIno d.name).dirents,
      ∃ e' ∈ s'.db.dirents, e'.childIno = e.childIno) : LeavesNone s s' := by
  have hs := hcore.sound.toLinked
  obtain ⟨-, -, -, hfiles⟩ := hcore.table.entryRemoved r.inode
  rw [show r.inode.ino = d.childIno from Db.findInode_ino hr, ← htable] at hfiles
  rintro ino ⟨hnameless, hunlinked⟩
  by_cases hino : ino = d.childIno
  · subst hino
    obtain ⟨hfile, hone, hisOpen⟩ := hnameless.dropped hs hs' hd hr hgone hkept
    rw [hopen hfile] at hisOpen
    obtain ⟨o, ho, hrefs⟩ := OpenTable.isOpen_iff.mp hisOpen
    have hflag : OpenTable.afterRemoval r.inode o = some { o with unlinked := true } :=
      (if_neg (not_or.mpr ⟨hfile, Nat.not_lt.mpr hone⟩)).trans (if_pos hrefs)
    rw [Shared.file, hfiles, if_pos rfl, ho, Option.bind_some, hflag] at hunlinked
    cases hunlinked
  · refine ⟨hnameless.before hs hs' (hkind ino hino) fun e he heq => ?_, ?_⟩
    · rcases List.mem_cons.mp ((Db.perm_deleteDirent hs.tree hd).mem_iff.mp he) with rfl | hmem
      · exact (hino heq.symm).elim
      · obtain ⟨e', he', heq'⟩ := hkept e hmem
        exact ⟨e', he', heq'.trans heq⟩
    · rw [Shared.file, hfiles, if_neg hino] at hunlinked
      exact hunlinked

end Shared

namespace Fs

variable {s s' : Shared}

private theorem leavesNone_created {parent : Nat} {name : Name} {node : NewNode} {uid gid : UInt32}
    {attr : FileAttr} (hs : s.db.Sound) (hs' : s'.db.Sound)
    (hunlinked : ∀ j, (s'.file j).unlinked = (s.file j).unlinked)
    (hcreated : Created s s' parent name node uid gid attr) : LeavesNone s s' := by
  obtain ⟨inode, now, hdb, -⟩ := hcreated
  obtain ⟨-, hkind, -⟩ := Db.createNode_rows hdb
  obtain ⟨-, -, -, -, -, heq⟩ := Db.createNode_cases hdb
  have hdirents : s'.db.dirents = (s.db.addNode parent name node uid gid now).dirents := by
    rw [heq]
    split <;> rfl
  have hnew : ∃ e' ∈ (s.db.addNode parent name node uid gid now).dirents,
      e'.childIno = s.db.nextIno := ⟨_, List.mem_append_right _ (List.mem_singleton_self _), rfl⟩
  have hleaves : LeavesNone s { s with db := s'.db } := by
    refine .of_added hs.toLinked hs'.toLinked rfl (fun i => ?_) fun e he => ?_
    · by_cases hi : i = s.db.nextIno
      · subst hi
        exact .inr (hdirents ▸ hnew)
      · exact .inl ((hkind i).trans (if_neg hi))
    · exact hdirents ▸ List.mem_append_left _ he
  rintro i ⟨hnameless, hflag⟩
  rw [hunlinked] at hflag
  exact hleaves i ⟨hnameless, hflag⟩

private theorem leavesNone_link {newParent : Nat} {newName : Name} {inode : Inode} {now : Timestamp}
    (hs : s.db.Sound) (htable : s'.table = s.table)
    (hdb : s.db.link ino newParent newName now = .ok (inode, s'.db)) : LeavesNone s s' := by
  refine .of_added hs.toLinked (hs.link hdb).toLinked htable
    (fun i => .inl ((Db.sameData_link hdb).kind i)) fun e he => ?_
  obtain ⟨-, r, -, -, -, -, -, heq⟩ := Db.link_cases hdb
  rw [heq]
  exact List.mem_append_left _ he

private theorem leavesNone_unlink {parent : Nat} {name : Name} {target : Inode} {now : Timestamp}
    (hcore : s.Core held busy) (hlookup : s.db.lookup parent name = .ok target)
    (htable : s'.table = s.table.entryRemoved target)
    (hdb : s.db.unlinkEntry parent name target (s.table.isOpen target.ino) now = .ok s'.db) :
    LeavesNone s s' := by
  have hs' := hcore.sound.unlinkEntry hlookup hdb
  obtain ⟨d, r, hd, -, -, hr, rfl, hfile, heq⟩ := Db.unlinkEntry_eq hlookup hdb
  have hempty : r.kind = .directory → ∀ e ∈ s.db.dirents, e.parentIno ≠ r.ino :=
    fun hdir => (hfile hdir).elim
  have hsame : Db.SameData (s.db.dropEntry d r (s.table.isOpen r.inode.ino) now) s'.db :=
    heq ▸ Db.sameData_touchDir
  have hdirents := Db.dirents_dropEntry now (s.table.isOpen r.inode.ino) hcore.sound.tree
    hcore.sound.exact hd hr hempty
  obtain ⟨-, hother, hgone, -⟩ := Db.relinked_dropEntry hcore.sound hs' hd hr hempty hsame
    fun e he => ⟨e, by rwa [heq] at he, rfl⟩
  refine .of_removed hcore hs'.toLinked hd hr htable
    (fun _ => congrArg s.table.isOpen (Db.findInode_ino hr)) hother hgone fun e he => ⟨e, ?_, rfl⟩
  rw [heq]
  exact hdirents.symm ▸ he

private theorem leavesNone_rmdir {parent : Nat} {name : Name} {now : Timestamp}
    (hcore : s.Core held busy) (htable : s'.table = s.table)
    (hdb : s.db.removeDir parent name now = .ok s'.db) : LeavesNone s s' := by
  have hs' := hcore.sound.removeDir hdb
  obtain ⟨d, r, hd, -, -, hr, hdir, hempty, heq⟩ := Db.removeDir_eq hdb
  have hsame : Db.SameData (s.db.dropEntry d r false now) s'.db :=
    heq ▸ Db.sameData_touchDir.trans (Db.sameData_addDirectoryNlink _)
  have hdirents := Db.dirents_dropEntry now false hcore.sound.tree hcore.sound.exact hd hr
    fun _ => hempty
  obtain ⟨-, hother, hgone, -⟩ := Db.relinked_dropEntry hcore.sound hs' hd hr (fun _ => hempty)
    hsame fun e he => ⟨e, by rwa [heq] at he, rfl⟩
  refine .of_removed hcore hs'.toLinked hd hr (htable.trans (if_pos (.inl hdir)).symm)
    (fun hfile => (hfile hdir).elim) hother hgone fun e he => ⟨e, ?_, rfl⟩
  rw [heq]
  exact hdirents.symm ▸ he

/-- A moved entry still names what it named. -/
private theorem children_kept {db : Db} {parent newParent : Nat} {name newName : Name}
    {now : Timestamp} (sourceIsDir targetIsDir : Bool) : ∀ e ∈ db.dirents, ∃ e' ∈
      (db.moveEntry parent name newParent newName sourceIsDir targetIsDir now).dirents,
        e'.childIno = e.childIno := by
  intro e he
  rw [Db.dirents_moveEntry]
  refine ⟨_, List.mem_map.mpr ⟨e, he, rfl⟩, ?_⟩
  split <;> rfl

private theorem leavesNone_rename {parent newParent : Nat} {name newName : Name} {noreplace : Bool}
    {replaced : Option Inode} {now : Timestamp} (hcore : s.Core held busy)
    (htable : s'.table = replaced.elim s.table s.table.entryRemoved)
    (hdb : s.db.renameEntry parent name newParent newName noreplace s.table.isOpen now =
      .ok (replaced, s'.db)) : LeavesNone s s' := by
  have hs' := hcore.sound.renameEntry hdb
  obtain ⟨d, r, hd, -, -, hr, -, -, hcase⟩ := Db.renameEntry_eq hcore.sound.tree hdb
  rcases hcase with ⟨-, -, rfl, heq⟩ | ⟨rfl, -, heq⟩ | ⟨f, q, hf, -, -, -, hq, rfl, -, hempty, heq⟩
  · exact .of_added hcore.sound.toLinked hs'.toLinked htable (fun i => .inl (by rw [heq]))
      fun e he => heq ▸ he
  · rintro ino ⟨hnameless, hunlinked⟩
    refine ⟨hnameless.before hcore.sound.toLinked hs'.toLinked ?_ fun e he hchild => ?_, ?_⟩
    · rw [heq]
      exact Db.kindOf_moveEntry _ _ _ ino
    · rw [heq]
      obtain ⟨e', he', heq'⟩ := children_kept _ _ e he
      exact ⟨e', he', heq'.trans hchild⟩
    · change ((s.table.file ino).map OpenFile.unlinked).getD false = false
      rw [← show s'.table = s.table from htable]
      exact hunlinked
  · have hsame : Db.SameData (s.db.dropEntry f q (s.table.isOpen q.ino) now) s'.db :=
      heq ▸ Db.sameData_moveEntry _ _
    have hdirents := Db.dirents_dropEntry now (s.table.isOpen q.ino) hcore.sound.tree
      hcore.sound.exact hf hq hempty
    obtain ⟨-, hother, hgone, -⟩ := Db.relinked_dropEntry hcore.sound hs' hf hq hempty hsame
      fun e he => by
        rw [heq] at he
        exact Db.children_moveEntry _ _ e he
    refine .of_removed hcore hs'.toLinked hf hq htable
      (fun _ => congrArg s.table.isOpen (Db.findInode_ino hq)) hother hgone fun e he => ?_
    rw [heq]
    exact children_kept _ _ e (hdirents.symm ▸ he)

/-- The last release takes the inode with it, unless the storage fails to delete it. -/
private theorem left_release {fh : Nat} {r : Except Errno Unit}
    (hcase : Closed env ino s s' r ∨ Deleted env fh ino s s' r) (i : Nat) (hleft : s'.Left i) :
    s.Left i ∨ env.Failed s s' ∧ r.isOk = false ∧ i = ino := by
  obtain ⟨hnameless, hunlinked⟩ := hleft
  rcases hcase with hclosed | hdeleted
  · have hkind : s'.db.kindOf i = s.db.kindOf i := congrFun (congrArg Names.kind hclosed.names) i
    have hnlink : s'.db.nlinkOf i = s.db.nlinkOf i :=
      congrFun (congrArg Names.nlink hclosed.names) i
    exact .inl ⟨⟨hkind ▸ hnameless.1, hnlink ▸ hnameless.2⟩, hclosed.unlinked i ▸ hunlinked⟩
  · rcases r with e | ⟨⟩
    · obtain ⟨hfailed, hdb⟩ := hdeleted.error nofun
      by_cases hi : i = ino
      · exact .inr ⟨hfailed, rfl, hi⟩
      · rw [hdb] at hnameless
        rw [hdeleted.other i hi] at hunlinked
        exact .inl ⟨hnameless, hunlinked⟩
    · have hdb := (hdeleted.ok rfl).2
      by_cases hi : i = ino
      · subst hi
        have hsome := hnameless.1
        rw [hdb, Db.kindOf_deleteInodeRows, if_pos rfl] at hsome
        cases hsome
      · rw [hdeleted.other i hi] at hunlinked
        refine .inl ⟨⟨?_, ?_⟩, hunlinked⟩
        · have hsome := hnameless.1
          rwa [hdb, Db.kindOf_deleteInodeRows, if_neg hi] at hsome
        · have hzero := hnameless.2
          rwa [hdb, Db.nlinkOf_deleteInodeRows hi] at hzero

end Fs

namespace Dbfs

section Leak

variable {s s' : Shared} {c : Call}

/-- What a call leaves: only a handle whose release failed adds to it. -/
def Leaves (env : Env) (s : Shared) (c : Call) (r : Except Errno Reply) (s' : Shared) : Prop :=
  ∀ i, s'.Left i → s.Left i ∨
    env.Failed s s' ∧ r.isOk = false ∧ ∃ fh, c = .releaseFile fh ∧ s.table.handleIno fh = some i

private theorem Leaves.of_none {r : Except Errno Reply} (h : LeavesNone s s') :
    Leaves env s c r s' :=
  fun i hleft => .inl (h i hleft)

private theorem leaves_node {parent : Nat} {name : Name} {node : NewNode} {uid gid : UInt32}
    (h : s.Inv [] busy) :
    Prog.wp (Reply.attr <$> Fs.createNode env parent name node uid gid) (Leaves env s c) s := by
  refine (Prog.wp_map ..).mpr (Prog.wp_mono (Fs.createNode_spec h) ?_)
  rintro r s' ⟨hinv, htable, -, hresult⟩
  rcases r with e | attr
  · exact .of_none (.of_eq hresult.1 htable)
  · refine .of_none (Fs.leavesNone_created h.sound hinv.sound (fun j => ?_) hresult.2)
    rw [Shared.file, Shared.file, htable]
    rfl

theorem leaves_call (env : Env) (h : s.Inv [] busy) (hadm : Admissible busy s c) :
    Prog.wp (call env c) (Leaves env s c) s := by
  have hsame : ∀ {c : Call} {s' : Shared} {r : Except Errno Reply}, s'.db = s.db →
      s'.table = s.table → Leaves env s c r s' := fun hdb htable => .of_none (.of_eq hdb htable)
  have hquiet : ∀ {c : Call} {s' : Shared} {r : Except Errno Reply} {touched : Nat → Prop},
      Frame touched s s' → Leaves env s c r s' := fun hframe => .of_none (.of_frame hframe)
  cases c with
  | getattr ino =>
    refine (Prog.wp_map ..).mpr (Prog.wp_mono (Fs.getattr_spec h.toCore) ?_)
    intro r s' hs'
    exact hquiet hs'.1.quiet
  | lookup parent name =>
    refine (Prog.wp_map ..).mpr (Prog.wp_mono (Fs.lookup_spec h.toCore) ?_)
    intro r s' hs'
    exact hquiet hs'.1.quiet
  | mkdir parent name mode umask uid gid => exact leaves_node h
  | create parent name mode umask uid gid => exact leaves_node h
  | symlink parent name target uid gid => exact leaves_node h
  | link ino newParent newName =>
    refine (Prog.wp_map ..).mpr (Prog.wp_mono (Fs.link_spec hadm h) ?_)
    rintro r s' ⟨hinv, htable, -, hresult⟩
    rcases r with e | attr
    · exact hsame hresult.1 htable
    · obtain ⟨-, inode, now, hdb, -⟩ := hresult
      exact .of_none (Fs.leavesNone_link h.sound htable hdb)
  | setattr ino mode uid gid size atime mtime =>
    refine (Prog.wp_map ..).mpr
      (Prog.wp_mono (Fs.setattr_spec mode uid gid size atime mtime h) ?_)
    intro r s' hs'
    exact hquiet hs'.2.1
  | openFile ino =>
    refine (Prog.wp_map ..).mpr (Prog.wp_mono (Fs.openFile_spec h hadm) ?_)
    rintro r s' ⟨-, hdb, -, hresult⟩
    rcases r with e | fh
    · exact hquiet hresult.1
    · rintro i ⟨hnameless, hunlinked⟩
      rw [hdb] at hnameless
      rw [hresult.2.2.unlinked] at hunlinked
      exact .inl ⟨hnameless, hunlinked⟩
  | read ino offset size =>
    refine (Prog.wp_map ..).mpr (Prog.wp_mono (Fs.read_spec h.toCore) ?_)
    intro r s' hs'
    exact hquiet hs'.1.quiet
  | readFh fh offset size =>
    refine (Prog.wp_map ..).mpr (Prog.wp_mono (Fs.readFh_spec h.toCore) ?_)
    intro r s' hs'
    rcases hfh : s.table.handleIno fh with _ | ino
    · rw [hfh] at hs'
      exact hsame (congrArg Shared.db hs'.2) (congrArg Shared.table hs'.2)
    · rw [hfh] at hs'
      exact hquiet hs'.1.quiet
  | write ino offset data =>
    refine (Prog.wp_map ..).mpr (Prog.wp_mono (Fs.write_spec hadm h) ?_)
    intro r s' hs'
    exact hquiet hs'.2.1
  | writeFh fh offset data =>
    refine (Prog.wp_map ..).mpr (Prog.wp_mono (Fs.writeFh_spec hadm h) ?_)
    rintro r s' ⟨-, hs'⟩
    rcases hfh : s.table.handleIno fh with _ | ino
    · rw [hfh] at hs'
      exact hsame (congrArg Shared.db hs'.2) (congrArg Shared.table hs'.2)
    · rw [hfh] at hs'
      exact hquiet hs'.1
  | fallocate ino offset length mode =>
    refine (Prog.wp_map ..).mpr (Prog.wp_mono (Fs.fallocate_spec h) ?_)
    intro r s' hs'
    exact hquiet hs'.2.1
  | flushFile ino =>
    refine (Prog.wp_map ..).mpr (Prog.wp_mono (Fs.flushFile_spec h) ?_)
    intro r s' hs'
    exact hquiet hs'.2.1
  | flushFh fh =>
    refine (Prog.wp_map ..).mpr (Prog.wp_mono (Fs.flushFh_spec h) ?_)
    rintro r s' ⟨-, hs'⟩
    rcases hfh : s.table.handleIno fh with _ | ino
    · rw [hfh] at hs'
      exact hsame (congrArg Shared.db hs'.2) (congrArg Shared.table hs'.2)
    · rw [hfh] at hs'
      exact hquiet hs'.1
  | syncFh fh =>
    refine (Prog.wp_map ..).mpr (Prog.wp_mono (Fs.syncFh_spec h) ?_)
    rintro r s' ⟨-, hs'⟩
    rcases hfh : s.table.handleIno fh with _ | ino
    · rw [hfh] at hs'
      exact hsame (congrArg Shared.db hs'.2) (congrArg Shared.table hs'.2)
    · rw [hfh] at hs'
      exact hquiet hs'.1
  | flushAll =>
    refine (Prog.wp_map ..).mpr (Prog.wp_mono (Fs.flushAll_spec h) ?_)
    intro r s' hs'
    exact hquiet hs'.2.1
  | releaseFile fh =>
    refine (Prog.wp_map ..).mpr (Prog.wp_mono (Fs.releaseFh_spec h) ?_)
    rintro r s' ⟨-, hs'⟩
    rcases hfh : s.table.handleIno fh with _ | ino
    · rw [hfh] at hs'
      exact hsame (congrArg Shared.db hs'.2) (congrArg Shared.table hs'.2)
    · rw [hfh] at hs'
      intro i hleft
      rcases Fs.left_release hs'.2.2 i hleft with hbefore | ⟨hfailed, hok, rfl⟩
      · exact .inl hbefore
      · refine .inr ⟨hfailed, ?_, fh, rfl, hfh⟩
        rcases r with e | ⟨⟩
        · rfl
        · cases hok
  | unlink parent name =>
    refine (Prog.wp_map ..).mpr (Prog.wp_mono (Fs.unlink_spec h) ?_)
    rintro r s' ⟨-, -, hresult⟩
    rcases r with e | ⟨⟩
    · exact hsame hresult.1 hresult.2.1
    · obtain ⟨-, target, now, hlookup, htable, hdb⟩ := hresult
      exact .of_none (Fs.leavesNone_unlink h.toCore hlookup htable hdb)
  | rmdir parent name =>
    refine (Prog.wp_map ..).mpr (Prog.wp_mono (Fs.rmdir_spec hadm h) ?_)
    rintro r s' ⟨-, -, htable, hresult⟩
    rcases r with e | ⟨⟩
    · exact hsame hresult.1 htable
    · obtain ⟨-, now, hdb⟩ := hresult
      exact .of_none (Fs.leavesNone_rmdir h.toCore htable hdb)
  | rename parent name newParent newName flags =>
    refine (Prog.wp_map ..).mpr (Prog.wp_mono (Fs.rename_spec hadm h) ?_)
    rintro r s' ⟨-, -, hresult⟩
    rcases r with e | ⟨⟩
    · exact hsame hresult.1 hresult.2.1
    · obtain ⟨-, replaced, now, htable, hdb⟩ := hresult
      exact .of_none (Fs.leavesNone_rename h.toCore htable hdb)
  | createOpen parent name mode umask uid gid =>
    refine (Prog.wp_map ..).mpr (Prog.wp_mono (Fs.createOpen_spec h) ?_)
    rintro r s' ⟨hinv, hresult⟩
    rcases r with e | ⟨attr, fh⟩
    · exact hsame hresult.1 hresult.2.1
    · obtain ⟨-, -, hopened, -, hcreated⟩ := hresult
      exact .of_none (Fs.leavesNone_created h.sound hinv.sound hopened.unlinked hcreated)

theorem reclaims_call (hhealthy : env.Healthy) (h : s.Inv [] busy) (hadm : Admissible busy s c)
    (hr : s.Reclaims) : Prog.wp (call env c) (fun _ s' => s'.Reclaims) s := by
  refine Prog.wp_mono (leaves_call env h hadm) fun r s' hleaves =>
    reclaims_iff.mpr fun i hleft => ?_
  rcases hleaves i hleft with hbefore | ⟨hfailed, -⟩
  · exact reclaims_iff.mp hr i hbefore
  · exact hfailed.2 hhealthy

/-- No inode outlives its names and handles, and none goes before them. -/
structure NoLeak (s : Shared) : Prop where
  inode : ∀ r ∈ s.db.inodes, r.ino ≠ 1 →
    (∃ d ∈ s.db.dirents, d.childIno = r.ino) ∧
      (∀ slot, s.table.inodes.find r.ino = some slot → (s.table.inodes.get slot).unlinked = false) ∨
    (∀ d ∈ s.db.dirents, d.childIno ≠ r.ino) ∧ r.nlink = 0 ∧
      ∃ slot, s.table.inodes.find r.ino = some slot ∧ 0 < (s.table.inodes.get slot).refs ∧
        (s.table.inodes.get slot).unlinked = true
  slot : ∀ ino slot, s.table.inodes.find ino = some slot →
    (s.table.inodes.get slot).ino = ino ∧ ∃ r ∈ s.db.inodes, r.ino = ino
  symlink : ∀ row ∈ s.db.symlinkTargets, s.db.kindOf row.ino = some .symlink
  gone : ∀ ino ≠ 1, ino ≤ maxIno → (∀ d ∈ s.db.dirents, d.childIno ≠ ino) →
    (∀ fh, s.table.handleIno fh ≠ some ino) →
      (∀ r ∈ s.db.inodes, r.ino ≠ ino) ∧ (∀ row ∈ s.db.symlinkTargets, row.ino ≠ ino) ∧
      ∀ c < maxChunks, ∀ row ∈ s.db.fileChunks, row.id ≠ chunkKey ino c

theorem nameless_of_unnamed (hs : s.db.Linked) (hne : ino ≠ 1) (hsome : (s.db.kindOf ino).isSome)
    (hunnamed : ∀ d ∈ s.db.dirents, d.childIno ≠ ino) : s.db.Nameless ino := by
  refine ⟨hsome, hs.nlink_eq_zero (fun hdir => ?_) hunnamed⟩
  have hcount := hs.tree.named ino hne hdir
  have hzero : s.db.dirents.countP (fun d => d.childIno = ino) = 0 :=
    List.countP_eq_zero.mpr fun d hd heq => hunnamed d hd (of_decide_eq_true heq)
  exact absurd (hzero.symm.trans hcount) (by decide)

theorem slot_of_nameless (h : s.Inv [] busy) (hr : s.Reclaims) (hnameless : s.db.Nameless ino) :
    ∃ slot, s.table.inodes.find ino = some slot ∧ 0 < (s.table.inodes.get slot).refs ∧
      (s.table.inodes.get slot).unlinked = true := by
  have hunlinked := hr ino hnameless
  rcases hf : s.table.inodes.find ino with _ | slot
  · rw [Shared.file, OpenTable.file_eq_none.mpr hf] at hunlinked
    cases hunlinked
  · have hfile := OpenTable.file_of_find hf
    rw [Shared.file, hfile] at hunlinked
    exact ⟨slot, rfl, ((h.live ino _ hfile).unlinked hunlinked).1, hunlinked⟩

theorem named_or_open (h : s.Inv [] busy) (hr : s.Reclaims) (hne : ino ≠ 1)
    (hsome : (s.db.kindOf ino).isSome) :
    (∃ d ∈ s.db.dirents, d.childIno = ino) ∨ ∃ fh, s.table.handleIno fh = some ino := by
  by_cases hnamed : ∃ d ∈ s.db.dirents, d.childIno = ino
  · exact .inl hnamed
  · obtain ⟨slot, hf, hrefs, -⟩ := slot_of_nameless h hr (nameless_of_unnamed h.sound.toLinked hne
      hsome fun d hd heq => hnamed ⟨d, hd, heq⟩)
    rw [h.table.refs, List.count_pos_iff] at hrefs
    obtain ⟨fh, hlt, hget⟩ := List.mem_iff_getElem.mp hrefs
    have hfh : s.table.handles.get fh = some slot :=
      Handles.get_eq_some.mpr ((List.getElem?_eq_getElem hlt).trans (congrArg some hget))
    refine .inr ⟨fh, ?_⟩
    rw [OpenTable.handleIno, hfh]
    exact congrArg some (h.table.find_ino hf)

private theorem noLeak (h : s.Inv [] busy) (hr : s.Reclaims) : NoLeak s where
  inode r hmem hne := by
    have hrow : s.db.findInode r.ino = some r := h.sound.keys.mem_iff.mpr ⟨hmem, rfl⟩
    have hkind := Db.kindOf_of_find hrow
    by_cases hnamed : ∃ d ∈ s.db.dirents, d.childIno = r.ino
    · refine .inl ⟨hnamed, fun slot hf => Bool.eq_false_iff.mpr fun hunlinked => ?_⟩
      obtain ⟨d, hd, heq⟩ := hnamed
      have hfile := OpenTable.file_of_find hf
      exact h.sound.toLinked.unnamed ((h.live r.ino _ hfile).unlinked hunlinked).2 d hd heq
    · have hunnamed : ∀ d ∈ s.db.dirents, d.childIno ≠ r.ino := fun d hd heq => hnamed ⟨d, hd, heq⟩
      have hnameless := nameless_of_unnamed h.sound.toLinked hne (by rw [hkind]; rfl) hunnamed
      exact .inr ⟨hunnamed, (Db.nlinkOf_of_find hrow).symm.trans hnameless.2,
        slot_of_nameless h hr hnameless⟩
  slot ino slot hf := by
    refine ⟨h.table.find_ino hf, ?_⟩
    obtain ⟨r, hrow, -⟩ := Option.map_eq_some_iff.mp (h.kindOf (OpenTable.file_of_find hf))
    exact ⟨r, (h.sound.keys.mem_iff.mp hrow).1, Db.findInode_ino hrow⟩
  symlink := h.sound.symlinks
  gone ino hne hmax hunnamed hclosed := by
    have hnone : s.db.kindOf ino = none := by
      by_contra hsome
      rcases named_or_open h hr hne (Option.isSome_iff_ne_none.mpr hsome) with
        ⟨d, hd, heq⟩ | ⟨fh, hfh⟩
      · exact hunnamed d hd heq
      · exact hclosed fh hfh
    refine ⟨fun r hmem heq => ?_, fun row hrow heq => ?_, fun c hc row hrow heq => ?_⟩
    · have hrow : s.db.findInode r.ino = some r := h.sound.keys.mem_iff.mpr ⟨hmem, rfl⟩
      rw [← heq, Db.kindOf_of_find hrow] at hnone
      cases hnone
    · have hkind := h.sound.symlinks row hrow
      rw [heq, hnone] at hkind
      cases hkind
    · obtain ⟨owner, c', hc', hid, hkind, -⟩ := h.sound.owned.rows row hrow
      have howner := (h.sound.keys.range (Option.isSome_of_eq_some hkind)).2
      obtain ⟨rfl, -⟩ := (chunkKey_inj howner hmax hc' hc).mp (hid.symm.trans heq)
      rw [hnone] at hkind
      cases hkind

end Leak

end Dbfs

/-- The databases as `Db::open` leaves them. -/
inductive Db.Opened : Db → Prop
  | fresh (mountUid mountGid : UInt32) (now : Timestamp) : Opened (Db.fresh mountUid mountGid now)
  | reopened {db : Db} (h : db.Reached) (mountUid mountGid : UInt32) (now : Timestamp) :
      Opened (db.initializeTables mountUid mountGid now)

theorem Db.Opened.reached (h : db.Opened) : db.Reached := by
  cases h with
  | fresh mountUid mountGid now => exact .fresh mountUid mountGid now
  | reopened h mountUid mountGid now => exact .store (now, .reopen mountUid mountGid) h trivial

theorem Db.Opened.not_nameless (h : db.Opened) : ¬db.Nameless ino := by
  rintro ⟨hsome, hzero⟩
  cases h with
  | fresh mountUid mountGid now =>
    rw [Db.kindOf_fresh] at hsome
    split at hsome
    · next hroot =>
      subst hroot
      exact (Db.Sound.fresh mountUid mountGid now).not_directory
        (by rw [Db.kindOf_fresh]; rfl) hzero
        (by rw [Db.kindOf_fresh]; rfl)
    · cases hsome
  | @reopened before h mountUid mountGid now =>
    have hfile : (before.initializeTables mountUid mountGid now).file ino =
        if before.nlinkOf ino = 0 then .absent else before.file ino :=
      h.sound.file_initialize mountUid mountGid ino
    split at hfile
    · have hkind : (before.initializeTables mountUid mountGid now).kindOf ino = none :=
        congrArg StoredFile.kind hfile
      rw [hkind] at hsome
      cases hsome
    · next hnlink => exact hnlink ((congrArg StoredFile.nlink hfile).symm.trans hzero)

namespace Dbfs

/-- Where no SQLite statement fails, no state that a legal run reaches from an opened database has
leaked an inode or lost one early. -/
theorem noLeak_of_run (hdb : db.Opened) (writeBuffer : Nat) (env : Env) (hhealthy : env.Healthy)
    (calls : List Call) (h : LegalCalls env (.withWriteBuffer db writeBuffer) calls) :
    NoLeak (run env (.withWriteBuffer db writeBuffer) calls) := by
  have hstart : (Shared.withWriteBuffer db writeBuffer).Inv [] (fun _ => False) ∧
      (Shared.withWriteBuffer db writeBuffer).Reclaims :=
    ⟨.withWriteBuffer hdb.reached.sound writeBuffer, fun _ hnameless =>
      (hdb.not_nameless hnameless).elim⟩
  have hrun := runFrom_induction (I := fun s => s.Inv [] (fun _ => False) ∧ s.Reclaims)
    (fun s c hc hs => ?_) hstart h
  · exact noLeak hrun.1 hrun.2
  · have hadm := Legal.admissible hs.1 hc
    have hreclaims : (call env c s).2.Reclaims := reclaims_call hhealthy hs.1 hadm hs.2
    exact ⟨(step_keeps env hs.1 hadm).inv, hreclaims⟩

theorem noLeak_of_sharedFile :
    NoLeak (run calm (.withWriteBuffer (.fresh 0 0 ⟨0, 0⟩) 65536) sharedFile) :=
  noLeak_of_run (.fresh 0 0 ⟨0, 0⟩) 65536 calm (fun _ => rfl) sharedFile sharedFile_legal

end Dbfs

end VibeDbfs
