import VibeDbfs.Fuse.Blame
import VibeDbfs.Fuse.Lifetimes
import VibeDbfs.Storage.TreeRefinement

/-!
What the names and handles of a mounted file system are for: a tree of nodes, and the nodes that
handles keep. Every run of calls is a trace of it.
-/

set_option autoImplicit false
set_option relaxedAutoImplicit false

namespace VibeDbfs

open Lib Shared

/-- The nodes of `left` have lost their last name, and no handle takes them along when it is closed:
the storage failed when they were to go. -/
structure OpenTree where
  tree : FileTree
  handles : Nat → Option Nat
  left : Nat → Prop

/-- What a step is answered, and whether the storage failed in it. -/
structure Told (α : Type) where
  answer : α
  failed : Bool

namespace OpenTree

def mounted (t : FileTree) : OpenTree := ⟨t, fun _ => none, fun _ => False⟩

def IsOpen (m : OpenTree) (ino : Nat) : Prop := ∃ fh, m.handles fh = some ino

open scoped Classical in
noncomputable def isOpen (m : OpenTree) (ino : Nat) : Bool := decide (m.IsOpen ino)

def setHandle (m : OpenTree) (fh : Nat) (ino : Option Nat) : OpenTree :=
  { m with handles := fun k => if k = fh then ino else m.handles k }

noncomputable def nameCall (m : OpenTree) : Call → Option StoreCall
  | .mkdir p n mode umask uid gid =>
    some (.createNode p n (.directory (mode &&& ~~~umask)) uid gid)
  | .create p n mode umask uid gid => some (.createNode p n (.file (mode &&& ~~~umask)) uid gid)
  | .createOpen p n mode umask uid gid => some (.createNode p n (.file (mode &&& ~~~umask)) uid gid)
  | .symlink p n target uid gid => some (.createNode p n (.symlink target) uid gid)
  | .link i q n => some (.link i q n)
  | .unlink p n => some (.unlinkEntry p n ((m.tree.entry p n).any m.isOpen))
  | .rmdir p n => some (.removeDir p n)
  | .rename p n q n' flags =>
    if flags &&& ~~~Fs.renameNoreplace ≠ 0 then none
    else some (.renameEntry p n q n' (flags &&& Fs.renameNoreplace ≠ 0) m.isOpen)
  | _ => none

/-- The attributes are those of the node `ino`, as far as the tree knows them. -/
structure Shows (m : OpenTree) (ino : Nat) (attr : FileAttr) : Prop where
  same : attr.ino = ino
  kind : (m.tree.node ino).map Node.kind = some attr.kind

/-- A reply shows the node that the call was about; a new handle was not in use. -/
def Answers (m : OpenTree) (fresh : Nat) : Call → Reply → Prop
  | .mkdir .., .attr attr => m.Shows fresh attr
  | .create .., .attr attr => m.Shows fresh attr
  | .symlink .., .attr attr => m.Shows fresh attr
  | .createOpen .., .created attr fh => m.Shows fresh attr ∧ m.handles fh = none
  | .link ino _ _, .attr attr => m.Shows ino attr
  | .unlink .., .empty => True
  | .rmdir .., .empty => True
  | .rename .., .empty => True
  | _, _ => False

def after (m : OpenTree) : Reply → OpenTree
  | .created attr fh => m.setHandle fh (some attr.ino)
  | _ => m

/-- Why the node `ino` has no bytes. -/
def fileErrno (m : OpenTree) (ino : Nat) : Option Errno :=
  match (m.tree.node ino).map Node.kind with
  | none => some .ENOENT
  | some kind => kind.regularFileError.map errnoFromDbError

def Behind (m : OpenTree) (fh : Nat) (r : Except Errno Reply) (q : Nat → Prop) : Prop :=
  match m.handles fh with
  | some ino => q ino
  | none => r = .error .EBADF

def Reads (failed : Prop) (m : OpenTree) (r : Except Errno Reply) (ino : Nat) : Prop :=
  match r with
  | .ok (.data _) => m.fileErrno ino = none
  | .ok _ => False
  | .error e => failed ∨ m.fileErrno ino = some e

/-- What the tree says of a write of `length` bytes. Nothing is written when the shutdown has begun,
nor behind the end of the largest file. -/
def Writes (failed : Prop) (m : OpenTree) (length : Nat) (r : Except Errno Reply) (ino : Nat) :
    Prop :=
  match r with
  | .ok (.written n) => n = length % 4294967296 ∧ (length ≠ 0 → m.fileErrno ino = none)
  | .ok _ => False
  | .error e => failed ∨ m.fileErrno ino = some e ∨
      m.fileErrno ino = none ∧ (e = Errno.EIO ∨ e = Errno.EFBIG)

def Flushes (failed : Prop) (r : Except Errno Reply) : Prop :=
  match r with
  | .ok reply => reply = .empty
  | .error _ => failed

/-- The replies to the calls about the data or the metadata of a node, as far as the tree and the
handles know them. -/
def OnData (failed : Prop) (m : OpenTree) : Call → Except Errno Reply → Prop
  | .setattr ino .., .ok (.attr attr) => m.Shows ino attr
  | .setattr ino _ _ _ size _ _, .error e => failed ∨
      (m.fileErrno ino = some e ∧ (size.isSome ∨ m.tree.node ino = none)) ∨
        m.fileErrno ino = none ∧ (∃ n ∈ size, maxFileSize < n) ∧ e = .EFBIG
  | .read ino _ _, r => m.Reads failed r ino
  | .readFh fh _ _, r => m.Behind fh r fun ino => m.Reads failed r ino
  | .write ino _ data, r => m.Writes failed data.length r ino
  | .writeFh fh _ data, r => m.Behind fh r fun ino => m.Writes failed data.length r ino
  | .fallocate ino offset length _, .ok .empty =>
    m.fileErrno ino = none ∧ 0 ≤ offset ∧ 0 < length ∧ offset + length ≤ maxFileSize
  | .fallocate ino offset length mode, .error _ => failed ∨
      ¬(0 ≤ offset ∧ 0 < length ∧ mode &&& ~~~Fs.fallocFlKeepSize = 0 ∧
        m.fileErrno ino = none ∧ offset + length ≤ maxFileSize)
  | .flushFile _, r => Flushes failed r
  | .flushFh fh, r => m.Behind fh r fun _ => Flushes failed r
  | .syncFh fh, r => m.Behind fh r fun _ => Flushes failed r
  | .flushAll, r => Flushes failed r
  | _, _ => False

/-- The node stays when its handle `fh` is closed. -/
def Keeps (m : OpenTree) (fh ino : Nat) : Prop :=
  ino = 1 ∨ m.tree.Named ino ∨ (m.setHandle fh none).IsOpen ino ∨ m.left ino

/-- What a file system may answer to a call, and what may follow for the names and the handles. If
its storage `failed`, a call may fail and change nothing; only a handle that is released
is closed. -/
inductive Step (failed : Prop) (m : OpenTree) : Call → Except Errno Reply → OpenTree → Prop
  | done {c : Call} {call : StoreCall} {fresh : Nat} {t : FileTree} {reply : Reply}
      (hcall : m.nameCall c = some call) (hfresh : m.tree.Unused fresh)
      (htree : m.tree.apply fresh call = .ok t)
      (hreply : Answers { m with tree := t } fresh c reply) :
      Step failed m c (.ok reply) (after { m with tree := t } reply)
  | refused {c : Call} {call : StoreCall} {fresh : Nat} {e : DbError}
      (hcall : m.nameCall c = some call) (hfresh : m.tree.Unused fresh)
      (htree : m.tree.apply fresh call = .error e) :
      Step failed m c (.error (errnoFromDbError e)) m
  | failed {c : Call} {e : Errno} (hfailed : failed) (hcall : ∀ fh, c ≠ .releaseFile fh) :
      Step failed m c (.error e) m
  | opened {ino fh : Nat} (hnode : (m.tree.node ino).isSome) (hfh : m.handles fh = none) :
      Step failed m (.openFile ino) (.ok (.opened fh)) (m.setHandle fh (some ino))
  | closed {ino fh : Nat} (hfh : m.handles fh = some ino) (hkeeps : m.Keeps fh ino) :
      Step failed m (.releaseFile fh) (.ok .empty) (m.setHandle fh none)
  | deleted {ino fh : Nat} (hfh : m.handles fh = some ino) (hkeeps : ¬m.Keeps fh ino) :
      Step failed m (.releaseFile fh) (.ok .empty)
        { m.setHandle fh none with tree := m.tree.setNode ino none }
  | unclosed {ino fh : Nat} {e : Errno} (hfh : m.handles fh = some ino) (hfailed : failed) :
      Step failed m (.releaseFile fh) (.error e) (m.setHandle fh none)
  | found {p ino : Nat} {n : Name} {attr : FileAttr} (hfind : m.tree.find p n = .ok ino)
      (hattr : m.Shows ino attr) : Step failed m (.lookup p n) (.ok (.attr attr)) m
  | missing {p : Nat} {n : Name} {e : DbError} (hfind : m.tree.find p n = .error e) :
      Step failed m (.lookup p n) (.error (errnoFromDbError e)) m
  | shown {ino : Nat} {attr : FileAttr} (hattr : m.Shows ino attr) :
      Step failed m (.getattr ino) (.ok (.attr attr)) m
  | absent {c : Call} {ino : Nat} (hcall : c = .getattr ino ∨ c = .openFile ino)
      (hnode : m.tree.node ino = none) : Step failed m c (.error .ENOENT) m
  | badFlags {p q : Nat} {n n' : Name} {flags : UInt32}
      (hflags : flags &&& ~~~Fs.renameNoreplace ≠ 0) :
      Step failed m (.rename p n q n' flags) (.error .EINVAL) m
  | badHandle {fh : Nat} (hfh : m.handles fh = none) :
      Step failed m (.releaseFile fh) (.error .EBADF) m
  | data {c : Call} {r : Except Errno Reply} (hdata : m.OnData failed c r) : Step failed m c r m

/-- What a file system may answer to a call, and the state after it. An error that the storage is
blamed for is one of its own, and only a node whose last handle could not be closed is left. -/
structure Allows (failed : Prop) (m : OpenTree) (c : Call) (r : Except Errno Reply)
    (m' : OpenTree) : Prop where
  step : Step failed m c r { m' with left := m.left }
  left : ∀ i, m'.left i → m.left i ∨
    failed ∧ r.isOk = false ∧ ∃ fh, c = .releaseFile fh ∧ m.handles fh = some i
  blames : failed → ∃ e : Errno, r = .error e ∧ e.OfStorage

def Explains (m : OpenTree) (c : Call) (told : Told (Except Errno Reply)) (m' : OpenTree) : Prop :=
  m.Allows (told.failed = true) c told.answer m'

end OpenTree

def Dbfs.told (env : Env) (s : Shared) (c : Call) : Told (Except Errno Reply) :=
  ⟨reply env s c, s.failures < (step env s c).failures⟩

/-- One call of the store leads from `db` to `db'`, or their names and targets are the same. -/
inductive Db.Makes (db db' : Db) : Prop
  | data (hnames : db'.names = db.names) (hsymlinks : db'.symlinkTargets = db.symlinkTargets)
  | call {now : Timestamp} {call : StoreCall} (hallowed : db.Allowed (now, call))
      (hperform : db.perform now call = .ok db')

private theorem Db.Makes.of_eq {db db' : Db} (h : db' = db) : db.Makes db' := by
  subst h
  exact .data rfl rfl

namespace Shared

/-- The tree that the store stands for, the handles of the table and the nodes that are left. -/
def openTree (s : Shared) : OpenTree := ⟨s.db.tree, s.table.handleIno, s.Left⟩

/-- A call does what the tree and the handles allow, by one call of the store at most. -/
structure Does (s : Shared) (c : Call) (r : Except Errno Reply) (s' : Shared) : Prop where
  step : OpenTree.Step (s.failures < s'.failures) s.openTree c r
    { s'.openTree with left := s.Left }
  makes : s.db.Makes s'.db

variable {s s' : Shared} {env : Env} {busy : Nat → Prop} {held : List ArenaSlot}
  {touched : Nat → Prop} {c : Call} {call : StoreCall} {now : Timestamp}

private theorem isOpen_iff_handle (h : s.table.WF held) {ino : Nat} :
    s.table.isOpen ino = true ↔ ∃ fh, s.table.handleIno fh = some ino := by
  rw [OpenTable.isOpen_iff]
  constructor
  · rintro ⟨o, ho, hrefs⟩
    rcases hf : s.table.inodes.find ino with _ | slot
    · rw [OpenTable.file_eq_none.mpr hf] at ho
      cases ho
    · obtain rfl := Option.some.inj ((OpenTable.file_of_find hf).symm.trans ho)
      have hcount : 0 < (s.table.inodes.get slot).refs := hrefs
      rw [h.refs, List.count_pos_iff] at hcount
      obtain ⟨fh, hlt, hget⟩ := List.mem_iff_getElem.mp hcount
      have hfh : s.table.handles.get fh = some slot :=
        Handles.get_eq_some.mpr ((List.getElem?_eq_getElem hlt).trans (congrArg some hget))
      refine ⟨fh, ?_⟩
      rw [OpenTable.handleIno, hfh]
      exact congrArg some (h.find_ino hf)
  · rintro ⟨fh, hfh⟩
    obtain ⟨slot, hget, rfl⟩ := Option.map_eq_some_iff.mp hfh
    exact ⟨_, OpenTable.file_of_find (h.find_of_handle hget), h.refs_pos hget⟩

open scoped Classical in
private theorem isOpen_openTree (h : s.table.WF held) : s.openTree.isOpen = s.table.isOpen := by
  funext ino
  rw [OpenTree.isOpen, Bool.eq_iff_iff, decide_eq_true_eq, isOpen_iff_handle h]
  rfl

private theorem openTree_of_frame (hframe : Frame touched s s') :
    { s'.openTree with left := s.Left } = s.openTree := by
  unfold openTree
  rw [Db.tree_of_names hframe.names hframe.symlinks, funext hframe.handles]

private theorem openTree_of_eq (hdb : s'.db = s.db) (htable : s'.table = s.table) :
    { s'.openTree with left := s.Left } = s.openTree := by
  unfold openTree
  rw [hdb, htable]

section Names

private theorem nameCall_allowed {m : OpenTree} (h : m.nameCall c = some call) (db : Db)
    (now : Timestamp) :
    call.onNames = true ∧ db.Allowed (now, call) := by
  cases c with
  | mkdir | create | createOpen | symlink | link | unlink | rmdir =>
    cases h
    exact ⟨rfl, trivial⟩
  | rename p n q n' flags =>
    change (if _ ≠ _ then none else some _) = some call at h
    split at h
    · cases h
    · cases h
      exact ⟨rfl, trivial⟩
  | getattr | lookup | setattr | openFile | read | readFh | write | writeFh | fallocate | flushFile
  | flushFh | syncFh | flushAll | releaseFile => cases h

/-- A call that the store did. -/
private theorem step_done {reply : Reply} (h : s.Core held busy)
    (hcall : s.openTree.nameCall c = some call) (hperform : s.db.perform now call = .ok s'.db)
    (hreply : OpenTree.Answers { s.openTree with tree := s'.db.tree } s.db.nextIno c reply)
    (hhandles : s'.table.handleIno = (s.openTree.after reply).handles) :
    Does s c (.ok reply) s' := by
  obtain ⟨hnames, hallowed⟩ := nameCall_allowed hcall s.db now
  have htree := Db.perform_names h.sound hallowed hnames
  rw [hperform] at htree
  refine ⟨?_, .call hallowed hperform⟩
  have hafter : { s'.openTree with left := s.Left } =
      OpenTree.after { s.openTree with tree := s'.db.tree } reply := by
    unfold openTree
    rw [hhandles]
    cases reply <;> rfl
  rw [hafter]
  exact .done hcall (Db.unused_nextIno h.sound.tree) htree.symm hreply

/-- A call that the store refused. -/
private theorem step_refused {e : DbError} (h : s.Core held busy)
    (hcall : s.openTree.nameCall c = some call) (hperform : s.db.perform now call = .error e)
    (hdb : s'.db = s.db) (htable : s'.table = s.table) :
    Does s c (.error (errnoFromDbError e)) s' := by
  obtain ⟨hnames, hallowed⟩ := nameCall_allowed hcall s.db now
  have htree := Db.perform_names h.sound hallowed hnames
  rw [hperform] at htree
  refine ⟨?_, .of_eq hdb⟩
  rw [openTree_of_eq hdb htable]
  exact .refused hcall (Db.unused_nextIno h.sound.tree) htree.symm

private theorem step_failed {e : Errno} (hcall : ∀ fh, c ≠ .releaseFile fh)
    (hfailed : env.Failed s s')
    (hdb : s'.db = s.db) (htable : s'.table = s.table) : Does s c (.error e) s' := by
  refine ⟨?_, .of_eq hdb⟩
  rw [openTree_of_eq hdb htable]
  exact .failed hfailed.1 hcall

/-- A call that changed no name and no handle. -/
private theorem step_same {r : Except Errno Reply} (hframe : Frame touched s s')
    (hstep : OpenTree.Step (s.failures < s'.failures) s.openTree c r s.openTree) :
    Does s c r s' := by
  refine ⟨?_, .data hframe.names hframe.symlinks⟩
  rwa [openTree_of_frame hframe]

private theorem shows_created {p : Nat} {n : Name} {node : NewNode} {uid gid : UInt32}
    {inode : Inode} {db : Db} {m : OpenTree}
    (hcreate : s.db.createNode p n node uid gid now = .ok (inode, db)) (hm : m.tree = db.tree) :
    m.Shows s.db.nextIno (fileAttrFromInode inode) := by
  obtain ⟨rfl, hkind, -⟩ := Db.createNode_rows hcreate
  refine ⟨rfl, ?_⟩
  rw [hm, Db.tree_node_kind, hkind, if_pos rfl]
  rfl

private theorem step_node {p : Nat} {n : Name} {node : NewNode} {uid gid : UInt32}
    (h : s.Inv [] busy) (hcall : s.openTree.nameCall c = some (.createNode p n node uid gid))
    (hcalls : ∀ fh, c ≠ .releaseFile fh)
    (hreply : ∀ m : OpenTree, ∀ attr, m.Shows s.db.nextIno attr →
      m.Answers s.db.nextIno c (.attr attr)) :
    Prog.wp (Reply.attr <$> Fs.createNode env p n node uid gid)
      (Does s c) s := by
  refine (Prog.wp_map ..).mpr (Prog.wp_mono (Fs.createNode_spec h) ?_)
  rintro r s' ⟨-, htable, -, hresult⟩
  rcases r with e | attr
  · obtain ⟨hdb, hfailed | ⟨-, now, error, herror, rfl⟩⟩ := hresult
    · exact step_failed hcalls hfailed hdb htable
    · have hperform : s.db.perform now (.createNode p n node uid gid) = .error error := by
        change (s.db.createNode p n node uid gid now >>= _) = _
        rw [herror]
        rfl
      exact step_refused h.toCore hcall hperform hdb htable
  · obtain ⟨-, inode, now, hcreate, rfl⟩ := hresult
    have hperform : s.db.perform now (.createNode p n node uid gid) = .ok s'.db := by
      change (s.db.createNode p n node uid gid now >>= _) = _
      rw [hcreate]
      rfl
    refine step_done h.toCore hcall hperform (hreply _ _ (shows_created hcreate rfl)) ?_
    rw [htable]
    rfl

private theorem step_link {i q : Nat} {n : Name} (h : s.Inv [] busy)
    (hnamed : ∀ r ∈ s.db.findInode i, 0 < r.nlink) :
    Prog.wp (Dbfs.call env (.link i q n))
      (Does s (.link i q n)) s := by
  refine (Prog.wp_map ..).mpr (Prog.wp_mono (Fs.link_spec hnamed h) ?_)
  rintro r s' ⟨-, htable, -, hresult⟩
  rcases r with e | attr
  · obtain ⟨hdb, hfailed | ⟨-, now, error, herror, rfl⟩⟩ := hresult
    · exact step_failed nofun hfailed hdb htable
    · have hperform : s.db.perform now (.link i q n) = .error error := by
        change (s.db.link i q n now >>= _) = _
        rw [herror]
        rfl
      exact step_refused h.toCore rfl hperform hdb htable
  · obtain ⟨-, inode, now, hlink, rfl⟩ := hresult
    have hperform : s.db.perform now (.link i q n) = .ok s'.db := by
      change (s.db.link i q n now >>= _) = _
      rw [hlink]
      rfl
    have hkind := (Db.sameData_link hlink).kind i
    obtain ⟨-, r, hr, -, -, -, rfl, -⟩ := Db.link_cases hlink
    refine step_done h.toCore rfl hperform ⟨Db.findInode_ino hr, ?_⟩ ?_
    · exact Db.tree_node_kind.trans (hkind.trans (Db.kindOf_of_find hr))
    rw [htable]
    rfl

private theorem step_unlink {p : Nat} {n : Name} (h : s.Inv [] busy) :
    Prog.wp (Dbfs.call env (.unlink p n))
      (Does s (.unlink p n)) s := by
  refine (Prog.wp_map ..).mpr (Prog.wp_mono (Fs.unlink_spec h) ?_)
  rintro r s' ⟨-, hremoved, hresult⟩
  have hisOpen := isOpen_openTree h.table
  -- what the store is told of the handles is what the tree has of the node behind the name
  have hperform : ∀ {target : Inode} {now : Timestamp}, s.db.lookup p n = .ok target →
      s.db.perform now (.unlinkEntry p n ((s.openTree.tree.entry p n).any s.openTree.isOpen)) =
        s.db.unlinkEntry p n target (s.table.isOpen target.ino) now := by
    intro target now hlookup
    have hentry : s.db.tree.entry p n = some target.ino := by
      apply Db.find_ok
      rw [Db.find_tree h.sound.keys h.sound.tree, hlookup]
      rfl
    change (s.db.lookup p n >>= _) = _
    rw [hlookup, show s.openTree.tree.entry p n = some target.ino from hentry, hisOpen]
    rfl
  rcases r with e | ⟨⟩
  · obtain ⟨hdb, htable, hfailed | ⟨-, ⟨error, hlookup, rfl⟩ | ⟨target, hlookup, hdir, rfl⟩⟩⟩ :=
      hresult
    · exact step_failed nofun hfailed hdb htable
    · have herror : s.db.perform ⟨0, 0⟩
          (.unlinkEntry p n ((s.openTree.tree.entry p n).any s.openTree.isOpen)) =
            .error error := by
        change (s.db.lookup p n >>= _) = _
        rw [hlookup]
        rfl
      exact step_refused h.toCore rfl herror hdb htable
    · have herror := (@hperform target ⟨0, 0⟩ hlookup).trans (if_pos hdir)
      exact step_refused h.toCore rfl herror hdb htable
  · obtain ⟨-, target, now, hlookup, -, hunlink⟩ := hresult
    exact step_done h.toCore rfl ((hperform hlookup).trans hunlink) trivial (funext hremoved.2)

private theorem step_rmdir {p : Nat} {n : Name} (h : s.Inv [] busy) (hclear : Fs.RmdirClear s p n) :
    Prog.wp (Dbfs.call env (.rmdir p n))
      (Does s (.rmdir p n)) s := by
  refine (Prog.wp_map ..).mpr (Prog.wp_mono (Fs.rmdir_spec hclear h) ?_)
  rintro r s' ⟨-, hremoved, htable, hresult⟩
  rcases r with e | ⟨⟩
  · obtain ⟨hdb, hfailed | ⟨-, now, error, herror, rfl⟩⟩ := hresult
    · exact step_failed nofun hfailed hdb htable
    · have hperform : s.db.perform now (.removeDir p n) = .error error := herror
      exact step_refused h.toCore rfl hperform hdb htable
  · obtain ⟨-, now, hremove⟩ := hresult
    have hperform : s.db.perform now (.removeDir p n) = .ok s'.db := hremove
    exact step_done h.toCore rfl hperform trivial (funext hremoved.2)

private theorem step_rename {p q : Nat} {n n' : Name} {flags : UInt32} (h : s.Inv [] busy)
    (hclear : Fs.RenameClear s p n q n' flags) :
    Prog.wp (Dbfs.call env (.rename p n q n' flags))
      (Does s (.rename p n q n' flags))
      s := by
  by_cases hbad : flags &&& ~~~Fs.renameNoreplace ≠ 0
  · have hthrow : Fs.rename env p n q n' flags = Prog.throw .EINVAL := if_pos hbad
    change Prog.wp ((fun _ => Reply.empty) <$> Fs.rename env p n q n' flags) _ s
    rw [hthrow]
    exact ⟨.badFlags hbad, .of_eq rfl⟩
  have hcall : s.openTree.nameCall (.rename p n q n' flags) =
      some (.renameEntry p n q n' (flags &&& Fs.renameNoreplace ≠ 0) s.table.isOpen) := by
    rw [← isOpen_openTree h.table]
    exact if_neg hbad
  refine (Prog.wp_map ..).mpr (Prog.wp_mono (Fs.rename_spec hclear h) ?_)
  rintro r s' ⟨-, hremoved, hresult⟩
  rcases r with e | ⟨⟩
  · obtain ⟨hdb, htable, hfailed | ⟨-, ⟨hflags, -⟩ | ⟨now, error, herror, rfl⟩⟩⟩ := hresult
    · exact step_failed nofun hfailed hdb htable
    · exact (hbad hflags).elim
    · have hperform : s.db.perform now
          (.renameEntry p n q n' (flags &&& Fs.renameNoreplace ≠ 0) s.table.isOpen) =
          .error error := by
        change (s.db.renameEntry p n q n' _ s.table.isOpen now >>= _) = _
        rw [herror]
        rfl
      exact step_refused h.toCore hcall hperform hdb htable
  · obtain ⟨-, replaced, now, -, hrename⟩ := hresult
    have hperform : s.db.perform now
        (.renameEntry p n q n' (flags &&& Fs.renameNoreplace ≠ 0) s.table.isOpen) = .ok s'.db := by
      change (s.db.renameEntry p n q n' _ s.table.isOpen now >>= _) = _
      rw [hrename]
      rfl
    exact step_done h.toCore hcall hperform trivial (funext hremoved.2)

private theorem step_createOpen {p : Nat} {n : Name} {mode umask uid gid : UInt32}
    (h : s.Inv [] busy) :
    Prog.wp (Dbfs.call env (.createOpen p n mode umask uid gid))
      (Does s (.createOpen p n mode umask uid gid)) s := by
  refine (Prog.wp_map ..).mpr (Prog.wp_mono (Fs.createOpen_spec h) ?_)
  rintro r s' ⟨-, hresult⟩
  rcases r with e | ⟨attr, fh⟩
  · obtain ⟨hdb, htable, hfailed | ⟨-, now, error, herror, rfl⟩⟩ := hresult
    · exact step_failed nofun hfailed hdb htable
    · have hperform : s.db.perform now (.createNode p n (.file (mode &&& ~~~umask)) uid gid) =
          .error error := by
        change (s.db.createNode p n _ uid gid now >>= _) = _
        rw [herror]
        rfl
      exact step_refused h.toCore rfl hperform hdb htable
  · obtain ⟨-, -, hopened, -, inode, now, hcreate, rfl⟩ := hresult
    have hperform : s.db.perform now (.createNode p n (.file (mode &&& ~~~umask)) uid gid) =
        .ok s'.db := by
      change (s.db.createNode p n _ uid gid now >>= _) = _
      rw [hcreate]
      rfl
    have hshows := shows_created (m := { s.openTree with tree := s'.db.tree }) hcreate rfl
    exact step_done h.toCore rfl hperform ⟨hshows, hopened.new⟩ (funext hopened.handles)

end Names

section Handles

private theorem step_openFile {ino : Nat} (h : s.Inv [] busy)
    (hdirectory : s.db.kindOf ino = some .directory → ino = 1 ∨ busy ino) :
    Prog.wp (Dbfs.call env (.openFile ino))
      (Does s (.openFile ino)) s := by
  refine (Prog.wp_map ..).mpr (Prog.wp_mono (Fs.openFile_spec h hdirectory) ?_)
  rintro r s' ⟨-, hdb, -, hresult⟩
  rcases r with e | fh
  · obtain ⟨hquiet, hfailed | ⟨-, hnone, rfl⟩⟩ := hresult
    · exact step_same hquiet (.failed hfailed.1 nofun)
    · exact step_same hquiet (.absent (.inr rfl) (Db.tree_node_eq_none.mpr hnone))
  · obtain ⟨-, hsome, hopened⟩ := hresult
    have hnode : (s.openTree.tree.node ino).isSome := by
      rw [Option.isSome_iff_ne_none]
      intro hnone
      rw [Db.tree_node_eq_none.mp hnone] at hsome
      cases hsome
    have hafter : { s'.openTree with left := s.Left } = s.openTree.setHandle fh (some ino) := by
      unfold openTree
      rw [hdb, funext hopened.handles]
      rfl
    refine ⟨?_, .of_eq hdb⟩
    rw [hafter]
    exact .opened hnode hopened.new

private theorem keeps_closed {fh ino : Nat} {r : Except Errno Unit} (h : s.Inv [] busy)
    (hinv : s'.Inv [] busy) (hfh : s.table.handleIno fh = some ino)
    (hhandles : ∀ k, s'.table.handleIno k = if k = fh then none else s.table.handleIno k)
    (hclosed : Fs.Closed env ino s s' r) : s.openTree.Keeps fh ino := by
  by_contra hgone
  obtain ⟨hne, hgone⟩ := not_or.mp hgone
  obtain ⟨hunnamed, hgone⟩ := not_or.mp hgone
  obtain ⟨hlast, hleft⟩ := not_or.mp hgone
  -- a nameless inode is marked, and its slot has a handle left
  have hsome : (s.db.kindOf ino).isSome := by
    obtain ⟨slot, hget, rfl⟩ := Option.map_eq_some_iff.mp hfh
    exact Option.isSome_of_eq_some (h.kindOf (OpenTable.file_of_find (h.table.find_of_handle hget)))
  have hnameless : s.db.Nameless ino := by
    apply Dbfs.nameless_of_unnamed h.sound.toLinked hne hsome
    intro d hd hchild
    exact hunnamed ((Db.tree_named h.sound.tree).mpr ⟨d, hd, hchild⟩)
  have hunlinked : (s'.file ino).unlinked = true := by
    rw [hclosed.unlinked, ← Bool.not_eq_false]
    exact fun hunlinked => hleft ⟨hnameless, hunlinked⟩
  rcases ho : s'.table.file ino with _ | o
  · rw [Shared.file, ho] at hunlinked
    cases hunlinked
  · rw [Shared.file, ho] at hunlinked
    have hrefs := ((hinv.live ino o ho).unlinked hunlinked).1
    obtain ⟨k, hk⟩ := (isOpen_iff_handle hinv.table).mp (OpenTable.isOpen_iff.mpr ⟨o, ho, hrefs⟩)
    rw [hhandles] at hk
    exact hlast ⟨k, hk⟩

private theorem not_keeps_deleted {fh ino : Nat} {r : Except Errno Unit} (h : s.Inv [] busy)
    (hmark : (s.file ino).unlinked = true) (hdeleted : Fs.Deleted env fh ino s s' r) :
    ¬s.openTree.Keeps fh ino := by
  have hgone := (Db.unlinked_iff h.sound.toLinked hdeleted.kind).mp hdeleted.nlink
  rintro (hroot | hnamed | ⟨k, hk⟩ | hleft)
  · exact hgone (.inl hroot)
  · exact hgone (.inr hnamed)
  · change (if k = fh then none else s.table.handleIno k) = some ino at hk
    split at hk
    · cases hk
    · next hne => exact hne (hdeleted.last k hk)
  · cases hmark.symm.trans hleft.2

private theorem step_release {fh : Nat} (h : s.Inv [] busy) :
    Prog.wp (Dbfs.call env (.releaseFile fh))
      (Does s (.releaseFile fh)) s := by
  refine (Prog.wp_map ..).mpr (Prog.wp_mono (Fs.releaseFh_spec h) ?_)
  rintro r s' ⟨hinv, hresult⟩
  rcases hfh : s.table.handleIno fh with _ | ino
  · rw [hfh] at hresult
    obtain ⟨rfl, rfl⟩ := hresult
    exact ⟨.badHandle hfh, .of_eq rfl⟩
  rw [hfh] at hresult
  obtain ⟨-, hhandles, hclosed | hdeleted⟩ := hresult
  · have hafter : { s'.openTree with left := s.Left } = s.openTree.setHandle fh none := by
      unfold openTree
      rw [Db.tree_of_names hclosed.names hclosed.symlinks, funext hhandles]
      rfl
    refine ⟨?_, .data hclosed.names hclosed.symlinks⟩
    rw [hafter]
    rcases r with e | ⟨⟩
    · exact .unclosed hfh (hclosed.error nofun).1
    · exact .closed hfh (keeps_closed h hinv hfh hhandles hclosed)
  · rcases r with e | ⟨⟩
    · obtain ⟨hfailed, hdb⟩ := hdeleted.error (by rintro ⟨⟩)
      have hafter : { s'.openTree with left := s.Left } = s.openTree.setHandle fh none := by
        unfold openTree
        rw [hdb, funext hhandles]
        rfl
      refine ⟨?_, .of_eq hdb⟩
      rw [hafter]
      exact .unclosed hfh hfailed.1
    · obtain ⟨-, hdb⟩ := hdeleted.ok rfl
      have hafter : { s'.openTree with left := s.Left } =
          { s.openTree.setHandle fh none with tree := s.openTree.tree.setNode ino none } := by
        unfold openTree
        rw [hdb, funext hhandles, Db.deleteInode_outcome h.sound.toLinked hdeleted.nlink]
        rfl
      have hallowed : s.db.Allowed (⟨0, 0⟩, .deleteInode ino) := by
        obtain ⟨row, hrow⟩ := Option.isSome_iff_exists.mp (Option.isSome_map ▸ hdeleted.kind)
        have hnlink := hdeleted.nlink
        rw [Db.nlinkOf_of_find hrow] at hnlink
        change (s.db.findInode ino).any _ = true
        rw [hrow]
        exact decide_eq_true hnlink
      refine ⟨?_, .call hallowed (congrArg Except.ok hdb.symm)⟩
      rw [hafter]
      exact .deleted hfh (not_keeps_deleted h hdeleted.unlinked hdeleted)

end Handles

section Reading

private theorem wp_rowOverlay {f : Db → Except DbError Inode} (h : s.Core held busy)
    (hrow : ∀ inode, f s.db = .ok inode → ∃ r ino, s.db.findInode ino = some r ∧
      inode = r.inode) :
    Prog.wp ((do
      let inode ← Fs.query env f
      pure (fileAttrFromInode inode)) >>= Fs.overlayAttr) (fun r s' => Idle s s' ∧
        match r with
        | .ok attr => ∃ inode, f s.db = .ok inode ∧ s.openTree.Shows inode.ino attr
        | .error e => env.Failed s s' ∨ ∃ error, f s.db = .error error ∧
            e = errnoFromDbError error) s := by
  rw [Prog.wp_bind_iff, Prog.wp_bind_iff]
  refine Fs.wp_query (fun failure hfault => ?_) (fun error herror => ?_) fun inode hinode => ?_
  · exact ⟨⟨rfl, rfl, rfl⟩, .inl ⟨Nat.lt_succ_self _, env.not_healthy hfault⟩⟩
  · exact ⟨⟨rfl, rfl, rfl⟩, .inr ⟨error, herror, rfl⟩⟩
  · obtain ⟨r, ino, hr, rfl⟩ := hrow inode hinode
    have hcore : Shared.Core held busy { s with tick := s.tick + 1 } :=
      ⟨h.sound, h.table, h.live, h.directory, h.chronicle⟩
    dsimp only
    rw [Prog.wp_pure]
    refine Prog.wp_mono (Fs.overlayAttr_spec hcore hr) ?_
    rintro result s' ⟨rfl, attr, rfl, hino, hkind, -⟩
    have hrow' : r.inode.ino = ino := Db.findInode_ino hr
    refine ⟨⟨rfl, rfl, rfl⟩, _, hinode, hino.trans hrow'.symm, ?_⟩
    rw [hrow']
    exact Db.tree_node_kind.trans hkind

private theorem step_lookup {p : Nat} {n : Name} (h : s.Core held busy) :
    Prog.wp (Dbfs.call env (.lookup p n))
      (Does s (.lookup p n)) s := by
  refine (Prog.wp_map ..).mpr (Prog.wp_mono (wp_rowOverlay h fun inode hinode => ?_) ?_)
  · obtain ⟨-, d, r, -, -, -, hr, rfl⟩ := Db.lookup_cases hinode
    exact ⟨r, _, hr, rfl⟩
  · rintro r s' ⟨hidle, hresult⟩
    refine step_same hidle.quiet ?_
    have hfind : s.openTree.tree.find p n = (s.db.lookup p n).map Inode.ino :=
      Db.find_tree h.sound.keys h.sound.tree p n
    rcases r with e | attr
    · obtain hfailed | ⟨error, hlookup, rfl⟩ := hresult
      · exact .failed hfailed.1 nofun
      · rw [hlookup] at hfind
        exact .missing hfind
    · obtain ⟨inode, hlookup, hshows⟩ := hresult
      rw [hlookup] at hfind
      exact .found hfind hshows

private theorem step_getattr {ino : Nat} (h : s.Core held busy) :
    Prog.wp (Dbfs.call env (.getattr ino))
      (Does s (.getattr ino)) s := by
  refine (Prog.wp_map ..).mpr (Prog.wp_mono (wp_rowOverlay h fun inode hinode => ?_) ?_)
  · obtain ⟨r, hr, rfl⟩ := Db.find_of_getInode hinode
    exact ⟨r, ino, hr, rfl⟩
  · rintro r s' ⟨hidle, hresult⟩
    refine step_same hidle.quiet ?_
    rcases r with e | attr
    · obtain hfailed | ⟨error, hget, rfl⟩ := hresult
      · exact .failed hfailed.1 nofun
      · obtain ⟨hnone, rfl⟩ := h.sound.keys.getInode_error hget
        exact .absent (.inl rfl) (Db.tree_node_eq_none.mpr hnone)
    · obtain ⟨inode, hget, hshows⟩ := hresult
      obtain ⟨r, hr, rfl⟩ := Db.find_of_getInode hget
      have hino : r.inode.ino = ino := Db.findInode_ino hr
      rw [hino] at hshows
      exact .shown hshows

end Reading

section Data

private theorem fileErrno_openTree (ino : Nat) : s.openTree.fileErrno ino = s.db.fileErrno ino := by
  rw [OpenTree.fileErrno, show (s.openTree.tree.node ino).map Node.kind = s.db.kindOf ino from
    Db.tree_node_kind]
  rfl

private theorem reads {ino offset size : Nat} {r : Except Errno Bytes}
    (h : Fs.ReadResult env s s' ino offset size r) :
    s.openTree.Reads (s.failures < s'.failures) (r.map Reply.data) ino := by
  rcases r with e | data
  · refine h.2.imp And.left fun hrefused => ?_
    exact (fileErrno_openTree ino).trans hrefused.2
  · exact (fileErrno_openTree ino).trans h.2.2.1

private theorem writes {ino offset : Nat} {data : Bytes} {r : Except Errno Nat}
    (h : Fs.WriteResult env s s' ino offset data r) :
    s.openTree.Writes (s.failures < s'.failures) data.length (r.map Reply.written) ino := by
  have hfile := fileErrno_openTree (s := s) ino
  -- a write that is refused is refused for its file, or after its file was found
  have herrno : ∀ e, s.writeErrno ino offset data.length = some e →
      s.openTree.fileErrno ino = some e ∨
        s.openTree.fileErrno ino = none ∧ (e = Errno.EIO ∨ e = Errno.EFBIG) := by
    intro e he
    rw [Shared.writeErrno, ← hfile] at he
    rcases hkind : s.openTree.fileErrno ino with _ | e'
    · rw [hkind, Option.orElse_none] at he
      refine .inr ⟨rfl, ?_⟩
      split at he
      · exact .inl (Option.some.inj he).symm
      · split at he
        · exact .inr (Option.some.inj he).symm
        · cases he
    · rw [hkind] at he
      exact .inl he
  obtain ⟨-, -, hresult⟩ := h
  rcases r with e | n
  · exact hresult.imp (fun hfailed => hfailed.1.1) fun hrefused => herrno e hrefused.2.2
  · refine ⟨hresult.2.1, fun hne => ?_⟩
    have hnone := hresult.2.2.2 (List.ne_nil_of_length_pos (Nat.pos_of_ne_zero hne))
    rw [Shared.writeErrno, ← hfile] at hnone
    rcases hkind : s.openTree.fileErrno ino with _ | e'
    · rfl
    · rw [hkind] at hnone
      cases hnone

private theorem flushes {r : Except Errno Unit} (h : r ≠ .ok () → env.Failed s s') :
    OpenTree.Flushes (s.failures < s'.failures) (r.map fun _ => Reply.empty) := by
  rcases r with e | ⟨⟩
  · exact (h nofun).1
  · exact rfl

private theorem flushed {ino : Nat} {r : Except Errno Unit}
    (h : Fs.FlushResult env s s' ino r) : r ≠ .ok () → env.Failed s s' := by
  rcases r with e | ⟨⟩
  · exact fun _ => h.2
  · exact fun hne => (hne rfl).elim

private theorem behind {fh : Nat} {r : Except Errno Reply} {q : Nat → Prop}
    (h : match s.table.handleIno fh with
      | some ino => q ino
      | none => r = .error .EBADF) : s.openTree.Behind fh r q := h

private theorem step_setattr {ino : Nat} {mode uid gid : Option UInt32} {size : Option Nat}
    {atime mtime : Option SystemTime} (h : s.Inv [] busy) :
    Prog.wp (Dbfs.call env (.setattr ino mode uid gid size atime mtime))
      (Does s (.setattr ino mode uid gid size atime mtime)) s := by
  refine (Prog.wp_map ..).mpr
    (Prog.wp_mono (Fs.setattr_spec mode uid gid size atime mtime h) ?_)
  rintro r s' ⟨-, hframe, -, hresult⟩
  refine step_same hframe (.data ?_)
  have hfile := fileErrno_openTree (s := s) ino
  rcases r with e | attr
  · rcases hresult with hfailed | ⟨-, -, ⟨n, hn, hrefused⟩ | ⟨hnone, rfl⟩⟩
    · exact .inl hfailed.1
    · rw [Db.sizeErrno, ← hfile] at hrefused
      rcases hkind : s.openTree.fileErrno ino with _ | e'
      · rw [hkind, Option.orElse_none] at hrefused
        split at hrefused
        · next hbig => exact .inr (.inr ⟨hkind, ⟨n, hn, hbig⟩, (Option.some.inj hrefused).symm⟩)
        · cases hrefused
      · rw [hkind] at hrefused
        exact .inr (.inl ⟨hkind.trans hrefused, .inl (Option.isSome_of_mem hn)⟩)
    · refine .inr (.inl ⟨?_, .inr (Db.tree_node_eq_none.mpr hnone)⟩)
      rw [hfile, Db.fileErrno, hnone]
  · obtain ⟨-, -, hino, hkind, -⟩ := hresult
    exact ⟨hino, Db.tree_node_kind.trans (hframe.kind.symm.trans hkind)⟩

private theorem step_fallocate {ino : Nat} {offset length : Int} {mode : UInt32}
    (h : s.Inv [] busy) :
    Prog.wp (Dbfs.call env (.fallocate ino offset length mode))
      (Does s (.fallocate ino offset length mode)) s := by
  refine (Prog.wp_map ..).mpr (Prog.wp_mono (Fs.fallocate_spec h) ?_)
  rintro r s' ⟨-, hframe, -, hresult⟩
  refine step_same hframe (.data ?_)
  have hfile := fileErrno_openTree (s := s) ino
  rcases r with e | ⟨⟩
  · refine hresult.2.imp And.left fun hrefused hfits => hrefused.2 ?_
    obtain ⟨hoffset, hlength, hmode, hkind, hmax⟩ := hfits
    exact ⟨hoffset, hlength, hmode, Db.fileErrno_eq_none.mp (hfile ▸ hkind), hmax⟩
  · obtain ⟨-, hfits, -⟩ := hresult
    exact ⟨hfile.trans (Db.fileErrno_eq_none.mpr hfits.kind), hfits.nonneg, hfits.pos, hfits.max⟩

end Data

section Runs

/-- Each call does what the tree and the handles allow. -/
private theorem call_steps (h : s.Inv [] busy) (hadm : Dbfs.Admissible busy s c) :
    Prog.wp (Dbfs.call env c) (Does s c) s := by
  cases c with
  | getattr ino => exact step_getattr h.toCore
  | lookup parent name => exact step_lookup h.toCore
  | mkdir parent name mode umask uid gid => exact step_node h rfl nofun fun _ _ hshows => hshows
  | create parent name mode umask uid gid => exact step_node h rfl nofun fun _ _ hshows => hshows
  | symlink parent name target uid gid => exact step_node h rfl nofun fun _ _ hshows => hshows
  | link ino newParent newName => exact step_link h hadm
  | setattr ino mode uid gid size atime mtime => exact step_setattr h
  | openFile ino => exact step_openFile h hadm
  | read ino offset size =>
    refine (Prog.wp_map ..).mpr (Prog.wp_mono (Fs.read_spec h.toCore) fun r s' hr => ?_)
    exact step_same hr.1.quiet (.data (reads hr))
  | readFh fh offset size =>
    refine (Prog.wp_map ..).mpr (Prog.wp_mono (Fs.readFh_spec h.toCore) fun r s' hr => ?_)
    rcases hfh : s.table.handleIno fh with _ | ino
    · rw [hfh] at hr
      obtain ⟨rfl, rfl⟩ := hr
      refine ⟨.data (behind ?_), .of_eq rfl⟩
      rw [hfh]
      rfl
    · rw [hfh] at hr
      refine step_same hr.1.quiet (.data (behind ?_))
      rw [hfh]
      exact reads hr
  | write ino offset data =>
    refine (Prog.wp_map ..).mpr (Prog.wp_mono (Fs.write_spec hadm h) fun r s' hr => ?_)
    exact step_same hr.2.1 (.data (writes hr.2))
  | writeFh fh offset data =>
    refine (Prog.wp_map ..).mpr (Prog.wp_mono (Fs.writeFh_spec hadm h) fun r s' hr => ?_)
    rcases hfh : s.table.handleIno fh with _ | ino
    · rw [hfh] at hr
      obtain ⟨-, rfl, rfl⟩ := hr
      refine ⟨.data (behind ?_), .of_eq rfl⟩
      rw [hfh]
      rfl
    · rw [hfh] at hr
      refine step_same hr.2.1 (.data (behind ?_))
      rw [hfh]
      exact writes hr.2
  | fallocate ino offset length mode => exact step_fallocate h
  | flushFile ino =>
    refine (Prog.wp_map ..).mpr (Prog.wp_mono (Fs.flushFile_spec h) fun r s' hr => ?_)
    exact step_same hr.2.1 (.data (flushes (flushed hr.2)))
  | flushFh fh =>
    refine (Prog.wp_map ..).mpr (Prog.wp_mono (Fs.flushFh_spec h) fun r s' hr => ?_)
    rcases hfh : s.table.handleIno fh with _ | ino
    · rw [hfh] at hr
      obtain ⟨-, rfl, rfl⟩ := hr
      refine ⟨.data (behind ?_), .of_eq rfl⟩
      rw [hfh]
      rfl
    · rw [hfh] at hr
      refine step_same hr.2.1 (.data (behind ?_))
      rw [hfh]
      exact flushes (flushed hr.2)
  | syncFh fh =>
    refine (Prog.wp_map ..).mpr (Prog.wp_mono (Fs.syncFh_spec h) fun r s' hr => ?_)
    rcases hfh : s.table.handleIno fh with _ | ino
    · rw [hfh] at hr
      obtain ⟨-, rfl, rfl⟩ := hr
      refine ⟨.data (behind ?_), .of_eq rfl⟩
      rw [hfh]
      rfl
    · rw [hfh] at hr
      refine step_same hr.2.1 (.data (behind ?_))
      rw [hfh]
      exact flushes (flushed hr.2)
  | flushAll =>
    refine (Prog.wp_map ..).mpr (Prog.wp_mono (Fs.flushAll_spec h) fun r s' hr => ?_)
    exact step_same hr.2.1 (.data (flushes hr.2.2.2))
  | releaseFile fh => exact step_release h
  | unlink parent name => exact step_unlink h
  | rmdir parent name => exact step_rmdir h hadm
  | rename parent name newParent newName flags => exact step_rename h hadm
  | createOpen parent name mode umask uid gid => exact step_createOpen h

theorem call_allows (env : Env) (h : s.Inv [] busy) (hadm : Dbfs.Admissible busy s c) :
    s.openTree.Allows (s.failures < (Dbfs.step env s c).failures) c (Dbfs.reply env s c)
      (Dbfs.step env s c).openTree ∧ s.db.Makes (Dbfs.step env s c).db := by
  have hcall : Prog.wp (Dbfs.call env c) (Does s c) s := call_steps h hadm
  have hleaves : Prog.wp (Dbfs.call env c) (Dbfs.Leaves env s c) s := Dbfs.leaves_call env h hadm
  refine ⟨⟨hcall.step, fun i hleft => ?_, Dbfs.ofStorage_of_failed env s c⟩, hcall.makes⟩
  exact (hleaves i hleft).imp_right fun hunclosed => ⟨hunclosed.1.1, hunclosed.2⟩

end Runs

end Shared

namespace Dbfs

variable {db : Db}

theorem openTree_withWriteBuffer (hdb : db.Opened) (writeBuffer : Nat) :
    (Shared.withWriteBuffer db writeBuffer).openTree = .mounted db.tree := by
  have hleft : (Shared.withWriteBuffer db writeBuffer).Left = fun _ => False :=
    funext fun i => eq_false fun hleft => hdb.not_nameless hleft.1
  unfold Shared.openTree
  rw [hleft]
  rfl

end Dbfs

end VibeDbfs
