import VibeDbfs.Fuse.Listing
import VibeDbfs.Storage.TreeRefinement

/-!
What the readers of a store report of its names. After any calls it is what the calls make of the
tree: names by lookup, by a sorted list and by a stream of cookies, and the targets of symlinks.
-/

set_option autoImplicit false
set_option relaxedAutoImplicit false

namespace VibeDbfs

open Lib

def DbfsDirEntry.entry (e : DbfsDirEntry) : DirEntry := ⟨e.name, e.ino, e.kind⟩

namespace FileTree

def readlink (t : FileTree) (i : Nat) : Except DbError Bytes :=
  match t.node i with
  | some (.symlink target) => .ok target
  | some _ => .error .invalidInput
  | none => .error .notFound

/-- `e` is an entry of the directory `i`. -/
def Holds (t : FileTree) (i : Nat) (e : DirEntry) : Prop :=
  t.entry i e.name = some e.ino ∧ (t.node e.ino).map Node.kind = some e.kind

/-- The node that `..` names in the directory `i`. -/
def Above (t : FileTree) (i p : Nat) : Prop := if i = 1 then p = 1 else t.Up i p

/-- The entries are those of the directory `i`, each once. -/
structure Lists (t : FileTree) (i : Nat) (entries : List DirEntry) : Prop where
  nodup : (entries.map DirEntry.name).Nodup
  mem : ∀ e, e ∈ entries ↔ t.Holds i e

end FileTree

namespace Db

/-- The readers of `db` report the tree `t`. -/
structure Reports (db : Db) (t : FileTree) : Prop where
  lookup : ∀ p n, (db.lookup p n).map Inode.ino = t.find p n
  readSymlink : ∀ i, db.readSymlink i = t.readlink i
  size : ∀ i inode target, db.getInode i = .ok inode → db.readSymlink i = .ok target →
    inode.size = target.length
  listDir : ∀ i, t.expectDirectory i = .ok () → ∃ entries, db.listDir i = .ok entries ∧
    t.Lists i entries ∧ entries.Pairwise fun a b => a.name ≤ b.name
  listDir_error : ∀ i e, t.expectDirectory i = .error e → db.listDir i = .error e
  readdir : ∀ i, t.expectDirectory i = .ok () → ∃ parent entries, Dbfs.readdir db i 0 =
      .ok (⟨[46], i, .directory, 1⟩ :: ⟨[46, 46], parent, .directory, 2⟩ :: entries) ∧
    t.Above i parent ∧ t.Lists i (entries.map DbfsDirEntry.entry)
  readdir_error : ∀ i e, t.expectDirectory i = .error e →
    Dbfs.readdir db i 0 = .error (errnoFromDbError e)

variable {db : Db} {i : Nat}

theorem kindOf_of_expectDirectory (h : db.tree.expectDirectory i = .ok ()) :
    db.kindOf i = some .directory :=
  tree_node_eq_directory.mp (FileTree.expectDirectory_iff.mp h)

section Entries

private theorem nodup_names (ht : db.names.Tree) {β : Type} {keep : Dirent → Bool}
    (hkeep : ∀ d, keep d = true → d.parentIno = i) {row : Dirent → InodeRow → β} {name : β → Name}
    (hname : ∀ d r, name (row d r) = d.name) :
    (((db.dirents.filter keep).filterMap fun d =>
      (db.findInode d.childIno).map (row d)).map name).Nodup := by
  have hnames : ((db.dirents.filter keep).map Dirent.name).Nodup := by
    have hkeys : ((db.dirents.filter keep).map fun d => (d.parentIno, d.name)).Nodup :=
      ht.distinct.sublist (List.filter_sublist.map _)
    refine List.Nodup.of_map (Prod.mk i) ?_
    rw [List.map_map]
    refine (List.map_congr_left fun d hd => ?_) ▸ hkeys
    rw [← hkeep d (List.mem_filter.mp hd).2]
    rfl
  refine hnames.sublist ?_
  generalize db.dirents.filter keep = dirents
  induction dirents with
  | nil => exact List.Sublist.refl _
  | cons d dirents ih =>
    rw [List.filterMap_cons]
    rcases db.findInode d.childIno with _ | r
    · exact ih.cons _
    · rw [Option.map_some, List.map_cons, List.map_cons, hname]
      exact ih.cons_cons _

private theorem holds_iff (ht : db.names.Tree) {e : DirEntry} :
    db.tree.Holds i e ↔ ∃ d ∈ db.dirents, d.parentIno = i ∧
      ∃ r, db.findInode d.childIno = some r ∧ e = ⟨d.name, d.childIno, r.kind⟩ := by
  unfold FileTree.Holds
  rw [tree_entry_eq_some ht, tree_node_kind]
  constructor
  · rintro ⟨⟨d, hd, hparent, hname, hchild⟩, hkind⟩
    obtain ⟨r, hr⟩ := exists_inode ht hd
    refine ⟨d, hd, hparent, r, hr, ?_⟩
    rw [← hchild, kindOf_of_find hr] at hkind
    obtain ⟨name, ino, kind⟩ := e
    cases hkind
    cases hname
    cases hchild
    rfl
  · rintro ⟨d, hd, hparent, r, hr, rfl⟩
    exact ⟨⟨d, hd, hparent, rfl, rfl⟩, kindOf_of_find hr⟩

end Entries

section Symlinks

/-- The rows of the symlink `i` agree: its size is the length of its target. -/
def LinkRow (db : Db) (i : Nat) : Prop :=
  ∃ row, db.symlinkTargets.find? (fun r => r.ino = i) = some row ∧
    db.storedSize i = row.target.length

/-- The symlinks of `db'` were in `db`, and are as they were there. -/
structure SameLinks (db db' : Db) : Prop where
  kind : ∀ i, db'.kindOf i = some .symlink → db.kindOf i = some .symlink
  size : ∀ i, db'.kindOf i = some .symlink → db'.storedSize i = db.storedSize i
  rows : ∀ i, db'.kindOf i = some .symlink → db'.symlinkTargets.find? (fun r => r.ino = i) =
    db.symlinkTargets.find? fun r => r.ino = i

private theorem SameLinks.trans {db₁ db₂ : Db} (h : SameLinks db db₁) (h' : SameLinks db₁ db₂) :
    SameLinks db db₂ where
  kind i hi := h.kind i (h'.kind i hi)
  size i hi := (h'.size i hi).trans (h.size i (h'.kind i hi))
  rows i hi := (h'.rows i hi).trans (h.rows i (h'.kind i hi))

private theorem SameLinks.of_data {db' : Db} (h : SameData db db') : SameLinks db db' where
  kind i hi := (h.kind i).symm.trans hi
  size i _ := h.size i
  rows i _ := by rw [h.symlinks]

private theorem sameLinks_delete (db : Db) (ino : Nat) : SameLinks db (db.deleteInodeRows ino) := by
  have hne : ∀ i, (db.deleteInodeRows ino).kindOf i = some .symlink → i ≠ ino := by
    rintro i hi rfl
    rw [kindOf_deleteInodeRows, if_pos rfl] at hi
    cases hi
  refine ⟨fun i hi => ?_, fun i hi => storedSize_deleteInodeRows (hne i hi), fun i hi => ?_⟩
  · have hi' := hi
    rwa [kindOf_deleteInodeRows, if_neg (hne i hi)] at hi'
  · apply Keyed.find_filter_of_keep
    rintro r - rfl
    exact decide_eq_true (hne _ hi)

private theorem sameLinks_deleteAll (inos : List Nat) (db : Db) :
    SameLinks db (inos.foldl deleteInodeRows db) := by
  induction inos generalizing db with
  | nil => exact ⟨fun _ hi => hi, fun _ _ => rfl, fun _ _ => rfl⟩
  | cons ino inos ih => exact (sameLinks_delete db ino).trans (ih _)

private theorem sameLinks_drop {d : Dirent} {r : InodeRow} (isOpen : Bool) (now : Timestamp)
    (hr : db.findInode d.childIno = some r) : SameLinks db (db.dropEntry d r isOpen now) := by
  by_cases hlast : LastName r isOpen
  · exact (sameLinks_delete db d.childIno).trans
      (.of_data ((sameData_dropEntry now isOpen hr).1 hlast))
  · exact .of_data ((sameData_dropEntry now isOpen hr).2 hlast)

private theorem sameLinks_sized {db' : Db} {ino : Nat} (hnames : db'.names = db.names)
    (hsizes : ∀ i, i ≠ ino → db'.storedSize i = db.storedSize i)
    (hsymlinks : db'.symlinkTargets = db.symlinkTargets)
    (hkind : db.kindOf ino = some .regularFile) : SameLinks db db' := by
  have hkinds : ∀ i, db'.kindOf i = db.kindOf i := fun i => congrFun (congrArg Names.kind hnames) i
  refine ⟨fun i hi => hkinds i ▸ hi, fun i hi => hsizes i ?_, fun i _ => by rw [hsymlinks]⟩
  rintro rfl
  rw [hkinds, hkind] at hi
  cases hi

private theorem sameLinks_perform {db' : Db} {now : Timestamp} {call : StoreCall} (hs : db.Sound)
    (hnew : ∀ p n node uid gid, call ≠ .createNode p n node uid gid)
    (h : db.perform now call = .ok db') : SameLinks db db' := by
  cases call with
  | createNode p n node uid gid => exact (hnew p n node uid gid rfl).elim
  | link i p n =>
    obtain ⟨⟨_, _⟩, h, ⟨⟩⟩ := except_bind_eq_ok.mp h
    exact .of_data (sameData_link h)
  | unlinkEntry p n isOpen =>
    obtain ⟨target, hlookup, h⟩ := except_bind_eq_ok.mp h
    obtain ⟨d, r, -, -, -, hr, -, -, rfl⟩ := unlinkEntry_eq hlookup h
    exact (sameLinks_drop isOpen now hr).trans (.of_data sameData_touchDir)
  | removeDir p n =>
    obtain ⟨d, r, -, -, -, hr, -, -, rfl⟩ := removeDir_eq h
    exact (sameLinks_drop false now hr).trans
      (.of_data (sameData_touchDir.trans (sameData_addDirectoryNlink _)))
  | renameEntry p n q m noreplace isOpen =>
    obtain ⟨⟨_, _⟩, h, ⟨⟩⟩ := except_bind_eq_ok.mp h
    obtain ⟨d, r, -, -, -, -, -, -, hcase⟩ := renameEntry_eq hs.tree h
    rcases hcase with ⟨-, -, -, rfl⟩ | ⟨-, -, rfl⟩ | ⟨f, q, -, -, -, -, hq, -, -, -, rfl⟩
    · exact sameLinks_deleteAll [] _
    · exact .of_data (sameData_moveEntry _ _)
    · exact (sameLinks_drop _ now hq).trans (.of_data (sameData_moveEntry _ _))
  | deleteInode ino =>
    cases h
    exact sameLinks_delete db ino
  | writeFileBatch ino writes =>
    obtain ⟨⟨_, _⟩, h, ⟨⟩⟩ := except_bind_eq_ok.mp h
    rcases writeFileBatchAt_cases hs.keys hs.owned h with rfl | ⟨hkind, mid, size, hbatch, rfl⟩
    · exact sameLinks_deleteAll [] _
    · refine sameLinks_sized (names_setSize.trans hbatch.names) (fun i hi => ?_) hbatch.symlinks
        hkind
      have hsome := Option.isSome_of_eq_some (hbatch.kind.trans hkind)
      rw [storedSize_setSize now hsome, if_neg hi, storedSize, findInode, hbatch.inodes, storedSize,
        findInode]
  | truncateFile ino size =>
    obtain ⟨hkind, -, rfl⟩ := truncateFile_cases h
    obtain ⟨hinodes, -, hsymlinks⟩ := cutAt_rows db ino size
    refine sameLinks_sized (names_setSize.trans names_cutAt) (fun i hi => ?_) hsymlinks hkind
    have hsome : ((db.cutAt ino size).kindOf ino).isSome := by
      rw [kindOf, findInode, hinodes]
      exact Option.isSome_of_eq_some hkind
    rw [storedSize_setSize now hsome, if_neg hi, storedSize, findInode, hinodes, storedSize,
      findInode]
  | updateMetadata ino update => exact .of_data (sameData_updateMetadata h).1
  | reopen mountUid mountGid =>
    cases h
    rw [initialize_eq mountUid mountGid now hs.toLinked]
    exact (SameLinks.of_data (sameData_claimRoot now mountUid mountGid)).trans
      (sameLinks_deleteAll _ _)

private theorem linkRow_perform {db' : Db} {now : Timestamp} {call : StoreCall} (hs : db.Sound)
    (h : db.perform now call = .ok db') (i : Nat) (hi : db'.kindOf i = some .symlink) :
    db'.LinkRow i ∨ db.kindOf i = some .symlink ∧ db'.storedSize i = db.storedSize i ∧
      db'.symlinkTargets.find? (fun r => r.ino = i) =
        db.symlinkTargets.find? fun r => r.ino = i := by
  by_cases hnew : ∃ p n node uid gid, call = .createNode p n node uid gid
  · obtain ⟨p, n, node, uid, gid, rfl⟩ := hnew
    obtain ⟨⟨_, _⟩, h, ⟨⟩⟩ := except_bind_eq_ok.mp h
    obtain ⟨-, hkind, hsize, -, hsymlinks⟩ := createNode_rows h
    rw [hkind] at hi
    unfold LinkRow
    rw [hsymlinks, List.find?_append, hsize]
    split at hi
    · next hnext =>
      subst hnext
      have hnone : db.symlinkTargets.find? (fun r => r.ino = db.nextIno) = none := by
        apply Keyed.find_eq_none_iff.mpr
        intro r hr hino
        have hlink := hs.symlinks r hr
        rw [hino, nextIno_new] at hlink
        cases hlink
      rw [hnone, if_pos rfl]
      rcases node with _ | _ | target
      · cases hi
      · cases hi
      · exact .inl ⟨⟨db.nextIno, target⟩, by simp [NewNode.targets], rfl⟩
    · next hold =>
      have hnone : (node.targets db.nextIno).find? (fun r => r.ino = i) = none := by
        rcases node with _ | _ | target
        · rfl
        · rfl
        · simp [NewNode.targets, Ne.symm hold]
      rw [hnone, Option.or_none]
      exact .inr ⟨hi, if_neg hold, rfl⟩
  · have hsame : SameLinks db db' := sameLinks_perform hs
      (fun p n node uid gid hcall => hnew ⟨p, n, node, uid, gid, hcall⟩) h
    exact .inr ⟨hsame.kind i hi, hsame.size i hi, hsame.rows i hi⟩

/-- Every symlink has its row. -/
private theorem linkRow_step {call : Timestamp × StoreCall} (hs : db.Sound)
    (hrows : ∀ i, db.kindOf i = some .symlink → db.LinkRow i) (i : Nat)
    (hi : (db.step call).kindOf i = some .symlink) : (db.step call).LinkRow i := by
  unfold step at hi ⊢
  rcases h : db.perform call.1 call.2 with e | db'
  · rw [h] at hi
    exact hrows i hi
  · rw [h] at hi
    rcases linkRow_perform hs h i hi with hrow | ⟨hold, hsize, hfind⟩
    · exact hrow
    · obtain ⟨row, hrow, hlength⟩ := hrows i hold
      exact ⟨row, hfind.trans hrow, hsize.trans hlength⟩

def HasTargets (db : Db) : Prop := ∀ i, db.kindOf i = some .symlink →
  (db.symlinkTargets.find? fun r => r.ino = i).isSome

theorem HasTargets.of_rows (hrows : ∀ i, db.kindOf i = some .symlink → db.LinkRow i) :
    db.HasTargets := by
  intro i hi
  obtain ⟨row, hrow, -⟩ := hrows i hi
  exact Option.isSome_of_eq_some hrow

theorem HasTargets.perform {db' : Db} {now : Timestamp} {call : StoreCall} (hs : db.Sound)
    (htargets : db.HasTargets) (h : db.perform now call = .ok db') : db'.HasTargets := by
  intro i hi
  rcases linkRow_perform hs h i hi with ⟨row, hrow, -⟩ | ⟨hold, -, hfind⟩
  · exact Option.isSome_of_eq_some hrow
  · exact hfind ▸ htargets i hold

end Symlinks

section Readers

theorem reads_symlink (hk : db.Keys) (htargets : db.HasTargets) (i : Nat) :
    db.readSymlink i = db.tree.readlink i := by
  have hnode : db.tree.node i = db.nodeOf i := rfl
  unfold readSymlink FileTree.readlink inodeKindOf
  rw [hnode, nodeOf]
  rcases hfind : db.findInode i with _ | r
  · rw [kindOf, hfind]
    rfl
  · have hkind := kindOf_of_find hfind
    rw [hkind]
    dsimp only
    rw [hk.readKind hfind]
    rcases hr : r.kind
    case symlink =>
      obtain ⟨row, hrow⟩ :=
        Option.isSome_iff_exists.mp (htargets i (hkind.trans (congrArg some hr)))
      simp only [targetOf, hrow]
      rfl
    all_goals rfl

private theorem reads_size (hrows : ∀ i, db.kindOf i = some .symlink → db.LinkRow i) {inode : Inode}
    {target : Bytes} (hinode : db.getInode i = .ok inode)
    (htarget : db.readSymlink i = .ok target) : inode.size = target.length := by
  obtain ⟨r, hr, rfl⟩ := find_of_getInode hinode
  obtain ⟨kind, hkind, htarget⟩ := except_bind_eq_ok.mp htarget
  split at htarget
  · cases htarget
  · next hlink =>
    rw [not_not] at hlink
    obtain ⟨row, hrow, hlength⟩ := hrows i (hlink ▸ kindOf_of_read hkind)
    rw [hrow] at htarget
    cases htarget
    rwa [storedSize_of_find hr] at hlength

instance : Std.Total fun a b : DirEntry => a.name ≤ b.name :=
  ⟨fun a b => List.le_total a.name b.name⟩

instance : IsTrans DirEntry fun a b => a.name ≤ b.name := ⟨fun _ _ _ h h' => List.le_trans h h'⟩

private theorem reads_list (hk : db.Keys) (ht : db.names.Tree)
    (hdir : db.kindOf i = some .directory) :
    ∃ entries, db.listDir i = .ok entries ∧ db.tree.Lists i entries ∧
      entries.Pairwise fun a b => a.name ≤ b.name := by
  refine ⟨_, hk.listDir hdir, ⟨?_, fun e => ?_⟩, List.pairwise_insertionSort _ _⟩
  · refine ((List.perm_insertionSort _ _).map _).nodup_iff.mpr ?_
    exact nodup_names ht (fun d hd => of_decide_eq_true hd) fun _ _ => rfl
  · rw [entriesOf, List.mem_insertionSort, List.mem_filterMap, holds_iff ht]
    constructor
    · rintro ⟨d, hd, hrow⟩
      obtain ⟨r, hr, rfl⟩ := Option.map_eq_some_iff.mp hrow
      obtain ⟨hmem, hparent⟩ := List.mem_filter.mp hd
      refine ⟨d, hmem, of_decide_eq_true hparent, r, hr, ?_⟩
      rw [findInode_ino hr]
    · rintro ⟨d, hd, hparent, r, hr, rfl⟩
      refine ⟨d, List.mem_filter.mpr ⟨hd, decide_eq_true hparent⟩, ?_⟩
      rw [hr, Option.map_some, findInode_ino hr]

theorem above_of_dotDot (ht : db.names.Tree) (hdir : db.kindOf i = some .directory) {parent : Nat}
    (h : Dbfs.dotDot db i = .ok parent) : db.tree.Above i parent := by
  unfold Dbfs.dotDot parentOfDir at h
  unfold FileTree.Above
  split
  · next hroot =>
    rw [if_pos hroot] at h
    exact (Except.ok.inj h).symm
  · next hroot =>
    rw [if_neg hroot] at h
    rcases hfind : db.dirents.find? fun d => d.childIno = i with _ | d
    · -- a directory below the root has an entry
      have hone : db.dirents.countP (fun d => d.childIno = i) = 1 := ht.named i hroot hdir
      rw [List.countP_eq_zero.mpr (List.find?_eq_none.mp hfind)] at hone
      cases hone
    · rw [hfind] at h
      cases h
      have hchild : d.childIno = i := by simpa using List.find?_some hfind
      exact ⟨d.name, (tree_entry_eq_some ht).mpr
        ⟨d, List.mem_of_find?_eq_some hfind, rfl, rfl, hchild⟩⟩

theorem stream_entries (ht : db.names.Tree) (hids : db.EntryIds) (parent : Nat) :
    ∃ entries, Dbfs.entriesAfter db i parent 0 =
        ⟨[46], i, .directory, 1⟩ :: ⟨[46, 46], parent, .directory, 2⟩ :: entries ∧
      db.tree.Lists i (entries.map DbfsDirEntry.entry) := by
  have hstart : max ((0 : Int) - 2) 0 = 0 := by decide
  refine ⟨(db.rowsAfter i 0).map fun row => ⟨row.name, row.child, row.kind, row.id + 2⟩, ?_, ?_⟩
  · rw [Dbfs.entriesAfter, if_pos (by decide), if_pos (by decide), hstart, List.append_assoc,
      List.singleton_append, List.singleton_append]
  · rw [List.map_map]
    refine ⟨?_, fun e => ?_⟩
    · rw [List.map_map]
      refine ((List.perm_insertionSort _ _).map _).nodup_iff.mpr ?_
      exact nodup_names ht (fun d hd => (of_decide_eq_true hd).1) fun _ _ => rfl
    · rw [List.mem_map, holds_iff ht]
      constructor
      · rintro ⟨row, hrow, rfl⟩
        obtain ⟨d, hd, hin, -, r, hr, rfl⟩ := Dbfs.mem_rowsAfter.mp hrow
        exact ⟨d, hd, hin, r, hr, rfl⟩
      · rintro ⟨d, hd, hin, r, hr, rfl⟩
        have hpos := hids.pos d hd
        exact ⟨_, Dbfs.mem_rowsAfter.mpr ⟨d, hd, hin, by omega, r, hr, rfl⟩, rfl⟩

private theorem reads_dir (hk : db.Keys) (ht : db.names.Tree) (hids : db.EntryIds)
    (hdir : db.kindOf i = some .directory) :
    ∃ parent entries, Dbfs.readdir db i 0 =
        .ok (⟨[46], i, .directory, 1⟩ :: ⟨[46, 46], parent, .directory, 2⟩ :: entries) ∧
      db.tree.Above i parent ∧ db.tree.Lists i (entries.map DbfsDirEntry.entry) := by
  obtain ⟨page, hread⟩ : ∃ page, Dbfs.readdir db i 0 = .ok page := Dbfs.readPage_isOk hk hdir
  obtain ⟨parent, hparent, hfeed⟩ := Dbfs.readPage_ok hread
  obtain ⟨more, hmore, -, hall⟩ := Dbfs.feed_addTo (fun _ _ => false)
    (Dbfs.entriesAfter db i parent 0) []
  obtain ⟨entries, hstream, hlists⟩ := stream_entries ht hids parent
  rw [hmore, hall fun _ _ => rfl, List.nil_append, hstream] at hfeed
  exact ⟨parent, entries, hread.trans (congrArg Except.ok hfeed), above_of_dotDot ht hdir hparent,
    hlists⟩

private theorem reads_list_error (hk : db.Keys) {e : DbError}
    (h : db.tree.expectDirectory i = .error e) :
    db.listDir i = .error e := by
  rw [expectDirectory_tree hk] at h
  unfold listDir
  rcases hkind : db.inodeKindOf i with e' | kind
  · rw [hkind] at h
    cases h
    rfl
  · rw [hkind] at h
    rcases kind
    case directory => cases h
    all_goals
      cases h
      rfl

theorem readDirAfter_error {σ : Type} (hk : db.Keys) {e : DbError}
    (h : db.tree.expectDirectory i = .error e) (after : Int) (emit : DirRow → σ → Bool × σ)
    (state : σ) : db.readDirAfter i after emit state = .error e := by
  rw [expectDirectory_tree hk] at h
  unfold readDirAfter
  rcases hkind : db.inodeKindOf i with e' | kind
  · rw [hkind] at h
    cases h
    rfl
  · rw [hkind] at h
    rcases kind
    case directory => cases h
    all_goals
      cases h
      rfl

private theorem reads_dir_error (hk : db.Keys) {e : DbError}
    (h : db.tree.expectDirectory i = .error e) :
    Dbfs.readdir db i 0 = .error (errnoFromDbError e) := by
  obtain ⟨parent, hparent⟩ := Dbfs.dotDot_ok db i
  -- `.` and `..` come first, and then the rows fail
  change Dbfs.readdirStream db i 0 _ [] = _
  rw [Dbfs.readdirStream, hparent]
  exact congrArg (Except.mapError errnoFromDbError) (readDirAfter_error hk h _ _ _)

end Readers

section Runs

/-- The store is sound, its entries have ids, and its symlinks have rows. -/
structure Readable (db : Db) : Prop where
  sound : db.Sound
  ids : db.EntryIds
  links : ∀ i, db.kindOf i = some .symlink → db.LinkRow i

private theorem Readable.step (h : db.Readable) {call : Timestamp × StoreCall}
    (hallowed : db.Allowed call) : (db.step call).Readable :=
  ⟨h.sound.step hallowed, h.ids.step h.sound, linkRow_step h.sound h.links⟩

private theorem Readable.reports (h : db.Readable) : db.Reports db.tree where
  lookup p n := (find_tree h.sound.keys h.sound.tree p n).symm
  readSymlink := reads_symlink h.sound.keys (.of_rows h.links)
  size _ _ _ := reads_size h.links
  listDir _ hdir := reads_list h.sound.keys h.sound.tree (kindOf_of_expectDirectory hdir)
  listDir_error _ _ := reads_list_error h.sound.keys
  readdir _ hdir := reads_dir h.sound.keys h.sound.tree h.ids (kindOf_of_expectDirectory hdir)
  readdir_error _ _ := reads_dir_error h.sound.keys

theorem Readable.fresh (mountUid mountGid : UInt32) (created : Timestamp) :
    (Db.fresh mountUid mountGid created).Readable where
  sound := Sound.fresh mountUid mountGid created
  ids := by
    rw [fresh_eq]
    exact ⟨List.nodup_nil, nofun⟩
  links i hi := by
    rw [kindOf_fresh] at hi
    split at hi
    · cases hi
    · cases hi

/-- After any calls on a fresh store, its readers report a tree that the calls make of a root
directory: each lookup, each list of a directory, sorted or by cookie, and each target. -/
theorem reports_of_calls (mountUid mountGid : UInt32) (created : Timestamp)
    (calls : List (Timestamp × StoreCall))
    (h : (Db.fresh mountUid mountGid created).AllowedCalls calls) :
    ∃ t, Traces FileTree.Does .root
        (answers step answer (Db.fresh mountUid mountGid created) calls) t ∧
      ((Db.fresh mountUid mountGid created).runCalls calls).Reports t := by
  have hstart := Readable.fresh mountUid mountGid created
  have hrun : ((Db.fresh mountUid mountGid created).runCalls calls).Readable :=
    runFrom_induction (I := Readable) (fun _ _ hallowed hdb => hdb.step hallowed) hstart h
  refine ⟨_, ?_, hrun.reports⟩
  rw [← tree_fresh mountUid mountGid created]
  exact traces_of_simulation Db.tree (fun _ _ hallowed hs => hs.step hallowed)
    (fun _ _ hallowed hs => step_does hs hallowed) hstart.sound h

def movedLink : List (Timestamp × StoreCall) := [
  (⟨1, 0⟩, .createNode 1 [97] (.directory 0o755) 0 0),
  (⟨2, 0⟩, .createNode 2 [98] (.symlink [47, 120]) 0 0),
  (⟨3, 0⟩, .createNode 2 [97] (.file 0o644) 0 0),
  (⟨4, 0⟩, .renameEntry 1 [97] 1 [99] false fun _ => false)]

theorem reports_of_movedLink :
    (∃ t, Traces FileTree.Does .root (answers step answer (Db.fresh 0 0 ⟨0, 0⟩) movedLink) t ∧
      ((Db.fresh 0 0 ⟨0, 0⟩).runCalls movedLink).Reports t) ∧
    ((Db.fresh 0 0 ⟨0, 0⟩).runCalls movedLink).listDir 2 =
      .ok [⟨[97], 4, .regularFile⟩, ⟨[98], 3, .symlink⟩] :=
  ⟨reports_of_calls 0 0 ⟨0, 0⟩ movedLink (by decide), rfl⟩

end Runs

end Db

end VibeDbfs
