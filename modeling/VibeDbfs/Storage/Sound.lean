import VibeDbfs.Storage.DirectWrites

/-!
The invariant of the store, and that every method keeps it.
-/

set_option autoImplicit false
set_option relaxedAutoImplicit false

namespace VibeDbfs

open Lib Lib.Bytes
open Relation (ReflTransGen)

namespace Db

/-- Chunk rows and symlink targets belong to inodes of their kind. -/
structure Stored (db : Db) : Prop where
  owned : db.Owned
  symlinks : ∀ row ∈ db.symlinkTargets, db.kindOf row.ino = some .symlink

/-- The invariant of the store. -/
structure Sound (db : Db) : Prop extends db.Linked, db.Stored

/-- What the data of `db'` shows is what the data of `db` shows. -/
structure SameData (db db' : Db) : Prop where
  kind : ∀ i, db'.kindOf i = db.kindOf i
  size : ∀ i, db'.storedSize i = db.storedSize i
  chunks : db'.fileChunks = db.fileChunks
  symlinks : db'.symlinkTargets = db.symlinkTargets

variable {db db' : Db} {ino parent newParent size : Nat} {name newName : Name} {now : Timestamp}

theorem SameData.trans {db'' : Db} (h : SameData db db') (h' : SameData db' db'') :
    SameData db db'' :=
  ⟨fun i => (h'.kind i).trans (h.kind i), fun i => (h'.size i).trans (h.size i),
    h'.chunks.trans h.chunks, h'.symlinks.trans h.symlinks⟩

private theorem Stored.of_same (h : db.Stored) (hsame : SameData db db') : db'.Stored where
  owned := h.owned.congr hsame.chunks (fun i hi => hsame.kind i ▸ hi) (fun i _ => hsame.size i)
    fun i hi => .inl (hsame.kind i ▸ hi)
  symlinks := hsame.symlinks ▸ fun row hrow => (hsame.kind _).trans (h.symlinks row hrow)

theorem sameData_touchDir : SameData db (db.touchDir ino now) :=
  ⟨fun _ => kindOf_touchDir now, fun _ => storedSize_touchDir now, rfl, rfl⟩

theorem sameData_addDirectoryNlink (delta : Int) : SameData db (db.addDirectoryNlink ino delta) :=
  ⟨fun _ => kindOf_addDirectoryNlink delta, fun _ => storedSize_addDirectoryNlink delta, rfl, rfl⟩

theorem sameData_setNlink (nlink : Nat) : SameData db (db.setNlink ino nlink now) :=
  ⟨fun _ => kindOf_setNlink now nlink, fun _ => storedSize_setNlink now nlink, rfl, rfl⟩

private theorem sameData_addEntry : SameData db (db.addEntry parent name ino) :=
  ⟨fun _ => rfl, fun _ => rfl, rfl, rfl⟩

private theorem sameData_deleteDirent : SameData db (db.deleteDirent parent name) :=
  ⟨fun _ => rfl, fun _ => rfl, rfl, rfl⟩

theorem sameData_moveEntry (sourceIsDir targetIsDir : Bool) :
    SameData db (db.moveEntry parent name newParent newName sourceIsDir targetIsDir now) :=
  ⟨kindOf_moveEntry now sourceIsDir targetIsDir, storedSize_moveEntry now sourceIsDir targetIsDir,
    fileChunks_moveEntry now sourceIsDir targetIsDir,
    symlinkTargets_moveEntry now sourceIsDir targetIsDir⟩

private theorem Stored.deleteInodeRows (h : db.Stored) (hino : ino ≤ maxIno) :
    (db.deleteInodeRows ino).Stored := by
  refine ⟨h.owned.deleteInodeRows hino, fun row hrow => ?_⟩
  obtain ⟨hmem, hne⟩ := List.mem_filter.mp hrow
  rw [kindOf_deleteInodeRows, if_neg (of_decide_eq_true hne)]
  exact h.symlinks row hmem

theorem Sound.fresh (mountUid mountGid : UInt32) (now : Timestamp) :
    (Db.fresh mountUid mountGid now).Sound := by
  refine ⟨Linked.fresh mountUid mountGid now, ⟨⟨?_, fun i hi => ?_⟩, ?_⟩⟩
  · rw [fresh_eq]
    simp
  · rw [kindOf_fresh] at hi
    split at hi <;> cases hi
  · rw [fresh_eq]
    simp

section Nodes

variable {node : NewNode} {uid gid : UInt32} {inode : Inode}

private theorem storedSize_addNode (i : Nat) :
    (db.addNode parent name node uid gid now).storedSize i =
    if i = db.nextIno then node.size else db.storedSize i := by
  rw [storedSize, findInode_addNode]
  split <;> rfl

theorem createNode_rows (h : db.createNode parent name node uid gid now = .ok (inode, db')) :
    inode = node.inode db.nextIno uid gid now ∧
    (∀ i, db'.kindOf i = if i = db.nextIno then some node.kind else db.kindOf i) ∧
    (∀ i, db'.storedSize i = if i = db.nextIno then node.size else db.storedSize i) ∧
    db'.fileChunks = db.fileChunks ∧
    db'.symlinkTargets = db.symlinkTargets ++ node.targets db.nextIno := by
  obtain ⟨-, -, -, -, hinode, rfl⟩ := createNode_cases h
  refine ⟨hinode, fun i => ?_, fun i => ?_, ?_, ?_⟩
  · split <;> simp only [kindOf_addDirectoryNlink, kindOf_touchDir, kindOf_addNode]
  · split <;> simp only [storedSize_addDirectoryNlink, storedSize_touchDir, storedSize_addNode]
  · split <;> rfl
  · split <;> rfl

theorem Linked.createNode (hs : db.Linked)
    (h : db.createNode parent name node uid gid now = .ok (inode, db')) : db'.Linked :=
  hs.of_steps (createNode_keys hs.keys h) (.single (createNode_step h))

theorem Sound.createNode (hs : db.Sound)
    (h : db.createNode parent name node uid gid now = .ok (inode, db')) : db'.Sound := by
  obtain ⟨-, hkind, hsize, hchunks, hsymlinks⟩ := createNode_rows h
  have hnew := nextIno_new db
  refine ⟨hs.toLinked.createNode h,
    ⟨hs.owned.congr hchunks (fun i hi => ?_) (fun i hi => ?_) (fun i hi => ?_), fun row hrow => ?_⟩⟩
  · rwa [hkind, if_neg]
    rintro rfl
    exact nomatch hnew.symm.trans hi
  · rw [hsize, if_neg]
    rintro rfl
    exact nomatch hnew.symm.trans hi
  · rw [hkind] at hi
    rw [hsize]
    split at hi
    · next heq =>
      right
      rw [if_pos heq]
      cases node <;> simp_all [NewNode.kind, NewNode.size]
    · exact .inl hi
  · rw [hsymlinks] at hrow
    rw [hkind]
    rcases List.mem_append.mp hrow with hrow | hrow
    · rw [if_neg, hs.symlinks row hrow]
      intro heq
      have := hs.symlinks row hrow
      rw [heq, hnew] at this
      cases this
    · cases node with
      | directory mode => simp [NewNode.targets] at hrow
      | file mode => simp [NewNode.targets] at hrow
      | symlink target =>
        obtain rfl := List.mem_singleton.mp hrow
        exact if_pos rfl

theorem sameData_link (h : db.link ino newParent newName now = .ok (inode, db')) :
    SameData db db' := by
  obtain ⟨-, r, -, -, -, -, -, rfl⟩ := link_cases h
  exact sameData_addEntry.trans ((sameData_setNlink _).trans sameData_touchDir)

theorem Linked.link (hs : db.Linked) (h : db.link ino newParent newName now = .ok (inode, db')) :
    db'.Linked :=
  hs.of_steps (link_keys hs.keys h) (.single (link_step h))

theorem Sound.link (hs : db.Sound) (h : db.link ino newParent newName now = .ok (inode, db')) :
    db'.Sound :=
  ⟨hs.toLinked.link h, hs.toStored.of_same (sameData_link h)⟩

end Nodes

section Drop

variable {d : Dirent} {r : InodeRow} (now) (isOpen : Bool)

theorem sameData_dropEntry (hr : db.findInode d.childIno = some r) :
    (LastName r isOpen →
      SameData (db.deleteInodeRows d.childIno) (db.dropEntry d r isOpen now)) ∧
    (¬LastName r isOpen → SameData db (db.dropEntry d r isOpen now)) := by
  refine ⟨fun hlast => ?_, fun hmore => ?_⟩
  · rw [dropEntry_of_last now isOpen hr hlast]
    refine ⟨fun i => ?_, fun i => ?_, rfl, rfl⟩
    · rw [kindOf_deleteInodeRows, kindOf_deleteInodeRows]
      rfl
    · rw [storedSize, storedSize, findInode_deleteInodeRows, findInode_deleteInodeRows]
      rfl
  · rw [dropEntry_of_more now isOpen hr hmore]
    exact sameData_deleteDirent.trans (sameData_setNlink _)

private theorem Sound.stored_dropEntry (hs : db.Sound) (hr : db.findInode d.childIno = some r) :
    (db.dropEntry d r isOpen now).Stored := by
  have hino := (hs.keys.range (by simp [kindOf_of_find hr] : (db.kindOf d.childIno).isSome)).2
  by_cases hlast : LastName r isOpen
  · exact (hs.toStored.deleteInodeRows hino).of_same ((sameData_dropEntry now isOpen hr).1 hlast)
  · exact hs.toStored.of_same ((sameData_dropEntry now isOpen hr).2 hlast)

variable {now} {isOpen} {target : Inode}

theorem unlinkEntry_eq (hlookup : db.lookup parent name = .ok target)
    (h : db.unlinkEntry parent name target isOpen now = .ok db') :
    ∃ d r, d ∈ db.dirents ∧ d.parentIno = parent ∧ d.name = name ∧
      db.findInode d.childIno = some r ∧ target = r.inode ∧ r.kind ≠ .directory ∧
      db' = (db.dropEntry d r isOpen now).touchDir parent now := by
  obtain ⟨-, d, r, hd, rfl, rfl, hr, rfl⟩ := lookup_cases hlookup
  obtain ⟨hfile, rfl⟩ := unlinkEntry_cases h
  exact ⟨d, r, hd, rfl, rfl, hr, rfl, hfile, rfl⟩

theorem Linked.unlinkEntry (hs : db.Linked) (hlookup : db.lookup parent name = .ok target)
    (h : db.unlinkEntry parent name target isOpen now = .ok db') : db'.Linked :=
  hs.of_steps (unlinkEntry_keys hs.keys h) (.single (unlinkEntry_step hs.tree hs.exact hlookup h))

theorem Sound.unlinkEntry (hs : db.Sound) (hlookup : db.lookup parent name = .ok target)
    (h : db.unlinkEntry parent name target isOpen now = .ok db') : db'.Sound := by
  refine ⟨hs.toLinked.unlinkEntry hlookup h, ?_⟩
  obtain ⟨d, r, -, -, -, hr, -, -, rfl⟩ := unlinkEntry_eq hlookup h
  exact (hs.stored_dropEntry now isOpen hr).of_same sameData_touchDir

theorem Sound.unlinkFile (hs : db.Sound) (h : db.unlinkFile parent name now = .ok db') :
    db'.Sound := by
  obtain ⟨target, hlookup, h⟩ := except_bind_eq_ok.mp h
  exact hs.unlinkEntry hlookup h

theorem Linked.removeDir (hs : db.Linked) (h : db.removeDir parent name now = .ok db') :
    db'.Linked :=
  hs.of_steps (removeDir_keys hs.keys h) (.single (removeDir_step hs.tree hs.exact h))

theorem Sound.removeDir (hs : db.Sound) (h : db.removeDir parent name now = .ok db') :
    db'.Sound := by
  refine ⟨hs.toLinked.removeDir h, ?_⟩
  obtain ⟨d, r, -, -, -, hr, -, -, rfl⟩ := removeDir_eq h
  exact (hs.stored_dropEntry now false hr).of_same
    (sameData_touchDir.trans (sameData_addDirectoryNlink _))

section Rename

variable {noreplace : Bool} {isOpen : Nat → Bool} {replaced : Option Inode}

theorem Linked.renameEntry (hs : db.Linked)
    (h : db.renameEntry parent name newParent newName noreplace isOpen now = .ok (replaced, db')) :
    db'.Linked := by
  have hsteps := renameEntry_step hs.tree hs.exact h
  obtain ⟨d, r, -, -, -, -, -, -, hcase⟩ := renameEntry_eq hs.tree h
  rcases hcase with ⟨-, -, -, rfl⟩ | ⟨-, -, rfl⟩ | ⟨f, q, -, -, -, -, hq, -, -, -, rfl⟩
  · exact hs
  · exact hs.of_steps (hs.keys.moveEntry now _ _) hsteps
  · exact hs.of_steps ((dropEntry_keys now _ hs.keys).moveEntry now _ _) hsteps

theorem Sound.renameEntry (hs : db.Sound)
    (h : db.renameEntry parent name newParent newName noreplace isOpen now = .ok (replaced, db')) :
    db'.Sound := by
  refine ⟨hs.toLinked.renameEntry h, ?_⟩
  obtain ⟨d, r, -, -, -, -, -, -, hcase⟩ := renameEntry_eq hs.tree h
  rcases hcase with ⟨-, -, -, rfl⟩ | ⟨-, -, rfl⟩ | ⟨f, q, -, -, -, -, hq, -, -, -, rfl⟩
  · exact hs.toStored
  · exact hs.toStored.of_same (sameData_moveEntry _ _)
  · exact (hs.stored_dropEntry now _ hq).of_same (sameData_moveEntry _ _)

end Rename

theorem Linked.deleteInodeRows (hs : db.Linked) (hkind : (db.kindOf ino).isSome)
    (hnlink : db.nlinkOf ino = 0) : (db.deleteInodeRows ino).Linked :=
  hs.of_steps (hs.keys.deleteInodeRows ino)
    (.single (deleteInode_step hs.tree hs.exact hkind hnlink))

theorem Sound.deleteInodeRows (hs : db.Sound) (hkind : (db.kindOf ino).isSome)
    (hnlink : db.nlinkOf ino = 0) : (db.deleteInodeRows ino).Sound :=
  ⟨hs.toLinked.deleteInodeRows hkind hnlink, hs.toStored.deleteInodeRows (hs.keys.range hkind).2⟩

end Drop

section Data

variable {chunks : List (Nat × Bytes)}

theorem names_setSize : (db.setSize ino size now).names = db.names := by
  simp only [names, Names.mk.injEq]
  exact ⟨funext fun _ => kindOf_setSize now size, funext fun _ => nlinkOf_setSize now size, rfl⟩

theorem Sound.of_owned (hs : db.Sound) (hkeys : db'.Keys) (hnames : db'.names = db.names)
    (howned : db'.Owned) (hsymlinks : db'.symlinkTargets = db.symlinkTargets) : db'.Sound := by
  refine ⟨⟨hkeys, hnames ▸ hs.tree, hnames ▸ hs.exact⟩, howned, fun row hrow => ?_⟩
  exact (congrFun (congrArg Names.kind hnames) _).trans (hs.symlinks row (hsymlinks ▸ hrow))

theorem names_upsertAll : (db.upsertAll ino chunks).names = db.names := by
  simp only [names, Names.mk.injEq]
  exact ⟨funext fun _ => kindOf_upsertAll, funext fun _ => nlinkOf_upsertAll, upsertAll_rows.2.1⟩

theorem Sound.replaceChunks (hs : db.Sound) (hfits : db.Fits ino size chunks) :
    ((db.upsertAll ino chunks).setSize ino size now).Sound :=
  hs.of_owned (hs.keys.upsertAll.setSize size now) (names_setSize.trans names_upsertAll)
    (hs.owned.upsertAll hs.keys hfits) upsertAll_rows.2.2

theorem names_cutAt : (db.cutAt ino size).names = db.names := by
  have hrows := cutAt_rows db ino size
  simp only [names, Names.mk.injEq]
  refine ⟨funext fun i => ?_, funext fun i => ?_, hrows.2.1⟩
  · simp only [kindOf, findInode, hrows.1]
  · simp only [nlinkOf, findInode, hrows.1]

theorem Sound.truncateFile (hs : db.Sound) (h : db.truncateFile ino size now = .ok db') :
    db'.Sound := by
  obtain ⟨hkind, hmax, rfl⟩ := truncateFile_cases h
  exact hs.of_owned (hs.keys.cutAt.setSize size now) (names_setSize.trans names_cutAt)
    (hs.owned.cutAt hs.keys hkind hmax) (cutAt_rows db ino size).2.2

theorem Sound.writeFileBatchAt (hs : db.Sound) {writes : List (Nat × Bytes)} {written : Nat}
    (h : db.writeFileBatchAt ino writes now = .ok (written, db')) : db'.Sound := by
  rcases writeFileBatchAt_cases hs.keys hs.owned h with rfl | ⟨hkind, mid, size, hbatch, rfl⟩
  · exact hs
  · exact hs.of_owned (hbatch.keys.setSize size now) (names_setSize.trans hbatch.names)
      (hbatch.owned now) hbatch.symlinks

theorem updateMetadata_cases {update : MetadataUpdate}
    (h : db.updateMetadata ino update now = .ok db') :
    (db.kindOf ino).isSome ∧ ∃ f : InodeRow → InodeRow, db' = db.updateInode ino f ∧
      ∀ r, (f r).ino = r.ino ∧ (f r).kind = r.kind ∧ (f r).size = r.size ∧
        (f r).nlink = r.nlink ∧ (f r).damaged = r.damaged := by
  obtain ⟨inode, hget, h⟩ := except_bind_eq_ok.mp h
  obtain ⟨r, hr, -⟩ := find_of_getInode hget
  exact ⟨by simp [kindOf_of_find hr], _, (Except.ok.inj h).symm, fun _ => ⟨rfl, rfl, rfl, rfl, rfl⟩⟩

theorem getInode_updateMetadata {update : MetadataUpdate}
    (h : db.updateMetadata ino update now = .ok db') : ∃ inode, db'.getInode ino = .ok inode := by
  obtain ⟨r, hr, hintact⟩ : ∃ r, db.findInode ino = some r ∧ r.damaged = false := by
    obtain ⟨inode, hget, -⟩ := except_bind_eq_ok.mp h
    obtain ⟨r, hr, -⟩ := find_of_getInode hget
    refine ⟨r, hr, ?_⟩
    rw [Db.getInode, hr] at hget
    change inodeFromRow r = _ at hget
    unfold inodeFromRow at hget
    split at hget
    · cases hget
    · next hintact => exact Bool.eq_false_iff.mpr hintact
  obtain ⟨-, f, rfl, hf⟩ := updateMetadata_cases h
  refine ⟨(f r).inode, ?_⟩
  rw [Db.getInode, findInode_updateInode fun r => (hf r).1, if_pos rfl, hr]
  change inodeFromRow (f r) = _
  unfold inodeFromRow
  rw [(hf r).2.2.2.2, hintact]
  rfl

theorem sameData_updateMetadata {update : MetadataUpdate}
    (h : db.updateMetadata ino update now = .ok db') : SameData db db' ∧ db'.names = db.names := by
  obtain ⟨-, f, rfl, hf⟩ := updateMetadata_cases h
  have hkind : ∀ i, (db.updateInode ino f).kindOf i = db.kindOf i := fun _ =>
    kindOf_updateInode (fun r => (hf r).1) fun r => (hf r).2.1
  refine ⟨⟨hkind, fun _ => storedSize_updateInode (fun r => (hf r).1) fun r => (hf r).2.2.1, rfl,
    rfl⟩, ?_⟩
  simp only [names, Names.mk.injEq]
  exact ⟨funext hkind, funext fun _ => nlinkOf_updateInode (fun r => (hf r).1) fun r =>
    (hf r).2.2.2.1,
    rfl⟩

theorem Sound.updateMetadata (hs : db.Sound) {update : MetadataUpdate}
    (h : db.updateMetadata ino update now = .ok db') : db'.Sound := by
  obtain ⟨hsame, hnames⟩ := sameData_updateMetadata h
  obtain ⟨-, f, rfl, hf⟩ := updateMetadata_cases h
  exact hs.of_owned (hs.keys.updateInode fun r => ⟨(hf r).1, (hf r).2.2.2.2⟩) hnames
    (hs.toStored.of_same hsame).owned
    rfl

end Data

section Open

variable (mountUid mountGid : UInt32) (now)

theorem sameData_claimRoot : SameData db (db.claimRoot mountUid mountGid now) :=
  ⟨fun i => congrFun (congrArg Names.kind (names_claimRoot mountUid mountGid now)) i,
    fun _ => storedSize_claimRoot mountUid mountGid now, rfl, rfl⟩

private theorem Stored.sweep {inos : List Nat} (h : db.Stored) (hinos : ∀ i ∈ inos, i ≤ maxIno) :
    (inos.foldl Db.deleteInodeRows db).Stored := by
  induction inos generalizing db with
  | nil => exact h
  | cons i inos ih =>
    exact ih (h.deleteInodeRows (hinos i List.mem_cons_self)) fun k hk =>
      hinos k (List.mem_cons_of_mem _ hk)

theorem Sound.initializeTables (hs : db.Sound) :
    (db.initializeTables mountUid mountGid now).Sound := by
  refine ⟨hs.toLinked.initializeTables mountUid mountGid now, ?_⟩
  rw [initialize_eq mountUid mountGid now hs.toLinked]
  refine (hs.toStored.of_same (sameData_claimRoot now mountUid mountGid)).sweep fun i hi => ?_
  exact (hs.keys.range ((mem_orphans_claimRoot mountUid mountGid now hs.toLinked).mp hi).1).2

end Open

end Db

end VibeDbfs
