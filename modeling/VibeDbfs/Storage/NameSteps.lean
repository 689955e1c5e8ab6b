import VibeDbfs.Storage.NameMethods

/-!
Every method of the namespace refines steps of the directory structure: one for an entry added or
removed, and two for a rename that replaces its target.
-/

set_option autoImplicit false
set_option relaxedAutoImplicit false

namespace VibeDbfs

open Lib
open Relation (ReflTransGen)

namespace Db

variable {db db' : Db} {ino parent newParent : Nat} {name newName : Name} {now : Timestamp}

theorem nextIno_new (db : Db) : db.kindOf db.nextIno = none := by
  have hfind : db.findInode db.nextIno = none := by
    refine Keyed.find_eq_none_iff.mpr fun r hr he => ?_
    have : r.ino < db.nextIno := lt_nextRowid (List.mem_map_of_mem hr)
    omega
  simp [kindOf, hfind]

theorem perm_deleteDirent (ht : db.names.Tree) {d : Dirent} (hd : d ∈ db.dirents) :
    db.dirents.Perm (d :: (db.deleteDirent d.parentIno d.name).dirents) := by
  have hperm := Keyed.perm_cons_filter ht.distinct hd
  have hsame : (db.deleteDirent d.parentIno d.name).dirents =
      db.dirents.filter fun e => ¬((e.parentIno, e.name) = (d.parentIno, d.name)) :=
    List.filter_congr fun e _ => by simp
  rw [hsame]
  exact hperm

theorem free_deleteDirent (d : Dirent) :
    Names.Free (db.deleteDirent d.parentIno d.name).dirents d.parentIno d.name := by
  intro e he heq
  simp only [deleteDirent, List.mem_filter, decide_eq_true_eq, not_and] at he
  exact he.2 (congrArg Prod.fst heq) (congrArg Prod.snd heq)

theorem perm_moveDirent (ht : db.names.Tree) {d : Dirent} (hd : d ∈ db.dirents)
    (newParent : Nat) (newName : Name) :
    (db.moveDirent d.parentIno d.name newParent newName).dirents.Perm
      ({ d with parentIno := newParent, name := newName } ::
        (db.deleteDirent d.parentIno d.name).dirents) := by
  have hmap := (perm_deleteDirent ht hd).map fun e : Dirent =>
    if e.parentIno = d.parentIno ∧ e.name = d.name then
      { e with parentIno := newParent, name := newName } else e
  rw [List.map_cons, if_pos ⟨rfl, rfl⟩] at hmap
  refine hmap.trans (.of_eq (congrArg _ ?_))
  refine (List.map_congr_left fun e he => ?_).trans (List.map_id _)
  simp only [deleteDirent, List.mem_filter, decide_eq_true_eq] at he
  rw [if_neg he.2, id]

private theorem perm_addEntry (db : Db) (parent : Nat) (name : Name) (child : Nat) :
    (db.addEntry parent name child).dirents.Perm
      (⟨nextRowid (db.dirents.map Dirent.id), parent, name, child⟩ :: db.dirents) :=
  List.perm_append_singleton _ _

section Create

variable {node : NewNode} {uid gid : UInt32}

theorem findInode_addNode :
    (db.addNode parent name node uid gid now).findInode ino =
      if ino = db.nextIno then some (node.row db.nextIno uid gid now) else db.findInode ino :=
  findInode_append (node.row db.nextIno uid gid now) (nextIno_new db)

theorem kindOf_addNode :
    (db.addNode parent name node uid gid now).kindOf ino =
      if ino = db.nextIno then some node.kind else db.kindOf ino := by
  rw [kindOf, findInode_addNode]
  split <;> rfl

private theorem nlinkOf_addNode :
    (db.addNode parent name node uid gid now).nlinkOf ino =
      if ino = db.nextIno then node.nlink else db.nlinkOf ino := by
  rw [nlinkOf, findInode_addNode]
  split <;> rfl

private theorem Keys.addNode (hk : db.Keys) (hmax : db.nextIno ≤ maxIno) :
    (db.addNode parent name node uid gid now).Keys := by
  refine ⟨?_, fun r hr => ?_, hk.chunks, fun r hr => ?_⟩
  · refine Keyed.nodup_append_singleton hk.inodes fun r hr => ?_
    have : r.ino < db.nextIno := lt_nextRowid (List.mem_map_of_mem hr)
    exact Nat.ne_of_lt this
  · rcases List.mem_append.mp hr with hr | hr
    · exact hk.inos r hr
    · rw [List.mem_singleton.mp hr]
      exact ⟨Nat.succ_pos _, hmax⟩
  · rcases List.mem_append.mp hr with hr | hr
    · exact hk.intact r hr
    · rw [List.mem_singleton.mp hr]
      rfl

theorem createNode_step {inode : Inode}
    (h : db.createNode parent name node uid gid now = .ok (inode, db')) :
    Names.Step db.names db'.names := by
  obtain ⟨-, hparent, hmax, hfree, -, rfl⟩ := createNode_cases h
  have hnew := nextIno_new db
  have hpne : parent ≠ db.nextIno := by
    rintro rfl
    rw [hnew] at hparent
    cases hparent
  have hsome : (((db.addNode parent name node uid gid now).touchDir parent now).kindOf
      parent).isSome := by
    rw [kindOf_touchDir, kindOf_addNode, if_neg hpne, hparent]
    rfl
  refine .create ⟨nextRowid (db.dirents.map Dirent.id), parent, name, db.nextIno⟩ node.kind hnew
    hparent hfree (fun j => ?_) (fun j => ?_) ?_
  · dsimp only [names]
    split <;> simp [kindOf_addNode]
  · dsimp only [names]
    split
    · next hdir =>
      rw [nlinkOf_addDirectoryNlink hsome, nlinkOf_touchDir, nlinkOf_addNode]
      have hlinks : node.nlink = 2 := by cases node <;> simp_all [NewNode.kind, NewNode.nlink]
      grind
    · next hdir =>
      rw [nlinkOf_touchDir, nlinkOf_addNode]
      have hlinks : node.nlink = 1 := by cases node <;> simp_all [NewNode.kind, NewNode.nlink]
      grind
  · dsimp only [names]
    split <;> exact perm_addEntry db parent name db.nextIno

theorem createNode_keys (hk : db.Keys) {inode : Inode}
    (h : db.createNode parent name node uid gid now = .ok (inode, db')) : db'.Keys := by
  obtain ⟨-, -, hmax, -, -, rfl⟩ := createNode_cases h
  split
  · exact ((hk.addNode hmax).touchDir now).addDirectoryNlink 1
  · exact (hk.addNode hmax).touchDir now

end Create

section Link

theorem link_step {inode : Inode} (h : db.link ino newParent newName now = .ok (inode, db')) :
    Names.Step db.names db'.names := by
  obtain ⟨-, r, hr, hfile, hparent, hfree, -, rfl⟩ := link_cases h
  have hkind := kindOf_of_find hr
  have hsome : ((db.addEntry newParent newName ino).kindOf ino).isSome := by
    change (db.kindOf ino).isSome
    simp [hkind]
  refine .link ⟨nextRowid (db.dirents.map Dirent.id), newParent, newName, ino⟩ hsome ?_ hparent
    hfree (fun j => ?_) (fun j => ?_) (perm_addEntry db newParent newName ino)
  · simpa [names, hkind] using hfile
  · simp only [names, kindOf_touchDir, kindOf_setNlink]
    rfl
  · simp only [names, nlinkOf_touchDir, nlinkOf_setNlink now hsome]
    split
    · next hj => rw [hj, nlinkOf_of_find hr]
    · rfl

theorem link_keys (hk : db.Keys) {inode : Inode}
    (h : db.link ino newParent newName now = .ok (inode, db')) : db'.Keys := by
  obtain ⟨-, r, -, -, -, -, -, rfl⟩ := link_cases h
  have hentry : (db.addEntry newParent newName ino).Keys := hk.congr rfl rfl
  exact (hentry.setNlink _ now).touchDir now

end Link

section Drop

/-- The tables after the entry `d` of an existing inode `r` went away. -/
def dropEntry (db : Db) (d : Dirent) (r : InodeRow) (isOpen : Bool) (now : Timestamp) : Db :=
  (db.deleteDirent d.parentIno d.name).dropUnlinkedInode r.inode now isOpen

variable {d : Dirent} {r : InodeRow} (isOpen : Bool) (now)

/-- Whether dropping an entry of the inode `r` deletes the inode. -/
def LastName (r : InodeRow) (isOpen : Bool) : Prop :=
  r.kind = .directory ∨ r.nlink ≤ 1 ∧ isOpen = false

theorem dropEntry_of_last (hr : db.findInode d.childIno = some r) (h : LastName r isOpen) :
    db.dropEntry d r isOpen now =
      (db.deleteDirent d.parentIno d.name).deleteInodeRows d.childIno := by
  rw [← findInode_ino hr]
  unfold dropEntry dropUnlinkedInode
  by_cases hdir : r.kind = .directory
  · exact if_pos hdir
  · obtain ⟨hone, hclosed⟩ := h.resolve_left hdir
    refine (if_neg hdir).trans (if_neg ?_)
    rintro (hmore | hopen)
    · exact Nat.not_lt.mpr hone hmore
    · exact Bool.noConfusion (hclosed.symm.trans hopen)

theorem dropEntry_of_more (hr : db.findInode d.childIno = some r) (h : ¬LastName r isOpen) :
    db.dropEntry d r isOpen now =
      (db.deleteDirent d.parentIno d.name).setNlink d.childIno (r.nlink - 1) now := by
  rw [← findInode_ino hr]
  unfold dropEntry dropUnlinkedInode
  refine (if_neg fun hdir => h (.inl hdir)).trans (if_pos ?_)
  by_cases hopen : isOpen = true
  · exact .inr hopen
  · exact .inl (Nat.lt_of_not_le fun hone => h (.inr ⟨hone, Bool.eq_false_iff.mpr hopen⟩))

omit now in
theorem unnamed_of_single (ht : db.names.Tree) (he : db.names.Exact) (hd : d ∈ db.dirents)
    (hr : db.findInode d.childIno = some r) (hlast : r.kind ≠ .directory → r.nlink ≤ 1) :
    ∀ e ∈ (db.deleteDirent d.parentIno d.name).dirents, e.childIno ≠ d.childIno := by
  have hperm := perm_deleteDirent ht hd
  have hkind := kindOf_of_find hr
  have hcount : db.dirents.countP (fun e => e.childIno = d.childIno) ≤ 1 := by
    by_cases hdir : r.kind = .directory
    · exact le_of_eq (ht.named _ (ht.rootUnnamed d hd) (hkind.trans (congrArg some hdir)))
    · have hexact := he d.childIno (by simp [names, hkind])
      rw [Names.linkCount, if_neg (by simpa [names, hkind] using hdir)] at hexact
      change db.nlinkOf d.childIno = _ at hexact
      rw [nlinkOf_of_find hr] at hexact
      exact hexact ▸ hlast hdir
  rw [hperm.countP_eq, List.countP_cons, if_pos (by simp)] at hcount
  intro e hmem heq
  have := List.countP_eq_zero.mp (Nat.le_zero.mp (Nat.le_of_add_le_add_right hcount)) e hmem
  simp [heq] at this

theorem dirents_dropEntry (ht : db.names.Tree) (he : db.names.Exact) (hd : d ∈ db.dirents)
    (hr : db.findInode d.childIno = some r)
    (hempty : r.kind = .directory → ∀ e ∈ db.dirents, e.parentIno ≠ r.ino) :
    (db.dropEntry d r isOpen now).dirents = (db.deleteDirent d.parentIno d.name).dirents := by
  have hino : r.ino = d.childIno := findInode_ino hr
  have hsub : ∀ e ∈ (db.deleteDirent d.parentIno d.name).dirents, e ∈ db.dirents := fun e hmem =>
    (List.mem_filter.mp hmem).1
  have herase : (r.kind ≠ .directory → r.nlink ≤ 1) →
      ((db.deleteDirent d.parentIno d.name).deleteInodeRows r.ino).dirents =
        (db.deleteDirent d.parentIno d.name).dirents := by
    intro hlast
    refine dirents_deleteInodeRows fun e hmem => ⟨?_, ?_⟩
    · by_cases hdir : r.kind = .directory
      · exact hempty hdir e (hsub e hmem)
      · rintro heq
        have hparent := ht.parent e (hsub e hmem)
        rw [heq, hino] at hparent
        exact hdir (Option.some.inj ((kindOf_of_find hr).symm.trans hparent))
    · exact hino ▸ unnamed_of_single ht he hd hr hlast e hmem
  by_cases hlast : LastName r isOpen
  · rw [dropEntry_of_last now isOpen hr hlast, ← hino]
    exact herase fun hfile => (hlast.resolve_left hfile).1
  · rw [dropEntry_of_more now isOpen hr hlast]
    rfl

theorem dropEntry_cases (ht : db.names.Tree) (he : db.names.Exact) (hd : d ∈ db.dirents)
    (hr : db.findInode d.childIno = some r)
    (hempty : r.kind = .directory → ∀ e ∈ db.dirents, e.parentIno ≠ r.ino) :
    (¬LastName r isOpen ∧
      (∀ j, (db.dropEntry d r isOpen now).kindOf j = db.kindOf j) ∧
      ∀ j, (db.dropEntry d r isOpen now).nlinkOf j =
        if j = d.childIno then db.nlinkOf j - 1 else db.nlinkOf j) ∨
    (LastName r isOpen ∧
      (∀ e ∈ (db.dropEntry d r isOpen now).dirents, e.childIno ≠ d.childIno) ∧
      (∀ e ∈ db.dirents, e.parentIno ≠ d.childIno) ∧
      (∀ j, (db.dropEntry d r isOpen now).kindOf j =
        if j = d.childIno then none else db.kindOf j) ∧
      ∀ j, j ≠ d.childIno → (db.dropEntry d r isOpen now).nlinkOf j = db.nlinkOf j) := by
  have hino : r.ino = d.childIno := findInode_ino hr
  by_cases hlast : LastName r isOpen
  · right
    have hdirents := dirents_dropEntry now isOpen ht he hd hr hempty
    refine ⟨hlast, ?_, fun e hmem heq => ?_, fun j => ?_, fun j hj => ?_⟩
    · rw [hdirents]
      exact unnamed_of_single ht he hd hr fun hfile => (hlast.resolve_left hfile).1
    · by_cases hdir : r.kind = .directory
      · exact hempty hdir e hmem (heq.trans hino.symm)
      · have hparent := ht.parent e hmem
        rw [heq] at hparent
        exact hdir (Option.some.inj ((kindOf_of_find hr).symm.trans hparent))
    · rw [dropEntry_of_last now isOpen hr hlast, kindOf_deleteInodeRows]
      rfl
    · rw [dropEntry_of_last now isOpen hr hlast, nlinkOf_deleteInodeRows hj]
      rfl
  · left
    have hsome : ((db.deleteDirent d.parentIno d.name).kindOf d.childIno).isSome := by
      change (db.kindOf d.childIno).isSome
      rw [kindOf_of_find hr]
      rfl
    refine ⟨hlast, fun j => ?_, fun j => ?_⟩
    · rw [dropEntry_of_more now isOpen hr hlast, kindOf_setNlink]
      rfl
    · rw [dropEntry_of_more now isOpen hr hlast, nlinkOf_setNlink now hsome]
      split
      · next hj => rw [hj, nlinkOf_of_find hr]
      · rfl

private theorem dropEntry_step (ht : db.names.Tree) (he : db.names.Exact) (hd : d ∈ db.dirents)
    (hr : db.findInode d.childIno = some r) (hfile : r.kind ≠ .directory) :
    Names.Step db.names (db.dropEntry d r isOpen now).names := by
  have hempty : r.kind = .directory → ∀ e ∈ db.dirents, e.parentIno ≠ r.ino :=
    fun h => (hfile h).elim
  have hperm := perm_deleteDirent ht hd
  rw [← dirents_dropEntry now isOpen ht he hd hr hempty] at hperm
  have hkind : db.names.kind d.childIno ≠ some .directory := by
    simpa [names, kindOf_of_find hr] using hfile
  rcases dropEntry_cases now isOpen ht he hd hr hempty with
    ⟨-, hk, hn⟩ | ⟨-, hunnamed, hnoparent, hk, hn⟩
  · exact .drop d hkind hk hn hperm
  · exact .erase d hunnamed hnoparent hk (fun j hj => by
      rw [if_neg fun h => hkind h.1]
      exact hn j hj) hperm

/-- A removed directory also takes a link from its parent. -/
private theorem dropEntry_dir_step (ht : db.names.Tree) (he : db.names.Exact) (hd : d ∈ db.dirents)
    (hr : db.findInode d.childIno = some r) (hdir : r.kind = .directory)
    (hempty : ∀ e ∈ db.dirents, e.parentIno ≠ r.ino) :
    Names.Step db.names
      ((db.dropEntry d r isOpen now).addDirectoryNlink d.parentIno (-1)).names := by
  have hperm := perm_deleteDirent ht hd
  rw [← dirents_dropEntry now isOpen ht he hd hr fun _ => hempty] at hperm
  have hkind : db.names.kind d.childIno = some .directory := by
    simpa [names, kindOf_of_find hr] using hdir
  rcases dropEntry_cases now isOpen ht he hd hr fun _ => hempty with
    ⟨hmore, -⟩ | ⟨-, hunnamed, hnoparent, hk, hn⟩
  · exact (hmore (.inl hdir)).elim
  · have hsome : ((db.dropEntry d r isOpen now).kindOf d.parentIno).isSome := by
      rw [hk, if_neg (hnoparent d hd)]
      exact Option.isSome_of_eq_some (ht.parent d hd)
    refine .erase d hunnamed hnoparent (fun j => ?_) (fun j hj => ?_) hperm
    · simp only [names, kindOf_addDirectoryNlink]
      exact hk j
    · simp only [names, nlinkOf_addDirectoryNlink hsome, hn j hj]
      simp only [names] at hkind
      simp only [hkind, true_and]
      split <;> omega

private theorem kindOf_dropEntry (ht : db.names.Tree) (he : db.names.Exact) (hd : d ∈ db.dirents)
    (hr : db.findInode d.childIno = some r)
    (hempty : r.kind = .directory → ∀ e ∈ db.dirents, e.parentIno ≠ r.ino) (j : Nat) :
    (db.dropEntry d r isOpen now).kindOf j = db.kindOf j ∨
      (db.dropEntry d r isOpen now).kindOf j = none ∧ j = d.childIno := by
  rcases dropEntry_cases now isOpen ht he hd hr hempty with ⟨-, hk, -⟩ | ⟨-, -, -, hk, -⟩
  · exact .inl (hk j)
  · by_cases hj : j = d.childIno
    · exact .inr ⟨(hk j).trans (if_pos hj), hj⟩
    · exact .inl ((hk j).trans (if_neg hj))

/-- The step of a removed entry, where a removed directory's link is still to be taken back. -/
private theorem dropEntry_pending (ht : db.names.Tree) (he : db.names.Exact) (hd : d ∈ db.dirents)
    (hr : db.findInode d.childIno = some r)
    (hempty : r.kind = .directory → ∀ e ∈ db.dirents, e.parentIno ≠ r.ino) :
    ∃ m : Names, Names.Step db.names m ∧ m.kind = (db.dropEntry d r isOpen now).kindOf ∧
      m.entries = (db.dropEntry d r isOpen now).dirents ∧ ∀ j, m.nlink j =
        if decide (r.kind = .directory) ∧ j = d.parentIno then
          (db.dropEntry d r isOpen now).nlinkOf j - 1
        else (db.dropEntry d r isOpen now).nlinkOf j := by
  by_cases hdir : r.kind = .directory
  · refine ⟨_, dropEntry_dir_step now isOpen ht he hd hr hdir (hempty hdir),
      funext fun j => kindOf_addDirectoryNlink (-1), rfl, fun j => ?_⟩
    have hsome : ((db.dropEntry d r isOpen now).kindOf d.parentIno).isSome := by
      rcases kindOf_dropEntry now isOpen ht he hd hr hempty d.parentIno with h | ⟨-, h⟩
      · exact h ▸ Option.isSome_of_eq_some (ht.parent d hd)
      · exact (ht.not_self_parent hd h).elim
    simp only [names, nlinkOf_addDirectoryNlink hsome, hdir, decide_true, true_and]
    split <;> omega
  · exact ⟨_, dropEntry_step now isOpen ht he hd hr hdir, rfl, rfl, fun j => by simp [hdir, names]⟩

theorem dropEntry_tree (ht : db.names.Tree) (he : db.names.Exact) (hd : d ∈ db.dirents)
    (hr : db.findInode d.childIno = some r)
    (hempty : r.kind = .directory → ∀ e ∈ db.dirents, e.parentIno ≠ r.ino) :
    (db.dropEntry d r isOpen now).names.Tree := by
  obtain ⟨m, hstep, hkind, hentries, -⟩ := dropEntry_pending now isOpen ht he hd hr hempty
  exact (hstep.tree ht).congr hkind.symm hentries.symm

theorem dropEntry_keys (hk : db.Keys) : (db.dropEntry d r isOpen now).Keys :=
  (show (db.deleteDirent d.parentIno d.name).Keys from hk.congr rfl rfl).dropUnlinkedInode _ _ _

end Drop

section Remove

theorem unlinkEntry_step (ht : db.names.Tree) (he : db.names.Exact) {target : Inode} {isOpen : Bool}
    (hlookup : db.lookup parent name = .ok target)
    (h : db.unlinkEntry parent name target isOpen now = .ok db') :
    Names.Step db.names db'.names := by
  obtain ⟨-, d, r, hd, rfl, rfl, hr, rfl⟩ := lookup_cases hlookup
  obtain ⟨hfile, rfl⟩ := unlinkEntry_cases h
  rw [names_touchDir]
  exact dropEntry_step now isOpen ht he hd hr hfile

theorem unlinkEntry_keys (hk : db.Keys) {target : Inode} {isOpen : Bool}
    (h : db.unlinkEntry parent name target isOpen now = .ok db') : db'.Keys := by
  obtain ⟨-, rfl⟩ := unlinkEntry_cases h
  have hentry : (db.deleteDirent parent name).Keys := hk.congr rfl rfl
  exact (hentry.dropUnlinkedInode _ _ _).touchDir now

theorem removeDir_eq (h : db.removeDir parent name now = .ok db') :
    ∃ d r, d ∈ db.dirents ∧ d.parentIno = parent ∧ d.name = name ∧
      db.findInode d.childIno = some r ∧ r.kind = .directory ∧
      (∀ e ∈ db.dirents, e.parentIno ≠ r.ino) ∧
      db' = ((db.dropEntry d r false now).touchDir parent now).addDirectoryNlink parent (-1) := by
  obtain ⟨d, r, hd, rfl, rfl, hr, hdir, hempty, rfl⟩ := removeDir_cases h
  refine ⟨d, r, hd, rfl, rfl, hr, hdir, hempty, ?_⟩
  unfold dropEntry dropUnlinkedInode
  rw [if_pos (show r.inode.kind = .directory from hdir)]
  rfl

private theorem names_addDirectoryNlink_touchDir (delta : Int) :
    ((db.touchDir parent now).addDirectoryNlink parent delta).names =
      (db.addDirectoryNlink parent delta).names := by
  have hrow : ∀ j, ((db.touchDir parent now).addDirectoryNlink parent delta).nlinkOf j =
      (db.addDirectoryNlink parent delta).nlinkOf j := by
    intro j
    simp only [nlinkOf, addDirectoryNlink, touchDir]
    rw [findInode_updateInode, findInode_updateInode, findInode_updateInode]
    · split <;> simp [Option.map_map, Function.comp_def]
    all_goals exact fun _ => rfl
  simp only [names, Names.mk.injEq]
  exact ⟨funext fun j => by simp, funext hrow, rfl⟩

theorem removeDir_step (ht : db.names.Tree) (he : db.names.Exact)
    (h : db.removeDir parent name now = .ok db') : Names.Step db.names db'.names := by
  obtain ⟨d, r, hd, rfl, rfl, hr, hdir, hempty, rfl⟩ := removeDir_eq h
  rw [names_addDirectoryNlink_touchDir]
  exact dropEntry_dir_step now false ht he hd hr hdir hempty

theorem removeDir_keys (hk : db.Keys) (h : db.removeDir parent name now = .ok db') : db'.Keys := by
  obtain ⟨d, r, -, rfl, rfl, -, -, -, rfl⟩ := removeDir_eq h
  exact ((dropEntry_keys now false hk).touchDir now).addDirectoryNlink (-1)

/-- An inode with link count 0 has no entry, so its rows go alone. -/
theorem deleteInode_step (ht : db.names.Tree) (he : db.names.Exact)
    (hkind : (db.kindOf ino).isSome) (hnlink : db.nlinkOf ino = 0) :
    Names.Step db.names (db.deleteInodeRows ino).names := by
  have hexact := he ino hkind
  change db.nlinkOf ino = _ at hexact
  rw [hnlink, Names.linkCount] at hexact
  have hfile : db.kindOf ino ≠ some .directory := by
    intro hdir
    rw [if_pos (show db.names.kind ino = _ from hdir)] at hexact
    omega
  rw [if_neg (show ¬db.names.kind ino = _ from hfile)] at hexact
  have hunnamed : ∀ d ∈ db.dirents, d.childIno ≠ ino := by
    intro d hd heq
    simpa [heq] using List.countP_eq_zero.mp hexact.symm d hd
  refine .sweep ino hfile hunnamed (fun j => kindOf_deleteInodeRows)
    (fun j hj => nlinkOf_deleteInodeRows hj) (dirents_deleteInodeRows fun d hd =>
      ⟨?_, hunnamed d hd⟩)
  rintro rfl
  exact hfile (ht.parent d hd)

theorem names_deleteInodeRows_of_none (ht : db.names.Tree) (hnone : db.kindOf ino = none) :
    (db.deleteInodeRows ino).names = db.names := by
  have hdirents : (db.deleteInodeRows ino).dirents = db.dirents := by
    refine dirents_deleteInodeRows fun d hd => ⟨?_, ?_⟩
    · rintro rfl
      exact nomatch hnone.symm.trans (ht.parent d hd)
    · rintro rfl
      have := ht.child d hd
      change (db.kindOf d.childIno).isSome at this
      rw [hnone] at this
      cases this
  have hkind : (db.deleteInodeRows ino).kindOf = db.kindOf := by
    funext j
    rw [kindOf_deleteInodeRows]
    split
    · next hj => rw [hj, hnone]
    · rfl
  have hnlink : (db.deleteInodeRows ino).nlinkOf = db.nlinkOf := by
    funext j
    by_cases hj : j = ino
    · rw [hj, nlinkOf_of_none hnone, nlinkOf_of_none (by rw [hkind, hnone])]
    · exact nlinkOf_deleteInodeRows hj
  rw [names, hkind, hnlink, hdirents]
  rfl

end Remove

section Rename

variable (sourceIsDir targetIsDir : Bool) (now)

theorem kindOf_moveEntry (j : Nat) :
    (db.moveEntry parent name newParent newName sourceIsDir targetIsDir now).kindOf j =
      db.kindOf j := by
  unfold moveEntry
  dsimp only
  split_ifs <;> simp only [kindOf_addDirectoryNlink, kindOf_touchDir] <;> rfl

theorem dirents_moveEntry :
    (db.moveEntry parent name newParent newName sourceIsDir targetIsDir now).dirents =
      (db.moveDirent parent name newParent newName).dirents := by
  unfold moveEntry
  dsimp only
  split_ifs <;> rfl

theorem fileChunks_moveEntry :
    (db.moveEntry parent name newParent newName sourceIsDir targetIsDir now).fileChunks =
      db.fileChunks := by
  unfold moveEntry
  dsimp only
  split_ifs <;> rfl

theorem symlinkTargets_moveEntry :
    (db.moveEntry parent name newParent newName sourceIsDir targetIsDir now).symlinkTargets =
      db.symlinkTargets := by
  unfold moveEntry
  dsimp only
  split_ifs <;> rfl

theorem storedSize_moveEntry (j : Nat) :
    (db.moveEntry parent name newParent newName sourceIsDir targetIsDir now).storedSize j =
      db.storedSize j := by
  unfold moveEntry
  dsimp only
  split_ifs <;> simp only [storedSize_addDirectoryNlink, storedSize_touchDir] <;> rfl

theorem nlinkOf_moveEntry (hparent : (db.kindOf parent).isSome)
    (hnew : (db.kindOf newParent).isSome) (j : Nat) :
    (db.moveEntry parent name newParent newName sourceIsDir targetIsDir now).nlinkOf j =
      (((db.nlinkOf j +
        (if sourceIsDir ∧ parent ≠ newParent ∧ j = parent then -1 else 0 : Int)).toNat +
        (if sourceIsDir ∧ parent ≠ newParent ∧ j = newParent then 1 else 0 : Int)).toNat +
        (if targetIsDir ∧ j = newParent then -1 else 0 : Int)).toNat := by
  have hparent' : ((db.moveDirent parent name newParent newName).kindOf parent).isSome := hparent
  have hnew' : ((db.moveDirent parent name newParent newName).kindOf newParent).isSome := hnew
  have hmove : (db.moveDirent parent name newParent newName).nlinkOf j = db.nlinkOf j := rfl
  unfold moveEntry
  dsimp only
  split_ifs <;>
    simp only [nlinkOf_addDirectoryNlink, kindOf_addDirectoryNlink, kindOf_touchDir,
      nlinkOf_touchDir, hparent', hnew', hmove] <;>
    grind

theorem Keys.moveEntry (hk : db.Keys) :
    (db.moveEntry parent name newParent newName sourceIsDir targetIsDir now).Keys := by
  have hmove : (db.moveDirent parent name newParent newName).Keys := hk.congr rfl rfl
  unfold Db.moveEntry
  dsimp only
  split_ifs <;>
    repeat' first | exact hmove | apply Keys.touchDir | apply Keys.addDirectoryNlink

/-- The move of a rename, once the place is free and a replaced directory's link is taken back. -/
private theorem moveEntry_step {d : Dirent} {m : Names} (ht : db.names.Tree) (hd : d ∈ db.dirents)
    (hsource : sourceIsDir = true ↔ db.kindOf d.childIno = some .directory)
    (hnew : db.kindOf newParent = some .directory)
    (hfree : Names.Free db.dirents newParent newName)
    (habove : db.kindOf d.childIno = some .directory →
      ¬ReflTransGen db.names.Up newParent d.childIno)
    (hlinks : targetIsDir → 0 < db.nlinkOf newParent)
    (hmkind : m.kind = db.kindOf) (hmentries : m.entries = db.dirents)
    (hmnlink : ∀ j, m.nlink j =
      if targetIsDir ∧ j = newParent then db.nlinkOf j - 1 else db.nlinkOf j) :
    Names.Step m
      (db.moveEntry d.parentIno d.name newParent newName sourceIsDir targetIsDir now).names := by
  have hparent := ht.parent d hd
  have hup : m.Up = db.names.Up := by
    funext a b
    simp only [Names.Up, hmkind, hmentries]
    rfl
  refine .move d newParent newName (db.deleteDirent d.parentIno d.name).dirents
    (hmkind ▸ hnew) (fun e he => hfree e (List.mem_filter.mp he).1) ?_ (fun j => ?_) (fun j => ?_)
    (hmentries ▸ perm_deleteDirent ht hd) ?_
  · rw [hmkind, hup]
    exact habove
  · exact (kindOf_moveEntry now sourceIsDir targetIsDir j).trans (congrFun hmkind j).symm
  · change (db.moveEntry _ _ _ _ _ _ _).nlinkOf j = _
    rw [nlinkOf_moveEntry now sourceIsDir targetIsDir (Option.isSome_of_eq_some hparent)
      (Option.isSome_of_eq_some hnew), hmkind, hmnlink]
    grind
  · change (db.moveEntry _ _ _ _ _ _ _).dirents.Perm _
    rw [dirents_moveEntry]
    exact perm_moveDirent ht hd newParent newName

variable {now} {noreplace : Bool} {isOpen : Nat → Bool} {replaced : Option Inode}

theorem renameEntry_eq (ht : db.names.Tree)
    (h : db.renameEntry parent name newParent newName noreplace isOpen now = .ok (replaced, db')) :
    ∃ d r, d ∈ db.dirents ∧ d.parentIno = parent ∧ d.name = name ∧
      db.findInode d.childIno = some r ∧ db.kindOf newParent = some .directory ∧
      (r.kind = .directory → ¬ReflTransGen db.names.Up newParent d.childIno) ∧
      ((parent = newParent ∧ name = newName ∧ replaced = none ∧ db' = db) ∨
      (replaced = none ∧ Names.Free db.dirents newParent newName ∧
        db' = db.moveEntry parent name newParent newName (r.kind = .directory) false now) ∨
      ∃ f q, f ∈ db.dirents ∧ f.parentIno = newParent ∧ f.name = newName ∧ f ≠ d ∧
        db.findInode f.childIno = some q ∧ replaced = some q.inode ∧
        (q.kind = .directory ↔ r.kind = .directory) ∧
        (q.kind = .directory → ∀ e ∈ db.dirents, e.parentIno ≠ q.ino) ∧
        db' = (db.dropEntry f q (isOpen q.ino) now).moveEntry parent name newParent newName
          (r.kind = .directory) (q.kind = .directory) now) := by
  obtain ⟨d, r, hd, hp, hn, hr, hnew, hbelow, hcase⟩ := renameEntry_cases h
  refine ⟨d, r, hd, hp, hn, hr, hnew, fun hdir => ?_, ?_⟩
  · obtain ⟨b, hb, hiff⟩ := isDescendant_spec ht hnew r.ino
    rw [hbelow hdir, Option.some.injEq] at hb
    rw [← hb, findInode_ino hr] at hiff
    simpa using hiff
  · rcases hcase with ⟨hsame, hnone, hdb⟩ | ⟨hdiff, hexisting, hcheck, hdb⟩
    · exact .inl ⟨hsame.1, hsame.2, hnone, hdb⟩
    · right
      rcases replaced with _ | target
      · exact .inl ⟨rfl, existingTarget_none ht hexisting, hdb⟩
      · right
        obtain ⟨-, f, q, hf, hfp, hfn, hq, rfl⟩ := lookup_cases (existingTarget_some hexisting)
        obtain ⟨hkinds, hempty⟩ := renameTargetError_ok ht (hcheck _ rfl)
        refine ⟨f, q, hf, hfp, hfn, ?_, hq, rfl, hkinds, hempty, ?_⟩
        · rintro rfl
          exact hdiff ⟨hp.symm.trans hfp, hn.symm.trans hfn⟩
        · rw [hdb, renameTx, ← hfp, ← hfn]
          rfl

theorem mem_dropEntry {d f : Dirent} {q : InodeRow} {isOpen : Bool} (ht : db.names.Tree)
    (he : db.names.Exact) (hf : f ∈ db.dirents) (hq : db.findInode f.childIno = some q)
    (hempty : q.kind = .directory → ∀ e ∈ db.dirents, e.parentIno ≠ q.ino)
    (hd : d ∈ db.dirents) (hne : f ≠ d) : d ∈ (db.dropEntry f q isOpen now).dirents := by
  rw [dirents_dropEntry now isOpen ht he hf hq hempty]
  have hmem := (perm_deleteDirent ht hf).mem_iff.mp hd
  exact (List.mem_cons.mp hmem).resolve_left (Ne.symm hne)

theorem renameEntry_step (ht : db.names.Tree) (he : db.names.Exact)
    (h : db.renameEntry parent name newParent newName noreplace isOpen now = .ok (replaced, db')) :
    ReflTransGen Names.Step db.names db'.names := by
  obtain ⟨d, r, hd, rfl, rfl, hr, hnew, habove, hcase⟩ := renameEntry_eq ht h
  have hkind := kindOf_of_find hr
  rcases hcase with ⟨-, -, -, rfl⟩ | ⟨-, hfree, rfl⟩ |
    ⟨f, q, hf, rfl, rfl, hne, hq, -, hkinds, hempty, rfl⟩
  · exact .refl
  · refine .single (moveEntry_step now _ false ht hd (by simp [hkind]) hnew hfree
      (fun hdir => habove (Option.some.inj (hkind.symm.trans hdir))) (by simp) rfl rfl ?_)
    intro j
    simp [names]
  · -- first the replaced inode goes, then the entry moves to the free place
    set db₁ := db.dropEntry f q (isOpen q.ino) now with hdb₁
    have hdirents : db₁.dirents = (db.deleteDirent f.parentIno f.name).dirents :=
      dirents_dropEntry now _ ht he hf hq hempty
    have hkeep : ∀ j, db₁.kindOf j = db.kindOf j ∨ db₁.kindOf j = none ∧ j = f.childIno :=
      kindOf_dropEntry now _ ht he hf hq hempty
    have hback : ∀ {j k}, db₁.kindOf j = some k → db.kindOf j = some k := by
      intro j k hj
      rcases hkeep j with h | ⟨h, -⟩
      · exact h ▸ hj
      · rw [h] at hj
        cases hj
    have hnew₁ : db₁.kindOf f.parentIno = some .directory :=
      ((hkeep _).resolve_right fun hgone => ht.not_self_parent hf hgone.2).trans hnew
    have hup : ∀ a b, db₁.names.Up a b → db.names.Up a b := by
      rintro a b ⟨ha, e, hmem, hea, heb⟩
      change e ∈ db₁.dirents at hmem
      rw [hdirents] at hmem
      exact ⟨hback ha, e, (List.mem_filter.mp hmem).1, hea, heb⟩
    obtain ⟨m, hstep, hmkind, hmentries, hmnlink⟩ :=
      dropEntry_pending now (isOpen q.ino) ht he hf hq hempty
    refine .tail (.single hstep) (moveEntry_step now _ _ (dropEntry_tree now _ ht he hf hq hempty)
      (mem_dropEntry ht he hf hq hempty hd hne) ?_ hnew₁ (hdirents ▸ free_deleteDirent f) ?_ ?_
      hmkind hmentries hmnlink)
    · rw [decide_eq_true_eq]
      refine ⟨fun hdir => ?_, fun hdir => Option.some.inj (hkind.symm.trans (hback hdir))⟩
      -- a directory has one entry, so the replaced inode is another one
      have hother : d.childIno ≠ f.childIno :=
        unnamed_of_single ht he hf hq (fun hfile => (hfile (hkinds.mpr hdir)).elim) d
          (hdirents ▸ mem_dropEntry ht he hf hq hempty hd hne)
      rw [(hkeep _).resolve_right fun hgone => hother hgone.2, hkind, hdir]
    · intro hdir hreach
      exact habove (Option.some.inj (hkind.symm.trans (hback hdir)))
        (ReflTransGen.mono hup _ _ hreach)
    · intro hdir
      rw [decide_eq_true_eq] at hdir
      rcases dropEntry_cases now (isOpen q.ino) ht he hf hq hempty with
        ⟨hmore, -⟩ | ⟨-, -, -, -, hn⟩
      · exact (hmore (.inl hdir)).elim
      · have hexact := he f.parentIno (Option.isSome_of_eq_some hnew)
        rw [Names.linkCount, if_pos (show db.names.kind _ = _ from hnew)] at hexact
        rw [hn _ (ht.not_self_parent hf)]
        change db.nlinkOf _ = _ at hexact
        omega

end Rename

end Db

end VibeDbfs
