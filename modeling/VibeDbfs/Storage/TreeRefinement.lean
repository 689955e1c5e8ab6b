import VibeDbfs.Lib.Refinement
import VibeDbfs.Storage.FileTree

/-!
The methods of the store do to the tree what the tree's own calls do, with the same outcome.
-/

set_option autoImplicit false
set_option relaxedAutoImplicit false

namespace VibeDbfs

open Lib
open Relation (ReflTransGen)

namespace Db

variable {db db' : Db} {ino parent newParent : Nat} {name newName : Name} {now : Timestamp}

section Checks

theorem expectDirectory_tree (hk : db.Keys) (p : Nat) : db.tree.expectDirectory p =
    (db.inodeKindOf p).bind fun kind =>
      if kind = .directory then .ok () else .error .notDirectory := by
  have hnode : db.tree.node p = db.nodeOf p := rfl
  unfold FileTree.expectDirectory inodeKindOf
  rw [hnode]
  unfold nodeOf kindOf
  rcases hr : db.findInode p with _ | r
  · rfl
  · dsimp only
    rw [hk.readKind hr]
    rcases hkind : r.kind <;> simp [hkind, Except.bind]

private theorem expectFree_iff {p : Nat} {n : Name} :
    db.tree.expectFree p n = .ok () ↔ Names.Free db.dirents p n := by
  unfold FileTree.expectFree
  rcases hfind : db.findEntry p n with _ | d
  · rw [tree_entry_eq_none.mpr hfind]
    exact ⟨fun _ => findEntry_eq_none hfind, fun _ => rfl⟩
  · rw [tree_entry_of_find hfind]
    obtain ⟨hd, hp, hn⟩ := findEntry_mem hfind
    exact ⟨nofun, fun hfree => (hfree d hd (Prod.ext hp hn)).elim⟩

private theorem expectFree_error {p : Nat} {n : Name} (h : ¬Names.Free db.dirents p n) :
    db.tree.expectFree p n = .error .alreadyExists := by
  unfold FileTree.expectFree
  rw [if_pos]
  by_contra hnone
  rw [Bool.not_eq_true, Option.isSome_eq_false_iff, Option.isNone_iff_eq_none,
    tree_entry_eq_none] at hnone
  exact h (findEntry_eq_none hnone)

theorem find_tree (hk : db.Keys) (ht : db.names.Tree) (p : Nat) (n : Name) :
    db.tree.find p n = (db.lookup p n).map Inode.ino := by
  unfold FileTree.find lookup
  rcases checkName n with e | ⟨⟩
  · rfl
  rcases hfind : db.findEntry p n with _ | d
  · rw [tree_entry_eq_none.mpr hfind]
    rfl
  · obtain ⟨r, hr⟩ := exists_inode ht (findEntry_mem hfind).1
    rw [tree_entry_of_find hfind, Option.bind_some, hr]
    dsimp only
    rw [hk.inodeFromRow hr]
    exact congrArg Except.ok (findInode_ino hr).symm

end Checks

section Create

/-- A new entry is refused for one reason only where its ends exist. -/
private theorem insertDirent_eq (hparent : (db.kindOf parent).isSome)
    (hchild : (db.kindOf ino).isSome) :
    db.insertDirent parent name ino =
      (db.tree.expectFree parent name).map fun _ => db.addEntry parent name ino := by
  unfold insertDirent
  rw [← findInode_isSome] at hparent hchild
  split
  · next hany =>
    rw [expectFree_error]
    · rfl
    · obtain ⟨d, hd, hat⟩ := List.any_eq_true.mp hany
      have hat := of_decide_eq_true hat
      exact fun hfree => hfree d hd (Prod.ext hat.1 hat.2)
  · next hany =>
    rw [expectFree_iff.mpr (free_of_any_false hany), if_neg]
    · rfl
    · rw [Bool.or_eq_true, Option.isNone_iff_eq_none, Option.isNone_iff_eq_none]
      rintro (hnone | hnone)
      · rw [hnone] at hparent
        cases hparent
      · rw [hnone] at hchild
        cases hchild

private theorem targetOf_addNode (hs : db.Sound) {node : NewNode} {i : Nat}
    (hrows : db'.symlinkTargets = db.symlinkTargets ++ node.targets db.nextIno) :
    db'.targetOf i = if i = db.nextIno then
        ((node.targets db.nextIno).map SymlinkRow.target).headD []
      else db.targetOf i := by
  unfold targetOf
  rw [hrows, List.find?_append]
  split
  · next h =>
    subst h
    have hnone : db.symlinkTargets.find? (fun r => r.ino = db.nextIno) = none := by
      apply Keyed.find_eq_none_iff.mpr
      intro r hr hino
      have hkind := hs.symlinks r hr
      rw [hino, nextIno_new] at hkind
      cases hkind
    rw [hnone]
    cases node <;> simp [NewNode.targets]
  · next h =>
    have hnone : (node.targets db.nextIno).find? (fun r => r.ino = i) = none := by
      cases node <;> simp [NewNode.targets, Ne.symm h]
    rw [hnone, Option.or_none]

private theorem tree_addNode (hs : db.Sound) {node : NewNode} {uid gid : UInt32}
    (hfree : Names.Free db.dirents parent name) :
    (db.addNode parent name node uid gid now).tree =
      db.tree.addNode db.nextIno parent name node.node := by
  ext i : 2
  · change (db.addNode parent name node uid gid now).nodeOf i =
      (db.tree.setNode db.nextIno (some node.node)).node i
    by_cases hi : i = db.nextIno
    · subst hi
      rw [NameTree.node_setNode_self, nodeOf, kindOf_addNode, if_pos rfl, targetOf_addNode hs rfl,
        if_pos rfl]
      cases node <;> rfl
    · rw [NameTree.node_setNode_of_ne hi]
      apply nodeOf_congr
      · rw [kindOf_addNode, if_neg hi]
      · intro _
        rw [targetOf_addNode hs rfl, if_neg hi]
  · have hentry := congrArg NameTree.entry (@tree_addEntry db db.nextIno parent name hfree)
    exact congrFun hentry i

private theorem insertDirent_addNode (hdir : db.kindOf parent = some .directory) (node : NewNode)
    (uid gid : UInt32) :
    ({ db with inodes := db.inodes ++ [node.row db.nextIno uid gid now] } : Db).insertDirent
        parent name db.nextIno =
      (db.tree.expectFree parent name).map fun _ =>
        { db with
          inodes := db.inodes ++ [node.row db.nextIno uid gid now]
          dirents := (db.addEntry parent name db.nextIno).dirents } := by
  have hkind : ∀ i, ({ db with inodes := db.inodes ++ [node.row db.nextIno uid gid now] } :
      Db).kindOf
      i = if i = db.nextIno then some node.kind else db.kindOf i := by
    intro i
    change (db.addNode parent name node uid gid now).kindOf i = _
    rw [kindOf_addNode]
  refine insertDirent_eq ?_ ?_
  · rw [hkind]
    split
    · rfl
    · rw [hdir]
      rfl
  · rw [hkind, if_pos rfl]
    rfl

private theorem insertSymlink_new (hs : db.Sound)
    (hsymlinks : db'.symlinkTargets = db.symlinkTargets)
    (target : Bytes) : db'.insertSymlink db.nextIno target =
      .ok { db' with symlinkTargets := db'.symlinkTargets ++ [⟨db.nextIno, target⟩] } := by
  unfold insertSymlink
  rw [if_neg]
  intro hany
  obtain ⟨r, hr, hino⟩ := List.any_eq_true.mp hany
  have hkind := hs.symlinks r (hsymlinks ▸ hr)
  rw [of_decide_eq_true hino, nextIno_new] at hkind
  cases hkind

/-- `create_node` is refused where the tree refuses it. -/
private theorem createNode_may (hs : db.Sound) (node : NewNode) (uid gid : UInt32) :
    (db.createNode parent name node uid gid now).map (fun _ => ()) =
      db.tree.mayCreate db.nextIno parent name := by
  unfold createNode FileTree.mayCreate
  rw [expectDirectory_tree hs.keys]
  rcases hname : checkName name with e | ⟨⟩
  · rfl
  rcases hparent : db.inodeKindOf parent with e | (_ | _ | _)
  · rfl
  · rfl
  · -- the parent is a directory
    have hdir := kindOf_of_read hparent
    change Except.map _ (if db.nextIno > maxIno then _ else _) =
      if db.nextIno > maxIno then _ else _
    by_cases hmax : db.nextIno > maxIno
    · rw [if_pos hmax, if_pos hmax]
      rfl
    · rw [if_neg hmax, if_neg hmax]
      change Except.map _ (insertDirent { db with
        inodes := db.inodes ++ [node.row db.nextIno uid gid now] } parent name db.nextIno >>= _) = _
      rw [insertDirent_addNode hdir]
      rcases db.tree.expectFree parent name with e | ⟨⟩
      · rfl
      · cases node with
        | directory mode => rfl
        | file mode => rfl
        | symlink target =>
          change Except.map _ (insertSymlink _ db.nextIno target >>= _) = _
          rw [insertSymlink_new hs ?_]
          · rfl
          · rfl
  · rfl

/-- Where a method is refused exactly when the tree refuses, the outcomes agree if what they do
agrees. -/
private theorem outcome_eq {ε α β γ : Type} {x : Except ε α} {check : Except ε β}
    {f : α → γ} {g : β → γ} (hmay : x.map (fun _ => ()) = check.map fun _ => ())
    (hok : ∀ a b, x = .ok a → check = .ok b → f a = g b) : x.map f = check.map g := by
  rcases x with e | a <;> rcases check with e' | b
  · exact congrArg Except.error (Except.error.inj hmay)
  · cases hmay
  · cases hmay
  · exact congrArg Except.ok (hok a b rfl rfl)

private theorem createNode_outcome (hs : db.Sound) (node : NewNode) (uid gid : UInt32) :
    (db.createNode parent name node uid gid now).map (fun r => r.2.tree) =
      (db.tree.mayCreate db.nextIno parent name).map fun _ =>
        db.tree.addNode db.nextIno parent name node.node := by
  apply outcome_eq
  · rw [createNode_may hs]
    rcases db.tree.mayCreate db.nextIno parent name with e | ⟨⟩ <;> rfl
  · rintro ⟨inode, db'⟩ - hcreate -
    obtain ⟨-, -, -, hfree, -, rfl⟩ := createNode_cases hcreate
    rw [← tree_addNode hs hfree]
    split
    · rw [tree_addDirectoryNlink, tree_touchDir]
    · rw [tree_touchDir]

end Create

section Link

private theorem node_of_find {i : Nat} {r : InodeRow} (h : db.findInode i = some r) :
    db.tree.node i = some (match r.kind with
      | .regularFile => .file
      | .directory => .directory
      | .symlink => .symlink (db.targetOf i)) := by
  change db.nodeOf i = _
  rw [nodeOf, kindOf_of_find h]
  rfl

private theorem expectPlace_tree (hk : db.Keys) (hchild : (db.kindOf ino).isSome) {α : Type}
    (k : Db → α) :
    (do
      if (← db.inodeKindOf newParent) ≠ .directory then .error .notDirectory
      else do
        let db' ← db.insertDirent newParent newName ino
        .ok (k db') : Except DbError α).map (fun _ => ()) =
      (do
        db.tree.expectDirectory newParent
        db.tree.expectFree newParent newName) := by
  rw [expectDirectory_tree hk]
  rcases hparent : db.inodeKindOf newParent with e | (_ | _ | _)
  · rfl
  · rfl
  · have hdir := kindOf_of_read hparent
    change Except.map _ (db.insertDirent newParent newName ino >>= _) = _
    rw [insertDirent_eq (Option.isSome_of_eq_some hdir) hchild]
    change _ = db.tree.expectFree newParent newName
    rcases db.tree.expectFree newParent newName with e | ⟨⟩ <;> rfl
  · rfl

private theorem link_may (hk : db.Keys) : (db.link ino newParent newName now).map (fun _ => ()) =
    db.tree.mayLink ino newParent newName := by
  unfold link FileTree.mayLink
  rcases hname : checkName newName with e | ⟨⟩
  · rfl
  rcases hr : db.findInode ino with _ | r
  · rw [getInode_none hr, tree_node_eq_none.mpr (Option.map_eq_none_iff.mpr hr)]
    rfl
  · have hchild : (db.kindOf ino).isSome := by
      rw [kindOf_of_find hr]
      rfl
    rw [hk.getInode hr, node_of_find hr]
    change Except.map _ (if r.kind = .directory then _ else _) = _
    rcases r.kind
    · exact expectPlace_tree hk hchild _
    · rfl
    · exact expectPlace_tree hk hchild _

private theorem link_outcome (hk : db.Keys) :
    (db.link ino newParent newName now).map (fun r => r.2.tree) =
      (db.tree.mayLink ino newParent newName).map fun _ =>
        db.tree.setEntry newParent newName (some ino) := by
  apply outcome_eq
  · rw [link_may hk]
    rcases db.tree.mayLink ino newParent newName with e | ⟨⟩ <;> rfl
  · rintro ⟨inode, db'⟩ - hlink -
    obtain ⟨-, r, -, -, -, hfree, -, rfl⟩ := link_cases hlink
    rw [tree_touchDir, tree_congr (sameData_setNlink _) rfl, tree_addEntry hfree]

end Link

section Remove

private theorem lookup_tree (hk : db.Keys) (ht : db.names.Tree) {target : Inode}
    (h : db.lookup parent name = .ok target) :
    ∃ d r, d ∈ db.dirents ∧ d.parentIno = parent ∧ d.name = name ∧
      db.findInode d.childIno = some r ∧ target = r.inode ∧
      db.tree.find parent name = .ok d.childIno ∧
      (db.tree.node d.childIno = some .directory ↔ target.kind = .directory) := by
  have hfind := find_tree hk ht parent name
  obtain ⟨-, d, r, hd, hp, hn, hr, rfl⟩ := lookup_cases h
  refine ⟨d, r, hd, hp, hn, hr, rfl, ?_, ?_⟩
  · rw [hfind, h, ← findInode_ino hr]
    rfl
  · rw [tree_node_eq_directory, kindOf_of_find hr, Option.some.injEq]
    rfl

private theorem find_of_lookup_error (hk : db.Keys) (ht : db.names.Tree) {e : DbError}
    (h : db.lookup parent name = .error e) : db.tree.find parent name = .error e := by
  rw [find_tree hk ht, h]
  rfl

private theorem unlink_outcome (hs : db.Sound) (isOpen : Bool) :
    (do
      let target ← db.lookup parent name
      db.unlinkEntry parent name target isOpen now).map Db.tree =
      (db.tree.mayUnlink parent name).map fun i =>
        db.tree.dropEntry parent name i (isOpen = true) := by
  unfold FileTree.mayUnlink
  rcases hlookup : db.lookup parent name with e | target
  · rw [find_of_lookup_error hs.keys hs.tree hlookup]
    rfl
  · obtain ⟨d, r, hd, rfl, rfl, hr, rfl, hfind, hdir⟩ := lookup_tree hs.keys hs.tree hlookup
    rw [hfind]
    change Except.map _ (if r.kind = .directory then _ else _) =
      Except.map _ (if db.tree.node d.childIno = some .directory then _ else _)
    by_cases hkind : r.kind = .directory
    · rw [if_pos hkind, if_pos (hdir.mpr hkind)]
      rfl
    · rw [if_neg hkind, if_neg fun h => hkind (hdir.mp h)]
      change Except.ok (((db.dropEntry d r isOpen now).touchDir d.parentIno now).tree) = _
      rw [tree_touchDir, tree_dropEntry hs hd hr fun h => (hkind h).elim]
      simp only [ne_eq, hkind, not_false_eq_true, true_and]
      rfl

private theorem removeDir_may (hk : db.Keys) (ht : db.names.Tree) :
    (db.removeDir parent name now).map (fun _ => ()) =
      (db.tree.mayRemove parent name).map fun _ => () := by
  unfold removeDir FileTree.mayRemove
  rcases hlookup : db.lookup parent name with e | target
  · rw [find_of_lookup_error hk ht hlookup]
    rfl
  · obtain ⟨d, r, hd, rfl, rfl, hr, htarget, hfind, hdir⟩ := lookup_tree hk ht hlookup
    rw [hfind]
    change Except.map _ (if target.kind ≠ .directory then _ else if _ then _ else _) =
      Except.map _ (if db.tree.node d.childIno ≠ some .directory then _ else _)
    have hempty : db.tree.Empty d.childIno ↔
        ¬(db.dirents.countP fun e => e.parentIno = target.ino) ≠ 0 := by
      have hino : target.ino = d.childIno := by
        rw [htarget]
        exact findInode_ino hr
      rw [not_not, List.countP_eq_zero, tree_empty ht, hino]
      simp only [decide_eq_true_eq, ne_eq]
    by_cases hkind : target.kind = .directory
    · rw [if_neg (not_not.mpr hkind), if_neg (not_not.mpr (hdir.mpr hkind))]
      by_cases hnone : db.tree.Empty d.childIno
      · rw [if_pos hnone, if_neg (hempty.mp hnone)]
        rfl
      · rw [if_neg hnone, if_pos (not_not.mp fun h => hnone (hempty.mpr h))]
        rfl
    · rw [if_pos hkind, if_pos fun h => hkind (hdir.mp h)]
      rfl

theorem find_ok {t : FileTree} {p i : Nat} {n : Name} (h : t.find p n = .ok i) :
    t.entry p n = some i := by
  obtain ⟨_, -, h⟩ := except_bind_eq_ok.mp h
  split at h
  · next hentry =>
    rw [hentry, Except.ok.inj h]
  · cases h

private theorem mayRemove_ok {t : FileTree} {p i : Nat} {n : Name} (h : t.mayRemove p n = .ok i) :
    t.entry p n = some i := by
  obtain ⟨j, hfind, h⟩ := except_bind_eq_ok.mp h
  split at h
  · cases h
  · split at h
    · cases h
      exact find_ok hfind
    · cases h

private theorem removeDir_outcome (hs : db.Sound) :
    (db.removeDir parent name now).map Db.tree =
      (db.tree.mayRemove parent name).map fun i => db.tree.dropEntry parent name i False := by
  apply outcome_eq (removeDir_may hs.keys hs.tree)
  intro db' i hremove hmay
  obtain ⟨d, r, hd, rfl, rfl, hr, hdir, hempty, rfl⟩ := removeDir_eq hremove
  have hfind := tree_entry_of_find ((findEntry_eq_some hs.tree).mpr ⟨hd, rfl, rfl⟩)
  obtain rfl : d.childIno = i := Option.some.inj (hfind.symm.trans (mayRemove_ok hmay))
  rw [tree_addDirectoryNlink, tree_touchDir, tree_dropEntry hs hd hr fun _ => hempty]
  simp only [ne_eq, hdir, not_true_eq_false, false_and]

end Remove

section Rename

variable {noreplace : Bool} {isOpen : Nat → Bool}

/-- Two kinds that differ never replace each other. -/
private theorem renameTargetError_of_file {source target : Inode}
    (h : ¬(target.kind = .directory ∧ source.kind = .directory)) :
    db.renameTargetError source target =
      if target.kind = .directory then .error .isDirectory
      else if source.kind = .directory then .error .notDirectory
      else .ok () := by
  unfold renameTargetError
  revert h
  rcases source.kind <;> rcases target.kind <;> intro h
  case directory.directory => exact (h ⟨rfl, rfl⟩).elim
  all_goals rfl

private theorem renameTargetError_of_dirs {source target : Inode}
    (hsource : source.kind = .directory)
    (htarget : target.kind = .directory) {entries : List DirEntry}
    (hlist : db.listDir target.ino = .ok entries) :
    db.renameTargetError source target =
      if entries ≠ [] then .error .directoryNotEmpty else .ok () := by
  unfold renameTargetError
  rw [hsource, htarget, hlist]
  rfl

private theorem renameTargetError_tree (hk : db.Keys) (ht : db.names.Tree) {d f : Dirent}
    {r q : InodeRow}
    (hr : db.findInode d.childIno = some r) (hq : db.findInode f.childIno = some q) :
    db.renameTargetError r.inode q.inode =
      db.tree.expectReplaceable d.childIno f.childIno := by
  have hdir : ∀ {i : Nat} {r : InodeRow}, db.findInode i = some r →
      (db.tree.node i = some .directory ↔ r.inode.kind = .directory) := by
    intro i r hr
    rw [tree_node_eq_directory, kindOf_of_find hr, Option.some.injEq]
    rfl
  unfold FileTree.expectReplaceable
  simp only [ne_eq, hdir hr, hdir hq]
  by_cases hdirs : q.inode.kind = .directory ∧ r.inode.kind = .directory
  · -- the listing of the target decides
    obtain ⟨hqdir, hrdir⟩ := hdirs
    have hino : q.inode.ino = f.childIno := findInode_ino hq
    have hkind : db.kindOf f.childIno = some .directory := by
      rw [kindOf_of_find hq]
      exact congrArg some hqdir
    have hlist := hk.listDir hkind
    have hcheck := renameTargetError_of_dirs hrdir hqdir (hino.symm ▸ hlist)
    rw [hino] at hcheck
    rw [if_pos hqdir, if_neg (not_not.mpr hrdir), hcheck]
    by_cases hempty : db.tree.Empty f.childIno
    · have hnone := listDir_of_empty hk hkind ((tree_empty ht).mp hempty)
      have hnil := Except.ok.inj (hlist.symm.trans hnone)
      rw [if_pos hempty, if_neg (not_not.mpr hnil)]
    · rw [if_neg hempty, if_pos]
      intro hnil
      rw [hnil] at hcheck
      obtain ⟨-, hnone⟩ := renameTargetError_ok ht hcheck
      rw [hino] at hnone
      exact hempty ((tree_empty ht).mpr (hnone hqdir))
  · rw [renameTargetError_of_file hdirs]
    by_cases hqdir : q.inode.kind = .directory
    · rw [if_pos hqdir, if_pos hqdir, if_pos fun hrdir => hdirs ⟨hqdir, hrdir⟩]
    · rw [if_neg hqdir, if_neg hqdir]

private theorem movesBelow_tree (ht : db.names.Tree) (hnew : db.kindOf newParent = some .directory)
    {d : Dirent} {r : InodeRow} (hr : db.findInode d.childIno = some r) :
    ∃ below, db.movesBelow newParent r.inode = .ok below ∧
      (below = true ↔ db.tree.node d.childIno = some .directory ∧
        db.tree.Within newParent d.childIno) := by
  rw [tree_within ht hnew, tree_node_eq_directory]
  have hiff := movesBelow_iff ht hnew hr
  by_cases hdir : r.kind = .directory
  · obtain ⟨below, hbelow, -⟩ := isDescendant_spec ht hnew r.ino
    have hmoves : db.movesBelow newParent r.inode = .ok below := by
      unfold movesBelow
      rw [if_pos (show r.inode.kind = .directory from hdir),
        show r.inode.ino = r.ino from rfl, hbelow]
    refine ⟨below, hmoves, ?_⟩
    rw [hmoves, Except.ok.injEq] at hiff
    rw [← not_iff_not, ← hiff, Bool.not_eq_true]
  · have hmoves : db.movesBelow newParent r.inode = .ok false := if_neg hdir
    refine ⟨false, hmoves, iff_of_false Bool.false_ne_true (hiff.mp hmoves)⟩

private theorem existingTarget_tree (hk : db.Keys) (ht : db.names.Tree)
    (hname : newName.length ≤ nameMax) {d : Dirent}
    {r : InodeRow} (hr : db.findInode d.childIno = some r) {α : Type} (k : Option Inode → α) :
    (do
      let existing ← db.existingTarget newParent newName
      if noreplace = true ∧ existing.isSome = true then .error .alreadyExists
      else do
        existing.forM fun target => db.renameTargetError r.inode target
        .ok (k existing) : Except DbError α).map (fun _ => ()) =
      match db.tree.entry newParent newName with
      | none => .ok ()
      | some j =>
        if noreplace = true then .error .alreadyExists
        else db.tree.expectReplaceable d.childIno j := by
  rcases hf : db.findEntry newParent newName with _ | f
  · rw [existingTarget_of_free hname hf, tree_entry_eq_none.mpr hf]
    cases noreplace <;> rfl
  · obtain ⟨q, hq⟩ := exists_inode ht (findEntry_mem hf).1
    rw [existingTarget_of_entry hk hname hf hq, tree_entry_of_find hf]
    cases noreplace
    · change Except.map _ (db.renameTargetError r.inode q.inode >>= _) =
        db.tree.expectReplaceable d.childIno f.childIno
      rw [renameTargetError_tree hk ht hr hq]
      rcases db.tree.expectReplaceable d.childIno f.childIno with e | ⟨⟩ <;> rfl
    · rfl

open scoped Classical in
private theorem renameEntry_may (hk : db.Keys) (ht : db.names.Tree) :
    (db.renameEntry parent name newParent newName noreplace isOpen now).map (fun _ => ()) =
      db.tree.mayRename parent name newParent newName noreplace := by
  unfold renameEntry FileTree.mayRename
  rw [expectDirectory_tree hk]
  rcases hname : checkName newName with e | ⟨⟩
  · rfl
  rcases hlookup : db.lookup parent name with e | source
  · rw [find_of_lookup_error hk ht hlookup]
    rfl
  obtain ⟨d, r, -, -, -, hr, rfl, hfind, -⟩ := lookup_tree hk ht hlookup
  rw [hfind]
  rcases hparent : db.inodeKindOf newParent with e | (_ | _ | _)
  · rfl
  · rfl
  · obtain ⟨below, hmoves, hbelow⟩ := movesBelow_tree ht (kindOf_of_read hparent) hr
    change Except.map _ (db.movesBelow newParent r.inode >>= _) =
      if db.tree.node d.childIno = some .directory ∧
        db.tree.Within newParent d.childIno then _ else _
    rw [hmoves]
    change Except.map _ (if below = true then _ else if parent = newParent ∧ name = newName then _
      else _) = _
    by_cases hinto : below = true
    · rw [if_pos hinto, if_pos (hbelow.mp hinto)]
      rfl
    rw [if_neg hinto, if_neg fun h => hinto (hbelow.mpr h)]
    by_cases hsame : parent = newParent ∧ name = newName
    · rw [if_pos hsame, if_pos hsame]
      rfl
    · rw [if_neg hsame, if_neg hsame]
      exact existingTarget_tree hk ht (checkName_eq_ok.mp hname) hr _
  · rfl

private theorem renameEntry_outcome (hs : db.Sound) :
    (db.renameEntry parent name newParent newName noreplace isOpen now).map (fun r => r.2.tree) =
      (db.tree.mayRename parent name newParent newName noreplace).map fun _ =>
        db.tree.renamed parent name newParent newName isOpen := by
  apply outcome_eq
  · rw [renameEntry_may hs.keys hs.tree]
    rcases db.tree.mayRename parent name newParent newName noreplace with e | ⟨⟩ <;> rfl
  rintro ⟨replaced, db'⟩ - hrename -
  have htree' : db'.names.Tree := (hs.renameEntry hrename).tree
  unfold FileTree.renamed
  by_cases hsame : parent = newParent ∧ name = newName
  · obtain ⟨source, -, -, -, ⟨-, -, rfl⟩ | ⟨hdiff, -⟩⟩ := renameEntry_ok hrename
    · rw [if_pos hsame]
    · exact (hdiff hsame).elim
  rw [if_neg hsame]
  obtain ⟨d, r, hd, rfl, rfl, hr, -, -, hcase⟩ := renameEntry_eq hs.tree hrename
  rcases hcase with ⟨hp, hn, -⟩ | ⟨-, hfree, rfl⟩ | ⟨f, q, hf, rfl, rfl, hne, hq, -, -, hempty, rfl⟩
  · exact (hsame ⟨hp, hn⟩).elim
  · have hnone : db.tree.entry newParent newName = none := by
      apply tree_entry_eq_none.mpr
      apply Option.eq_none_iff_forall_ne_some.mpr
      intro e he
      obtain ⟨he, hp, hn⟩ := findEntry_mem he
      exact hfree e he (Prod.ext hp hn)
    rw [hnone]
    exact tree_moveEntry hs.tree hd hfree hsame _ _ htree'
  · -- the replaced entry goes first, and then its name is free
    have hentry := tree_entry_of_find ((findEntry_eq_some hs.tree).mpr ⟨hf, rfl, rfl⟩)
    have hino : q.ino = f.childIno := findInode_ino hq
    have hdirents : (db.dropEntry f q (isOpen q.ino) now).dirents =
        (db.deleteDirent f.parentIno f.name).dirents :=
      dirents_dropEntry now _ hs.tree hs.exact hf hq hempty
    have hdrop : (db.dropEntry f q (isOpen q.ino) now).tree =
        db.tree.dropEntry f.parentIno f.name f.childIno
          (q.kind ≠ .directory ∧ isOpen q.ino = true) := tree_dropEntry hs hf hq hempty
    have hkind : db.tree.node f.childIno ≠ some .directory ↔ q.kind ≠ .directory := by
      rw [ne_eq, tree_node_eq_directory, kindOf_of_find hq, Option.some.injEq]
    rw [hentry]
    change _ = NameTree.moveEntry (db.tree.dropEntry f.parentIno f.name f.childIno _) _ _ _ _
    rw [tree_moveEntry (dropEntry_tree now _ hs.tree hs.exact hf hq hempty)
      (mem_dropEntry hs.tree hs.exact hf hq hempty hd hne)
        (hdirents ▸ free_deleteDirent f) hsame _ _
      htree', hdrop, hkind, hino]

end Rename

section Sweep

private theorem alone_of_unlinked (hl : db.Linked) (hnlink : db.nlinkOf ino = 0) :
    ∀ d ∈ db.dirents, d.parentIno ≠ ino ∧ d.childIno ≠ ino := by
  intro d hd
  refine ⟨?_, hl.unnamed hnlink d hd⟩
  rintro rfl
  have hdir : db.names.kind d.parentIno = some .directory := hl.tree.parent d hd
  have hexact := hl.exact d.parentIno (Option.isSome_of_eq_some hdir)
  rw [Names.linkCount, if_pos hdir] at hexact
  change db.nlinkOf d.parentIno = _ at hexact
  omega

theorem deleteInode_outcome (hl : db.Linked) (hnlink : db.nlinkOf ino = 0) :
    (db.deleteInodeRows ino).tree = db.tree.setNode ino none :=
  tree_deleteInodeRows (alone_of_unlinked hl hnlink)

private theorem tree_deleteAll {inos : List Nat}
    (h : ∀ i ∈ inos, ∀ d ∈ db.dirents, d.parentIno ≠ i ∧ d.childIno ≠ i) :
    (inos.foldl deleteInodeRows db).tree =
      { db.tree with node := fun i => if i ∈ inos then none else db.tree.node i } := by
  induction inos generalizing db with
  | nil => rfl
  | cons j inos ih =>
    have hj := h j List.mem_cons_self
    rw [List.foldl_cons, ih, tree_deleteInodeRows hj]
    · ext i : 2
      · by_cases hi : i = j
        · subst hi
          simp
        · simp [hi, NameTree.node_setNode_of_ne hi]
      · rfl
    · rw [dirents_deleteInodeRows hj]
      exact fun i hi => h i (List.mem_cons_of_mem _ hi)

theorem unlinked_iff (hl : db.Linked) (hkind : (db.kindOf ino).isSome) :
    db.nlinkOf ino = 0 ↔ ¬(ino = 1 ∨ db.tree.Named ino) := by
  rw [tree_named hl.tree, not_or, hl.nlink_eq_zero_iff hkind]
  simp only [not_exists, not_and]

theorem initialize_outcome (hs : db.Sound) (mountUid mountGid : UInt32) :
    (db.initializeTables mountUid mountGid now).tree = db.tree.sweep := by
  have hlinked := hs.toLinked
  have hmem : ∀ i, i ∈ (db.claimRoot mountUid mountGid now).orphans ↔
      (db.kindOf i).isSome ∧ db.nlinkOf i = 0 := fun i =>
    mem_orphans_claimRoot mountUid mountGid now hlinked
  have hclaim : (db.claimRoot mountUid mountGid now).tree = db.tree :=
    tree_congr (sameData_claimRoot now mountUid mountGid) rfl
  rw [initialize_eq mountUid mountGid now hlinked, tree_deleteAll, hclaim]
  · ext i : 2
    · change (if i ∈ _ then none else db.tree.node i) = _
      by_cases hstays : i = 1 ∨ db.tree.Named i
      · rw [FileTree.node_sweep_of_stays hstays, if_neg]
        intro hgone
        obtain ⟨hkind, hnlink⟩ := (hmem i).mp hgone
        exact (unlinked_iff hlinked hkind).mp hnlink hstays
      · rw [FileTree.node_sweep_of_gone hstays]
        split
        · rfl
        · next hkept =>
          apply tree_node_eq_none.mpr
          rw [← Option.not_isSome_iff_eq_none]
          intro hkind
          exact hkept ((hmem i).mpr ⟨hkind, (unlinked_iff hlinked hkind).mpr hstays⟩)
    · rfl
  · intro i hi
    change ∀ d ∈ db.dirents, _
    exact alone_of_unlinked hlinked ((hmem i).mp hi).2

end Sweep

section Perform

theorem tree_of_names (hnames : db'.names = db.names)
    (hsymlinks : db'.symlinkTargets = db.symlinkTargets) : db'.tree = db.tree := by
  ext i : 2
  · refine nodeOf_congr (congrFun (congrArg Names.kind hnames) i) fun _ => ?_
    rw [targetOf, hsymlinks, targetOf]
  · funext n
    have hdirents : db'.dirents = db.dirents := congrArg Names.entries hnames
    change (db'.findEntry i n).map _ = (db.findEntry i n).map _
    rw [findEntry, hdirents, findEntry]

private theorem perform_data (hs : db.Sound) {call : StoreCall} (hdata : call.onNames = false)
    (h : db.perform now call = .ok db') : db'.tree = db.tree := by
  cases call with
  | writeFileBatch ino writes =>
    obtain ⟨⟨written, db''⟩, hwrite, ⟨⟩⟩ := except_bind_eq_ok.mp h
    rcases writeFileBatchAt_cases hs.keys hs.owned hwrite with rfl | ⟨-, mid, size, hbatch, rfl⟩
    · rfl
    · exact tree_of_names (names_setSize.trans hbatch.names) hbatch.symlinks
  | truncateFile ino size =>
    obtain ⟨-, -, rfl⟩ := truncateFile_cases h
    exact tree_of_names (names_setSize.trans names_cutAt) (cutAt_rows db ino size).2.2
  | updateMetadata ino update =>
    obtain ⟨hsame, hnames⟩ := sameData_updateMetadata h
    exact tree_of_names hnames hsame.symlinks
  | createNode => cases hdata
  | link => cases hdata
  | unlinkEntry => cases hdata
  | removeDir => cases hdata
  | renameEntry => cases hdata
  | deleteInode => cases hdata
  | reopen => cases hdata

theorem perform_names (hs : db.Sound) {call : StoreCall} (hallowed : db.Allowed (now, call))
    (hnames : call.onNames = true) :
    (db.perform now call).map Db.tree = db.tree.apply db.nextIno call := by
  have hsecond : ∀ {α : Type} (x : Except DbError (α × Db)),
      (do
        let (_, db) ← x
        .ok db : Except DbError Db).map Db.tree = x.map fun r => r.2.tree := by
    intro α x
    rcases x with e | ⟨a, db⟩ <;> rfl
  cases call with
  | createNode parent name node uid gid =>
    exact (hsecond _).trans (createNode_outcome hs node uid gid)
  | link ino newParent newName => exact (hsecond _).trans (link_outcome hs.keys)
  | unlinkEntry parent name isOpen => exact unlink_outcome hs isOpen
  | removeDir parent name => exact removeDir_outcome hs
  | renameEntry parent name newParent newName noreplace isOpen =>
    exact (hsecond _).trans (renameEntry_outcome hs)
  | deleteInode ino =>
    refine congrArg Except.ok (deleteInode_outcome hs.toLinked ?_)
    change (db.findInode ino).any (fun r => r.nlink = 0) = true at hallowed
    rcases hfind : db.findInode ino with _ | r
    · rw [hfind] at hallowed
      cases hallowed
    · rw [hfind, Option.any_some, decide_eq_true_eq] at hallowed
      exact (nlinkOf_of_find hfind).trans hallowed
  | reopen mountUid mountGid => exact congrArg Except.ok (initialize_outcome hs mountUid mountGid)
  | writeFileBatch => cases hnames
  | truncateFile => cases hnames
  | updateMetadata => cases hnames

theorem unused_nextIno (ht : db.names.Tree) : db.tree.Unused db.nextIno where
  node := tree_node_eq_none.mpr (nextIno_new db)
  unnamed hnamed := by
    obtain ⟨d, hd, hchild⟩ := mem_of_named hnamed
    have hsome : (db.kindOf d.childIno).isSome := ht.child d hd
    rw [hchild, nextIno_new] at hsome
    cases hsome
  empty := (tree_empty ht).mpr fun d hd hp => by
    have hdir : db.kindOf d.parentIno = some .directory := ht.parent d hd
    rw [hp, nextIno_new] at hdir
    cases hdir

def answer (db : Db) (call : Timestamp × StoreCall) : Except DbError Unit :=
  (db.perform call.1 call.2).map fun _ => ()

theorem step_does (hs : db.Sound) {call : Timestamp × StoreCall} (hallowed : db.Allowed call) :
    db.tree.Does call (db.answer call) (db.step call).tree := by
  unfold FileTree.Does answer step
  split
  · next hnames =>
    refine ⟨db.nextIno, unused_nextIno hs.tree, ?_⟩
    rw [← perform_names hs hallowed hnames]
    rcases db.perform call.1 call.2 with e | db'
    · exact ⟨rfl, rfl⟩
    · exact ⟨rfl, rfl⟩
  · next hdata =>
    rw [Bool.not_eq_true] at hdata
    rcases h : db.perform call.1 call.2 with e | db'
    · rfl
    · exact perform_data hs hdata h

end Perform

section Runs

variable (mountUid mountGid : UInt32) (created : Timestamp)

theorem tree_fresh : (Db.fresh mountUid mountGid created).tree = FileTree.root := by
  ext i : 2
  · change (Db.fresh mountUid mountGid created).nodeOf i = if i = 1 then _ else _
    rw [nodeOf, kindOf_fresh]
    split <;> rfl
  · funext n
    change ((Db.fresh mountUid mountGid created).findEntry i n).map _ = none
    rw [fresh_eq]
    rfl

end Runs

end Db

end VibeDbfs
