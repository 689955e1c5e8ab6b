import VibeDbfs.Storage.StoredTimes

/-!
Who may use an inode: the permission bits of its mode, its user and its group. They are set where
the inode is made and by `update_metadata`, and every other method of the store keeps them.
-/

set_option autoImplicit false
set_option relaxedAutoImplicit false

namespace VibeDbfs

open Lib

structure Owner where
  mode : UInt32
  uid : UInt32
  gid : UInt32
  deriving DecidableEq, Repr

namespace Owner

def set (o : Owner) (mode uid gid : Option UInt32) : Owner :=
  ⟨mode.getD o.mode, uid.getD o.uid, gid.getD o.gid⟩

def mounted (ino : Nat) (mountUid mountGid : UInt32) (o : Owner) : Owner :=
  if ino = 1 ∧ o.uid = 0 ∧ o.gid = 0 then ⟨o.mode, mountUid, mountGid⟩ else o

end Owner

def InodeRow.owner (r : InodeRow) : Owner := ⟨r.mode, r.uid, r.gid⟩

def NewNode.owner (node : NewNode) (uid gid : UInt32) : Owner := ⟨node.mode, uid, gid⟩

namespace Db

def ownerOf (db : Db) (ino : Nat) : Option Owner := (db.findInode ino).map InodeRow.owner

/-- Every inode of `db'` is one of `db`, with the same owner. -/
def KeepsOwners (db db' : Db) : Prop := ∀ i o, db'.ownerOf i = some o → db.ownerOf i = some o

instance : IsPreorder Db KeepsOwners where
  refl _ _ _ := id
  trans _ _ _ h h' i o ho := h i o (h' i o ho)

variable {db db' : Db} {ino parent newParent size : Nat} {name newName : Name} {now : Timestamp}

theorem ownerOf_of_find {r : InodeRow} (h : db.findInode ino = some r) :
    db.ownerOf ino = some r.owner := by
  rw [ownerOf, h]
  rfl

theorem ownerOf_isSome (db : Db) (ino : Nat) :
    (db.ownerOf ino).isSome = (db.kindOf ino).isSome := by
  rw [ownerOf, Option.isSome_map, findInode_isSome]

section Rows

theorem KeepsOwners.trans {db'' : Db} (h : KeepsOwners db db') (h' : KeepsOwners db' db'') :
    KeepsOwners db db'' :=
  trans_of KeepsOwners h h'

private theorem KeepsOwners.of_eq (h : db'.inodes = db.inodes) : KeepsOwners db db' := by
  intro i o ho
  rw [ownerOf, findInode, h] at ho
  exact ho

private theorem ownerOf_updateInode {f : InodeRow → InodeRow} {g : Owner → Owner}
    (hino : ∀ r, (f r).ino = r.ino) (howner : ∀ r, (f r).owner = g r.owner) (i : Nat) :
    (db.updateInode ino f).ownerOf i = if i = ino then (db.ownerOf i).map g else db.ownerOf i := by
  rw [ownerOf, findInode_updateInode hino]
  split
  · rw [ownerOf, Option.map_map, Option.map_map]
    exact congrArg (fun h => (db.findInode i).map h) (funext howner)
  · rfl

private theorem ownerOf_updateInode_of_same {f : InodeRow → InodeRow}
    (hino : ∀ r, (f r).ino = r.ino) (howner : ∀ r, (f r).owner = r.owner) {i : Nat} :
    (db.updateInode ino f).ownerOf i = db.ownerOf i := by
  rw [ownerOf_updateInode hino (g := id) howner, Option.map_id_fun, id_eq, ite_self]

private theorem keepsOwners_updateInode {f : InodeRow → InodeRow} (hino : ∀ r, (f r).ino = r.ino)
    (howner : ∀ r, (f r).owner = r.owner) : KeepsOwners db (db.updateInode ino f) := by
  intro i o ho
  rwa [ownerOf_updateInode_of_same hino howner] at ho

private theorem keepsOwners_setSize : KeepsOwners db (db.setSize ino size now) :=
  keepsOwners_updateInode (fun _ => rfl) fun _ => rfl

private theorem keepsOwners_touchDir (db : Db) (ino : Nat) (now : Timestamp) :
    KeepsOwners db (db.touchDir ino now) :=
  keepsOwners_updateInode (fun _ => rfl) fun _ => rfl

private theorem keepsOwners_addDirectoryNlink (ino : Nat) (delta : Int) :
    KeepsOwners db (db.addDirectoryNlink ino delta) :=
  keepsOwners_updateInode (fun _ => rfl) fun _ => rfl

private theorem keepsOwners_setNlink {nlink : Nat} : KeepsOwners db (db.setNlink ino nlink now) :=
  keepsOwners_updateInode (fun _ => rfl) fun _ => rfl

theorem keepsOwners_deleteInodeRows (db : Db) (ino : Nat) :
    KeepsOwners db (db.deleteInodeRows ino) := by
  intro i o ho
  rw [ownerOf, findInode_deleteInodeRows] at ho
  split at ho
  · cases ho
  · exact ho

private theorem keepsOwners_dropUnlinkedInode (target : Inode) (isOpen : Bool) :
    KeepsOwners db (db.dropUnlinkedInode target now isOpen) := by
  unfold dropUnlinkedInode
  split
  · exact keepsOwners_deleteInodeRows db _
  · split
    · exact keepsOwners_setNlink
    · exact keepsOwners_deleteInodeRows db _

private theorem KeepsOwners.ite {p : Prop} [Decidable p] {x y : Db} (hx : KeepsOwners db x)
    (hy : KeepsOwners db y) : KeepsOwners db (if p then x else y) := by
  split
  · exact hx
  · exact hy

private theorem keepsOwners_moveEntry (sourceIsDir targetIsDir : Bool) :
    KeepsOwners db (db.moveEntry parent name newParent newName sourceIsDir targetIsDir now) := by
  have hmoved : KeepsOwners db (db.moveDirent parent name newParent newName) := .of_eq rfl
  have hparent := hmoved.trans (keepsOwners_touchDir _ parent now)
  have hboth := KeepsOwners.ite (p := newParent ≠ parent)
    (hparent.trans (keepsOwners_touchDir _ newParent now)) hparent
  have hcounted := KeepsOwners.ite (p := sourceIsDir = true ∧ parent ≠ newParent)
    (hboth.trans ((keepsOwners_addDirectoryNlink parent (-1)).trans
      (keepsOwners_addDirectoryNlink newParent 1))) hboth
  exact .ite (hcounted.trans (keepsOwners_addDirectoryNlink newParent (-1))) hcounted

private theorem keepsOwners_recompute (db : Db) : KeepsOwners db db.recomputeDirectoryNlink := by
  intro i o ho
  rw [ownerOf, recomputeDirectoryNlink, findInode, Keyed.find_map, Option.map_map] at ho
  · refine Eq.trans (congrArg (fun h => (db.findInode i).map h) (funext fun r => ?_)) ho
    dsimp only [Function.comp]
    split
    · rfl
    · rfl
  · intro r
    split
    · rfl
    · rfl

private theorem keepsOwners_sweep (db : Db) (inos : List Nat) :
    KeepsOwners db (inos.foldl deleteInodeRows db) := by
  induction inos generalizing db with
  | nil => exact .of_eq rfl
  | cons i inos ih => exact (keepsOwners_deleteInodeRows db i).trans (ih _)

end Rows

section Methods

theorem ownerOf_link {inode : Inode} (h : db.link ino newParent newName now = .ok (inode, db'))
    (i : Nat) : db'.ownerOf i = db.ownerOf i := by
  obtain ⟨-, r, -, -, -, -, -, rfl⟩ := link_cases h
  rw [touchDir, ownerOf_updateInode_of_same, setNlink, ownerOf_updateInode_of_same]
  · rfl
  · exact fun _ => rfl
  · exact fun _ => rfl
  · exact fun _ => rfl
  · exact fun _ => rfl

theorem keepsOwners_unlinkEntry {target : Inode} {isOpen : Bool}
    (h : db.unlinkEntry parent name target isOpen now = .ok db') : KeepsOwners db db' := by
  obtain ⟨-, rfl⟩ := unlinkEntry_cases h
  have hdeleted : KeepsOwners db (db.deleteDirent parent name) := .of_eq rfl
  exact (hdeleted.trans (keepsOwners_dropUnlinkedInode _ _)).trans (keepsOwners_touchDir _ _ _)

theorem keepsOwners_removeDir (h : db.removeDir parent name now = .ok db') :
    KeepsOwners db db' := by
  obtain ⟨d, r, -, -, -, -, -, -, rfl⟩ := removeDir_cases h
  have hdeleted : KeepsOwners db (db.deleteDirent parent name) := .of_eq rfl
  have hgone := hdeleted.trans (keepsOwners_deleteInodeRows _ r.ino)
  exact (hgone.trans (keepsOwners_touchDir _ _ _)).trans (keepsOwners_addDirectoryNlink _ _)

theorem keepsOwners_renameEntry {noreplace : Bool} {isOpen : Nat → Bool} {replaced : Option Inode}
    (h : db.renameEntry parent name newParent newName noreplace isOpen now = .ok (replaced, db')) :
    KeepsOwners db db' := by
  obtain ⟨source, -, -, -, hcase⟩ := renameEntry_ok h
  rcases hcase with ⟨-, -, rfl⟩ | ⟨-, -, -, -, rfl⟩
  · exact .of_eq rfl
  · cases replaced with
    | none => exact keepsOwners_moveEntry _ _
    | some target =>
      have hdeleted : KeepsOwners db (db.deleteDirent newParent newName) := .of_eq rfl
      exact (hdeleted.trans (keepsOwners_dropUnlinkedInode _ _)).trans (keepsOwners_moveEntry _ _)

theorem keepsOwners_replaceChunks {chunks : List (Nat × Bytes)}
    (h : db.replaceChunks ino size chunks now = .ok db') : KeepsOwners db db' := by
  rw [replaceChunks_eq h]
  have hrows : KeepsOwners db (db.upsertAll ino chunks) := .of_eq upsertAll_rows.1
  exact hrows.trans keepsOwners_setSize

theorem keepsOwners_truncateFile (h : db.truncateFile ino size now = .ok db') :
    KeepsOwners db db' := by
  obtain ⟨-, -, rfl⟩ := truncateFile_cases h
  have hrows : KeepsOwners db (db.cutAt ino size) := .of_eq (cutAt_rows db ino size).1
  exact hrows.trans keepsOwners_setSize

theorem ownerOf_createNode {node : NewNode} {uid gid : UInt32} {inode : Inode}
    (h : db.createNode parent name node uid gid now = .ok (inode, db')) {i : Nat} {o : Owner}
    (ho : db'.ownerOf i = some o) :
    db.ownerOf i = some o ∨ db.ownerOf i = none ∧ o = node.owner uid gid := by
  obtain ⟨-, -, -, -, -, rfl⟩ := createNode_cases h
  have htouched := keepsOwners_touchDir (db.addNode parent name node uid gid now) parent now
  have hadded : (db.addNode parent name node uid gid now).ownerOf i = some o :=
    (KeepsOwners.ite (htouched.trans (keepsOwners_addDirectoryNlink parent 1)) htouched) i o ho
  rw [ownerOf, findInode_addNode] at hadded
  split at hadded
  · next hnew =>
    refine .inr ⟨?_, (Option.some.inj hadded).symm⟩
    have hnone : (db.ownerOf i).isSome = false := by
      rw [ownerOf_isSome, hnew, nextIno_new]
      rfl
    rwa [Option.isSome_eq_false_iff, Option.isNone_iff_eq_none] at hnone
  · exact .inl hadded

theorem ownerOf_updateMetadata {update : MetadataUpdate}
    (h : db.updateMetadata ino update now = .ok db') (i : Nat) :
    db'.ownerOf i = if i = ino then
      (db.ownerOf i).map fun o => o.set update.mode update.uid update.gid else db.ownerOf i := by
  obtain ⟨inode, hget, h⟩ := except_bind_eq_ok.mp h
  obtain ⟨r, hr, rfl⟩ := find_of_getInode hget
  obtain rfl := (Except.ok.inj h).symm
  rw [ownerOf_updateInode (g := fun _ => r.owner.set update.mode update.uid update.gid)]
  · split
    · next heq =>
      rw [heq, ownerOf_of_find hr]
      rfl
    · rfl
  · exact fun _ => rfl
  · exact fun _ => rfl

private theorem ownerOf_claimRoot (db : Db) (mountUid mountGid : UInt32) (i : Nat) :
    (db.claimRoot mountUid mountGid now).ownerOf i =
      (db.ownerOf i).map (Owner.mounted i mountUid mountGid) := by
  refine (ownerOf_updateInode (g := Owner.mounted 1 mountUid mountGid) (fun r => ?_) (fun r => ?_)
    i).trans ?_
  · split
    · rfl
    · rfl
  · by_cases hroot : r.uid = 0 ∧ r.gid = 0
    · rw [if_pos hroot]
      exact (if_pos ⟨rfl, hroot⟩).symm
    · rw [if_neg hroot]
      exact (if_neg fun hmounted => hroot hmounted.2).symm
  · split
    · next heq => rw [heq]
    · next hne =>
      have hmounted : Owner.mounted i mountUid mountGid = id :=
        funext fun o => if_neg fun hmounted => hne hmounted.1
      rw [hmounted, Option.map_id_fun]
      rfl

theorem ownerOf_fresh (mountUid mountGid : UInt32) (now : Timestamp) (i : Nat) :
    (Db.fresh mountUid mountGid now).ownerOf i =
      if i = 1 then some ⟨0o755, mountUid, mountGid⟩ else none := by
  rw [fresh_eq]
  by_cases hroot : i = 1
  · rw [if_pos hroot, hroot]
    rfl
  · rw [if_neg hroot]
    simp [ownerOf, findInode, Ne.symm hroot]

theorem ownerOf_initializeTables (hroot : (db.kindOf 1).isSome) (mountUid mountGid : UInt32)
    {i : Nat} {o : Owner} (ho : (db.initializeTables mountUid mountGid now).ownerOf i = some o) :
    ∃ o', db.ownerOf i = some o' ∧ o = o'.mounted i mountUid mountGid := by
  have hinsert : db.insertRoot mountUid mountGid now = db := by
    rw [← findInode_isSome, Option.isSome_iff_ne_none] at hroot
    exact if_neg fun hnone => hroot (Option.isNone_iff_eq_none.mp hnone)
  have hclaimed : (db.claimRoot mountUid mountGid now).ownerOf i = some o := by
    rw [initializeTables, initializeRows, hinsert] at ho
    exact keepsOwners_recompute _ i o (keepsOwners_sweep _ _ i o ho)
  rw [ownerOf_claimRoot] at hclaimed
  obtain ⟨o', ho', rfl⟩ := Option.map_eq_some_iff.mp hclaimed
  exact ⟨o', ho', rfl⟩

end Methods

end Db

end VibeDbfs
