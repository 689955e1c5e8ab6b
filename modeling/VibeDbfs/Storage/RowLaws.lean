import VibeDbfs.Lib.Keyed
import VibeDbfs.Storage.Methods
import VibeDbfs.Storage.Names

/-!
What each SQL statement does to the kind, the link count and the stored size of every inode, and
what a successful method of the namespace did.
-/

set_option autoImplicit false
set_option relaxedAutoImplicit false

namespace VibeDbfs

open Lib

theorem except_bind_eq_ok {ε α β : Type} {x : Except ε α} {f : α → Except ε β} {b : β} :
    (x >>= f) = .ok b ↔ ∃ a, x = .ok a ∧ f a = .ok b := by
  cases x with
  | error e => exact ⟨nofun, nofun⟩
  | ok a => exact ⟨fun h => ⟨a, rfl, h⟩, by rintro ⟨_, ⟨⟩, h⟩; exact h⟩

namespace Db

def kindOf (db : Db) (ino : Nat) : Option FileKind := (db.findInode ino).map InodeRow.kind

def nlinkOf (db : Db) (ino : Nat) : Nat := ((db.findInode ino).map InodeRow.nlink).getD 0

def storedSize (db : Db) (ino : Nat) : Nat := ((db.findInode ino).map InodeRow.size).getD 0

def names (db : Db) : Names := ⟨db.kindOf, db.nlinkOf, db.dirents⟩

/-- The primary keys of the tables, the range of the inode numbers, and that every kind is known. -/
structure Keys (db : Db) : Prop where
  inodes : (db.inodes.map InodeRow.ino).Nodup
  inos : ∀ r ∈ db.inodes, 0 < r.ino ∧ r.ino ≤ maxIno
  chunks : (db.fileChunks.map ChunkRow.id).Nodup
  intact : ∀ r ∈ db.inodes, r.damaged = false

variable {db : Db} {ino j : Nat}

theorem findInode_ino {r : InodeRow} (h : db.findInode ino = some r) : r.ino = ino := by
  simpa using List.find?_some h

theorem Keys.mem_iff (hk : db.Keys) {r : InodeRow} :
    db.findInode ino = some r ↔ r ∈ db.inodes ∧ r.ino = ino :=
  Keyed.find_eq_some_iff hk.inodes

theorem Keys.undamaged (hk : db.Keys) {r : InodeRow} (h : db.findInode ino = some r) :
    r.damaged = false :=
  hk.intact r (hk.mem_iff.mp h).1

theorem findInode_isSome : (db.findInode ino).isSome = (db.kindOf ino).isSome := by
  simp [kindOf]

theorem Keys.range (hk : db.Keys) (h : (db.kindOf ino).isSome) : 0 < ino ∧ ino ≤ maxIno := by
  rw [← findInode_isSome, Option.isSome_iff_exists] at h
  obtain ⟨r, hr⟩ := h
  have := hk.inos r (hk.mem_iff.mp hr).1
  rwa [findInode_ino hr] at this

theorem kindOf_of_find {r : InodeRow} (h : db.findInode ino = some r) :
    db.kindOf ino = some r.kind := by
  simp [kindOf, h]

theorem nlinkOf_of_find {r : InodeRow} (h : db.findInode ino = some r) :
    db.nlinkOf ino = r.nlink := by
  simp [nlinkOf, h]

theorem storedSize_of_find {r : InodeRow} (h : db.findInode ino = some r) :
    db.storedSize ino = r.size := by
  simp [storedSize, h]

theorem nlinkOf_of_none (h : db.kindOf ino = none) : db.nlinkOf ino = 0 := by
  have hfind : db.findInode ino = none := by simpa [kindOf] using h
  simp [nlinkOf, hfind]

section Statements

variable (now : Timestamp)

theorem findInode_updateInode {f : InodeRow → InodeRow} (hf : ∀ r, (f r).ino = r.ino) :
    (db.updateInode ino f).findInode j =
      if j = ino then (db.findInode j).map f else db.findInode j :=
  Keyed.find_map_at hf

private theorem observe_updateInode {β : Type} {f : InodeRow → InodeRow} {g : InodeRow → β}
    (hf : ∀ r, (f r).ino = r.ino) (hg : ∀ r, g (f r) = g r) :
    ((db.updateInode ino f).findInode j).map g = (db.findInode j).map g := by
  rw [findInode_updateInode hf]
  split
  · rw [Option.map_map]
    exact congrArg (fun h => (db.findInode j).map h) (funext hg)
  · rfl

theorem kindOf_updateInode {f : InodeRow → InodeRow} (hf : ∀ r, (f r).ino = r.ino)
    (hg : ∀ r, (f r).kind = r.kind) : (db.updateInode ino f).kindOf j = db.kindOf j :=
  observe_updateInode hf hg

theorem nlinkOf_updateInode {f : InodeRow → InodeRow} (hf : ∀ r, (f r).ino = r.ino)
    (hg : ∀ r, (f r).nlink = r.nlink) : (db.updateInode ino f).nlinkOf j = db.nlinkOf j :=
  congrArg (·.getD 0) (observe_updateInode hf hg)

theorem storedSize_updateInode {f : InodeRow → InodeRow} (hf : ∀ r, (f r).ino = r.ino)
    (hg : ∀ r, (f r).size = r.size) : (db.updateInode ino f).storedSize j = db.storedSize j :=
  congrArg (·.getD 0) (observe_updateInode hf hg)

@[simp] theorem kindOf_setSize (size : Nat) : (db.setSize ino size now).kindOf j = db.kindOf j :=
  kindOf_updateInode (fun _ => rfl) fun _ => rfl

@[simp] theorem nlinkOf_setSize (size : Nat) :
    (db.setSize ino size now).nlinkOf j = db.nlinkOf j :=
  nlinkOf_updateInode (fun _ => rfl) fun _ => rfl

theorem storedSize_setSize {size : Nat} (h : (db.kindOf ino).isSome) :
    (db.setSize ino size now).storedSize j = if j = ino then size else db.storedSize j := by
  obtain ⟨r, hr⟩ := Option.isSome_iff_exists.mp (findInode_isSome ▸ h)
  rw [storedSize, setSize, findInode_updateInode]
  · split
    · next hj => simp [hj, hr]
    · rfl
  · exact fun _ => rfl

@[simp] theorem kindOf_touchDir : (db.touchDir ino now).kindOf j = db.kindOf j :=
  kindOf_updateInode (fun _ => rfl) fun _ => rfl

@[simp] theorem nlinkOf_touchDir : (db.touchDir ino now).nlinkOf j = db.nlinkOf j :=
  nlinkOf_updateInode (fun _ => rfl) fun _ => rfl

@[simp] theorem storedSize_touchDir : (db.touchDir ino now).storedSize j = db.storedSize j :=
  storedSize_updateInode (fun _ => rfl) fun _ => rfl

@[simp] theorem kindOf_addDirectoryNlink (delta : Int) :
    (db.addDirectoryNlink ino delta).kindOf j = db.kindOf j :=
  kindOf_updateInode (fun _ => rfl) fun _ => rfl

@[simp] theorem storedSize_addDirectoryNlink (delta : Int) :
    (db.addDirectoryNlink ino delta).storedSize j = db.storedSize j :=
  storedSize_updateInode (fun _ => rfl) fun _ => rfl

theorem nlinkOf_addDirectoryNlink {delta : Int} (h : (db.kindOf ino).isSome) :
    (db.addDirectoryNlink ino delta).nlinkOf j =
      if j = ino then (db.nlinkOf j + delta).toNat else db.nlinkOf j := by
  obtain ⟨r, hr⟩ := Option.isSome_iff_exists.mp (findInode_isSome ▸ h)
  rw [nlinkOf, addDirectoryNlink, findInode_updateInode]
  · split
    · next hj => simp [hj, hr, nlinkOf]
    · rfl
  · exact fun _ => rfl

@[simp] theorem kindOf_setNlink (nlink : Nat) :
    (db.setNlink ino nlink now).kindOf j = db.kindOf j :=
  kindOf_updateInode (fun _ => rfl) fun _ => rfl

@[simp] theorem storedSize_setNlink (nlink : Nat) :
    (db.setNlink ino nlink now).storedSize j = db.storedSize j :=
  storedSize_updateInode (fun _ => rfl) fun _ => rfl

theorem nlinkOf_setNlink {nlink : Nat} (h : (db.kindOf ino).isSome) :
    (db.setNlink ino nlink now).nlinkOf j = if j = ino then nlink else db.nlinkOf j := by
  obtain ⟨r, hr⟩ := Option.isSome_iff_exists.mp (findInode_isSome ▸ h)
  rw [nlinkOf, setNlink, findInode_updateInode]
  · split
    · next hj => simp [hj, hr]
    · rfl
  · exact fun _ => rfl

theorem findInode_deleteInodeRows :
    (db.deleteInodeRows ino).findInode j = if j = ino then none else db.findInode j := by
  change (db.inodes.filter fun r => ¬(r.ino = ino)).find? (fun r => r.ino = j) = _
  split
  · next hj => exact Keyed.find_filter_of_drop fun r _ hr => by simp [hr, hj]
  · next hj => exact Keyed.find_filter_of_keep fun r _ hr => by simp [hr, hj]

theorem kindOf_deleteInodeRows :
    (db.deleteInodeRows ino).kindOf j = if j = ino then none else db.kindOf j := by
  rw [kindOf, findInode_deleteInodeRows]
  split <;> rfl

theorem nlinkOf_deleteInodeRows (hj : j ≠ ino) :
    (db.deleteInodeRows ino).nlinkOf j = db.nlinkOf j := by
  rw [nlinkOf, findInode_deleteInodeRows, if_neg hj]
  rfl

theorem storedSize_deleteInodeRows (hj : j ≠ ino) :
    (db.deleteInodeRows ino).storedSize j = db.storedSize j := by
  rw [storedSize, findInode_deleteInodeRows, if_neg hj]
  rfl

theorem dirents_deleteInodeRows
    (h : ∀ d ∈ db.dirents, d.parentIno ≠ ino ∧ d.childIno ≠ ino) :
    (db.deleteInodeRows ino).dirents = db.dirents :=
  List.filter_eq_self.mpr fun d hd => by simpa using h d hd

theorem findInode_append (row : InodeRow) (h : db.kindOf row.ino = none) :
    ({ db with inodes := db.inodes ++ [row] } : Db).findInode j =
      if j = row.ino then some row else db.findInode j := by
  have hfind : db.findInode row.ino = none := by simpa [kindOf] using h
  exact Keyed.find_append_singleton (Keyed.find_eq_none_iff.mp hfind)

theorem names_touchDir : (db.touchDir ino now).names = db.names := by
  simp only [names, Names.mk.injEq]
  exact ⟨funext fun _ => kindOf_touchDir now, funext fun _ => nlinkOf_touchDir now, rfl⟩

end Statements

section KeysKept

theorem Keys.updateInode (hk : db.Keys) {f : InodeRow → InodeRow}
    (hf : ∀ r, (f r).ino = r.ino ∧ (f r).damaged = r.damaged) : (db.updateInode ino f).Keys := by
  have hkeep : ∀ r : InodeRow, (if r.ino = ino then f r else r).ino = r.ino ∧
      (if r.ino = ino then f r else r).damaged = r.damaged := by
    intro r
    split <;> simp [hf]
  refine ⟨Keyed.nodup_map_keep (fun r _ => (hkeep r).1) hk.inodes, fun r hr => ?_, hk.chunks,
    fun r hr => ?_⟩
  · obtain ⟨r', hr', rfl⟩ := List.mem_map.mp hr
    rw [(hkeep r').1]
    exact hk.inos r' hr'
  · obtain ⟨r', hr', rfl⟩ := List.mem_map.mp hr
    rw [(hkeep r').2]
    exact hk.intact r' hr'

theorem Keys.setSize (hk : db.Keys) (size : Nat) (now : Timestamp) :
    (db.setSize ino size now).Keys :=
  hk.updateInode fun _ => ⟨rfl, rfl⟩

theorem Keys.touchDir (hk : db.Keys) (now : Timestamp) : (db.touchDir ino now).Keys :=
  hk.updateInode fun _ => ⟨rfl, rfl⟩

theorem Keys.addDirectoryNlink (hk : db.Keys) (delta : Int) :
    (db.addDirectoryNlink ino delta).Keys :=
  hk.updateInode fun _ => ⟨rfl, rfl⟩

theorem Keys.setNlink (hk : db.Keys) (nlink : Nat) (now : Timestamp) :
    (db.setNlink ino nlink now).Keys :=
  hk.updateInode fun _ => ⟨rfl, rfl⟩

theorem Keys.deleteInodeRows (hk : db.Keys) (ino : Nat) : (db.deleteInodeRows ino).Keys :=
  ⟨Keyed.nodup_filter hk.inodes, fun r hr => hk.inos r (List.mem_filter.mp hr).1,
    Keyed.nodup_filter hk.chunks, fun r hr => hk.intact r (List.mem_filter.mp hr).1⟩

theorem Keys.dropUnlinkedInode (hk : db.Keys) (target : Inode) (now : Timestamp) (isOpen : Bool) :
    (db.dropUnlinkedInode target now isOpen).Keys := by
  unfold Db.dropUnlinkedInode
  split
  · exact hk.deleteInodeRows _
  · split
    · exact hk.setNlink _ _
    · exact hk.deleteInodeRows _

theorem Keys.congr {db' : Db} (hk : db.Keys) (hinodes : db'.inodes = db.inodes)
    (hchunks : db'.fileChunks = db.fileChunks) : db'.Keys :=
  ⟨hinodes ▸ hk.inodes, hinodes ▸ hk.inos, hchunks ▸ hk.chunks, hinodes ▸ hk.intact⟩

end KeysKept

end Db

end VibeDbfs
