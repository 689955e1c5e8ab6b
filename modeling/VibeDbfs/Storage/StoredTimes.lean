import VibeDbfs.Storage.Limits
import VibeDbfs.Storage.Timestamps

/-!
How the methods of the store change the times of a row: each of them is kept or written as a clamped
count of nanoseconds, and the `ctime` is the time of the method. So every time fits its column.
-/

set_option autoImplicit false
set_option relaxedAutoImplicit false

namespace VibeDbfs

open Lib

namespace Timestamp

def InColumn (n : Int) : Prop := i64Min ≤ n ∧ n ≤ i64Max

theorem inColumn_toNs (t : Timestamp) : InColumn t.toNs := by
  rw [toNs_eq]
  exact clamp_range _

theorem load_restored {n : Int} (h : InColumn n) : load (fromNs n).toNs = load n := by
  have hclamp : clamp n = n := clamp_of_range h.1 h.2
  rw [load_eq, load_eq, toNs_fromNs, stripped_clamp, stripped_stripped, ← stripped_clamp, hclamp]

end Timestamp

structure InodeRow.Timed (r : InodeRow) : Prop where
  atime : Timestamp.InColumn r.atimeNs
  mtime : Timestamp.InColumn r.mtimeNs
  ctime : Timestamp.InColumn r.ctimeNs

/-- The row `r'` is `r` with other times or other data: its `ctime` is the old one, or `now`. -/
structure InodeRow.Stamped (now : Timestamp) (r r' : InodeRow) : Prop where
  ino : r'.ino = r.ino
  atime : r'.atimeNs = r.atimeNs ∨ ∃ t : Timestamp, r'.atimeNs = t.toNs
  mtime : r'.mtimeNs = r.mtimeNs ∨ ∃ t : Timestamp, r'.mtimeNs = t.toNs
  ctime : r'.ctimeNs = r.ctimeNs ∨ r'.ctimeNs = now.toNs

/-- A row that was made at `now`. -/
structure InodeRow.Made (now : Timestamp) (r : InodeRow) : Prop where
  atime : ∃ t : Timestamp, r.atimeNs = t.toNs
  mtime : ∃ t : Timestamp, r.mtimeNs = t.toNs
  ctime : r.ctimeNs = now.toNs

namespace InodeRow

variable {now : Timestamp} {r r' r'' : InodeRow}

private theorem Stamped.of_times (hino : r'.ino = r.ino) (hatime : r'.atimeNs = r.atimeNs)
    (hmtime : r'.mtimeNs = r.mtimeNs) (hctime : r'.ctimeNs = r.ctimeNs) : Stamped now r r' :=
  ⟨hino, .inl hatime, .inl hmtime, .inl hctime⟩

private theorem Stamped.refl (now : Timestamp) (r : InodeRow) : Stamped now r r :=
  .of_times rfl rfl rfl rfl

private theorem Stamped.trans (h : Stamped now r r') (h' : Stamped now r' r'') :
    Stamped now r r'' := by
  refine ⟨h'.ino.trans h.ino, ?_, ?_, ?_⟩
  · rcases h'.atime with hsame | hset
    · rw [hsame]
      exact h.atime
    · exact .inr hset
  · rcases h'.mtime with hsame | hset
    · rw [hsame]
      exact h.mtime
    · exact .inr hset
  · rcases h'.ctime with hsame | hset
    · rw [hsame]
      exact h.ctime
    · exact .inr hset

private theorem Made.stamped (h : Made now r) (h' : Stamped now r r') : Made now r' := by
  refine ⟨?_, ?_, ?_⟩
  · rcases h'.atime with hsame | hset
    · rw [hsame]
      exact h.atime
    · exact hset
  · rcases h'.mtime with hsame | hset
    · rw [hsame]
      exact h.mtime
    · exact hset
  · rcases h'.ctime with hsame | hset
    · rw [hsame]
      exact h.ctime
    · exact hset

private theorem inColumn_of_set {n n' : Int} (h : Timestamp.InColumn n)
    (hset : n' = n ∨ ∃ t : Timestamp, n' = t.toNs) : Timestamp.InColumn n' := by
  rcases hset with rfl | ⟨t, rfl⟩
  · exact h
  · exact t.inColumn_toNs

private theorem Timed.stamped (h : r.Timed) (h' : Stamped now r r') : r'.Timed := by
  refine ⟨inColumn_of_set h.atime h'.atime, inColumn_of_set h.mtime h'.mtime, ?_⟩
  rcases h'.ctime with hsame | hset
  · rw [hsame]
    exact h.ctime
  · rw [hset]
    exact now.inColumn_toNs

private theorem Made.timed (h : Made now r) : r.Timed := by
  obtain ⟨⟨a, hatime⟩, ⟨m, hmtime⟩, hctime⟩ := h
  refine ⟨?_, ?_, ?_⟩
  · rw [hatime]
    exact a.inColumn_toNs
  · rw [hmtime]
    exact m.inColumn_toNs
  · rw [hctime]
    exact now.inColumn_toNs

end InodeRow

namespace Db

def Timed (db : Db) : Prop := ∀ r ∈ db.inodes, r.Timed

/-- The times of `db'` fit if those of `db` do. -/
def KeepsTimes (db db' : Db) : Prop := db.Timed → db'.Timed

/-- Each row of `db'` is a row of `db`, perhaps stamped, or was made at `now`. -/
def Restamps (now : Timestamp) (db db' : Db) : Prop :=
  ∀ r' ∈ db'.inodes, (∃ r ∈ db.inodes, r.Stamped now r') ∨ r'.Made now

variable {db db' : Db} {ino parent newParent size : Nat} {name newName : Name} {now : Timestamp}

private theorem Restamps.trans {db'' : Db} (h : Restamps now db db') (h' : Restamps now db' db'') :
    Restamps now db db'' := by
  intro r'' hr''
  rcases h' r'' hr'' with ⟨r', hr', hstamped'⟩ | hmade
  · rcases h r' hr' with ⟨r, hr, hstamped⟩ | hmade
    · exact .inl ⟨r, hr, hstamped.trans hstamped'⟩
    · exact .inr (hmade.stamped hstamped')
  · exact .inr hmade

theorem Restamps.keepsTimes (h : Restamps now db db') : KeepsTimes db db' := by
  intro htimed r' hr'
  rcases h r' hr' with ⟨r, hr, hstamped⟩ | hmade
  · exact (htimed r hr).stamped hstamped
  · exact hmade.timed

theorem KeepsTimes.of_eq (h : db'.inodes = db.inodes) : KeepsTimes db db' := by
  intro htimed r hr
  rw [h] at hr
  exact htimed r hr

section Rows

private theorem Restamps.of_subset (h : db'.inodes ⊆ db.inodes) : Restamps now db db' := by
  intro r hr
  exact .inl ⟨r, h hr, .refl now r⟩

private theorem Restamps.of_eq (h : db'.inodes = db.inodes) : Restamps now db db' := by
  apply Restamps.of_subset
  rw [h]
  exact List.Subset.refl _

private theorem Restamps.map {f : InodeRow → InodeRow} (hf : ∀ r, InodeRow.Stamped now r (f r))
    (h : db'.inodes = db.inodes.map f) : Restamps now db db' := by
  intro r' hr'
  rw [h] at hr'
  obtain ⟨r, hr, rfl⟩ := List.mem_map.mp hr'
  exact .inl ⟨r, hr, hf r⟩

private theorem Restamps.append {r : InodeRow} (hmade : r.Made now)
    (h : db'.inodes = db.inodes ++ [r]) :
    Restamps now db db' := by
  intro r' hr'
  rw [h] at hr'
  rcases List.mem_append.mp hr' with hold | hnew
  · exact .inl ⟨r', hold, .refl now r'⟩
  · rw [List.mem_singleton.mp hnew]
    exact .inr hmade

private theorem restamps_updateInode {f : InodeRow → InodeRow}
    (hf : ∀ r, InodeRow.Stamped now r (f r)) :
    Restamps now db (db.updateInode ino f) := by
  apply Restamps.map (f := fun r => if r.ino = ino then f r else r) _ rfl
  intro r
  split
  · exact hf r
  · exact .refl now r

private theorem restamps_setSize : Restamps now db (db.setSize ino size now) :=
  restamps_updateInode fun _ => ⟨rfl, .inl rfl, .inr ⟨now, rfl⟩, .inr rfl⟩

private theorem restamps_touchDir (ino : Nat) : Restamps now db (db.touchDir ino now) :=
  restamps_updateInode fun _ => ⟨rfl, .inl rfl, .inr ⟨now, rfl⟩, .inr rfl⟩

private theorem restamps_addDirectoryNlink (ino : Nat) (delta : Int) :
    Restamps now db (db.addDirectoryNlink ino delta) :=
  restamps_updateInode fun _ => .of_times rfl rfl rfl rfl

private theorem restamps_setNlink {nlink : Nat} : Restamps now db (db.setNlink ino nlink now) :=
  restamps_updateInode fun _ => ⟨rfl, .inl rfl, .inl rfl, .inr rfl⟩

private theorem restamps_deleteInodeRows : Restamps now db (db.deleteInodeRows ino) :=
  .of_subset (List.filter_subset_self _)

theorem keepsTimes_deleteInodeRows : KeepsTimes db (db.deleteInodeRows ino) := by
  have hrows : Restamps ⟨0, 0⟩ db (db.deleteInodeRows ino) := restamps_deleteInodeRows
  exact hrows.keepsTimes

private theorem restamps_dropUnlinkedInode (target : Inode) (isOpen : Bool) :
    Restamps now db (db.dropUnlinkedInode target now isOpen) := by
  unfold dropUnlinkedInode
  split
  · exact restamps_deleteInodeRows
  · split
    · exact restamps_setNlink
    · exact restamps_deleteInodeRows

private theorem Restamps.ite {p : Prop} [Decidable p] {x y : Db} (hx : Restamps now db x)
    (hy : Restamps now db y) : Restamps now db (if p then x else y) := by
  split
  · exact hx
  · exact hy

private theorem restamps_moveEntry (sourceIsDir targetIsDir : Bool) :
    Restamps now db (db.moveEntry parent name newParent newName sourceIsDir targetIsDir now) := by
  have hmoved : Restamps now db (db.moveDirent parent name newParent newName) := .of_eq rfl
  have hparent := hmoved.trans (restamps_touchDir parent)
  have hboth := Restamps.ite (p := newParent ≠ parent)
    (hparent.trans (restamps_touchDir newParent)) hparent
  have hcounted := Restamps.ite (p := sourceIsDir = true ∧ parent ≠ newParent)
    (hboth.trans ((restamps_addDirectoryNlink parent (-1)).trans
      (restamps_addDirectoryNlink newParent 1))) hboth
  have hreplaced := hcounted.trans (restamps_addDirectoryNlink newParent (-1))
  exact .ite hreplaced hcounted

private theorem restamps_claimRoot (mountUid mountGid : UInt32) :
    Restamps now db (db.claimRoot mountUid mountGid now) := by
  apply restamps_updateInode
  intro r
  split
  · exact ⟨rfl, .inl rfl, .inl rfl, .inr rfl⟩
  · exact .refl now r

private theorem restamps_recompute : Restamps now db db.recomputeDirectoryNlink := by
  apply Restamps.map _ rfl
  intro r
  split
  · exact .of_times rfl rfl rfl rfl
  · exact .refl now r

private theorem restamps_sweep {inos : List Nat} :
    Restamps now db (inos.foldl deleteInodeRows db) := by
  induction inos generalizing db with
  | nil => exact .of_eq rfl
  | cons i inos ih => exact restamps_deleteInodeRows.trans ih

end Rows

section Methods

theorem restamps_createNode {node : NewNode} {uid gid : UInt32} {inode : Inode}
    (h : db.createNode parent name node uid gid now = .ok (inode, db')) :
    Restamps now db db' := by
  obtain ⟨-, -, -, -, -, rfl⟩ := createNode_cases h
  have hadded : Restamps now db (db.addNode parent name node uid gid now) :=
    .append ⟨⟨now, rfl⟩, ⟨now, rfl⟩, rfl⟩ rfl
  have htouched := hadded.trans (restamps_touchDir parent)
  exact .ite (htouched.trans (restamps_addDirectoryNlink parent 1)) htouched

theorem restamps_link {inode : Inode} (h : db.link ino newParent newName now = .ok (inode, db')) :
    Restamps now db db' := by
  obtain ⟨-, r, -, -, -, -, -, rfl⟩ := link_cases h
  have hentry : Restamps now db (db.addEntry newParent newName ino) := .of_eq rfl
  exact (hentry.trans restamps_setNlink).trans (restamps_touchDir _)

theorem restamps_unlinkEntry {target : Inode} {isOpen : Bool}
    (h : db.unlinkEntry parent name target isOpen now = .ok db') : Restamps now db db' := by
  obtain ⟨-, rfl⟩ := unlinkEntry_cases h
  have hdeleted : Restamps now db (db.deleteDirent parent name) := .of_eq rfl
  exact (hdeleted.trans (restamps_dropUnlinkedInode _ _)).trans (restamps_touchDir _)

theorem restamps_removeDir (h : db.removeDir parent name now = .ok db') : Restamps now db db' := by
  obtain ⟨d, r, -, -, -, -, -, -, rfl⟩ := removeDir_cases h
  have hdeleted : Restamps now db (db.deleteDirent parent name) := .of_eq rfl
  exact ((hdeleted.trans restamps_deleteInodeRows).trans (restamps_touchDir _)).trans
    (restamps_addDirectoryNlink _ _)

theorem restamps_renameEntry {noreplace : Bool} {isOpen : Nat → Bool} {replaced : Option Inode}
    (h : db.renameEntry parent name newParent newName noreplace isOpen now = .ok (replaced, db')) :
    Restamps now db db' := by
  obtain ⟨source, -, -, -, hcase⟩ := renameEntry_ok h
  rcases hcase with ⟨-, -, rfl⟩ | ⟨-, -, -, -, rfl⟩
  · exact .of_eq rfl
  · cases replaced with
    | none => exact restamps_moveEntry _ _
    | some target =>
      have hdeleted : Restamps now db (db.deleteDirent newParent newName) := .of_eq rfl
      exact (hdeleted.trans (restamps_dropUnlinkedInode _ _)).trans (restamps_moveEntry _ _)

theorem restamps_replaceChunks {chunks : List (Nat × Bytes)}
    (h : db.replaceChunks ino size chunks now = .ok db') : Restamps now db db' := by
  rw [replaceChunks_eq h]
  have hrows : Restamps now db (db.upsertAll ino chunks) := .of_eq upsertAll_rows.1
  exact hrows.trans restamps_setSize

theorem restamps_truncateFile (h : db.truncateFile ino size now = .ok db') :
    Restamps now db db' := by
  obtain ⟨-, -, rfl⟩ := truncateFile_cases h
  have hrows : Restamps now db (db.cutAt ino size) := .of_eq (cutAt_rows db ino size).1
  exact hrows.trans restamps_setSize

theorem restamps_updateMetadata {update : MetadataUpdate}
    (h : db.updateMetadata ino update now = .ok db') : Restamps now db db' := by
  obtain ⟨inode, -, h⟩ := except_bind_eq_ok.mp h
  cases h
  exact restamps_updateInode fun _ => ⟨rfl, .inr ⟨_, rfl⟩, .inr ⟨_, rfl⟩, .inr rfl⟩

private theorem inodes_writeOne (acc : Db × Nat) (w : Nat × Bytes) :
    (writeOne ino acc w).1.inodes = acc.1.inodes := by
  unfold writeOne
  split
  · rfl
  · next span _ =>
    generalize span.chunks = chunks
    obtain ⟨db, -⟩ := acc
    induction chunks generalizing db with
    | nil => rfl
    | cons c chunks ih =>
      refine (ih (writePiece ino span w.2 db c)).trans ?_
      rw [writePiece_eq]
      exact upsertAll_rows.1

private theorem inodes_writeAll (writes : List (Nat × Bytes)) (acc : Db × Nat) :
    (writes.foldl (writeOne ino) acc).1.inodes = acc.1.inodes := by
  induction writes generalizing acc with
  | nil => rfl
  | cons w writes ih => exact (ih (writeOne ino acc w)).trans (inodes_writeOne acc w)

private theorem restamps_writeFileBatchAt {writes : List (Nat × Bytes)} {written : Nat}
    (h : db.writeFileBatchAt ino writes now = .ok (written, db')) : Restamps now db db' := by
  obtain ⟨⟨kind, fileSize⟩, -, h⟩ := except_bind_eq_ok.mp h
  dsimp only at h
  split at h
  · cases h
  · split at h
    · cases h
      exact .of_eq rfl
    · split at h
      · cases h
      · cases h
        exact (Restamps.of_eq (inodes_writeAll writes (db, fileSize))).trans restamps_setSize

private theorem Timed.initializeTables (h : db.Timed) (mountUid mountGid : UInt32)
    (now : Timestamp) :
    (db.initializeTables mountUid mountGid now).Timed := by
  have hroot : Restamps now db (db.insertRoot mountUid mountGid now) := by
    unfold Db.insertRoot
    dsimp only
    split
    · exact .append ⟨⟨now, rfl⟩, ⟨now, rfl⟩, rfl⟩ rfl
    · exact .of_eq rfl
  have hclaimed := hroot.trans (restamps_claimRoot mountUid mountGid)
  exact ((hclaimed.trans restamps_recompute).trans restamps_sweep).keepsTimes h

theorem Timed.fresh (mountUid mountGid : UInt32) (now : Timestamp) :
    (Db.fresh mountUid mountGid now).Timed := by
  have hempty : Db.empty.Timed := by
    intro r hr
    cases hr
  exact hempty.initializeTables mountUid mountGid now

theorem Timed.step (h : db.Timed) (call : Timestamp × StoreCall) : (db.step call).Timed := by
  unfold Db.step
  split
  · next db' hok =>
    obtain ⟨now, call⟩ := call
    cases call with
    | createNode parent name node uid gid =>
      obtain ⟨⟨inode, db''⟩, hok, ⟨⟩⟩ := except_bind_eq_ok.mp hok
      exact (restamps_createNode hok).keepsTimes h
    | link ino newParent newName =>
      obtain ⟨⟨inode, db''⟩, hok, ⟨⟩⟩ := except_bind_eq_ok.mp hok
      exact (restamps_link hok).keepsTimes h
    | unlinkEntry parent name isOpen =>
      obtain ⟨target, -, hok⟩ := except_bind_eq_ok.mp hok
      exact (restamps_unlinkEntry hok).keepsTimes h
    | removeDir parent name => exact (restamps_removeDir hok).keepsTimes h
    | renameEntry parent name newParent newName noreplace isOpen =>
      obtain ⟨⟨replaced, db''⟩, hok, ⟨⟩⟩ := except_bind_eq_ok.mp hok
      exact (restamps_renameEntry hok).keepsTimes h
    | deleteInode ino =>
      cases hok
      exact keepsTimes_deleteInodeRows h
    | writeFileBatch ino writes =>
      obtain ⟨⟨written, db''⟩, hok, ⟨⟩⟩ := except_bind_eq_ok.mp hok
      exact (restamps_writeFileBatchAt hok).keepsTimes h
    | truncateFile ino size => exact (restamps_truncateFile hok).keepsTimes h
    | updateMetadata ino update => exact (restamps_updateMetadata hok).keepsTimes h
    | reopen mountUid mountGid =>
      cases hok
      exact h.initializeTables mountUid mountGid now
  · exact h

end Methods

end Db

end VibeDbfs
