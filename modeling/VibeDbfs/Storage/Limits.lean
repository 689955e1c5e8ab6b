import VibeDbfs.Storage.StoreRuns

/-!
The limits on inode numbers and file sizes, and that every method of the store keeps them, whatever
else its tables hold.
-/

set_option autoImplicit false
set_option relaxedAutoImplicit false

namespace VibeDbfs

open Lib

/-- The inode has chunk keys, and a regular file is no larger than they reach. -/
structure InodeRow.Within (r : InodeRow) : Prop where
  ino : r.ino ≤ maxIno
  size : r.kind = .regularFile → r.size ≤ maxFileSize
  known : r.kind = .regularFile → r.damaged = false

theorem InodeRow.Within.congr {r r' : InodeRow} (h : r.Within) (hino : r'.ino = r.ino)
    (hkind : r'.kind = r.kind) (hsize : r'.size = r.size) (hdamaged : r'.damaged = r.damaged) :
    r'.Within := by
  constructor
  · rw [hino]
    exact h.ino
  · intro hregular
    rw [hsize]
    exact h.size (hkind ▸ hregular)
  · intro hregular
    rw [hdamaged]
    exact h.known (hkind ▸ hregular)

namespace Db

def Limits (db : Db) : Prop := ∀ r ∈ db.inodes, r.Within

/-- Each inode of `db'` has the number, kind and size of an inode of `db`. -/
def Drawn (db db' : Db) : Prop :=
  ∀ r' ∈ db'.inodes, ∃ r ∈ db.inodes, r'.ino = r.ino ∧ r'.kind = r.kind ∧ r'.size = r.size ∧
    r'.damaged = r.damaged

variable {db db' : Db} {ino parent newParent size : Nat} {name newName : Name} {now : Timestamp}

theorem Limits.of_drawn (h : db.Limits) (hdrawn : Drawn db db') : db'.Limits := by
  intro r' hr'
  obtain ⟨r, hr, hino, hkind, hsize, hdamaged⟩ := hdrawn r' hr'
  exact (h r hr).congr hino hkind hsize hdamaged

theorem Limits.inodeKindOf_of_regular (h : db.Limits) (hkind : db.kindOf ino = some .regularFile) :
    db.inodeKindOf ino = .ok .regularFile := by
  obtain ⟨r, hr, hregular⟩ := Option.map_eq_some_iff.mp hkind
  rw [inodeKindOf, hr]
  dsimp only
  rw [InodeRow.readKind, (h r (List.mem_of_find?_eq_some hr)).known hregular, hregular]
  rfl

theorem Sound.limits (h : db.Sound) : db.Limits := by
  intro r hr
  refine ⟨(h.keys.inos r hr).2, fun hregular => ?_, fun _ => h.keys.intact r hr⟩
  have hfind : db.findInode r.ino = some r := h.keys.mem_iff.mpr ⟨hr, rfl⟩
  have hkind : db.kindOf r.ino = some .regularFile :=
    (kindOf_of_find hfind).trans (congrArg some hregular)
  exact (storedSize_of_find hfind) ▸ h.owned.sizes r.ino hkind

section Drawn

private theorem Drawn.of_subset (h : db'.inodes ⊆ db.inodes) : Drawn db db' := by
  intro r hr
  exact ⟨r, h hr, rfl, rfl, rfl, rfl⟩

private theorem Drawn.of_eq (h : db'.inodes = db.inodes) : Drawn db db' :=
  .of_subset (h ▸ List.Subset.refl _)

private theorem Drawn.trans {db'' : Db} (h : Drawn db db') (h' : Drawn db' db'') :
    Drawn db db'' := by
  intro r'' hr''
  obtain ⟨r', hr', hino', hkind', hsize', hdamaged'⟩ := h' r'' hr''
  obtain ⟨r, hr, hino, hkind, hsize, hdamaged⟩ := h r' hr'
  exact ⟨r, hr, hino'.trans hino, hkind'.trans hkind, hsize'.trans hsize, hdamaged'.trans hdamaged⟩

private theorem Drawn.map {f : InodeRow → InodeRow}
    (hf : ∀ r, (f r).ino = r.ino ∧ (f r).kind = r.kind ∧
    (f r).size = r.size ∧ (f r).damaged = r.damaged) (h : db'.inodes = db.inodes.map f) :
      Drawn db db' := by
  intro r' hr'
  rw [h] at hr'
  obtain ⟨r, hr, rfl⟩ := List.mem_map.mp hr'
  exact ⟨r, hr, hf r⟩

private theorem drawn_updateInode {f : InodeRow → InodeRow} (hf : ∀ r, (f r).ino = r.ino ∧
    (f r).kind = r.kind ∧ (f r).size = r.size ∧ (f r).damaged = r.damaged) :
    Drawn db (db.updateInode ino f) := by
  apply Drawn.map (f := fun r => if r.ino = ino then f r else r) _ rfl
  intro r
  split
  · exact hf r
  · exact ⟨rfl, rfl, rfl, rfl⟩

private theorem drawn_touchDir (ino : Nat) (now : Timestamp) : Drawn db (db.touchDir ino now) :=
  drawn_updateInode fun _ => ⟨rfl, rfl, rfl, rfl⟩

private theorem drawn_addDirectoryNlink (ino : Nat) (delta : Int) :
    Drawn db (db.addDirectoryNlink ino delta) :=
  drawn_updateInode fun _ => ⟨rfl, rfl, rfl, rfl⟩

private theorem drawn_setNlink (nlink : Nat) : Drawn db (db.setNlink ino nlink now) :=
  drawn_updateInode fun _ => ⟨rfl, rfl, rfl, rfl⟩

theorem drawn_deleteInodeRows : Drawn db (db.deleteInodeRows ino) :=
  .of_subset (List.filter_subset_self _)

private theorem drawn_dropUnlinkedInode (target : Inode) (isOpen : Bool) :
    Drawn db (db.dropUnlinkedInode target now isOpen) := by
  unfold dropUnlinkedInode
  split
  · exact drawn_deleteInodeRows
  · split
    · exact drawn_setNlink _
    · exact drawn_deleteInodeRows

private theorem Drawn.ite {p : Prop} [Decidable p] {x y : Db} (hx : Drawn db x) (hy : Drawn db y) :
    Drawn db (if p then x else y) := by
  split
  · exact hx
  · exact hy

private theorem drawn_moveEntry (sourceIsDir targetIsDir : Bool) :
    Drawn db (db.moveEntry parent name newParent newName sourceIsDir targetIsDir now) := by
  have hmoved : Drawn db (db.moveDirent parent name newParent newName) := .of_eq rfl
  have hparent := hmoved.trans (drawn_touchDir parent now)
  have hboth := Drawn.ite (p := newParent ≠ parent)
      (hparent.trans (drawn_touchDir newParent now)) hparent
  have hcounted := Drawn.ite (p := sourceIsDir = true ∧ parent ≠ newParent)
    (hboth.trans ((drawn_addDirectoryNlink parent (-1)).trans
      (drawn_addDirectoryNlink newParent 1))) hboth
  have hreplaced := hcounted.trans (drawn_addDirectoryNlink newParent (-1))
  exact .ite hreplaced hcounted

private theorem drawn_renameTx (source : Inode) (replaced : Option Inode) (isOpen : Nat → Bool) :
    Drawn db (db.renameTx parent name newParent newName source replaced isOpen now) := by
  cases replaced with
  | none => exact drawn_moveEntry _ _
  | some target =>
    have hdeleted : Drawn db (db.deleteDirent newParent newName) := .of_eq rfl
    exact (hdeleted.trans (drawn_dropUnlinkedInode _ _)).trans (drawn_moveEntry _ _)

private theorem drawn_claimRoot (mountUid mountGid : UInt32) (now : Timestamp) :
    Drawn db (db.claimRoot mountUid mountGid now) := by
  apply drawn_updateInode
  intro r
  split
  · exact ⟨rfl, rfl, rfl, rfl⟩
  · exact ⟨rfl, rfl, rfl, rfl⟩

private theorem drawn_recompute : Drawn db db.recomputeDirectoryNlink := by
  apply Drawn.map _ rfl
  intro r
  split
  · exact ⟨rfl, rfl, rfl, rfl⟩
  · exact ⟨rfl, rfl, rfl, rfl⟩

private theorem drawn_sweep {inos : List Nat} : Drawn db (inos.foldl deleteInodeRows db) := by
  induction inos generalizing db with
  | nil => exact .of_eq rfl
  | cons i inos ih => exact drawn_deleteInodeRows.trans ih

end Drawn

section Methods

theorem Limits.createNode (h : db.Limits) {node : NewNode} {uid gid : UInt32} {inode : Inode}
    (hok : db.createNode parent name node uid gid now = .ok (inode, db')) : db'.Limits := by
  obtain ⟨-, -, hmax, -, -, rfl⟩ := createNode_cases hok
  have hrow : (node.row db.nextIno uid gid now).Within := by
    refine ⟨hmax, fun hregular => ?_, fun _ => rfl⟩
    cases node with
    | directory mode => cases hregular
    | file mode => exact Nat.zero_le _
    | symlink target => cases hregular
  have hadded : (db.addNode parent name node uid gid now).Limits := by
    intro r hr
    rcases List.mem_append.mp hr with hold | hnew
    · exact h r hold
    · exact List.mem_singleton.mp hnew ▸ hrow
  have htouched := hadded.of_drawn (drawn_touchDir parent now)
  split
  · exact htouched.of_drawn (drawn_addDirectoryNlink parent 1)
  · exact htouched

theorem Limits.link (h : db.Limits) {inode : Inode}
    (hok : db.link ino newParent newName now = .ok (inode, db')) : db'.Limits := by
  obtain ⟨-, r, -, -, -, -, -, rfl⟩ := link_cases hok
  have hentry : Drawn db (db.addEntry newParent newName ino) := .of_eq rfl
  exact h.of_drawn ((hentry.trans (drawn_setNlink _)).trans (drawn_touchDir _ now))

theorem Limits.unlinkEntry (h : db.Limits) {target : Inode} {isOpen : Bool}
    (hok : db.unlinkEntry parent name target isOpen now = .ok db') : db'.Limits := by
  obtain ⟨-, rfl⟩ := unlinkEntry_cases hok
  have hdeleted : Drawn db (db.deleteDirent parent name) := .of_eq rfl
  exact h.of_drawn ((hdeleted.trans (drawn_dropUnlinkedInode _ _)).trans (drawn_touchDir _ now))

theorem Limits.removeDir (h : db.Limits) (hok : db.removeDir parent name now = .ok db') :
    db'.Limits := by
  obtain ⟨d, r, -, -, -, -, -, -, rfl⟩ := removeDir_cases hok
  have hdeleted : Drawn db (db.deleteDirent parent name) := .of_eq rfl
  exact h.of_drawn (((hdeleted.trans drawn_deleteInodeRows).trans (drawn_touchDir _ now)).trans
    (drawn_addDirectoryNlink _ _))

theorem Limits.renameEntry (h : db.Limits) {noreplace : Bool} {isOpen : Nat → Bool}
    {replaced : Option Inode}
    (hok : db.renameEntry parent name newParent newName noreplace isOpen now =
      .ok (replaced, db')) :
    db'.Limits := by
  obtain ⟨source, -, -, -, hcase⟩ := renameEntry_ok hok
  rcases hcase with ⟨-, -, rfl⟩ | ⟨-, -, -, -, rfl⟩
  · exact h
  · exact h.of_drawn (drawn_renameTx _ _ _)

private theorem Limits.setSize (h : db.Limits) (hsize : size ≤ maxFileSize) :
    (db.setSize ino size now).Limits := by
  intro r' hr'
  obtain ⟨r, hr, rfl⟩ := List.mem_map.mp hr'
  split
  · exact ⟨(h r hr).ino, fun _ => hsize, (h r hr).known⟩
  · exact h r hr

theorem Limits.replaceChunks (h : db.Limits) {chunks : List (Nat × Bytes)}
    (hsize : size ≤ maxFileSize)
    (hok : db.replaceChunks ino size chunks now = .ok db') : db'.Limits := by
  rw [replaceChunks_eq hok]
  have hrows : Drawn db (db.upsertAll ino chunks) := .of_eq upsertAll_rows.1
  exact (h.of_drawn hrows).setSize hsize

theorem Limits.truncateFile (h : db.Limits) (hok : db.truncateFile ino size now = .ok db') :
    db'.Limits := by
  obtain ⟨-, hmax, rfl⟩ := truncateFile_cases hok
  have hrows : Drawn db (db.cutAt ino size) := .of_eq (cutAt_rows db ino size).1
  exact (h.of_drawn hrows).setSize hmax

theorem Limits.updateMetadata (h : db.Limits) {update : MetadataUpdate}
    (hok : db.updateMetadata ino update now = .ok db') : db'.Limits := by
  obtain ⟨-, f, rfl, hf⟩ := updateMetadata_cases hok
  exact h.of_drawn (drawn_updateInode fun r => ⟨(hf r).1, (hf r).2.1, (hf r).2.2.1, (hf r).2.2.2.2⟩)

section Writes

variable {span : ChunkSpan} {data : Bytes} {writes : List (Nat × Bytes)}

private theorem drawn_writePieces (chunks : List Nat) :
    Drawn db (chunks.foldl (writePiece ino span data) db) := by
  induction chunks generalizing db with
  | nil => exact .of_eq rfl
  | cons c chunks ih =>
    have hpiece : Drawn db (writePiece ino span data db c) := by
      rw [writePiece_eq]
      exact .of_eq upsertAll_rows.1
    exact hpiece.trans ih

private theorem writes_within (ino : Nat) (acc : Db × Nat) (hsize : acc.2 ≤ maxFileSize)
    (hwrites : ∀ w ∈ writes, w.1 + w.2.length ≤ maxFileSize) :
    Drawn acc.1 (writes.foldl (writeOne ino) acc).1 ∧
      (writes.foldl (writeOne ino) acc).2 ≤ maxFileSize := by
  induction writes generalizing acc with
  | nil => exact ⟨.of_eq rfl, hsize⟩
  | cons w writes ih =>
    have hone : Drawn acc.1 (writeOne ino acc w).1 ∧ (writeOne ino acc w).2 ≤ maxFileSize := by
      unfold writeOne
      split
      · exact ⟨.of_eq rfl, hsize⟩
      · exact ⟨drawn_writePieces _, max_le hsize (hwrites w List.mem_cons_self)⟩
    have hrest := ih (writeOne ino acc w) hone.2 fun w' hw' => hwrites w'
        (List.mem_cons_of_mem _ hw')
    exact ⟨hone.1.trans hrest.1, hrest.2⟩

private theorem Limits.writeFileBatchAt (h : db.Limits) {written : Nat}
    (hok : db.writeFileBatchAt ino writes now = .ok (written, db')) : db'.Limits := by
  obtain ⟨⟨kind, size⟩, hhead, hok⟩ := except_bind_eq_ok.mp hok
  dsimp only at hok
  split at hok
  · cases hok
  · next hregular =>
    rw [FileKind.regularFileError_eq_none] at hregular
    split at hok
    · cases hok
      exact h
    · split at hok
      · cases hok
      · next hends =>
        have hsize : size ≤ maxFileSize := by
          obtain ⟨r, hr, rfl, rfl⟩ := head_of_read hhead
          exact (h r (List.mem_of_find?_eq_some hr)).size hregular
        have hwrites : ∀ w ∈ writes, w.1 + w.2.length ≤ maxFileSize := by
          intro w hw
          rw [List.any_eq_true] at hends
          by_contra hlarge
          apply hends
          refine ⟨w, hw, decide_eq_true ?_⟩
          simp only [maxFileSize, u64Size] at hlarge ⊢
          omega
        cases hok
        have hrest := writes_within ino (db, size) hsize hwrites
        exact (h.of_drawn hrest.1).setSize hrest.2

end Writes

private theorem Limits.insertRoot (h : db.Limits) (mountUid mountGid : UInt32) (now : Timestamp) :
    (db.insertRoot mountUid mountGid now).Limits := by
  unfold Db.insertRoot
  dsimp only
  split
  · intro r hr
    rcases List.mem_append.mp hr with hold | hroot
    · exact h r hold
    · rw [List.mem_singleton.mp hroot]
      exact ⟨show 1 ≤ maxIno by decide, nofun, nofun⟩
  · exact h

private theorem Limits.initializeTables (h : db.Limits) (mountUid mountGid : UInt32)
    (now : Timestamp) :
    (db.initializeTables mountUid mountGid now).Limits := by
  have hroot := h.insertRoot mountUid mountGid now
  have hclaimed := hroot.of_drawn (drawn_claimRoot mountUid mountGid now)
  exact (hclaimed.of_drawn drawn_recompute).of_drawn drawn_sweep

private theorem Limits.perform (h : db.Limits) {call : StoreCall}
    (hok : db.perform now call = .ok db') :
    db'.Limits := by
  cases call with
  | createNode parent name node uid gid =>
    obtain ⟨⟨inode, db''⟩, hok, ⟨⟩⟩ := except_bind_eq_ok.mp hok
    exact h.createNode hok
  | link ino newParent newName =>
    obtain ⟨⟨inode, db''⟩, hok, ⟨⟩⟩ := except_bind_eq_ok.mp hok
    exact h.link hok
  | unlinkEntry parent name isOpen =>
    obtain ⟨target, -, hok⟩ := except_bind_eq_ok.mp hok
    exact h.unlinkEntry hok
  | removeDir parent name => exact h.removeDir hok
  | renameEntry parent name newParent newName noreplace isOpen =>
    obtain ⟨⟨replaced, db''⟩, hok, ⟨⟩⟩ := except_bind_eq_ok.mp hok
    exact h.renameEntry hok
  | deleteInode ino =>
    cases hok
    exact h.of_drawn drawn_deleteInodeRows
  | writeFileBatch ino writes =>
    obtain ⟨⟨written, db''⟩, hok, ⟨⟩⟩ := except_bind_eq_ok.mp hok
    exact h.writeFileBatchAt hok
  | truncateFile ino size => exact h.truncateFile hok
  | updateMetadata ino update => exact h.updateMetadata hok
  | reopen mountUid mountGid =>
    cases hok
    exact h.initializeTables mountUid mountGid now

/-- A call at any time, allowed or not, keeps the limits. -/
theorem Limits.step (h : db.Limits) (call : Timestamp × StoreCall) : (db.step call).Limits := by
  unfold Db.step
  split
  · next hok => exact h.perform hok
  · exact h

end Methods

end Db

end VibeDbfs
