import VibeDbfs.Fuse.Calls
import VibeDbfs.Fuse.Flushing
import VibeDbfs.Storage.StoredTimes

/-!
What most functions of the file system are made of. A relation between states that these steps keep
is kept by the functions, so each such relation looks at the steps only.
-/

set_option autoImplicit false
set_option relaxedAutoImplicit false

namespace VibeDbfs

open Lib Lib.Bytes

namespace OpenTable

variable {t t' : OpenTable} {slot : Slot}

theorem get_modify {f : OpenInode → OpenInode}
    (h : t'.inodes.slots = t.inodes.slots.modify slot f) (j : Slot) :
    t'.inodes.get j = t.inodes.get j ∨ j = slot ∧ t'.inodes.get j = f (t.inodes.get j) := by
  have hget : t'.inodes.get j = (t.inodes.update slot f).get j := by
    rw [OpenInodes.get, h]
    rfl
  rw [hget]
  by_cases hlt : slot < t.inodes.slots.length
  · rw [get_update hlt]
    split
    · next heq => exact .inr ⟨heq, rfl⟩
    · exact .inl rfl
  · rw [OpenInodes.update, OpenInodes.get, List.modify_eq_self (Nat.le_of_not_lt hlt)]
    exact .inl rfl

def KeepsSlots (t t' : OpenTable) : Prop := ∀ j, (t'.inodes.get j).ino = (t.inodes.get j).ino ∧
  (t'.inodes.get j).mtime = (t.inodes.get j).mtime ∧
  (t'.inodes.get j).dirty = (t.inodes.get j).dirty

theorem KeepsSlots.of_eq (h : t'.inodes = t.inodes) : KeepsSlots t t' := by
  intro j
  rw [h]
  exact ⟨rfl, rfl, rfl⟩

theorem keepsSlots_modify {f : OpenInode → OpenInode}
    (h : t'.inodes.slots = t.inodes.slots.modify slot f)
    (hf : ∀ o, (f o).ino = o.ino ∧ (f o).mtime = o.mtime ∧ (f o).dirty = o.dirty) :
    KeepsSlots t t' := by
  intro j
  rcases get_modify h j with hsame | ⟨-, hchanged⟩
  · rw [hsame]
    exact ⟨rfl, rfl, rfl⟩
  · rw [hchanged]
    exact hf _

private theorem keepsSlots_remove (t : OpenTable) (slot : Slot) :
    KeepsSlots t { t with inodes := t.inodes.remove slot } :=
  keepsSlots_modify rfl fun _ => ⟨rfl, rfl, rfl⟩

private theorem keepsSlots_freeIfIdle (t : OpenTable) (slot : Slot) :
    KeepsSlots t (t.freeIfIdle slot) := by
  unfold freeIfIdle
  dsimp only
  split
  · exact keepsSlots_remove t slot
  · exact .of_eq rfl

theorem keepsSlots_openSlot (t : OpenTable) (slot : Slot) : KeepsSlots t (t.openSlot slot).2 :=
  keepsSlots_modify rfl fun _ => ⟨rfl, rfl, rfl⟩

def Marked (t : OpenTable) (ino : Nat) : Prop :=
  ∃ slot, t.inodes.find ino = some slot ∧ (t.inodes.get slot).unlinked = true

/-- Only inodes of `new` get a live slot from `t` to `t'`, and none a marked one. -/
structure Adds (new : Nat → Prop) (t t' : OpenTable) : Prop where
  live : ∀ ino, (t'.inodes.find ino).isSome → (t.inodes.find ino).isSome ∨ new ino
  marked : ∀ ino, t'.Marked ino → t.Marked ino

section Adds

variable {new : Nat → Prop}

theorem Adds.mono {new' : Nat → Prop} (h : Adds new t t') (hnew : ∀ i, new i → new' i) :
    Adds new' t t' :=
  ⟨fun i hlive => (h.live i hlive).imp_right (hnew i), h.marked⟩

theorem Adds.trans {t'' : OpenTable} (h : Adds new t t') (h' : Adds new t' t'') : Adds new t t'' :=
  ⟨fun i hlive => (h'.live i hlive).elim (h.live i) .inr,
    fun i hmarked => h.marked i (h'.marked i hmarked)⟩

theorem Adds.of_eq (h : t'.inodes = t.inodes) : Adds new t t' := by
  constructor
  · intro i hlive
    rw [h] at hlive
    exact .inl hlive
  · rintro i ⟨j, hj, hmarked⟩
    rw [h] at hj hmarked
    exact ⟨j, hj, hmarked⟩

theorem adds_modify {f : OpenInode → OpenInode}
    (h : t'.inodes.slots = t.inodes.slots.modify slot f)
    (hfind : ∀ i j, t'.inodes.find i = some j → t.inodes.find i = some j)
    (hf : ∀ o, (f o).unlinked = true → o.unlinked = true) : Adds new t t' := by
  constructor
  · intro i hlive
    obtain ⟨j, hj⟩ := Option.isSome_iff_exists.mp hlive
    rw [hfind i j hj]
    exact .inl rfl
  · rintro i ⟨j, hj, hmarked⟩
    refine ⟨j, hfind i j hj, ?_⟩
    rcases get_modify h j with hsame | ⟨-, hchanged⟩
    · rwa [hsame] at hmarked
    · rw [hchanged] at hmarked
      exact hf _ hmarked

theorem adds_remove (t : OpenTable) (slot : Slot) :
    Adds new t { t with inodes := t.inodes.remove slot } := by
  refine adds_modify rfl (fun i j hj => ?_) fun o hmarked => by cases hmarked
  have hfind := (find_filtered t.inodes (t.inodes.get slot).ino i).symm.trans hj
  split at hfind
  · cases hfind
  · exact hfind

private theorem adds_freeIfIdle (t : OpenTable) (slot : Slot) : Adds new t (t.freeIfIdle slot) := by
  unfold freeIfIdle
  dsimp only
  split
  · exact adds_remove t slot
  · exact .of_eq rfl

end Adds

structure Steady (t t' : OpenTable) : Prop where
  keeps : KeepsSlots t t'
  adds : Adds (fun _ => False) t t'

private theorem Steady.of_eq (h : t'.inodes = t.inodes) : Steady t t' := ⟨.of_eq h, .of_eq h⟩

end OpenTable

namespace Fs

variable {α : Type} {env : Env} {R : Shared → Shared → Prop}

theorem exec_eq_ok {f : Db → Except DbError Db} {db db' : Db} {a : Unit}
    (h : ((f db).map fun db' => ((), db')) = .ok (a, db')) : f db = .ok db' := by
  rcases hrun : f db with e | db''
  · rw [hrun] at h
    cases h
  · rw [hrun] at h
    cases h
    rfl

theorem query_eq_ok {f : Db → Except DbError α} {db db' : Db} {a : α}
    (h : ((f db).map fun a => (a, db)) = .ok (a, db')) : f db = .ok a ∧ db' = db := by
  rcases hrun : f db with e | b
  · rw [hrun] at h
    cases h
  · rw [hrun] at h
    cases h
    exact ⟨rfl, rfl⟩

theorem within_overlayAttr [IsPreorder Shared R] (attr : FileAttr) :
    Prog.Within R (overlayAttr attr) :=
  .bind within_table fun _ => .pure _

/-- The accesses to the environment in calls on data stay in `R`. -/
structure DataAccesses (env : Env) (R : Shared → Shared → Prop) : Prop where
  query : ∀ {α : Type} (f : Db → Except DbError α), Prog.Within R (query env f)
  truncate : ∀ ino size, Prog.Within R (now env >>= fun modified =>
    exec env fun db => db.truncateFile ino size modified)
  metadata : ∀ ino update, Prog.Within R (now env >>= fun modified =>
    exec env fun db => db.updateMetadata ino update modified)
  order : Prog.Within R (order env)
  sync : Prog.Within R (syncDurable env)
  record : Prog.Within R record

/-- A method of the store that gives its rows the time of the clock stays in `R`. -/
def Stamped (env : Env) (R : Shared → Shared → Prop) : Prop :=
  ∀ {α : Type} (f : Timestamp → Db → Except DbError (α × Db)),
    (∀ m db a db', f m db = .ok (a, db') → db.Restamps m db') →
      Prog.Within R (now env >>= fun modified => access env (f modified))

theorem Stamped.exec (h : Stamped env R) (f : Timestamp → Db → Except DbError Db)
    (hf : ∀ m db db', f m db = .ok db' → db.Restamps m db') :
    Prog.Within R (now env >>= fun modified => Fs.exec env (f modified)) := by
  apply h fun modified db => (f modified db).map fun db' => ((), db')
  intro m db a db' hok
  exact hf m db db' (exec_eq_ok hok)

structure Accesses (env : Env) (R : Shared → Shared → Prop) : Prop extends DataAccesses env R where
  stamped : Stamped env R
  truncate := fun _ _ => Stamped.exec stamped _ fun _ _ _ hok => Db.restamps_truncateFile hok
  metadata := fun _ _ => Stamped.exec stamped _ fun _ _ _ hok => Db.restamps_updateMetadata hok

/-- So do the steps of the table that neither stamp a slot nor touch unflushed data, and flushes. -/
structure DataRoutine (env : Env) (R : Shared → Shared → Prop) : Prop
    extends DataAccesses env R where
  flush : ∀ slot unlinked, Prog.Within R (flushSlot env slot unlinked)
  table : ∀ f, (∀ t, OpenTable.Steady t (f t)) → Prog.Within R (updateTable f)

structure Routine (env : Env) (R : Shared → Shared → Prop) : Prop
    extends DataRoutine env R, Accesses env R

namespace Accesses

theorem rmdir (h : Accesses env R) (parent : Nat) (name : Name) :
    Prog.Within R (Fs.rmdir env parent name) := by
  apply Stamped.exec h.stamped
  intro m db db' hok
  exact Db.restamps_removeDir hok

variable [IsPreorder Shared R]

theorem createNode (h : Accesses env R) (parent : Nat) (name : Name) (node : NewNode)
    (uid gid : UInt32) : Prog.Within R (Fs.createNode env parent name node uid gid) := by
  apply Prog.Within.bind_bind
  · apply h.stamped
    intro m db inode db' hok
    exact Db.restamps_createNode hok
  · exact fun _ => .bind h.record fun _ => .pure _

theorem link (h : Accesses env R) (ino newParent : Nat) (newName : Name) :
    Prog.Within R (Fs.link env ino newParent newName) := by
  apply Prog.Within.bind_bind
  · apply h.stamped
    intro m db inode db' hok
    exact Db.restamps_link hok
  · exact fun _ => .pure _

end Accesses

namespace DataAccesses

variable [IsPreorder Shared R]

theorem getattrRow (h : DataAccesses env R) (ino : Nat) : Prog.Within R (Fs.getattrRow env ino) :=
  .bind (h.query _) fun _ => .pure _

theorem lookupRow (h : DataAccesses env R) (parent : Nat) (name : Name) :
    Prog.Within R (Fs.lookupRow env parent name) :=
  .bind (h.query _) fun _ => .pure _

private theorem updateMetadata (h : DataAccesses env R) (ino : Nat) (update : MetadataUpdate) :
    Prog.Within R (Fs.updateMetadata env ino update) := by
  apply Prog.Within.bind_bind
  · exact h.metadata ino update
  · exact fun _ => h.query _

theorem fallocateCheck (h : DataAccesses env R) (ino : Nat) (offset length : Int) (mode : UInt32) :
    Prog.Within R (Fs.fallocateCheck env ino offset length mode) := by
  unfold Fs.fallocateCheck
  split
  · exact .throw _
  · split
    · exact .throw _
    · apply Prog.Within.bind (h.query _)
      intro kind
      dsimp only
      split_ifs
      · exact .throw _
      · exact .throw _
      · exact .throw _
      · exact .pure none
      · exact .pure _

private theorem readSlot (h : DataAccesses env R) (slot : Slot) (offset size : Nat) :
    Prog.Within R (Fs.readSlot env slot offset size) := by
  refine .bind within_table fun t => ?_
  refine .bind (within_errnoOfKind _) fun _ => ?_
  split
  · exact .pure []
  · exact .bind (h.query _) fun _ => .pure _

theorem readLocked (h : DataAccesses env R) (ino offset size : Nat) :
    Prog.Within R (Fs.readLocked env ino offset size) := by
  refine .bind within_table fun t => ?_
  split
  · exact .map _ (h.readSlot _ offset size)
  · exact .pure none

theorem read (h : DataAccesses env R) (ino offset size : Nat) :
    Prog.Within R (Fs.read env ino offset size) := by
  apply Prog.Within.bind (h.readLocked ino offset size)
  intro data
  cases data with
  | none => exact h.query _
  | some data => exact .pure data

theorem readFh (h : DataAccesses env R) (fh offset size : Nat) :
    Prog.Within R (Fs.readFh env fh offset size) :=
  .bind within_table fun _ => .bind (within_orErrno _ _) fun slot => h.readSlot slot offset size

theorem flushAllSync (h : DataAccesses env R) (firstError : Option Errno) :
    Prog.Within R (Fs.flushAllSync env firstError) := by
  apply Prog.Within.bind (Prog.Within.attempt h.sync)
  intro synced
  split
  · exact .throw _
  · exact .throw _
  · exact .pure ()

end DataAccesses

namespace DataRoutine

section Steps

private theorem arena (h : DataRoutine env R) (f : OpenTable → ChunkArena) :
    Prog.Within R (updateTable fun t => { t with arena := f t }) :=
  h.table _ fun _ => .of_eq rfl

private theorem slot (h : DataRoutine env R) (slot : Slot) {f : OpenInode → OpenInode}
    (hf : ∀ o, (f o).ino = o.ino ∧ (f o).mtime = o.mtime ∧ (f o).dirty = o.dirty)
    (hmark : ∀ o, (f o).unlinked = o.unlinked) :
    Prog.Within R (updateTable fun t => t.updateSlot slot f) :=
  h.table _ fun _ => ⟨OpenTable.keepsSlots_modify rfl hf,
    OpenTable.adds_modify rfl (fun _ _ hj => hj) fun o ho => hmark o ▸ ho⟩

theorem freeIfIdle (h : DataRoutine env R) (slot : Slot) : Prog.Within R (Fs.freeIfIdle slot) :=
  h.table _ fun t => ⟨t.keepsSlots_freeIfIdle slot, t.adds_freeIfIdle slot⟩

theorem openSlot (h : DataRoutine env R) (slot : Slot) :
    Prog.Within R (Fs.openSlot slot) := fun s =>
  h.table (fun t => (t.openSlot slot).2) (fun t => ⟨t.keepsSlots_openSlot slot,
    OpenTable.adds_modify rfl (fun _ _ hj => hj) fun _ ho => ho⟩) s

end Steps

variable [IsPreorder Shared R]

section Flushes

theorem flushFree (h : DataRoutine env R) (slot : Slot) (unlinked : Unlinked) :
    Prog.Within R (flushSlot env slot unlinked >>= fun _ => Fs.freeIfIdle slot) :=
  .bind (h.flush slot unlinked) fun _ => h.freeIfIdle slot

private theorem flushEach (h : DataRoutine env R) (slots : List Slot) (firstError : Option Errno) :
    Prog.Within R (Fs.flushEach env slots firstError) := by
  induction slots generalizing firstError with
  | nil => exact .pure firstError
  | cons slot slots ih =>
    apply Prog.Within.bind (Prog.Within.attempt (h.flush slot .skip))
    intro r
    cases r with
    | error e => exact ih _
    | ok _ => exact .bind (h.freeIfIdle slot) fun _ => ih firstError

theorem flushAllLocked (h : DataRoutine env R) : Prog.Within R (Fs.flushAllLocked env) := by
  apply Prog.Within.bind h.order
  intro order
  exact .bind within_table fun t => h.flushEach _ none

theorem flushAll (h : DataRoutine env R) : Prog.Within R (Fs.flushAll env) :=
  .bind h.flushAllLocked h.flushAllSync

theorem flushFile (h : DataRoutine env R) (ino : Nat) : Prog.Within R (Fs.flushFile env ino) :=
  .bind within_table fun _ => within_ifSome fun slot => h.flushFree slot .skip

theorem flushFh (h : DataRoutine env R) (fh : Nat) : Prog.Within R (Fs.flushFh env fh) :=
  .bind within_table fun _ => .bind (within_orErrno _ _) fun slot => h.flush slot .skip

theorem syncFh (h : DataRoutine env R) (fh : Nat) : Prog.Within R (Fs.syncFh env fh) :=
  .bind (h.flushFh fh) fun _ => h.sync

private theorem truncateLocked (h : DataRoutine env R) (ino size : Nat) :
    Prog.Within R (Fs.truncateLocked env ino size) := by
  refine .bind within_table fun t => ?_
  refine .bind (within_ifSome fun slot => h.flush slot .persist) fun _ => ?_
  apply Prog.Within.bind_bind
  · exact h.truncate ino size
  · intro _
    refine .bind (within_ifSome fun slot => ?_) fun _ => h.record
    exact .bind (h.slot slot (fun _ => ⟨rfl, rfl, rfl⟩) fun _ => rfl) fun _ => h.freeIfIdle slot

theorem releaseFh (h : DataRoutine env R)
    (hdiscard : ∀ slot, Prog.Within R (updateTable fun t => t.discardSlot slot))
    (hdelete : ∀ ino, Prog.Within R (exec env fun db => db.deleteInode ino)) (fh : Nat) :
    Prog.Within R (Fs.releaseFh env fh) := by
  refine .bind within_table fun t => ?_
  refine .bind (within_orErrno _ _) fun closed => ?_
  refine .bind (h.table _ fun _ => .of_eq rfl) fun _ => ?_
  refine .bind (h.slot closed.1 (fun _ => ⟨rfl, rfl, rfl⟩) fun _ => rfl) fun _ => ?_
  refine .bind within_table fun t => ?_
  dsimp only
  split
  · exact .bind (hdiscard closed.1) fun _ => hdelete _
  · exact h.flushFree closed.1 .skip

end Flushes

section Writes

private theorem allocChunk (h : DataRoutine env R) (writing : Slot) (fuel : Nat) :
    Prog.Within R (Fs.allocChunk env writing fuel) := by
  induction fuel with
  | zero => exact .throw Errno.EIO
  | succ fuel ih =>
    refine .bind within_table fun t => ?_
    split
    · exact .bind (h.arena _) fun _ => .pure _
    · apply Prog.Within.bind h.order
      intro order
      refine .bind (within_orErrno _ _) fun victim => ?_
      apply Prog.Within.bind (h.flush victim .persist)
      exact fun _ => .bind (within_onlyIf (h.freeIfIdle victim)) fun _ => ih

private theorem loadChunk (h : DataRoutine env R) (ino c : Nat) (a : ArenaSlot) :
    Prog.Within R (Fs.loadChunk env ino c a) := by
  apply Prog.Within.bind (Prog.Within.attempt (h.query _))
  intro r
  split
  · exact h.arena _
  · exact .bind (h.arena _) fun _ => .throw _

theorem writeChunk (h : DataRoutine env R) {slot : Slot}
    (hindex : ∀ c a, Prog.Within R (updateTable fun t => t.updateSlot slot fun o =>
      { o with dirty := o.dirty.insert (unwrapErr (o.dirty.find c)) c a }))
    (ino : Nat) (span : ChunkSpan) (data : Bytes) (c : Nat) :
    Prog.Within R (Fs.writeChunk env slot ino span data c) := by
  have hchunk : Prog.Within R (chunkSlot env slot ino c (span.piece c)) := by
    refine .bind within_table fun t => ?_
    split
    · exact .pure _
    · apply Prog.Within.bind (h.allocChunk slot allocFuel)
      intro a
      refine .bind (within_onlyIf (h.loadChunk ino c a)) fun _ => ?_
      exact .bind (hindex c a) fun _ => .pure a
  apply Prog.Within.bind hchunk
  intro a
  refine .bind (h.arena _) fun _ => ?_
  exact .bind (h.slot slot (fun _ => ⟨rfl, rfl, rfl⟩) fun _ => rfl) fun _ => h.record

end Writes

section Calls

theorem setattr (h : DataRoutine env R) (ino : Nat) (mode uid gid : Option UInt32)
    (size : Option Nat) (atime mtime : Option SystemTime) :
    Prog.Within R (Fs.setattr env ino mode uid gid size atime mtime) := by
  refine .bind within_table fun t => ?_
  refine .bind (within_ifSome fun slot => h.flushFree slot .persist) fun _ => ?_
  refine .bind (within_ifSome fun size => h.truncateLocked ino size) fun _ => ?_
  exact .bind (h.updateMetadata ino _) fun _ => .pure _

theorem fallocateLocked (h : DataRoutine env R) (ino : Nat) (stop : Option Nat) :
    Prog.Within R (Fs.fallocateLocked env ino stop) := by
  cases stop with
  | none => exact .pure ()
  | some stop =>
    have hsize : Prog.Within R (currentSize env ino) := by
      refine .bind within_table fun t => ?_
      split
      · exact .pure _
      · exact .bind (h.query _) fun _ => .pure _
    apply Prog.Within.bind hsize
    intro size
    split
    · exact .pure ()
    · exact h.truncateLocked ino stop

theorem fallocate (h : DataRoutine env R) (ino : Nat) (offset length : Int) (mode : UInt32) :
    Prog.Within R (Fs.fallocate env ino offset length mode) :=
  .bind (h.fallocateCheck ino offset length mode) fun stop => h.fallocateLocked ino stop

end Calls

end DataRoutine

namespace Routine

variable [IsPreorder Shared R]

theorem unlinkLocked (h : Routine env R) {inode : Inode}
    (hremoved : Prog.Within R (updateTable fun t => t.entryRemoved inode)) (parent : Nat)
    (name : Name) : Prog.Within R (Fs.unlinkLocked env parent name inode) := by
  refine .bind within_table fun t => ?_
  apply Prog.Within.bind_bind
  · apply Stamped.exec h.stamped
    intro m db db' hok
    exact Db.restamps_unlinkEntry hok
  · exact fun _ => hremoved

theorem rename (h : Routine env R)
    (hremoved : ∀ target, Prog.Within R (updateTable fun t => t.entryRemoved target))
    (parent : Nat) (name : Name) (newParent : Nat) (newName : Name) (flags : UInt32) :
    Prog.Within R (Fs.rename env parent name newParent newName flags) := by
  unfold Fs.rename
  split
  · exact .throw _
  · refine .bind within_table fun t => ?_
    apply Prog.Within.bind_bind
    · apply h.stamped
      intro m db replaced db' hok
      exact Db.restamps_renameEntry hok
    · intro replaced
      cases replaced with
      | none => exact .pure ()
      | some target => exact hremoved target

end Routine

end Fs

end VibeDbfs
