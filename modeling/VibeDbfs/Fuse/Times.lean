import Mathlib.Data.List.GetD
import VibeDbfs.Fuse.Routine
import VibeDbfs.Fuse.Runs
import VibeDbfs.Open.TidyTable

/-!
Where the times come from that the state holds: a slot is stamped by a write only, with a reading of
the clock made during that write, and every time in the store fits its column.
-/

set_option autoImplicit false
set_option relaxedAutoImplicit false

namespace VibeDbfs

open Lib Lib.Bytes Shared

namespace OpenTable

variable {t t' t'' : OpenTable} {slot : Slot}

/-- Every slot of `t'` has the time it has in `t`, or none. -/
def Fades (t t' : OpenTable) : Prop :=
  ∀ j, (t'.inodes.get j).mtime = (t.inodes.get j).mtime ∨ (t'.inodes.get j).mtime = ⟨0, 0⟩

private theorem Fades.of_eq (h : t'.inodes = t.inodes) : Fades t t' := by
  intro j
  rw [h]
  exact .inl rfl

private theorem Fades.trans (h : Fades t t') (h' : Fades t' t'') : Fades t t'' := by
  intro j
  rcases h' j with hsame | hnone
  · rw [hsame]
    exact h j
  · exact .inr hnone

private theorem fades_modify {f : OpenInode → OpenInode}
    (h : t'.inodes.slots = t.inodes.slots.modify slot f)
    (hf : ∀ o, (f o).mtime = o.mtime ∨ (f o).mtime = ⟨0, 0⟩) : Fades t t' := by
  intro j
  rcases get_modify h j with hsame | ⟨-, hchanged⟩
  · rw [hsame]
    exact .inl rfl
  · rw [hchanged]
    exact hf _

private theorem Fades.of_keepsSlots (h : KeepsSlots t t') : Fades t t' := fun j => .inl (h j).2.1

private theorem fades_releaseDirty (t : OpenTable) (slot : Slot) : Fades t (t.releaseDirty slot) :=
  fades_modify rfl fun _ => .inl rfl

private theorem fades_discardSlot (t : OpenTable) (slot : Slot) : Fades t (t.discardSlot slot) := by
  have hremoved : Fades (t.releaseDirty slot) (t.discardSlot slot) :=
    fades_modify rfl fun _ => .inl rfl
  exact (fades_releaseDirty t slot).trans hremoved

private theorem fades_entryRemoved (t : OpenTable) (target : Inode) :
    Fades t (t.entryRemoved target) := by
  unfold entryRemoved
  split
  · exact .of_eq rfl
  · split
    · exact .of_eq rfl
    · split
      · exact .of_keepsSlots (keepsSlots_modify rfl fun _ => ⟨rfl, rfl, rfl⟩)
      · exact fades_discardSlot _ _

private theorem fades_insert (t : OpenTable) (ino size : Nat) (kind : FileKind) :
    Fades t { t with inodes := (t.inodes.insert ino kind size).2 } := by
  rcases hfree : t.inodes.free with _ | ⟨slot, free⟩
  · intro j
    rw [OpenInodes.insert, hfree]
    change (List.getD (t.inodes.slots ++ [_]) j _).mtime = (t.inodes.slots.getD j _).mtime ∨ _
    by_cases hlt : j < t.inodes.slots.length
    · left
      rw [List.getD_append _ _ _ _ hlt]
    · right
      change (List.getD (t.inodes.slots ++ [_]) j _).mtime = _
      rw [List.getD_append_right _ _ _ _ (Nat.le_of_not_lt hlt)]
      rcases j - t.inodes.slots.length with _ | k
      · rfl
      · rfl
  · have hslots : (t.inodes.insert ino kind size).2.slots = t.inodes.slots.modify slot fun o =>
        { o with
          ino := ino, kind := kind, size := size, mtime := ⟨0, 0⟩, refs := 0
          unlinked := false } := by
      rw [OpenInodes.insert, hfree]
    exact fades_modify hslots fun _ => .inr rfl

end OpenTable

namespace Shared

/-- Every time in the store, now and at each moment so far, fits its column. -/
def Timed (s : Shared) : Prop := s.db.Timed ∧ ∀ m ∈ s.moments, m.db.Timed

/-- From `s` to `s'` slots are stamped with readings of the clock in between, if at all, and only
where `stamps` holds. -/
structure Ages (env : Env) (stamps : Prop) (s s' : Shared) : Prop where
  tick : s.tick ≤ s'.tick
  slots : ∀ j, (s'.table.inodes.get j).mtime = (s.table.inodes.get j).mtime ∨
    (s'.table.inodes.get j).mtime = ⟨0, 0⟩ ∨ stamps ∧ ∃ n, s.tick ≤ n ∧ n < s'.tick ∧
      (s'.table.inodes.get j).mtime = .fromSystemTime (env.clock n)
  timed : s.Timed → s'.Timed

variable {env : Env} {stamps : Prop} {s s' s'' : Shared}

private theorem Ages.trans (h : Ages env stamps s s') (h' : Ages env stamps s' s'') :
    Ages env stamps s s'' := by
  refine ⟨h.tick.trans h'.tick, fun j => ?_, fun htimed => h'.timed (h.timed htimed)⟩
  rcases h'.slots j with hsame | hnone | ⟨hstamps, n, hfirst, hlast, hstamped⟩
  · rw [hsame]
    rcases h.slots j with hsame | hnone | ⟨hstamps, n, hfirst, hlast, hstamped⟩
    · exact .inl hsame
    · exact .inr (.inl hnone)
    · exact .inr (.inr ⟨hstamps, n, hfirst, hlast.trans_le h'.tick, hstamped⟩)
  · exact .inr (.inl hnone)
  · exact .inr (.inr ⟨hstamps, n, h.tick.trans hfirst, hlast, hstamped⟩)

instance : IsPreorder Shared (Ages env stamps) where
  refl _ := ⟨Nat.le_refl _, fun _ => .inl rfl, id⟩
  trans _ _ _ := Ages.trans

private theorem Ages.of_fades (htick : s.tick ≤ s'.tick) (htable : s.table.Fades s'.table)
    (htimed : s.Timed → s'.Timed) : Ages env stamps s s' :=
  ⟨htick, fun j => (htable j).imp_right .inl, htimed⟩

private theorem Ages.of_table (hdb : s'.db = s.db) (hmoments : s'.moments = s.moments)
    (htick : s'.tick = s.tick) (htable : s.table.Fades s'.table) : Ages env stamps s s' := by
  apply Ages.of_fades htick.ge htable
  rw [Timed, Timed, hdb, hmoments]
  exact id

end Shared

namespace Fs

variable {α : Type} {env : Env} {stamps : Prop}

section Steps

private theorem ages_access {f : Db → Except DbError (α × Db)}
    (hf : ∀ db a db', f db = .ok (a, db') → db.KeepsTimes db') :
    Prog.Within (Ages env stamps) (access env f) := by
  intro s
  change Prog.wp (access env f) (fun _ s' => Ages env stamps s s') s
  apply wp_access
  · intro failure _
    exact .of_fades (Nat.le_succ _) (.of_eq rfl) id
  · intro error _
    exact .of_fades (Nat.le_succ _) (.of_eq rfl) id
  · intro a db hok
    exact .of_fades (Nat.le_succ _) (.of_eq rfl) fun h => ⟨hf _ _ _ hok h.1, h.2⟩

private theorem ages_exec {f : Db → Except DbError Db}
    (hf : ∀ db db', f db = .ok db' → db.KeepsTimes db') :
    Prog.Within (Ages env stamps) (exec env f) := by
  apply ages_access
  intro db a db' hok
  rcases hrun : f db with e | db''
  · rw [hrun] at hok
    cases hok
  · rw [hrun] at hok
    cases hok
    exact hf _ _ hrun

private theorem ages_now : Prog.Within (Ages env stamps) (now env) := fun _ =>
  .of_fades (Nat.le_succ _) (.of_eq rfl) id

private theorem ages_record (s : Shared) (saves : Nat → Bool) :
    Ages env stamps s (s.record saves) := by
  refine .of_fades (Nat.le_refl s.tick) (.of_eq rfl) fun h => ⟨h.1, fun m hm => ?_⟩
  rcases List.mem_cons.mp hm with rfl | hm
  · exact h.1
  · exact h.2 m hm

private theorem ages_updateTable {f : OpenTable → OpenTable} (hf : ∀ t, OpenTable.Fades t (f t)) :
    Prog.Within (Ages env stamps) (updateTable f) := fun s => .of_table rfl rfl rfl (hf s.table)

end Steps

section Slots

private theorem ages_flushSlot (slot : Slot) (unlinked : Unlinked) :
    Prog.Within (Ages env stamps) (flushSlot env slot unlinked) := by
  refine .bind within_table fun t => ?_
  dsimp only
  split
  · exact .pure ()
  · apply Prog.Within.bind (ages_exec fun _ _ hok => (Db.restamps_replaceChunks hok).keepsTimes)
    intro _
    apply Prog.Within.bind (ages_updateTable fun t => t.fades_releaseDirty slot)
    exact fun _ s => ages_record s _

private theorem ages_routine (env : Env) (stamps : Prop) : Routine env (Ages env stamps) where
  query f := by
    apply ages_access
    intro db a db' hok
    exact .of_eq (by rw [(query_eq_ok hok).2])
  stamped f hf := by
    apply Prog.Within.bind ages_now
    intro modified
    apply ages_access
    intro db a db' hok
    exact (hf modified db a db' hok).keepsTimes
  order _ := .of_fades (Nat.le_succ _) (.of_eq rfl) id
  sync := by
    apply within_syncDurable
    · intro s
      exact .of_fades (Nat.le_succ _) (.of_eq rfl) id
    · intro s
      exact .of_fades (Nat.le_succ _) (.of_eq rfl) id
  record s := ages_record s _
  flush := ages_flushSlot
  table f hf := ages_updateTable fun t => .of_keepsSlots (hf t).keeps

private theorem ages_slotFor (ino : Nat) : Prog.Within (Ages env stamps) (slotFor env ino) := by
  intro s
  change Prog.wp (slotFor env ino) (fun _ s' => Ages env stamps s s') s
  rw [slotFor, wp_table_bind]
  rcases s.table.inodes.find ino with _ | slot
  · rw [Prog.wp_bind_iff]
    apply wp_query
    · intro failure _
      exact .of_fades (Nat.le_succ _) (.of_eq rfl) id
    · intro error _
      exact .of_fades (Nat.le_succ _) (.of_eq rfl) id
    · intro head _
      exact .of_fades (Nat.le_succ _) (s.table.fades_insert ino head.2 head.1) id
  · exact refl_of _ s

private theorem ages_writeChunk (slot : Slot) (ino : Nat) (span : ChunkSpan)
    (data : Bytes) (c : Nat) :
    Prog.Within (Ages env stamps) (writeChunk env slot ino span data c) := by
  apply (ages_routine env stamps).writeChunk
  intro c a
  exact ages_updateTable fun t => OpenTable.fades_modify rfl fun _ => .inl rfl

private theorem ages_stamp (slot : Slot) {x : Fs α} (hx : Prog.Within (Ages env True) x) :
    Prog.Within (Ages env True) (now env >>= fun modified =>
      updateTable (fun t => t.updateSlot slot fun o => { o with mtime := modified }) >>= fun _ =>
        x) := by
  intro s
  let stamped : Shared := { s with
    tick := s.tick + 1
    table := s.table.updateSlot slot fun o =>
      { o with mtime := .fromSystemTime (env.clock s.tick) } }
  have hstamped : Ages env True s stamped := by
    refine ⟨Nat.le_succ _, fun j => ?_, id⟩
    have hslots : stamped.table.inodes.slots = s.table.inodes.slots.modify slot fun o =>
      { o with mtime := .fromSystemTime (env.clock s.tick) } := rfl
    rcases OpenTable.get_modify hslots j with hsame | ⟨-, hset⟩
    · rw [hsame]
      exact .inl rfl
    · rw [hset]
      exact .inr (.inr ⟨trivial, s.tick, Nat.le_refl _, Nat.lt_succ_self _, rfl⟩)
  exact hstamped.trans (hx stamped)

private theorem ages_writeSlot (slot : Slot) (offset : Nat) (data : Bytes) :
    Prog.Within (Ages env True) (writeSlot env slot offset data) := by
  refine .bind within_table fun t => ?_
  refine .bind (within_errnoOfKind _) fun _ => ?_
  split
  · exact .throw _
  · split
    · exact .pure 0
    · split
      · exact .throw _
      · exact ages_stamp slot (.bind (.each (ages_writeChunk slot _ _ data) _) fun _ => .pure _)

private theorem ages_releaseFh (fh : Nat) : Prog.Within (Ages env stamps) (releaseFh env fh) := by
  apply (ages_routine env stamps).releaseFh
  · intro slot
    exact ages_updateTable fun t => t.fades_discardSlot slot
  · intro ino
    apply ages_exec
    rintro db db' ⟨⟩
    exact Db.keepsTimes_deleteInodeRows

end Slots

section Calls

private theorem ages_write (ino offset : Nat) (data : Bytes) :
    Prog.Within (Ages env True) (write env ino offset data) := by
  unfold write
  split
  · exact .pure 0
  · apply Prog.Within.bind (ages_slotFor ino)
    intro slot
    apply Prog.Within.bind (Prog.Within.attempt (ages_writeSlot slot offset data))
    intro result
    apply Prog.Within.bind ((ages_routine env True).freeIfIdle slot)
    intro _
    cases result with
    | ok a => exact .pure a
    | error e => exact .throw e

private theorem ages_entryRemoved (target : Inode) :
    Prog.Within (Ages env stamps) (updateTable fun t => t.entryRemoved target) :=
  ages_updateTable fun t => t.fades_entryRemoved target

private theorem ages_createOpen (parent : Nat) (name : Name) (mode umask uid gid : UInt32) :
    Prog.Within (Ages env stamps) (createOpen env parent name mode umask uid gid) := by
  apply Prog.Within.bind ((ages_routine env stamps).createNode parent name _ uid gid)
  intro attr s
  have hinserted := s.table.fades_insert attr.ino 0 .regularFile
  exact .of_table rfl rfl rfl (hinserted.trans (.of_keepsSlots (OpenTable.keepsSlots_openSlot _ _)))

end Calls

end Fs

namespace Dbfs

def Stamps : Call → Prop
  | .write .. => True
  | .writeFh .. => True
  | _ => False

private theorem call_ages (env : Env) (c : Call) :
    Prog.Within (Ages env (Stamps c)) (call env c) := by
  have h := Fs.ages_routine env (Stamps c)
  cases c with
  | getattr ino => exact .map _ (.bind (h.getattrRow ino) fun _ => Fs.within_overlayAttr _)
  | lookup parent name =>
    exact .map _ (.bind (h.lookupRow parent name) fun _ => Fs.within_overlayAttr _)
  | mkdir parent name mode umask uid gid => exact .map _ (h.createNode parent name _ uid gid)
  | create parent name mode umask uid gid => exact .map _ (h.createNode parent name _ uid gid)
  | symlink parent name target uid gid => exact .map _ (h.createNode parent name _ uid gid)
  | link ino newParent newName => exact .map _ (h.link ino newParent newName)
  | setattr ino mode uid gid size atime mtime =>
    exact .map _ (h.setattr ino mode uid gid size atime mtime)
  | openFile ino => exact .map _ (.bind (Fs.ages_slotFor ino) h.openSlot)
  | read ino offset size => exact .map _ (h.read ino offset size)
  | readFh fh offset size => exact .map _ (h.readFh fh offset size)
  | write ino offset data => exact .map _ (Fs.ages_write ino offset data)
  | writeFh fh offset data =>
    apply Prog.Within.map
    refine .bind Fs.within_table fun t => ?_
    exact .bind (Fs.within_orErrno _ _) fun slot => Fs.ages_writeSlot slot offset data
  | fallocate ino offset length mode => exact .map _ (h.fallocate ino offset length mode)
  | flushFile ino => exact .map _ (h.flushFile ino)
  | flushFh fh => exact .map _ (h.flushFh fh)
  | syncFh fh => exact .map _ (h.syncFh fh)
  | flushAll => exact .map _ h.flushAll
  | releaseFile fh => exact .map _ (Fs.ages_releaseFh fh)
  | unlink parent name =>
    apply Prog.Within.map
    apply Prog.Within.bind (h.query _)
    exact fun inode => h.unlinkLocked (Fs.ages_entryRemoved inode) parent name
  | rmdir parent name => exact .map _ (h.rmdir parent name)
  | rename parent name newParent newName flags =>
    exact .map _ (h.rename Fs.ages_entryRemoved parent name newParent newName flags)
  | createOpen parent name mode umask uid gid =>
    exact .map _ (Fs.ages_createOpen parent name mode umask uid gid)

private theorem step_ages (env : Env) (s : Shared) (c : Call) :
    Ages env (Stamps c) s (step env s c) :=
  (call_ages env c s).trans (Fs.ages_record _ _)

/-- After any run from a store whose times fit, all times fit. -/
theorem timed_run {env : Env} {s : Shared} (h : s.Timed) (calls : List Call) :
    (run env s calls).Timed := by
  induction calls generalizing s with
  | nil => exact h
  | cons c calls ih => exact ih ((step_ages env s c).timed h)

end Dbfs

theorem Shared.Timed.withWriteBuffer {db : Db} (h : db.Timed) (writeBuffer : Nat) :
    (Shared.withWriteBuffer db writeBuffer).Timed := by
  refine ⟨h, fun m hm => ?_⟩
  rw [List.mem_singleton.mp hm]
  exact h

theorem Db.Reached.timed {db : Db} (h : db.Reached) : db.Timed := by
  induction h with
  | fresh mountUid mountGid now => exact Db.Timed.fresh mountUid mountGid now
  | store call _ _ ih => exact ih.step call
  | crash writeBuffer env calls m _ _ hm ih =>
    exact (Dbfs.timed_run (.withWriteBuffer ih writeBuffer) calls).2 m hm

def Timestamp.Exact (t : Timestamp) : Prop := (fromNs t.toNs).toSystemTime = t.toSystemTime

namespace Timestamp

private theorem exact_zero : Exact ⟨0, 0⟩ := rfl

theorem exact_fromSystemTime {time : SystemTime} (hlo : 0 ≤ time) (hhi : time ≤ i64Max) :
    Exact (fromSystemTime time) := by
  have hloaded : (fromNs (fromSystemTime time).toNs).toSystemTime = clamp (stripped time) :=
    load_store time
  have hshown : (fromSystemTime time).toSystemTime = stripped time := by
    rw [fromSystemTime_eq, toSystemTime_eq, signed_fromNs]
  have hlow : i64Min ≤ time := le_trans (by decide) hlo
  rw [Exact, hloaded, hshown, stripped_of_nonneg hlo, clamp_of_range hlow hhi]

end Timestamp

namespace Dbfs

/-- The clock of a write lies between the epoch and the end of the column. -/
def WritesInRange (env : Env) (s : Shared) (c : Call) : Prop :=
  Stamps c → ∀ n, s.tick ≤ n → n < (step env s c).tick → 0 ≤ env.clock n ∧ env.clock n ≤ i64Max

/-- A run whose writes all have their clock in range. -/
def TimelyCalls (env : Env) (s : Shared) (calls : List Call) : Prop :=
  LegalRun (step env) (WritesInRange env) s calls

def Exact (s : Shared) : Prop := ∀ j, (s.table.inodes.get j).mtime.Exact

theorem Exact.step {env : Env} {s : Shared} {c : Call} (h : Exact s) (hc : WritesInRange env s c) :
    Exact (step env s c) := by
  intro j
  rcases (step_ages env s c).slots j with hsame | hnone | ⟨hstamps, n, hfirst, hlast, hstamped⟩
  · rw [hsame]
    exact h j
  · rw [hnone]
    exact Timestamp.exact_zero
  · rw [hstamped]
    obtain ⟨hlo, hhi⟩ := hc hstamps n hfirst hlast
    exact Timestamp.exact_fromSystemTime hlo hhi

theorem exact_withWriteBuffer (db : Db) (writeBuffer : Nat) :
    Exact (.withWriteBuffer db writeBuffer) := fun _ => Timestamp.exact_zero

theorem exact_of_run {env : Env} {db : Db} {writeBuffer : Nat} {calls : List Call}
    (h : TimelyCalls env (.withWriteBuffer db writeBuffer) calls) :
    Exact (run env (.withWriteBuffer db writeBuffer) calls) :=
  runFrom_induction (fun _ _ hc hs => hs.step hc) (exact_withWriteBuffer db writeBuffer) h

end Dbfs

end VibeDbfs
