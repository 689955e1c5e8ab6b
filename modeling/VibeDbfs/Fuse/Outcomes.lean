import VibeDbfs.Fuse.Routine
import VibeDbfs.Fuse.Sections

/-!
No call touches the recorded outcome of a shutdown flush. Only the thread that recorded it does.
-/

set_option autoImplicit false
set_option relaxedAutoImplicit false

namespace VibeDbfs

open Lib Lib.Bytes

/-- The recorded outcome is the same in `s` and `s'`. -/
def Shared.SameOutcome (s s' : Shared) : Prop := s'.lastFlush = s.lastFlush

namespace Shared

instance : IsPreorder Shared SameOutcome where
  refl _ := rfl
  trans _ _ _ h h' := h'.trans h

end Shared

namespace Fs

open Shared

variable {α : Type} {env : Env}

section Primitives

private theorem outcome_access (f : Db → Except DbError (α × Db)) :
    Prog.Within SameOutcome (access env f) := by
  intro s
  unfold access
  dsimp only
  split
  · rfl
  · split
    · rfl
    · rfl

private theorem outcome_now : Prog.Within SameOutcome (now env) := fun _ => rfl

private theorem outcome_record : Prog.Within SameOutcome record := fun _ => rfl

private theorem outcome_updateTable (f : OpenTable → OpenTable) :
    Prog.Within SameOutcome (updateTable f) := fun _ => rfl

private theorem outcome_openSlot (slot : Slot) :
    Prog.Within SameOutcome (openSlot slot) := fun _ => rfl

private theorem outcome_syncDurable : Prog.Within SameOutcome (syncDurable env) := by
  apply within_syncDurable
  · intro s
    rfl
  · intro s
    rfl

end Primitives

section Slots

theorem outcome_flushSlot (slot : Slot) (unlinked : Unlinked) :
    Prog.Within SameOutcome (flushSlot env slot unlinked) := by
  refine .bind within_table fun t => ?_
  dsimp only
  split
  · exact .pure ()
  · refine .bind (outcome_access _) fun _ => ?_
    exact .bind (outcome_updateTable _) fun _ => outcome_record

theorem outcome_routine (env : Env) : Routine env SameOutcome where
  query _ := outcome_access _
  stamped _ _ := .bind outcome_now fun _ => outcome_access _
  order _ := rfl
  sync := outcome_syncDurable
  record := outcome_record
  flush := outcome_flushSlot
  table _ _ := outcome_updateTable _

private theorem outcome_slotFor (ino : Nat) : Prog.Within SameOutcome (slotFor env ino) := by
  refine .bind within_table fun t => ?_
  split
  · exact .pure _
  · refine .bind (outcome_access _) fun head => ?_
    exact .bind (outcome_updateTable _) fun _ => .pure _

private theorem outcome_writeSlot (slot : Slot) (offset : Nat) (data : Bytes) :
    Prog.Within SameOutcome (writeSlot env slot offset data) := by
  refine .bind within_table fun t => ?_
  refine .bind (within_errnoOfKind _) fun _ => ?_
  split
  · exact .throw _
  · split
    · exact .pure 0
    · split
      · exact .throw _
      · refine .bind outcome_now fun modified => ?_
        refine .bind (outcome_updateTable _) fun _ => ?_
        refine .bind (.each (fun c => ?_) _) fun _ => .pure _
        exact (outcome_routine env).writeChunk (fun _ _ => outcome_updateTable _) _ _ data c

end Slots

section Calls

private theorem outcome_write (ino offset : Nat) (data : Bytes) :
    Prog.Within SameOutcome (write env ino offset data) := by
  unfold write
  split
  · exact .pure 0
  · refine .bind (outcome_slotFor ino) fun slot => ?_
    refine .bind (.attempt (outcome_writeSlot slot offset data)) fun result => ?_
    refine .bind ((outcome_routine env).freeIfIdle slot) fun _ => ?_
    cases result with
    | ok a => exact .pure a
    | error e => exact .throw e

private theorem outcome_createOpenLocked (attr : FileAttr) :
    Prog.Within SameOutcome (createOpenLocked attr) := by
  refine .bind within_table fun t => ?_
  dsimp only
  refine .bind (outcome_updateTable _) fun _ => ?_
  exact .bind (outcome_openSlot _) fun _ => .pure _

end Calls

end Fs

namespace Dbfs

open Shared

variable {env : Env}

theorem firstSection_outcome (env : Env) (c : Call) :
    Prog.Within SameOutcome (firstSection env c) := by
  have h := Fs.outcome_routine env
  cases c with
  | getattr ino => exact .map _ (h.getattrRow ino)
  | lookup parent name => exact .map _ (h.lookupRow parent name)
  | mkdir parent name mode umask uid gid =>
    exact .map _ (.map _ (h.createNode parent name _ uid gid))
  | create parent name mode umask uid gid =>
    exact .map _ (.map _ (h.createNode parent name _ uid gid))
  | symlink parent name target uid gid =>
    exact .map _ (.map _ (h.createNode parent name _ uid gid))
  | link ino newParent newName => exact .map _ (.map _ (h.link ino newParent newName))
  | setattr ino mode uid gid size atime mtime =>
    exact .map _ (.map _ (h.setattr ino mode uid gid size atime mtime))
  | openFile ino => exact .map _ (.map _ (.bind (Fs.outcome_slotFor ino) h.openSlot))
  | read ino offset size => exact .map _ (h.readLocked ino offset size)
  | readFh fh offset size => exact .map _ (.map _ (h.readFh fh offset size))
  | write ino offset data => exact .map _ (.map _ (Fs.outcome_write ino offset data))
  | writeFh fh offset data =>
    refine .map _ (.map _ (.bind Fs.within_table fun t => ?_))
    exact .bind (Fs.within_orErrno _ _) fun slot => Fs.outcome_writeSlot slot offset data
  | fallocate ino offset length mode => exact .map _ (h.fallocateCheck ino offset length mode)
  | flushFile ino => exact .map _ (.map _ (h.flushFile ino))
  | flushFh fh => exact .map _ (.map _ (h.flushFh fh))
  | syncFh fh => exact .map _ (h.flushFh fh)
  | flushAll => exact .map _ h.flushAllLocked
  | releaseFile fh =>
    apply Prog.Within.map
    apply Prog.Within.map
    apply h.releaseFh
    · exact fun _ => Fs.outcome_updateTable _
    · exact fun _ => Fs.outcome_access _
  | unlink parent name => exact .map _ (h.query _)
  | rmdir parent name => exact .map _ (.map _ (h.rmdir parent name))
  | rename parent name newParent newName flags =>
    apply Prog.Within.map
    apply Prog.Within.map
    exact h.rename (fun _ => Fs.outcome_updateTable _) parent name newParent newName flags
  | createOpen parent name mode umask uid gid =>
    exact .map _ (h.createNode parent name _ uid gid)

theorem lastSection_outcome (env : Env) (rest : Rest) :
    Prog.Within SameOutcome (lastSection env rest) := by
  have h := Fs.outcome_routine env
  cases rest with
  | done reply => exact .pure reply
  | overlay attr => exact .map _ (Fs.within_overlayAttr attr)
  | stored ino offset size => exact .map _ (h.query _)
  | allocate ino stop => exact .map _ (h.fallocateLocked ino stop)
  | remove parent name inode =>
    exact .map _ (h.unlinkLocked (Fs.outcome_updateTable _) parent name)
  | insert attr => exact .map _ (Fs.outcome_createOpenLocked attr)
  | sync => exact .map _ h.sync
  | syncAll firstError => exact .map _ (h.flushAllSync firstError)

end Dbfs

end VibeDbfs
