import VibeDbfs.Fuse.Routine

/-!
What the functions of the file system do to the store, by the methods that they use. A relation
between stores that these methods keep is kept by the functions, whatever the table does.
-/

set_option autoImplicit false
set_option relaxedAutoImplicit false

namespace VibeDbfs

open Lib Lib.Bytes

/-- The methods of the store that flushes, truncates and the last release use stay in `P`. -/
structure Db.Footprint (P : Db → Db → Prop) : Prop where
  replaceChunks : ∀ {db db' : Db} {ino size : Nat} {chunks : List (Nat × Bytes)} {now : Timestamp},
    db.replaceChunks ino size chunks now = .ok db' → P db db'
  truncateFile : ∀ {db db' : Db} {ino size : Nat} {now : Timestamp},
    db.truncateFile ino size now = .ok db' → P db db'
  deleteInodeRows : ∀ (db : Db) (ino : Nat), P db (db.deleteInodeRows ino)

/-- From `s` to `s'` the store changes within `P`. -/
def Shared.OnStore (P : Db → Db → Prop) (s s' : Shared) : Prop := P s.db s'.db

variable {P : Db → Db → Prop}

instance [IsPreorder Db P] : IsPreorder Shared (Shared.OnStore P) where
  refl s := refl_of P s.db
  trans _ _ _ h h' := trans_of P h h'

namespace Fs

open Shared

variable [IsPreorder Db P] {α : Type} {env : Env}

section Steps

theorem onStore_access {f : Db → Except DbError (α × Db)}
    (hf : ∀ db a db', f db = .ok (a, db') → P db db') :
    Prog.Within (OnStore P) (access env f) := by
  intro s
  change Prog.wp (access env f) (fun _ s' => OnStore P s s') s
  apply wp_access
  · intro failure _
    exact refl_of P s.db
  · intro error _
    exact refl_of P s.db
  · intro a db hok
    exact hf _ _ _ hok

theorem onStore_query (f : Db → Except DbError α) : Prog.Within (OnStore P) (query env f) := by
  apply onStore_access
  intro db a db' hok
  rw [(query_eq_ok hok).2]
  exact refl_of P db

theorem onStore_exec {f : Db → Except DbError Db} (hf : ∀ db db', f db = .ok db' → P db db') :
    Prog.Within (OnStore P) (exec env f) :=
  onStore_access fun db _ db' hok => hf db db' (exec_eq_ok hok)

theorem onStore_updateTable (f : OpenTable → OpenTable) :
    Prog.Within (OnStore P) (updateTable f) := fun s => refl_of P s.db

private theorem onStore_freeIfIdle (slot : Slot) : Prog.Within (OnStore P) (freeIfIdle slot) :=
  onStore_updateTable _

theorem onStore_now : Prog.Within (OnStore P) (now env) := fun s => refl_of P s.db

private theorem onStore_order : Prog.Within (OnStore P) (order env) := fun s => refl_of P s.db

private theorem onStore_record : Prog.Within (OnStore P) record := fun s => refl_of P s.db

private theorem onStore_sync : Prog.Within (OnStore P) (syncDurable env) :=
  within_syncDurable (fun s => refl_of P s.db) fun s => refl_of P s.db

theorem onStore_openSlot (slot : Slot) : Prog.Within (OnStore P) (openSlot slot) := fun s =>
  refl_of P s.db

end Steps

section Reading

theorem onStore_slotFor (ino : Nat) : Prog.Within (OnStore P) (slotFor env ino) := by
  refine .bind within_table fun t => ?_
  split
  · exact .pure _
  · exact .bind (onStore_query _) fun _ => .bind (onStore_updateTable _) fun _ => .pure _

private theorem onStore_readSlot (slot : Slot) (offset size : Nat) :
    Prog.Within (OnStore P) (readSlot env slot offset size) := by
  refine .bind within_table fun t => ?_
  refine .bind (within_errnoOfKind _) fun _ => ?_
  split
  · exact .pure []
  · exact .bind (onStore_query _) fun _ => .pure _

theorem onStore_read (ino offset size : Nat) :
    Prog.Within (OnStore P) (read env ino offset size) := by
  have hlocked : Prog.Within (OnStore P) (readLocked env ino offset size) := by
    refine .bind within_table fun t => ?_
    split
    · exact .map _ (onStore_readSlot _ offset size)
    · exact .pure none
  apply Prog.Within.bind hlocked
  intro data
  cases data with
  | none => exact onStore_query _
  | some data => exact .pure data

theorem onStore_readFh (fh offset size : Nat) :
    Prog.Within (OnStore P) (readFh env fh offset size) :=
  .bind within_table fun _ => .bind (within_orErrno _ _) fun slot =>
    onStore_readSlot slot offset size

private theorem onStore_fallocateCheck (ino : Nat) (offset length : Int) (mode : UInt32) :
    Prog.Within (OnStore P) (fallocateCheck env ino offset length mode) := by
  unfold fallocateCheck
  split
  · exact .throw _
  · split
    · exact .throw _
    · apply Prog.Within.bind (onStore_query _)
      intro kind
      dsimp only
      split_ifs
      · exact .throw _
      · exact .throw _
      · exact .throw _
      · exact .pure none
      · exact .pure _

private theorem onStore_currentSize (ino : Nat) :
    Prog.Within (OnStore P) (currentSize env ino) := by
  refine .bind within_table fun t => ?_
  split
  · exact .pure _
  · exact .bind (onStore_query _) fun _ => .pure _

end Reading

end Fs

namespace Db.Footprint

open Shared Fs

variable [IsPreorder Db P] {env : Env} (h : Db.Footprint P)

include h

section Flushes

private theorem flushSlot (slot : Slot) (unlinked : Unlinked) :
    Prog.Within (OnStore P) (Fs.flushSlot env slot unlinked) := by
  refine .bind within_table fun t => ?_
  dsimp only
  split
  · exact .pure ()
  · refine .bind (onStore_exec ?_) fun _ => .bind (onStore_updateTable _) fun _ => onStore_record
    exact fun _ _ hok => h.replaceChunks hok

theorem flushFree (slot : Slot) (unlinked : Unlinked) :
    Prog.Within (OnStore P) (Fs.flushSlot env slot unlinked >>= fun _ => freeIfIdle slot) :=
  .bind (h.flushSlot slot unlinked) fun _ => onStore_freeIfIdle slot

private theorem flushEach (slots : List Slot) (firstError : Option Errno) :
    Prog.Within (OnStore P) (Fs.flushEach env slots firstError) := by
  induction slots generalizing firstError with
  | nil => exact .pure firstError
  | cons slot slots ih =>
    apply Prog.Within.bind (Prog.Within.attempt (h.flushSlot slot .skip))
    intro r
    cases r with
    | error e => exact ih _
    | ok _ => exact .bind (onStore_freeIfIdle slot) fun _ => ih firstError

theorem flushAll : Prog.Within (OnStore P) (Fs.flushAll env) := by
  have hlocked : Prog.Within (OnStore P) (flushAllLocked env) :=
    .bind onStore_order fun _ => .bind within_table fun t => h.flushEach _ none
  refine .bind hlocked fun firstError => ?_
  apply Prog.Within.bind (Prog.Within.attempt onStore_sync)
  intro synced
  split
  · exact .throw _
  · exact .throw _
  · exact .pure ()

theorem flushFile (ino : Nat) : Prog.Within (OnStore P) (Fs.flushFile env ino) :=
  .bind within_table fun _ => within_ifSome fun slot => h.flushFree slot .skip

theorem flushFh (fh : Nat) : Prog.Within (OnStore P) (Fs.flushFh env fh) :=
  .bind within_table fun _ => .bind (within_orErrno _ _) fun slot => h.flushSlot slot .skip

theorem syncFh (fh : Nat) : Prog.Within (OnStore P) (Fs.syncFh env fh) :=
  .bind (h.flushFh fh) fun _ => onStore_sync

theorem truncateLocked (ino size : Nat) :
    Prog.Within (OnStore P) (Fs.truncateLocked env ino size) := by
  refine .bind within_table fun t => ?_
  refine .bind (within_ifSome fun slot => h.flushSlot slot .persist) fun _ => ?_
  refine .bind onStore_now fun modified => ?_
  refine .bind (onStore_exec ?_) fun _ => .bind (within_ifSome fun slot => ?_) fun _ =>
    onStore_record
  · exact fun _ _ hok => h.truncateFile hok
  · exact .bind (onStore_updateTable _) fun _ => onStore_freeIfIdle slot

theorem releaseFh (fh : Nat) : Prog.Within (OnStore P) (Fs.releaseFh env fh) := by
  refine .bind within_table fun t => ?_
  refine .bind (within_orErrno _ _) fun closed => ?_
  refine .bind (onStore_updateTable _) fun _ => .bind (onStore_updateTable _) fun _ => ?_
  refine .bind within_table fun t => ?_
  dsimp only
  split
  · apply Prog.Within.bind (onStore_updateTable _)
    intro _
    apply onStore_exec
    rintro db db' ⟨⟩
    exact h.deleteInodeRows db _
  · exact h.flushFree closed.1 .skip

end Flushes

section Writes

private theorem allocChunk (writing : Slot) (fuel : Nat) :
    Prog.Within (OnStore P) (Fs.allocChunk env writing fuel) := by
  induction fuel with
  | zero => exact .throw Errno.EIO
  | succ fuel ih =>
    refine .bind within_table fun t => ?_
    split
    · exact .bind (onStore_updateTable _) fun _ => .pure _
    · refine .bind onStore_order fun order => ?_
      refine .bind (within_orErrno _ _) fun victim => ?_
      apply Prog.Within.bind (h.flushSlot victim .persist)
      exact fun _ => .bind (within_onlyIf (onStore_freeIfIdle victim)) fun _ => ih

private theorem writeChunk (slot : Slot) (ino : Nat) (span : ChunkSpan) (data : Bytes) (c : Nat) :
    Prog.Within (OnStore P) (Fs.writeChunk env slot ino span data c) := by
  have hload : ∀ a, Prog.Within (OnStore P) (loadChunk env ino c a) := by
    intro a
    apply Prog.Within.bind (Prog.Within.attempt (onStore_query _))
    intro r
    split
    · exact onStore_updateTable _
    · exact .bind (onStore_updateTable _) fun _ => .throw _
  have hchunk : Prog.Within (OnStore P) (chunkSlot env slot ino c (span.piece c)) := by
    refine .bind within_table fun t => ?_
    split
    · exact .pure _
    · apply Prog.Within.bind (h.allocChunk slot allocFuel)
      intro a
      refine .bind (within_onlyIf (hload a)) fun _ => ?_
      exact .bind (onStore_updateTable _) fun _ => .pure a
  apply Prog.Within.bind hchunk
  intro a
  refine .bind (onStore_updateTable _) fun _ => ?_
  exact .bind (onStore_updateTable _) fun _ => onStore_record

private theorem writeSlot (slot : Slot) (offset : Nat) (data : Bytes) :
    Prog.Within (OnStore P) (Fs.writeSlot env slot offset data) := by
  refine .bind within_table fun t => ?_
  refine .bind (within_errnoOfKind _) fun _ => ?_
  split
  · exact .throw _
  · split
    · exact .pure 0
    · split
      · exact .throw _
      · refine .bind onStore_now fun modified => .bind (onStore_updateTable _) fun _ => ?_
        exact .bind (.each (h.writeChunk slot _ _ data) _) fun _ => .pure _

theorem write (ino offset : Nat) (data : Bytes) :
    Prog.Within (OnStore P) (Fs.write env ino offset data) := by
  unfold Fs.write
  split
  · exact .pure 0
  · apply Prog.Within.bind (onStore_slotFor ino)
    intro slot
    apply Prog.Within.bind (Prog.Within.attempt (h.writeSlot slot offset data))
    intro result
    apply Prog.Within.bind (onStore_freeIfIdle slot)
    intro _
    cases result with
    | ok a => exact .pure a
    | error e => exact .throw e

theorem writeFh (fh offset : Nat) (data : Bytes) :
    Prog.Within (OnStore P) (Fs.writeFh env fh offset data) :=
  .bind within_table fun _ => .bind (within_orErrno _ _) fun slot => h.writeSlot slot offset data

theorem fallocate (ino : Nat) (offset length : Int) (mode : UInt32) :
    Prog.Within (OnStore P) (Fs.fallocate env ino offset length mode) := by
  apply Prog.Within.bind (onStore_fallocateCheck ino offset length mode)
  intro stop
  cases stop with
  | none => exact .pure ()
  | some stop =>
    apply Prog.Within.bind (onStore_currentSize ino)
    intro size
    split
    · exact .pure ()
    · exact h.truncateLocked ino stop

end Writes

end Db.Footprint

end VibeDbfs
