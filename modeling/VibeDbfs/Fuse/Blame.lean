import VibeDbfs.Fuse.Routine

/-!
Which errors are those of the storage. A call that fails has either met no failing statement, or
returns the error number that such a statement has.
-/

set_option autoImplicit false
set_option relaxedAutoImplicit false

namespace VibeDbfs

open Lib Lib.Bytes

def Errno.OfStorage (e : Errno) : Prop := e = Errno.EIO ∨ e = Errno.ENOSPC

instance (e : Errno) : Decidable e.OfStorage := inferInstanceAs (Decidable (_ ∨ _))

theorem SqlFailure.ofStorage (failure : SqlFailure) :
    (errnoFromDbError failure.toDbError).OfStorage := by
  cases failure with
  | full => exact .inr rfl
  | other message => exact .inl rfl

namespace Shared

/-- No statement failed between `s` and `s'`. -/
def Unfailed (s s' : Shared) : Prop := s'.failures = s.failures

instance : IsPreorder Shared Unfailed where
  refl _ := rfl
  trans _ _ _ h h' := h'.trans h

/-- If a statement failed between `s` and `s'`, then `e` is its error. -/
def Blamed (e : Errno) (s s' : Shared) : Prop :=
  s.Unfailed s' ∨ s.failures < s'.failures ∧ e.OfStorage

end Shared

namespace Fs

open Shared

variable {α β : Type} {env : Env}

/-- Only failing statements make `x` fail with the error of one. -/
abbrev Blames (x : Fs α) : Prop := Prog.Ends Unfailed Blamed x

section Steps

private theorem blames_bind {x : Fs α} {f : α → Fs β} (hx : Blames x) (hf : ∀ a, Blames (f a)) :
    Blames (x >>= f) := by
  refine Prog.Ends.bind ?_ hx hf
  rintro e s s' s'' h (h' | ⟨hlt, he⟩)
  · exact .inl (h'.trans h)
  · exact .inr ⟨h ▸ hlt, he⟩

private theorem blames_throw (e : Errno) : Blames (Prog.throw e : Fs α) := .throw fun _ => .inl rfl

private theorem blames_access (f : Db → Except DbError (α × Db)) : Blames (access env f) := by
  intro s
  apply wp_access
  · intro failure _
    exact .inr ⟨Nat.lt_succ_self _, failure.ofStorage⟩
  · exact fun _ _ => .inl rfl
  · exact fun _ _ _ => rfl

private theorem blames_query (f : Db → Except DbError α) : Blames (query env f) := blames_access _

private theorem blames_exec (f : Db → Except DbError Db) : Blames (exec env f) := blames_access _

private theorem blames_now : Blames (now env) := fun _ => rfl

private theorem blames_order : Blames (order env) := fun _ => rfl

private theorem blames_table : Blames table := fun _ => rfl

private theorem blames_updateTable (f : OpenTable → OpenTable) : Blames (updateTable f) :=
  fun _ => rfl

private theorem blames_record : Blames record := fun _ => rfl

private theorem blames_openSlot (slot : Slot) : Blames (openSlot slot) := fun _ => rfl

private theorem blames_sync : Blames (syncDurable env) := by
  intro s
  apply wp_syncDurable
  · exact fun _ _ => .inr ⟨Nat.lt_succ_self _, .inl rfl⟩
  · exact fun _ => rfl

private theorem blames_orErrno (errno : Errno) (x : Option α) : Blames (orErrno errno x) := by
  cases x with
  | none => exact blames_throw errno
  | some a => exact .pure a

private theorem blames_errnoOfKind (kind : FileKind) : Blames (errnoOfKind kind) := by
  unfold errnoOfKind
  split
  · exact blames_throw _
  · exact .pure ()

theorem blames_ifSome {x : Option α} {f : α → Fs Unit} (hf : ∀ a, Blames (f a)) :
    Blames (ifSome x f) := by
  cases x with
  | none => exact .pure ()
  | some a => exact hf a

private theorem blames_onlyIf {c : Prop} [Decidable c] {x : Fs Unit} (hx : Blames x) :
    Blames (onlyIf c x) := by
  unfold onlyIf
  split
  · exact hx
  · exact .pure ()

private theorem blames_attempt {x : Fs α} {y : Fs Unit} (hx : Blames x) (hy : Blames y)
    (hok : ∀ s, (y s).1 = .ok ()) :
    Blames (Prog.attempt x >>= fun r => y >>= fun _ => liftExcept r) := by
  intro s
  refine (Prog.wp_bind_iff ..).mpr ((Prog.wp_attempt ..).mpr (Prog.wp_mono (hx s) ?_))
  intro r s₁ h
  have hy₁ := hy s₁
  unfold Prog.wp at hy₁
  rcases hrun : y s₁ with ⟨r', s₂⟩
  obtain rfl : r' = .ok () := by rw [← hok s₁, hrun]
  rw [hrun] at hy₁
  have hsame : s₁.Unfailed s₂ := hy₁
  refine (Prog.wp_bind_ok hrun).mpr ?_
  cases r with
  | ok a => exact hsame.trans h
  | error e =>
    rcases h with h | ⟨hlt, he⟩
    · exact .inl (hsame.trans h)
    · exact .inr ⟨hlt.trans_eq hsame.symm, he⟩

end Steps

section Flushes

private theorem flushSlot_blamed (slot : Slot) (unlinked : Unlinked) : Prog.Ends Unfailed
    (fun e s s' => s.failures < s'.failures ∧ e.OfStorage) (flushSlot env slot unlinked) := by
  intro s
  rw [flushSlot, wp_table_bind]
  dsimp only
  split
  · exact rfl
  · refine (Prog.wp_bind_iff ..).mpr (wp_exec (fun failure _ => ?_) (fun error herror => ?_)
      fun db _ => ?_)
    · exact ⟨Nat.lt_succ_self _, failure.ofStorage⟩
    · cases herror
    · exact rfl

private theorem blames_flushSlot (slot : Slot) (unlinked : Unlinked) :
    Blames (flushSlot env slot unlinked) := by
  refine fun s => Prog.wp_mono (flushSlot_blamed slot unlinked s) fun r s' h => ?_
  cases r with
  | error e => exact .inr h
  | ok _ => exact h

theorem blames_flushFree (slot : Slot) (unlinked : Unlinked) :
    Blames (flushSlot env slot unlinked >>= fun _ => freeIfIdle slot) :=
  blames_bind (blames_flushSlot slot unlinked) fun _ => blames_updateTable _

/-- The first error of the flushes between `s` and `s'`. -/
private def FirstError (s s' : Shared) : Option Errno → Prop
  | none => s.Unfailed s'
  | some e => s.failures < s'.failures ∧ e.OfStorage

private theorem flushEach_blamed (s₀ : Shared) (slots : List Slot) (firstError : Option Errno)
    (s : Shared) (h : FirstError s₀ s firstError) :
    Prog.wp (flushEach env slots firstError) (fun r s' => ∃ result, r = .ok result ∧
      FirstError s₀ s' result) s := by
  induction slots generalizing s firstError with
  | nil => exact ⟨firstError, rfl, h⟩
  | cons slot slots ih =>
    rw [flushEach, Prog.wp_bind_iff, Prog.wp_attempt]
    refine Prog.wp_mono (flushSlot_blamed slot .skip s) fun r s₁ hflush => ?_
    cases r with
    | error errno =>
      apply ih
      cases firstError with
      | none => exact ⟨h ▸ hflush.1, hflush.2⟩
      | some e => exact ⟨h.1.trans hflush.1, h.2⟩
    | ok _ =>
      have hsame : s.Unfailed s₁ := hflush
      refine (Prog.wp_bind_iff ..).mpr ?_
      apply ih
      cases firstError with
      | none => exact hsame.trans h
      | some e => exact ⟨h.1.trans_eq hsame.symm, h.2⟩

private theorem blames_flushAll : Blames (flushAll env) := by
  intro s
  rw [flushAll, Prog.wp_bind_iff, flushAllLocked, wp_order_bind, wp_table_bind]
  refine Prog.wp_mono (flushEach_blamed s _ none _ rfl) ?_
  rintro r s₁ ⟨result, rfl, hresult⟩
  apply wp_flushAllSync
  apply wp_syncDurable
  · intro failure _
    cases result with
    | none =>
      have hsame : s₁.failures = s.failures := hresult
      exact .inr ⟨hsame ▸ Nat.lt_succ_self _, .inl rfl⟩
    | some e => exact .inr ⟨hresult.1.trans (Nat.lt_succ_self _), hresult.2⟩
  · intro _
    cases result with
    | none => exact hresult
    | some e => exact .inr hresult

theorem blames_truncateLocked (ino size : Nat) : Blames (truncateLocked env ino size) := by
  refine blames_bind blames_table fun t => ?_
  refine blames_bind (blames_ifSome fun slot => blames_flushSlot slot .persist) fun _ => ?_
  refine blames_bind blames_now fun modified => blames_bind (blames_exec _) fun _ => ?_
  refine blames_bind (blames_ifSome fun slot => ?_) fun _ => blames_record
  exact blames_bind (blames_updateTable _) fun _ => blames_updateTable _

private theorem blames_releaseFh (fh : Nat) : Blames (releaseFh env fh) := by
  refine blames_bind blames_table fun t => blames_bind (blames_orErrno _ _) fun closed => ?_
  refine blames_bind (blames_updateTable _) fun _ => blames_bind (blames_updateTable _) fun _ => ?_
  refine blames_bind blames_table fun t => ?_
  dsimp only
  split
  · exact blames_bind (blames_updateTable _) fun _ => blames_exec _
  · exact blames_flushFree closed.1 .skip

end Flushes

section Files

private theorem blames_slotFor (ino : Nat) : Blames (slotFor env ino) := by
  refine blames_bind blames_table fun t => ?_
  split
  · exact .pure _
  · exact blames_bind (blames_query _) fun _ => blames_bind (blames_updateTable _) fun _ => .pure _

private theorem blames_readSlot (slot : Slot) (offset size : Nat) :
    Blames (readSlot env slot offset size) := by
  refine blames_bind blames_table fun t => blames_bind (blames_errnoOfKind _) fun _ => ?_
  split
  · exact .pure []
  · exact blames_bind (blames_query _) fun _ => .pure _

private theorem blames_read {ino offset size : Nat} : Blames (read env ino offset size) := by
  have hlocked : Blames (readLocked env ino offset size) := by
    refine blames_bind blames_table fun t => ?_
    split
    · exact .map _ (blames_readSlot _ offset size)
    · exact .pure none
  refine blames_bind hlocked fun data => ?_
  cases data with
  | none => exact blames_query _
  | some data => exact .pure data

private theorem blames_allocChunk (writing : Slot) (fuel : Nat) :
    Blames (allocChunk env writing fuel) := by
  induction fuel with
  | zero => exact blames_throw Errno.EIO
  | succ fuel ih =>
    refine blames_bind blames_table fun t => ?_
    split
    · exact blames_bind (blames_updateTable _) fun _ => .pure _
    · refine blames_bind blames_order fun order => blames_bind (blames_orErrno _ _) fun victim => ?_
      refine blames_bind (blames_flushSlot victim .persist) fun _ => ?_
      exact blames_bind (blames_onlyIf (blames_updateTable _)) fun _ => ih

private theorem blames_loadChunk (ino c : Nat) (a : ArenaSlot) :
    Blames (loadChunk env ino c a) := by
  intro s
  have hquery : Blames (query env fun db => .ok (db.readChunkInto ino c)) := blames_query _
  refine (Prog.wp_bind_iff ..).mpr ((Prog.wp_attempt ..).mpr (Prog.wp_mono (hquery s) ?_))
  intro r s' h
  cases r with
  | error e => exact h
  | ok data => exact h

private theorem blames_writeChunk (slot : Slot) (ino : Nat) (span : ChunkSpan) (data : Bytes)
    (c : Nat) : Blames (writeChunk env slot ino span data c) := by
  have hslot : Blames (chunkSlot env slot ino c (span.piece c)) := by
    refine blames_bind blames_table fun t => ?_
    split
    · exact .pure _
    · refine blames_bind (blames_allocChunk slot allocFuel) fun a => ?_
      refine blames_bind (blames_onlyIf (blames_loadChunk ino c a)) fun _ => ?_
      exact blames_bind (blames_updateTable _) fun _ => .pure a
  refine blames_bind hslot fun a => blames_bind (blames_updateTable _) fun _ => ?_
  exact blames_bind (blames_updateTable _) fun _ => blames_record

private theorem blames_writeSlot (slot : Slot) (offset : Nat) (data : Bytes) :
    Blames (writeSlot env slot offset data) := by
  refine blames_bind blames_table fun t => blames_bind (blames_errnoOfKind _) fun _ => ?_
  split
  · exact blames_throw _
  · split
    · exact .pure 0
    · next span _ =>
      split
      · exact blames_throw _
      · refine blames_bind blames_now fun modified => blames_bind (blames_updateTable _) fun _ => ?_
        have heach : ∀ cs, Blames (Prog.each (writeChunk env slot (t.inodes.get slot).ino span data)
            cs) := by
          intro cs
          induction cs with
          | nil => exact .pure ()
          | cons c cs ih => exact blames_bind (blames_writeChunk slot _ span data c) fun _ => ih
        exact blames_bind (heach _) fun _ => .pure _

private theorem blames_write {ino offset : Nat} {data : Bytes} :
    Blames (write env ino offset data) := by
  unfold write
  split
  · exact .pure 0
  · refine blames_bind (blames_slotFor ino) fun slot => ?_
    exact blames_attempt (blames_writeSlot slot offset data) (blames_updateTable _) fun _ => rfl

private theorem blames_setattr {ino : Nat} {mode uid gid : Option UInt32} {size : Option Nat}
    {atime mtime : Option SystemTime} :
    Blames (setattr env ino mode uid gid size atime mtime) := by
  refine blames_bind blames_table fun t => ?_
  refine blames_bind (blames_ifSome fun slot => blames_flushFree slot .persist) fun _ => ?_
  refine blames_bind (blames_ifSome fun size => blames_truncateLocked ino size) fun _ => ?_
  refine blames_bind ?_ fun _ => .pure _
  exact blames_bind blames_now fun _ => blames_bind (blames_exec _) fun _ => blames_query _

private theorem blames_fallocate {ino : Nat} {offset length : Int} {mode : UInt32} :
    Blames (fallocate env ino offset length mode) := by
  have hcheck : Blames (fallocateCheck env ino offset length mode) := by
    unfold fallocateCheck
    split
    · exact blames_throw _
    · split
      · exact blames_throw _
      · refine blames_bind (blames_query _) fun kind => ?_
        dsimp only
        split_ifs
        · exact blames_throw _
        · exact blames_throw _
        · exact blames_throw _
        · exact .pure none
        · exact .pure _
  refine blames_bind hcheck fun stop => ?_
  cases stop with
  | none => exact .pure ()
  | some stop =>
    have hsize : Blames (currentSize env ino) := by
      refine blames_bind blames_table fun t => ?_
      split
      · exact .pure _
      · exact blames_bind (blames_query _) fun _ => .pure _
    refine blames_bind hsize fun size => ?_
    split
    · exact .pure ()
    · exact blames_truncateLocked ino stop

end Files

section Names

private theorem blames_rowOverlay (f : Db → Except DbError Inode) : Blames ((do
    let inode ← query env f
    pure (fileAttrFromInode inode)) >>= overlayAttr) :=
  blames_bind (blames_bind (blames_query _) fun _ => .pure _) fun _ =>
    blames_bind blames_table fun _ => .pure _

private theorem blames_createNode {parent : Nat} {name : Name} {node : NewNode} {uid gid : UInt32} :
    Blames (createNode env parent name node uid gid) :=
  blames_bind blames_now fun _ => blames_bind (blames_access _) fun _ =>
    blames_bind blames_record fun _ => .pure _

private theorem blames_createOpen {parent : Nat} {name : Name} {mode umask uid gid : UInt32} :
    Blames (createOpen env parent name mode umask uid gid) := by
  refine blames_bind blames_createNode fun attr => ?_
  refine blames_bind blames_table fun t => blames_bind (blames_updateTable _) fun _ => ?_
  exact blames_bind (blames_openSlot _) fun _ => .pure _

private theorem blames_unlink {parent : Nat} {name : Name} : Blames (unlink env parent name) := by
  refine blames_bind (blames_query _) fun inode => blames_bind blames_table fun t => ?_
  exact blames_bind blames_now fun _ => blames_bind (blames_exec _) fun _ => blames_updateTable _

private theorem blames_rename {parent newParent : Nat} {name newName : Name} {flags : UInt32} :
    Blames (rename env parent name newParent newName flags) := by
  unfold rename
  split
  · exact blames_throw _
  · refine blames_bind blames_table fun t => blames_bind blames_now fun _ => ?_
    refine blames_bind (blames_access _) fun replaced => ?_
    cases replaced with
    | none => exact .pure ()
    | some target => exact blames_updateTable _

end Names

private theorem blames_call (env : Env) (c : Call) : Blames (Dbfs.call env c) := by
  have hfh : ∀ {γ : Type} (fh : Nat) {x : Slot → Fs γ}, (∀ slot, Blames (x slot)) →
      Blames (table >>= fun t => orErrno .EBADF (t.handles.get fh) >>= x) := fun fh _ hx =>
    blames_bind blames_table fun _ => blames_bind (blames_orErrno _ _) hx
  cases c with
  | getattr | lookup => exact .map _ (blames_rowOverlay _)
  | mkdir | create | symlink => exact .map _ blames_createNode
  | createOpen => exact .map _ blames_createOpen
  | link =>
    exact .map _ (blames_bind blames_now fun _ => blames_bind (blames_access _) fun _ => .pure _)
  | setattr => exact .map _ blames_setattr
  | openFile ino => exact .map _ (blames_bind (blames_slotFor ino) blames_openSlot)
  | read => exact .map _ blames_read
  | readFh fh offset size => exact .map _ (hfh fh fun slot => blames_readSlot slot offset size)
  | write => exact .map _ blames_write
  | writeFh fh offset data => exact .map _ (hfh fh fun slot => blames_writeSlot slot offset data)
  | fallocate => exact .map _ blames_fallocate
  | flushFile =>
    exact .map _ (blames_bind blames_table fun _ =>
      blames_ifSome fun slot => blames_flushFree slot .skip)
  | flushFh fh => exact .map _ (hfh fh fun slot => blames_flushSlot slot .skip)
  | syncFh fh =>
    exact .map _ (blames_bind (hfh fh fun slot => blames_flushSlot slot .skip) fun _ => blames_sync)
  | flushAll => exact .map _ blames_flushAll
  | releaseFile fh => exact .map _ (blames_releaseFh fh)
  | unlink => exact .map _ blames_unlink
  | rmdir => exact .map _ (blames_bind blames_now fun _ => blames_exec _)
  | rename => exact .map _ blames_rename

end Fs

theorem Dbfs.ofStorage_of_failed (env : Env) (s : Shared) (c : Call)
    (h : s.failures < (step env s c).failures) : ∃ e : Errno, reply env s c = .error e ∧
      e.OfStorage := by
  have hblames := Fs.blames_call env c s
  unfold Prog.wp at hblames
  change s.failures < (call env c s).2.failures at h
  rcases hcall : call env c s with ⟨e | answer, s'⟩
  · rw [hcall] at hblames h
    refine ⟨e, congrArg Prod.fst hcall, ?_⟩
    rcases hblames with hsame | ⟨-, he⟩
    · exact (Nat.ne_of_gt h hsame).elim
    · exact he
  · rw [hcall] at hblames h
    exact (Nat.ne_of_gt h hblames).elim

end VibeDbfs
