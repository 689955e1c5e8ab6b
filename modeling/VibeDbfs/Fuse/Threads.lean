import VibeDbfs.Fuse.Flusher
import VibeDbfs.Fuse.Outcomes

/-!
The thread of the FUSE session and the thread that flushes at shutdown, side by side. A section
that takes the table lock waits until the other thread has given it back.
-/

set_option autoImplicit false
set_option relaxedAutoImplicit false

namespace VibeDbfs

open Lib Lib.Bytes Shared

def Call.locks : Call → Bool
  | .getattr _ => false
  | .lookup _ _ => false
  | .mkdir .. => false
  | .create .. => false
  | .symlink .. => false
  | .link .. => false
  | .write _ _ data => !data.isEmpty
  | .fallocate .. => false
  | .unlink _ _ => false
  | .rmdir _ _ => false
  | .createOpen .. => false
  | _ => true

def Rest.locks : Rest → Bool
  | .overlay _ => true
  | .allocate _ stop => stop.isSome
  | .remove .. => true
  | .insert _ => true
  | _ => false

/-- Nothing in the table changes from `s` to `s'`. -/
def Shared.SameTable (s s' : Shared) : Prop := s'.table = s.table

instance : IsPreorder Shared SameTable where
  refl _ := rfl
  trans _ _ _ h h' := h'.trans h

/-- `ShutdownHandle::flush_failure`. -/
def Shared.flushFailure (s : Shared) : Option Errno :=
  match s.lastFlush with
  | .ok _ => none
  | .error errno => some errno

namespace Fs

variable {α : Type} {env : Env}

private theorem sameTable_access (f : Db → Except DbError (α × Db)) :
    Prog.Within SameTable (access env f) := by
  intro s
  unfold access
  dsimp only
  split
  · rfl
  · split
    · rfl
    · rfl

private theorem sameTable_accesses (env : Env) : Accesses env SameTable where
  query _ := sameTable_access _
  stamped _ _ := .bind (fun _ => rfl) fun _ => sameTable_access _
  order _ := rfl
  sync s := (idle_syncDurable s).table
  record _ := rfl

end Fs

namespace Dbfs

variable {env : Env}

theorem firstSection_table {c : Call} (hfree : c.locks = false) :
    Prog.Within SameTable (firstSection env c) := by
  have h := Fs.sameTable_accesses env
  cases c with
  | getattr ino => exact .map _ (h.getattrRow ino)
  | lookup parent name => exact .map _ (h.lookupRow parent name)
  | mkdir parent name mode umask uid gid =>
    exact .map _ (.map _ (h.createNode parent name _ uid gid))
  | create parent name mode umask uid gid =>
    exact .map _ (.map _ (h.createNode parent name _ uid gid))
  | symlink parent name target uid gid =>
    exact .map _ (.map _ (h.createNode parent name _ uid gid))
  | link ino newParent newName => exact .map _ (.map _ (h.link ino newParent newName))
  | write ino offset data =>
    apply Prog.Within.map
    apply Prog.Within.map
    have hempty : data.isEmpty = true := by simpa [Call.locks] using hfree
    unfold Fs.write
    rw [if_pos hempty]
    exact .pure 0
  | fallocate ino offset length mode => exact .map _ (h.fallocateCheck ino offset length mode)
  | unlink parent name => exact .map _ (h.query _)
  | rmdir parent name => exact .map _ (.map _ (h.rmdir parent name))
  | createOpen parent name mode umask uid gid =>
    exact .map _ (h.createNode parent name _ uid gid)
  | _ => cases hfree

theorem lastSection_table {rest : Rest} (hfree : rest.locks = false) :
    Prog.Within SameTable (lastSection env rest) := by
  have h := Fs.sameTable_accesses env
  cases rest with
  | done reply => exact .pure reply
  | stored ino offset size => exact .map _ (h.query _)
  | allocate ino stop =>
    cases stop with
    | none => exact .map _ (.pure ())
    | some stop => cases hfree
  | sync => exact .map _ h.sync
  | syncAll firstError => exact .map _ (h.flushAllSync firstError)
  | _ => cases hfree

end Dbfs

/-- Where the thread of the session stands: between two calls, in a call after its first section,
or in `destroy`. -/
inductive Session where
  | idle
  | within (c : Call) (rest : Rest)
  | destroying (p : Flusher)

namespace Session

def isIdle : Session → Bool
  | .idle => true
  | _ => false

def holdsLock : Session → Bool
  | .destroying p => p.holdsLock
  | _ => false

def waits : Session → Bool
  | .idle => false
  | .within _ rest => rest.locks
  | .destroying p => p.early

end Session

/-- The two threads. `content` is what the calls that returned allow for the content of each inode:
one value, unless one of them failed. -/
structure Threads where
  session : Session
  flusher : Flusher
  shared : Shared
  content : Nat → Set Bytes

/-- What runs next: a new call, the next section of the call or of `destroy`, the start of
`destroy`, or the next section of `flush_for_shutdown`. -/
inductive Event where
  | call (c : Call)
  | resume
  | destroy
  | shutdown

namespace Threads

def known (s : Shared) (content : Nat → Set Bytes) (ino : Nat) : Set Bytes :=
  if (s.db.kindOf ino).isSome then content ino else {[]}

/-- The last section of `c` led to `s` and returned `r`. -/
def returned (t : Threads) (c : Call) (r : Except Errno Reply) (s : Shared) : Threads where
  session := .idle
  flusher := t.flusher
  shared := s
  content := known s fun ino =>
    if Dbfs.changes t.shared c = some ino then
      {bytes | ∃ old ∈ t.content ino, Dbfs.Becomes c r old bytes}
    else t.content ino

/-- The call `c` goes on with `rest`. -/
def suspended (t : Threads) (c : Call) (rest : Rest) (s : Shared) : Threads where
  session := .within c rest
  flusher := t.flusher
  shared := s
  content := known s t.content

/-- The first section of `c` has run. -/
def begun (t : Threads) (c : Call) : Except Errno Rest × Shared → Threads
  | (.error errno, s) => t.returned c (.error errno) s
  | (.ok (.done reply), s) => t.returned c (.ok reply) s
  | (.ok rest, s) => t.suspended c rest s

def step (env : Env) (t : Threads) : Event → Threads
  | .call c =>
    match t.session with
    | .idle => t.begun c (Dbfs.firstSection env c t.shared)
    | _ => t
  | .resume =>
    match t.session with
    | .idle => t
    | .within c rest =>
      let (r, s) := Dbfs.lastSection env rest t.shared
      t.returned c r s
    | .destroying p =>
      let (p, s) := Flusher.step env (p, t.shared)
      { t with session := .destroying p, shared := s }
  | .destroy =>
    match t.session with
    | .idle => { t with session := .destroying .waiting }
    | _ => t
  | .shutdown =>
    let (p, s) := Flusher.step env (t.flusher, t.shared)
    { t with flusher := p, shared := s }

/-- The event can be next: a thread that waits for the table lock does not run, and `destroy` is
the last that the session calls. -/
def Allowed (t : Threads) : Event → Prop
  | .call c => t.session.isIdle = true ∧ Dbfs.Legal t.shared c ∧
      (c.locks = true → t.flusher.holdsLock = false)
  | .resume => t.session.isIdle = false ∧
      (t.session.waits = true → t.flusher.holdsLock = false)
  | .destroy => t.session.isIdle = true
  | .shutdown => t.flusher.early = true → t.session.holdsLock = false

instance (t : Threads) : ∀ e, Decidable (Allowed t e)
  | .call c => inferInstanceAs (Decidable (_ ∧ Dbfs.Legal t.shared c ∧ _))
  | .resume => inferInstanceAs (Decidable (_ ∧ _))
  | .destroy => inferInstanceAs (Decidable (t.session.isIdle = true))
  | .shutdown => inferInstanceAs (Decidable (_ → _))

/-- A file system on `db`, with no call and no shutdown yet. -/
def start (db : Db) (writeBuffer : Nat) : Threads where
  session := .idle
  flusher := .asked
  shared := .withWriteBuffer db writeBuffer
  content ino := {(db.file ino).bytes}

variable {env : Env} {t : Threads}

theorem undisturbed_call (env : Env) (h : t.session = .idle) (c : Call) :
    ∃ n, let t' := runFrom (step env) t (.call c :: List.replicate n .resume)
      t'.session = .idle ∧ t'.shared = (Dbfs.call env c t.shared).2 := by
  have hsections := Dbfs.call_sections env c t.shared
  have hstep : step env t (.call c) = t.begun c (Dbfs.firstSection env c t.shared) := by
    rw [step, h]
  rcases hfirst : Dbfs.firstSection env c t.shared with ⟨r, s⟩
  rw [hfirst] at hstep
  rcases r with e | rest
  · rw [Prog.bind_error hfirst] at hsections
    refine ⟨0, ?_⟩
    rw [List.replicate_zero, runFrom_cons, runFrom_nil, hstep, ← hsections]
    exact ⟨rfl, rfl⟩
  · rw [Prog.bind_ok hfirst] at hsections
    by_cases hdone : ∃ reply, rest = .done reply
    · obtain ⟨reply, rfl⟩ := hdone
      refine ⟨0, ?_⟩
      rw [List.replicate_zero, runFrom_cons, runFrom_nil, hstep, ← hsections]
      exact ⟨rfl, rfl⟩
    · have hsuspended : t.begun c (.ok rest, s) = t.suspended c rest s := by
        cases rest with
        | done reply => exact (hdone ⟨reply, rfl⟩).elim
        | _ => rfl
      refine ⟨1, ?_⟩
      rw [hsuspended] at hstep
      rw [List.replicate_one, runFrom_cons, runFrom_cons, runFrom_nil, hstep, ← hsections]
      exact ⟨rfl, rfl⟩

private theorem run_shutdown (env : Env) (n : Nat) (t : Threads) :
    runFrom (step env) t (List.replicate n .shutdown) =
      { t with
        flusher := (Flusher.advance env n (t.flusher, t.shared)).1
        shared := (Flusher.advance env n (t.flusher, t.shared)).2 } := by
  induction n generalizing t with
  | zero => rfl
  | succ n ih => exact ih (step env t .shutdown)

private theorem run_destroying (env : Env) (n : Nat) (p : Flusher) (t : Threads) :
    runFrom (step env) { t with session := .destroying p } (List.replicate n .resume) =
      { t with
        session := .destroying (Flusher.advance env n (p, t.shared)).1
        shared := (Flusher.advance env n (p, t.shared)).2 } := by
  induction n generalizing t p with
  | zero => rfl
  | succ n ih =>
    exact ih (Flusher.step env (p, t.shared)).1
      { t with shared := (Flusher.step env (p, t.shared)).2 }

theorem undisturbed_shutdown (env : Env) (h : t.flusher = .asked) :
    ∃ n, runFrom (step env) t (List.replicate n .shutdown) =
      { t with
        flusher := .recorded (Fs.flushForShutdown env t.shared).1
        shared := (Fs.flushForShutdown env t.shared).2 } := by
  obtain ⟨n, hadvance⟩ := Flusher.advance_asked env t.shared
  refine ⟨n, ?_⟩
  rw [run_shutdown, h, hadvance]

theorem undisturbed_destroy (env : Env) (h : t.session = .idle) :
    ∃ n, runFrom (step env) t (.destroy :: List.replicate n .resume) =
      { t with
        session := .destroying (.recorded (Fs.flushAll env t.shared).1)
        shared := (Fs.destroy env t.shared).2 } := by
  obtain ⟨n, hadvance⟩ := Flusher.advance_destroy env t.shared
  have hstep : step env t .destroy = { t with session := .destroying .waiting } := by
    rw [step, h]
  refine ⟨n, ?_⟩
  rw [runFrom_cons, hstep, run_destroying, hadvance]

end Threads

end VibeDbfs
