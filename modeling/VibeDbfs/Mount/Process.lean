import VibeDbfs.Fuse.Shutdown
import VibeDbfs.Storage.TreeRefinement

/-!
The process behind a mount: the thread of the session, the thread that waits for signals, and the
main thread, which hears from both and decides how the process ends.
-/

set_option autoImplicit false
set_option relaxedAutoImplicit false

namespace VibeDbfs.Mount

open Lib

structure IoError where
  message : String
  deriving DecidableEq, Repr

inductive ExitError where
  | session (error : IoError)
  | shutdownFlush (errno : Errno)

inductive Event where
  | shutdown
  | sessionEnded (result : Except IoError Unit)

/-- Where the main thread stands in `mount_dbfs`. From `flushing` to `waiting` it runs
`shut_down`. -/
inductive MainThread where
  | receiving
  | flushing
  | unmounting
  | waiting
  | ended (result : Except IoError Unit)
  | returned (result : Except ExitError Unit)

/-- Where the thread of `spawn_session` stands. While it drops the session, `destroy` runs. -/
inductive SessionThread where
  | running
  | dropping (result : Except IoError Unit)
  | ended

/-- The thread runs sections of calls, and `destroy` to its end. -/
def SessionThread.calls : SessionThread → VibeDbfs.Event → Bool
  | _, .shutdown => false
  | .running, _ => true
  | .dropping _, .resume => true
  | _, _ => false

def SessionThread.isRunning : SessionThread → Bool
  | .running => true
  | _ => false

def MainThread.isFlushing : MainThread → Bool
  | .flushing => true
  | _ => false

/-- `events` are sent and not received yet. -/
structure Process where
  threads : Threads
  session : SessionThread
  main : MainThread
  events : List Event

/-- What runs next: a section of the session, the end of its loop, the message about that, a
signal, or the main thread, for which an unmount may fail and the grace period may run out. -/
inductive Turn where
  | session (e : VibeDbfs.Event)
  | runReturned (result : Except IoError Unit)
  | sendEnded
  | signal
  | main
  | unmounted (result : Except IoError Unit)
  | timeout

def Turn.succeeds : Turn → Bool
  | .runReturned result => result.isOk
  | .unmounted result => result.isOk
  | _ => true

/-- What `mount_dbfs` returns. -/
def exitStatus (result : Except IoError Unit) (failure : Option Errno) : Except ExitError Unit :=
  match result with
  | .error error => .error (.session error)
  | .ok _ =>
    match failure with
    | some errno => .error (.shutdownFlush errno)
    | none => .ok ()

namespace Process

/-- The main thread goes on. It stays where it is while there is nothing to receive. -/
def mainStep (env : Env) (p : Process) : Process :=
  match p.main with
  | .receiving =>
    match p.events with
    | [] => p
    | .shutdown :: rest => { p with main := .flushing, events := rest }
    | .sessionEnded result :: rest => { p with main := .ended result, events := rest }
  | .flushing =>
    -- the outcome of the flush is on record, and is looked at in the end
    if p.threads.flusher.done = true then { p with main := .unmounting }
    else { p with threads := Threads.step env p.threads .shutdown }
  | .unmounting => p
  | .waiting =>
    match p.events with
    | [] => p
    | .shutdown :: rest => { p with events := rest }
    | .sessionEnded result :: rest => { p with main := .ended result, events := rest }
  | .ended result =>
    { p with main := .returned (exitStatus result p.threads.shared.flushFailure) }
  | .returned _ => p

/-- The unmount in `shut_down` returned. -/
def unmounted (result : Except IoError Unit) (p : Process) : Process :=
  match p.main with
  | .unmounting =>
    match result with
    | .ok _ => { p with main := .waiting }
    | .error error => { p with main := .ended (.error error) }
  | _ => p

def timedOut (p : Process) : Process :=
  match p.main with
  | .waiting => { p with main := .ended (.ok ()) }
  | _ => p

def sendEnded (p : Process) : Process :=
  match p.session with
  | .dropping result => { p with session := .ended, events := p.events ++ [.sessionEnded result] }
  | _ => p

def step (env : Env) (p : Process) : Turn → Process
  | .session e => { p with threads := Threads.step env p.threads e }
  | .runReturned result =>
    -- `destroy` is not called a second time
    { p with session := .dropping result, threads := Threads.step env p.threads .destroy }
  | .sendEnded => p.sendEnded
  | .signal => { p with events := p.events ++ [.shutdown] }
  | .main => p.mainStep env
  | .unmounted result => p.unmounted result
  | .timeout => p.timedOut

def Allowed (p : Process) : Turn → Prop
  | .session e => p.session.calls e = true ∧ Threads.Allowed p.threads e
  | .runReturned _ => p.session.isRunning = true ∧
      (p.threads.session.isIdle = true ∨ p.threads.session.done = true)
  | .sendEnded => p.threads.session.done = true
  | .main => p.main.isFlushing = true →
      p.threads.flusher.done = true ∨ Threads.Allowed p.threads .shutdown
  -- `recv_timeout` hands out a message that is there, also after the grace period
  | .timeout => p.events = []
  | _ => True

instance (p : Process) : ∀ turn, Decidable (Allowed p turn)
  | .session e => inferInstanceAs (Decidable (_ ∧ Threads.Allowed p.threads e))
  | .runReturned _ => inferInstanceAs (Decidable (_ ∧ _))
  | .sendEnded => inferInstanceAs (Decidable (p.threads.session.done = true))
  | .main => inferInstanceAs (Decidable (_ → _ ∨ Threads.Allowed p.threads .shutdown))
  | .signal => inferInstanceAs (Decidable True)
  | .unmounted _ => inferInstanceAs (Decidable True)
  | .timeout => decidable_of_iff (p.events.isEmpty = true) List.isEmpty_iff

/-- A mount of `db` that has just come up. -/
def start (db : Db) (writeBuffer : Nat) : Process where
  threads := .start db writeBuffer
  session := .running
  main := .receiving
  events := []

end Process

end VibeDbfs.Mount

namespace VibeDbfs.Threads

open Lib Lib.Bytes

variable {env : Env} {t : Threads} {e : Event}

def Over (t : Threads) : Prop := t.flusher.done = true ∨ t.session.done = true

private theorem flusher_done_step (env : Env) (e : Event) (h : t.flusher.done = true) :
    (step env t e).flusher.done = true := by
  rcases hflusher : t.flusher with _ | _ | _ | _ | _ | result
  case recorded =>
    have hrecorded := recorded_run env [e] hflusher
    rw [runFrom_cons, runFrom_nil] at hrecorded
    rw [hrecorded]
    rfl
  all_goals
    rw [hflusher] at h
    cases h

/-- After `destroy` the session does nothing. -/
private theorem step_of_session_done (env : Env) (h : t.session.done = true) (he : e ≠ .shutdown) :
    step env t e = t := by
  obtain ⟨session, flusher, shared, content⟩ := t
  rcases session with _ | ⟨c, rest⟩ | p
  · cases h
  · cases h
  · cases p with
    | recorded result =>
      cases e with
      | shutdown => exact (he rfl).elim
      | _ => rfl
    | _ => cases h

private theorem Over.step (env : Env) (h : t.Over) (he : e ≠ .shutdown) : (step env t e).Over := by
  rcases h with hdone | hdone
  · exact .inl (flusher_done_step env e hdone)
  · rw [step_of_session_done env hdone he]
    exact .inr hdone

/-- Once writes are refused, no section leaves data unsaved that was saved. -/
private theorem steady_step (env : Env) (h : Sound t) (he : Allowed t e)
    (hclosing : t.shared.table.closing = true) : Fs.Steady t.shared (step env t e).shared := by
  rcases e with c | _ | _ | _
  · obtain ⟨hidle, hlegal, -⟩ := he
    rcases hsession : t.session with _ | ⟨c', rest⟩ | p
    · have hproceeds : Prog.wp (Dbfs.firstSection env c) (Dbfs.Proceeds t.shared c) t.shared :=
        Dbfs.firstSection_spec env h.inv hlegal
      rw [step, hsession]
      rcases begun_cases hproceeds with ⟨r, heq, hreturns⟩ | ⟨rest, heq, hpasses, -⟩
      · exact heq ▸ hreturns.passes.steady hclosing
      · exact heq ▸ hpasses.steady hclosing
    · rw [hsession] at hidle
      cases hidle
    · rw [hsession] at hidle
      cases hidle
  · have hfound := h.session
    rcases hsession : t.session with _ | ⟨c, rest⟩ | p
    · rw [step, hsession]
      exact fun _ hsettled => hsettled
    · rw [hsession] at hfound
      have hreturns : Prog.wp (Dbfs.lastSection env rest) (Dbfs.Returns t.shared c) t.shared :=
        Dbfs.lastSection_spec env h.inv hfound
      rw [step, hsession]
      exact hreturns.passes.steady hclosing
    · rw [hsession] at hfound
      have hsaves : Flusher.Saves (p, t.shared) (Flusher.step env (p, t.shared)) :=
        Flusher.saves_step h.inv hfound.1
      rw [step, hsession]
      exact hsaves.steady
  · rcases hsession : t.session with _ | ⟨c, rest⟩ | p
    all_goals
      rw [step, hsession]
      exact fun _ hsettled => hsettled
  · have hsaves : Flusher.Saves (t.flusher, t.shared) (Flusher.step env (t.flusher, t.shared)) :=
      Flusher.saves_step h.inv h.visits
    exact hsaves.steady

def Saved (t : Threads) : Prop := ∀ ino, Fs.Settled (t.shared.file ino)

private theorem Saved.step (env : Env) (hsaved : t.Saved) (hover : t.Over) (h : Sound t)
    (he : Allowed t e) (hsession : e ≠ .shutdown) : (step env t e).Saved := by
  rcases hover with hdone | hdone
  · have hclosing := h.closing (Flusher.refuses_of_done hdone)
    exact fun ino => steady_step env h he hclosing ino (hsaved ino)
  · rw [step_of_session_done env hdone hsession]
    exact hsaved

private theorem Saved.allStored (hsaved : t.Saved) (h : Sound t) : t.AllStored := by
  intro ino hnamed
  have hbytes := Fs.stored_of_settled h.inv.toCore (hsaved ino) hnamed
  refine ⟨_, h.content ino (Shared.live_of_named hnamed), hbytes.symm, ?_⟩
  rw [hbytes]
  exact length_glue.symm

end VibeDbfs.Threads

namespace VibeDbfs.Mount

open Lib

variable {env : Env}

/-- What the main thread has found so far still holds. -/
def MainThread.Sound : MainThread → Threads → Prop
  | .unmounting, t => t.flusher.done = true
  | .waiting, t => t.flusher.done = true
  | .ended (.ok _), t => t.Over
  | .returned (.ok _), t => t.Over ∧ t.Saved
  | _, _ => True

private theorem MainThread.Sound.step {m : MainThread} {t : Threads} {e : VibeDbfs.Event}
    (h : m.Sound t) (ht : t.Sound) (he : Threads.Allowed t e) (hsession : e ≠ .shutdown) :
    m.Sound (Threads.step env t e) := by
  cases m with
  | receiving => trivial
  | flushing => trivial
  | unmounting => exact Threads.flusher_done_step env e h
  | waiting => exact Threads.flusher_done_step env e h
  | ended result =>
    cases result with
    | error error => trivial
    | ok _ => exact Threads.Over.step env h hsession
  | returned result =>
    cases result with
    | error error => trivial
    | ok _ => exact ⟨h.1.step env hsession, h.2.step env h.1 ht he hsession⟩

namespace Process

variable {p : Process} {turn : Turn}

/-- What holds whatever the threads do. -/
structure Sound (p : Process) : Prop where
  threads : p.threads.Sound
  main : p.main.Sound p.threads
  told : ∀ result, Event.sessionEnded result ∈ p.events → p.threads.session.done = true
  stopped : p.session.calls .resume = false → p.threads.session.done = true

private theorem Sound.mainStep (h : Sound p)
    (hfree : p.main.isFlushing = true →
      p.threads.flusher.done = true ∨ Threads.Allowed p.threads .shutdown) :
    Sound (p.mainStep env) := by
  have htold : ∀ {event : Event} {rest : List Event}, p.events = event :: rest →
      ∀ result, Event.sessionEnded result ∈ rest → p.threads.session.done = true := by
    intro event rest hevents result hmem
    apply h.told result
    rw [hevents]
    exact List.mem_cons_of_mem event hmem
  have hmain := h.main
  unfold Process.mainStep
  rcases hm : p.main with _ | _ | _ | _ | result | result
  case receiving =>
    rcases hevents : p.events with _ | ⟨_ | result, rest⟩
    · exact h
    · exact ⟨h.threads, trivial, htold hevents, h.stopped⟩
    · refine ⟨h.threads, ?_, htold hevents, h.stopped⟩
      cases result with
      | error error => trivial
      | ok _ => exact .inr (h.told (.ok ()) (hevents ▸ List.mem_cons_self))
  case flushing =>
    dsimp only
    split
    · next hdone => exact ⟨h.threads, hdone, h.told, h.stopped⟩
    · next hbusy =>
      rw [hm] at hfree
      have hallowed := (hfree rfl).resolve_left hbusy
      exact ⟨Threads.sound_step env h.threads hallowed, trivial, h.told, h.stopped⟩
  case unmounting => exact h
  case waiting =>
    rw [hm] at hmain
    rcases hevents : p.events with _ | ⟨_ | result, rest⟩
    · exact h
    · exact ⟨h.threads, hmain, htold hevents, h.stopped⟩
    · refine ⟨h.threads, ?_, htold hevents, h.stopped⟩
      cases result with
      | error error => trivial
      | ok _ => exact .inl hmain
  case ended =>
    rw [hm] at hmain
    refine ⟨h.threads, ?_, h.told, h.stopped⟩
    cases result with
    | error error => trivial
    | ok _ =>
      rcases hfailure : p.threads.shared.flushFailure with _ | errno
      · have hok : p.threads.shared.lastFlush = .ok () := by
          rw [Shared.flushFailure] at hfailure
          split at hfailure
          · assumption
          · cases hfailure
        exact ⟨hmain, h.threads.recorded hmain hok⟩
      · trivial
  case returned => exact h

private theorem Sound.sessionStep (h : Sound p) {e : VibeDbfs.Event}
    (he : Threads.Allowed p.threads e) (hsession : e ≠ .shutdown) {session : SessionThread}
    (hstopped : session.calls .resume = false → p.session.calls .resume = false) :
    Sound { p with threads := Threads.step env p.threads e, session := session } := by
  have hdone : p.threads.session.done = true →
      (Threads.step env p.threads e).session.done = true := by
    intro hdone
    rw [Threads.step_of_session_done env hdone hsession]
    exact hdone
  exact ⟨Threads.sound_step env h.threads he, h.main.step h.threads he hsession,
    fun result hmem => hdone (h.told result hmem), fun hcalls => hdone
      (h.stopped (hstopped hcalls))⟩

private theorem sound_step (env : Env) (h : Sound p) (hturn : Allowed p turn) :
    Sound (step env p turn) := by
  cases turn with
  | session e =>
    obtain ⟨hcalls, hallowed⟩ := hturn
    have hsession : e ≠ .shutdown := by
      rintro rfl
      cases hcalls
    exact h.sessionStep hallowed hsession id
  | runReturned result =>
    have hdestroy : VibeDbfs.Event.destroy ≠ .shutdown := by
      intro hsame
      cases hsame
    obtain ⟨-, hidle | hdone⟩ := hturn
    · exact h.sessionStep (e := .destroy) hidle hdestroy nofun
    · rw [step, Threads.step_of_session_done env hdone hdestroy]
      exact ⟨h.threads, h.main, h.told, nofun⟩
  | sendEnded =>
    change Sound p.sendEnded
    unfold sendEnded
    split
    · exact ⟨h.threads, h.main, fun _ _ => hturn, fun _ => hturn⟩
    · exact h
  | signal =>
    refine ⟨h.threads, h.main, fun result hmem => ?_, h.stopped⟩
    rcases List.mem_append.mp hmem with hsent | hnew
    · exact h.told result hsent
    · cases List.mem_singleton.mp hnew
  | main => exact h.mainStep hturn
  | unmounted result =>
    have hmain := h.main
    change Sound (p.unmounted result)
    unfold unmounted
    split
    · next hm =>
      rw [hm] at hmain
      cases result with
      | ok _ => exact ⟨h.threads, hmain, h.told, h.stopped⟩
      | error error => exact ⟨h.threads, trivial, h.told, h.stopped⟩
    · exact h
  | timeout =>
    have hmain := h.main
    change Sound p.timedOut
    unfold timedOut
    split
    · next hm =>
      rw [hm] at hmain
      exact ⟨h.threads, .inl hmain, h.told, h.stopped⟩
    · exact h

private theorem Sound.start {db : Db} (hs : db.Sound) (writeBuffer : Nat) :
    Sound (start db writeBuffer) :=
  ⟨.start hs writeBuffer, trivial, nofun, nofun⟩

private theorem sound_run {db : Db} (hdb : db.Reached) {writeBuffer : Nat} {turns : List Turn}
    (h : LegalRun (step env) Allowed (start db writeBuffer) turns) :
    Sound (runFrom (step env) (start db writeBuffer) turns) :=
  runFrom_induction (fun _ _ hturn h => sound_step env h hturn) (.start hdb.sound writeBuffer) h

section Exit

/-- A main thread that has returned does not go on. -/
private theorem returned_run (env : Env) (later : List Turn) {result : Except ExitError Unit}
    (h : p.main = .returned result) : (runFrom (step env) p later).main = .returned result := by
  have hstep : ∀ (p : Process) (turn : Turn), p.main = .returned result →
      (step env p turn).main = .returned result := by
    intro p turn h
    cases turn with
    | session e => exact h
    | runReturned result => exact h
    | sendEnded =>
      change p.sendEnded.main = _
      unfold sendEnded
      split <;> exact h
    | signal => exact h
    | main =>
      change (p.mainStep env).main = _
      rw [mainStep, h]
      exact h
    | unmounted result =>
      change (p.unmounted result).main = _
      unfold unmounted
      rw [h]
      exact h
    | timeout =>
      change p.timedOut.main = _
      unfold timedOut
      rw [h]
      exact h
  induction later generalizing p with
  | nil => exact h
  | cons turn later ih => exact ih (hstep p turn h)

/-- Where dbfs exits with success, the next mount finds the tree as it was, and in each named file
what the calls made of it; so in every state that the other threads reach before the process is
gone. -/
theorem remounted_of_run {db : Db} (hdb : db.Reached) (writeBuffer : Nat) (env : Env)
    (turns later : List Turn)
    (hallowed : LegalRun (step env) Allowed (start db writeBuffer) (turns ++ later))
    (hexit : (runFrom (step env) (start db writeBuffer) turns).main = .returned (.ok ()))
    (mountUid mountGid : UInt32) (now : Timestamp) :
    let t := (runFrom (step env) (start db writeBuffer) (turns ++ later)).threads
    let remounted := t.shared.db.initializeTables mountUid mountGid now
    remounted.tree = t.shared.db.tree.sweep ∧
      ∀ ino, t.shared.db.Named ino → ∃ bytes ∈ t.content ino,
        (remounted.file ino).bytes = bytes ∧ remounted.storedSize ino = bytes.length := by
  intro t remounted
  have hsound := sound_run hdb hallowed
  have hmain := hsound.main
  rw [runFrom_append, returned_run env later hexit, ← runFrom_append] at hmain
  have hs := hsound.threads.inv.sound
  refine ⟨Db.initialize_outcome hs mountUid mountGid, fun ino hnamed => ?_⟩
  obtain ⟨bytes, hmem, hbytes, hsize⟩ := hmain.2.allStored hsound.threads ino hnamed
  have hfile : remounted.file ino = t.shared.db.file ino := by
    rw [hs.file_initialize mountUid mountGid ino, if_neg (Nat.ne_of_gt hnamed.2)]
  refine ⟨bytes, hmem, ?_, ?_⟩
  · rw [hfile]
    exact hbytes
  · have hstored : (remounted.file ino).size = (t.shared.db.file ino).size :=
      congrArg StoredFile.size hfile
    exact hstored.trans hsize

/-- A file is written, a signal comes, and the file is still open when the grace period ends. -/
def heldOpen : List Turn :=
  [.session (.call (.createOpen 1 [97] 0o644 0 0 0)), .session .resume,
    .session (.call (.writeFh 0 0 [1, 2, 3])), .signal, .main, .main,
    .session (.call (.writeFh 0 3 [4])), .signal, .main, .main, .main, .main, .main, .main,
    .unmounted (.ok ()), .main, .session (.call (.getattr 2)), .timeout, .main]

def closedLate : List Turn :=
  [.session .resume, .session (.call (.releaseFile 0)), .runReturned (.ok ()), .session .resume,
    .session .resume, .session .resume, .session .resume, .sendEnded]

theorem remounted_of_heldOpen :
    let t := (runFrom (step Dbfs.calm) (start (.fresh 0 0 ⟨0, 0⟩) 65536)
      (heldOpen ++ closedLate)).threads
    let remounted := t.shared.db.initializeTables 0 0 ⟨1, 0⟩
    remounted.tree = t.shared.db.tree.sweep ∧
      ∀ ino, t.shared.db.Named ino → ∃ bytes ∈ t.content ino,
        (remounted.file ino).bytes = bytes ∧ remounted.storedSize ino = bytes.length :=
  remounted_of_run (.fresh 0 0 ⟨0, 0⟩) 65536 Dbfs.calm heldOpen closedLate
    (by decide) rfl 0 0 ⟨1, 0⟩

end Exit

section Progress

/-- The process can come to its end by itself, whatever an unmount returns: no user of the mount
calls anything, and the session need not end. -/
inductive CanExit (env : Env) : Process → Prop
  | returned {p : Process} {result : Except ExitError Unit} (hmain : p.main = .returned result) :
      CanExit env p
  | main {p : Process} (hallowed : Allowed p .main) (hnext : CanExit env (step env p .main)) :
      CanExit env p
  | resume {p : Process} (hallowed : Allowed p (.session .resume))
      (hnext : CanExit env (step env p (.session .resume))) : CanExit env p
  | unmount {p : Process} (hmain : p.main = .unmounting)
      (hnext : ∀ result, CanExit env (step env p (.unmounted result))) : CanExit env p
  | timeout {p : Process} (hmain : p.main = .waiting) (hallowed : Allowed p .timeout)
      (hnext : CanExit env (step env p .timeout)) : CanExit env p

private theorem step_flushing (env : Env) (hmain : p.main = .flushing) : step env p .main =
    if p.threads.flusher.done = true then { p with main := .unmounting }
    else { p with threads := Threads.step env p.threads .shutdown } := by
  change p.mainStep env = _
  rw [mainStep, hmain]

private theorem canExit_of_ended {result : Except IoError Unit} (hmain : p.main = .ended result) :
    CanExit env p := by
  have hallowed : Allowed p .main := by
    intro hflushing
    rw [hmain] at hflushing
    cases hflushing
  have hstep : (step env p .main).main =
      .returned (exitStatus result p.threads.shared.flushFailure) := by
    change (p.mainStep env).main = _
    rw [mainStep, hmain]
  exact .main hallowed (.returned hstep)

/-- The induction is on the messages that wait. A second signal changes nothing, and the end of the
session is what the main thread waits for. -/
private theorem canExit_of_waiting (hmain : p.main = .waiting) : CanExit env p := by
  have hallowed : ∀ {p : Process}, p.main = .waiting → Allowed p .main := by
    intro p hmain hflushing
    rw [hmain] at hflushing
    cases hflushing
  rcases hevents : p.events with events
  induction events generalizing p with
  | nil =>
    have hstep : (step env p .timeout).main = .ended (.ok ()) := by
      change p.timedOut.main = _
      rw [timedOut, hmain]
    exact .timeout hmain hevents (canExit_of_ended hstep)
  | cons event rest ih =>
    refine .main (hallowed hmain) ?_
    change CanExit env (p.mainStep env)
    cases event with
    | shutdown =>
      have hstep : p.mainStep env = { p with events := rest } := by
        rw [mainStep, hmain, hevents]
      rw [hstep]
      exact ih hmain rfl
    | sessionEnded result =>
      have hstep : p.mainStep env = { p with main := .ended result, events := rest } := by
        rw [mainStep, hmain, hevents]
      rw [hstep]
      exact canExit_of_ended rfl

private theorem canExit_of_unmounting (hmain : p.main = .unmounting) : CanExit env p := by
  refine .unmount hmain fun result => ?_
  change CanExit env (p.unmounted result)
  unfold unmounted
  rw [hmain]
  cases result with
  | ok _ => exact canExit_of_waiting rfl
  | error error => exact canExit_of_ended rfl

private theorem finishes (env : Env) (q : Flusher) (s : Shared) :
    ∃ n, (Flusher.advance env n (q, s)).1.done = true := by
  cases q with
  | asked =>
    obtain ⟨n, hadvance⟩ := Flusher.advance_asked env s
    exact ⟨n, by rw [hadvance]; rfl⟩
  | waiting =>
    obtain ⟨n, hadvance⟩ := Flusher.advance_destroy env s
    exact ⟨n, by rw [hadvance]; rfl⟩
  | visiting slots firstError =>
    obtain ⟨result, s', -, hadvance⟩ := Flusher.advance_visiting env slots firstError s
    refine ⟨slots.length + 1 + 2, ?_⟩
    rw [Flusher.advance_add, hadvance]
    rfl
  | unlocked firstError => exact ⟨2, rfl⟩
  | flushed result => exact ⟨1, rfl⟩
  | recorded result => exact ⟨0, rfl⟩

/-- The induction is on the sections that the flush still has before it. -/
private theorem canExit_of_flushing (n : Nat) (hmain : p.main = .flushing)
    (hfree : p.threads.session.holdsLock = false)
    (hn : (Flusher.advance env n (p.threads.flusher, p.threads.shared)).1.done = true) :
    CanExit env p := by
  induction n generalizing p with
  | zero =>
    refine .main (fun _ => .inl hn) ?_
    have hdone : p.threads.flusher.done = true := hn
    rw [step_flushing env hmain, if_pos hdone]
    exact canExit_of_unmounting rfl
  | succ n ih =>
    refine .main (fun _ => .inr fun _ => hfree) ?_
    rw [step_flushing env hmain]
    split
    · exact canExit_of_unmounting rfl
    · exact ih hmain hfree hn

private theorem step_destroying (env : Env) {q : Flusher}
    (hsession : p.threads.session = .destroying q) :
    step env p (.session .resume) =
      { p with threads := { p.threads with
          session := .destroying (Flusher.step env (q, p.threads.shared)).1
          shared := (Flusher.step env (q, p.threads.shared)).2 } } := by
  change { p with threads := Threads.step env p.threads .resume } = _
  rw [Threads.step, hsession]

private theorem allowed_destroying {slots : List Slot} {firstError : Option Errno}
    (hcalls : p.session.calls .resume = true)
    (hsession : p.threads.session = .destroying (.visiting slots firstError)) :
    Allowed p (.session .resume) := by
  refine ⟨hcalls, ?_, ?_⟩
  · rw [hsession]
    rfl
  · intro hwaits
    rw [hsession] at hwaits
    cases hwaits

private theorem visit_next (env : Env) (slot : Slot) (slots : List Slot) (firstError : Option Errno)
    (s : Shared) : ∃ firstError',
      (Flusher.step env (.visiting (slot :: slots) firstError, s)).1 =
        .visiting slots firstError' := by
  rcases hflush : Fs.flushSlot env slot .skip s with ⟨errno | ⟨⟩, s'⟩
  · refine ⟨firstError <|> some errno, ?_⟩
    simp only [Flusher.step, hflush]
  · refine ⟨firstError, ?_⟩
    simp only [Flusher.step, hflush]

/-- The induction is on the slots that `destroy` still has to visit under the table lock. -/
private theorem canExit_of_destroying (slots : List Slot) (firstError : Option Errno)
    (hmain : p.main = .flushing) (hcalls : p.session.calls .resume = true)
    (hsession : p.threads.session = .destroying (.visiting slots firstError)) : CanExit env p := by
  induction slots generalizing p firstError with
  | nil =>
    refine .resume (allowed_destroying hcalls hsession) ?_
    rw [step_destroying env hsession]
    obtain ⟨n, hn⟩ := finishes env p.threads.flusher p.threads.shared
    exact canExit_of_flushing n hmain rfl hn
  | cons slot slots ih =>
    refine .resume (allowed_destroying hcalls hsession) ?_
    rw [step_destroying env hsession]
    obtain ⟨firstError', hvisit⟩ := visit_next env slot slots firstError p.threads.shared
    exact ih firstError' hmain hcalls (congrArg Session.destroying hvisit)

private theorem canExit_of_locked (h : Sound p) (hmain : p.main = .flushing) : CanExit env p := by
  rcases hsession : p.threads.session with _ | ⟨c, rest⟩ | q
  case destroying =>
    by_cases hholds : q.holdsLock = true
    · cases q with
      | visiting slots firstError =>
        apply canExit_of_destroying slots firstError hmain ?_ hsession
        rw [← Bool.not_eq_false]
        intro hcalls
        have hdone := h.stopped hcalls
        rw [hsession] at hdone
        cases hdone
      | _ => cases hholds
    · obtain ⟨n, hn⟩ := finishes env p.threads.flusher p.threads.shared
      apply canExit_of_flushing n hmain ?_ hn
      rw [hsession]
      exact Bool.not_eq_true _ ▸ hholds
  all_goals
    obtain ⟨n, hn⟩ := finishes env p.threads.flusher p.threads.shared
    refine canExit_of_flushing n hmain ?_ hn
    rw [hsession]
    rfl

/-- A signal or the end of the session has reached the main thread, or waits for it. -/
def Asked (p : Process) : Prop := p.main ≠ .receiving ∨ p.events ≠ []

/-- Once asked, dbfs can always come to its end: no two of its threads wait for each other, and an
open file does not keep it. -/
theorem exits_of_run {db : Db} (hdb : db.Reached) (writeBuffer : Nat) (env : Env)
    (turns : List Turn) (hallowed : LegalRun (step env) Allowed (start db writeBuffer) turns)
    (hasked : (runFrom (step env) (start db writeBuffer) turns).Asked) :
    CanExit env (runFrom (step env) (start db writeBuffer) turns) := by
  have h := sound_run hdb hallowed
  generalize runFrom (step env) (start db writeBuffer) turns = p at h hasked
  rcases hm : p.main with _ | _ | _ | _ | result | result
  case receiving =>
    have hnext : Allowed p .main := by
      intro hflushing
      rw [hm] at hflushing
      cases hflushing
    have hsound := sound_step env h hnext
    have hstep : step env p .main = p.mainStep env := rfl
    refine .main hnext ?_
    rcases hevents : p.events with _ | ⟨_ | result, rest⟩
    · rcases hasked with hne | hne
      · exact (hne hm).elim
      · exact (hne hevents).elim
    · apply canExit_of_locked hsound
      rw [hstep, mainStep, hm, hevents]
    · have hended : (step env p .main).main = .ended result := by
        rw [hstep, mainStep, hm, hevents]
      exact canExit_of_ended hended
  case flushing => exact canExit_of_locked h hm
  case unmounting => exact canExit_of_unmounting hm
  case waiting => exact canExit_of_waiting hm
  case ended => exact canExit_of_ended hm
  case returned => exact .returned hm

theorem exits_of_heldOpen :
    (runFrom (step Dbfs.calm) (start (.fresh 0 0 ⟨0, 0⟩) 65536) (heldOpen.take 6)).Asked ∧
      CanExit Dbfs.calm
        (runFrom (step Dbfs.calm) (start (.fresh 0 0 ⟨0, 0⟩) 65536) (heldOpen.take 6)) :=
  ⟨.inl nofun, exits_of_run (.fresh 0 0 ⟨0, 0⟩) 65536 Dbfs.calm (heldOpen.take 6) (by decide)
    (.inl nofun)⟩

end Progress

section Success

/-- The flush met no error so far. -/
def Flawless : Flusher → Prop
  | .visiting _ firstError => firstError = none
  | .unlocked firstError => firstError = none
  | .flushed result => result = .ok ()
  | .recorded result => result = .ok ()
  | _ => True

private theorem flawless_step {q : Flusher} {s : Shared} {held : List ArenaSlot} {busy : Nat → Prop}
    (hhealthy : env.Healthy) (h : s.Inv held busy) (hq : q.Visits s) (hflawless : Flawless q) :
    Flawless (Flusher.step env (q, s)).1 := by
  cases q with
  | asked => trivial
  | waiting => rfl
  | visiting slots firstError =>
    cases slots with
    | nil => exact hflawless
    | cons slot slots =>
      obtain ⟨ino, hf⟩ := hq.2 slot List.mem_cons_self
      have hflush : Prog.wp (Fs.flushSlot env slot .skip) _ s := Fs.flushSlot_spec .skip h hf
      unfold Prog.wp at hflush
      rcases hresult : Fs.flushSlot env slot .skip s with ⟨errno | ⟨⟩, s'⟩
      · rw [hresult] at hflush
        exact (hflush.2.2.2.2.2.1 hhealthy).elim
      · simp only [Flusher.step, hresult]
        exact hflawless
  | unlocked firstError =>
    have hsync : Prog.wp (Fs.flushAllSync env firstError) _ s := Fs.flushAllSync_spec firstError h
    change (Fs.flushAllSync env firstError s).1 = .ok ()
    by_contra hfailed
    rcases hsync.2.2.2.2.1 hfailed with hne | hunhealthy
    · exact hne hflawless
    · exact hunhealthy.2 hhealthy
  | flushed result => exact hflawless
  | recorded result => exact hflawless

structure AllFlawless (t : Threads) : Prop where
  flusher : Flawless t.flusher
  session : ∀ q, t.session = .destroying q → Flawless q
  recorded : t.shared.lastFlush = .ok ()

private theorem AllFlawless.of_section {t t' : Threads} (h : AllFlawless t)
    (hflusher : t'.flusher = t.flusher)
    (hsession : ∀ q, t'.session ≠ .destroying q) (houtcome : t.shared.SameOutcome t'.shared) :
    AllFlawless t' :=
  ⟨hflusher ▸ h.flusher, fun q hq => (hsession q hq).elim, houtcome.trans h.recorded⟩

private theorem allFlawless_step {t : Threads} (hhealthy : env.Healthy) (h : t.Sound)
    (hflawless : AllFlawless t) (e : VibeDbfs.Event) : AllFlawless (Threads.step env t e) := by
  have hrecorded : ∀ q, Flawless q → (Flusher.step env (q, t.shared)).2.lastFlush = .ok () := by
    intro q hq
    rcases Flusher.step_outcome env q t.shared with ⟨-, hlast⟩ | ⟨result, rfl, hlast⟩
    · exact hlast.trans hflawless.recorded
    · exact hlast.trans hq
  cases e with
  | call c =>
    rcases hsession : t.session with _ | ⟨c', rest⟩ | q
    · have houtcome := Dbfs.firstSection_outcome env c t.shared
      rw [Threads.step, hsession]
      dsimp only
      rcases hfirst : Dbfs.firstSection env c t.shared with ⟨errno | rest, s⟩
      all_goals rw [hfirst] at houtcome
      · exact hflawless.of_section rfl (by rintro q ⟨⟩) houtcome
      · cases rest with
        | done reply => exact hflawless.of_section rfl (by rintro q ⟨⟩) houtcome
        | _ => exact hflawless.of_section rfl (by rintro q ⟨⟩) houtcome
    all_goals
      rw [Threads.step, hsession]
      exact hflawless
  | resume =>
    have hsound := h.session
    rcases hsession : t.session with _ | ⟨c, rest⟩ | q
    · rw [Threads.step, hsession]
      exact hflawless
    · rw [Threads.step, hsession]
      exact hflawless.of_section rfl (by rintro q ⟨⟩)
        (Dbfs.lastSection_outcome env rest t.shared)
    · rw [hsession] at hsound
      have hq : Flawless q := hflawless.session q hsession
      rw [Threads.step, hsession]
      refine ⟨hflawless.flusher, ?_, hrecorded q hq⟩
      rintro q' ⟨⟩
      exact flawless_step hhealthy h.inv hsound.1 hq
  | destroy =>
    rcases hsession : t.session with _ | ⟨c, rest⟩ | q
    · rw [Threads.step, hsession]
      refine ⟨hflawless.flusher, ?_, hflawless.recorded⟩
      rintro q ⟨⟩
      trivial
    all_goals
      rw [Threads.step, hsession]
      exact hflawless
  | shutdown =>
    exact ⟨flawless_step hhealthy h.inv h.visits hflawless.flusher, hflawless.session,
      hrecorded t.flusher hflawless.flusher⟩

structure NoError (p : Process) : Prop where
  threads : AllFlawless p.threads
  session : ∀ result, p.session = .dropping result → result = .ok ()
  told : ∀ result, Event.sessionEnded result ∈ p.events → result = .ok ()
  ended : ∀ result, p.main = .ended result → result = .ok ()
  returned : ∀ result, p.main = .returned result → result = .ok ()

private theorem NoError.mainStep (hhealthy : env.Healthy) (h : Sound p) (hp : NoError p) :
    NoError (p.mainStep env) := by
  have htold : ∀ {event : Event} {rest : List Event}, p.events = event :: rest →
      ∀ result, Event.sessionEnded result ∈ rest → result = .ok () := by
    intro event rest hevents result hmem
    apply hp.told result
    rw [hevents]
    exact List.mem_cons_of_mem event hmem
  unfold Process.mainStep
  rcases hm : p.main with _ | _ | _ | _ | result | result
  case receiving =>
    rcases hevents : p.events with _ | ⟨_ | result, rest⟩
    · exact hp
    · exact ⟨hp.threads, hp.session, htold hevents, nofun, nofun⟩
    · refine ⟨hp.threads, hp.session, htold hevents, ?_, nofun⟩
      rintro result' ⟨⟩
      exact hp.told result (hevents ▸ List.mem_cons_self)
  case flushing =>
    dsimp only
    split
    · exact ⟨hp.threads, hp.session, hp.told, nofun, nofun⟩
    · exact ⟨allFlawless_step hhealthy h.threads hp.threads .shutdown, hp.session,
        hp.told, nofun, nofun⟩
  case unmounting => exact hp
  case waiting =>
    rcases hevents : p.events with _ | ⟨_ | result, rest⟩
    · exact hp
    · exact ⟨hp.threads, hp.session, htold hevents, nofun, nofun⟩
    · refine ⟨hp.threads, hp.session, htold hevents, ?_, nofun⟩
      rintro result' ⟨⟩
      exact hp.told result (hevents ▸ List.mem_cons_self)
  case ended =>
    refine ⟨hp.threads, hp.session, hp.told, nofun, ?_⟩
    rintro result' ⟨⟩
    rw [hp.ended result hm, Shared.flushFailure, hp.threads.recorded]
    rfl
  case returned => exact hp

private theorem noError_step (hhealthy : env.Healthy) (h : Sound p) (hp : NoError p)
    (hturn : turn.succeeds = true) : NoError (step env p turn) := by
  cases turn with
  | session e =>
    exact ⟨allFlawless_step hhealthy h.threads hp.threads e, hp.session, hp.told,
      hp.ended, hp.returned⟩
  | runReturned result =>
    refine ⟨allFlawless_step hhealthy h.threads hp.threads .destroy, ?_, hp.told,
      hp.ended, hp.returned⟩
    rintro result' ⟨⟩
    cases result with
    | ok _ => rfl
    | error error => cases hturn
  | sendEnded =>
    change NoError p.sendEnded
    unfold sendEnded
    split
    · next result hsession =>
      refine ⟨hp.threads, nofun, fun result' hmem => ?_, hp.ended, hp.returned⟩
      rcases List.mem_append.mp hmem with hsent | hnew
      · exact hp.told result' hsent
      · cases List.mem_singleton.mp hnew
        exact hp.session result hsession
    · exact hp
  | signal =>
    refine ⟨hp.threads, hp.session, fun result hmem => ?_, hp.ended, hp.returned⟩
    rcases List.mem_append.mp hmem with hsent | hnew
    · exact hp.told result hsent
    · cases List.mem_singleton.mp hnew
  | main => exact hp.mainStep hhealthy h
  | unmounted result =>
    change NoError (p.unmounted result)
    unfold unmounted
    split
    · cases result with
      | ok _ => exact ⟨hp.threads, hp.session, hp.told, nofun, nofun⟩
      | error error => cases hturn
    · exact hp
  | timeout =>
    change NoError p.timedOut
    unfold timedOut
    split
    · refine ⟨hp.threads, hp.session, hp.told, ?_, nofun⟩
      rintro result ⟨⟩
      rfl
    · exact hp

private theorem noError_run {db : Db} (hdb : db.Reached) {writeBuffer : Nat}
    (hhealthy : env.Healthy)
    {turns : List Turn} (hallowed : LegalRun (step env) Allowed (start db writeBuffer) turns)
    (hturns : ∀ turn ∈ turns, turn.succeeds = true) :
    NoError (runFrom (step env) (start db writeBuffer) turns) := by
  have hrun : ∀ (turns : List Turn) (p : Process), Sound p → NoError p →
      LegalRun (step env) Allowed p turns → (∀ turn ∈ turns, turn.succeeds = true) →
        NoError (runFrom (step env) p turns) := by
    intro turns
    induction turns with
    | nil => exact fun p _ hp _ _ => hp
    | cons turn turns ih =>
      intro p h hp hallowed hturns
      exact ih _ (sound_step env h hallowed.1)
        (noError_step hhealthy h hp (hturns turn List.mem_cons_self)) hallowed.2
        fun turn' hmem => hturns turn' (List.mem_cons_of_mem turn hmem)
  have hstart : NoError (start db writeBuffer) := by
    refine ⟨⟨trivial, nofun, rfl⟩, nofun, nofun, nofun, nofun⟩
  exact hrun turns _ (.start hdb.sound writeBuffer) hstart hallowed hturns

/-- On a healthy storage, if neither the unmount nor the loop of the session fails, no error of a
flush is on record at any time, and dbfs does not end with an error, whatever its threads do. -/
theorem returnsOk_of_run {db : Db} (hdb : db.Reached) (writeBuffer : Nat) (hhealthy : env.Healthy)
    (turns : List Turn) (hallowed : LegalRun (step env) Allowed (start db writeBuffer) turns)
    (hturns : ∀ turn ∈ turns, turn.succeeds = true) :
    let p := runFrom (step env) (start db writeBuffer) turns
    p.threads.shared.lastFlush = .ok () ∧
      (∀ result, p.threads.flusher = .recorded result → result = .ok ()) ∧
      (∀ result, p.threads.session = .destroying (.recorded result) → result = .ok ()) ∧
      ∀ result, p.main = .returned result → result = .ok () := by
  intro p
  have hp : NoError p := noError_run hdb hhealthy hallowed hturns
  refine ⟨hp.threads.recorded, fun result hflusher => ?_, fun result hsession => ?_, hp.returned⟩
  · have hflawless := hp.threads.flusher
    rw [hflusher] at hflawless
    exact hflawless
  · exact hp.threads.session _ hsession

theorem returnsOk_of_heldOpen :
    let p := runFrom (step Dbfs.calm) (start (.fresh 0 0 ⟨0, 0⟩) 65536) heldOpen
    p.threads.shared.lastFlush = .ok () ∧
      (∀ result, p.threads.flusher = .recorded result → result = .ok ()) ∧
      (∀ result, p.threads.session = .destroying (.recorded result) → result = .ok ()) ∧
      ∀ result, p.main = .returned result → result = .ok () := by
  have hhealthy : Dbfs.calm.Healthy := fun _ => rfl
  exact returnsOk_of_run (.fresh 0 0 ⟨0, 0⟩) 65536 hhealthy heldOpen (by decide) (by decide)

end Success

end Process

end VibeDbfs.Mount
