import VibeDbfs.Lib.Prog
import VibeDbfs.Open.Table
import VibeDbfs.Storage.Methods

/-!
The state behind a `Dbfs`, and how its methods reach the database, the clock and the order in which
a hash map iterates. The environment decides all three, so a statement about every `Env` covers
every pattern of failing SQLite statements.
-/

set_option autoImplicit false
set_option relaxedAutoImplicit false

namespace VibeDbfs

open Lib

inductive Errno where
  | ENOENT | EEXIST | ENOTEMPTY | EINVAL | EISDIR | ENAMETOOLONG | ENOSPC | ENOTDIR | EFBIG | EIO
  | EBADF | ENODEV | EOPNOTSUPP | ENODATA
  deriving DecidableEq, Repr

def errnoFromDbError : DbError → Errno
  | .notFound => .ENOENT
  | .alreadyExists => .EEXIST
  | .directoryNotEmpty => .ENOTEMPTY
  | .invalidInput => .EINVAL
  | .isDirectory => .EISDIR
  | .nameTooLong => .ENAMETOOLONG
  | .noSpace => .ENOSPC
  | .notDirectory => .ENOTDIR
  | .fileTooLarge => .EFBIG
  | .corrupt => Errno.EIO
  | .unsupportedSchema _ => Errno.EIO
  | .sqlite _ => Errno.EIO

/-- How SQLite reports that a statement failed: the database is full, or anything else. -/
inductive SqlFailure where
  | full
  | other (message : String)
  deriving DecidableEq, Repr

def SqlFailure.toDbError : SqlFailure → DbError
  | .full => .noSpace
  | .other message => .sqlite message

/-- What the process does not control. Access `n` to the database, the clock or a map's order asks
for entry `n`. -/
structure Env where
  fault : Nat → Option SqlFailure
  clock : Nat → SystemTime
  order : Nat → List Slot → List Slot
  order_perm : ∀ n slots, (order n slots).Perm slots

def Env.Healthy (env : Env) : Prop := ∀ n, env.fault n = none

/-- A state of the run that a crash could leave behind: `saves ino` marks the end of a call that
made the data of `ino` persistent and reported success. -/
structure Moment where
  db : Db
  table : OpenTable
  saves : Nat → Bool

/-- State shared by the FUSE session and the shutdown path. `tick` counts accesses to the
environment. The last two fields are the history of the run, which no function of the file system
reads: `failures` counts the database accesses that failed, and `moments` is newest first. -/
structure Shared where
  db : Db
  table : OpenTable
  lastFlush : Except Errno Unit
  tick : Nat
  failures : Nat
  moments : List Moment

def Env.Failed (env : Env) (s s' : Shared) : Prop := s.failures < s'.failures ∧ ¬env.Healthy

abbrev Fs (α : Type) := Prog Shared Errno α

namespace Shared

def record (s : Shared) (saves : Nat → Bool) : Shared :=
  { s with moments := ⟨s.db, s.table, saves⟩ :: s.moments }

/-- `Dbfs::with_write_buffer`. -/
def withWriteBuffer (db : Db) (writeBuffer : Nat) : Shared :=
  Shared.record ⟨db, .new writeBuffer, .ok (), 0, 0, []⟩ fun _ => false

end Shared

namespace Fs

def table : Fs OpenTable := fun s => (.ok s.table, s)

def updateTable (f : OpenTable → OpenTable) : Fs Unit := Prog.modify fun s =>
  { s with table := f s.table }

/-- `if let Some(a) = x`. -/
def ifSome {α : Type} (x : Option α) (f : α → Fs Unit) : Fs Unit :=
  match x with
  | some a => f a
  | none => pure ()

def onlyIf (c : Prop) [Decidable c] (x : Fs Unit) : Fs Unit := if c then x else pure ()

def record : Fs Unit := Prog.modify fun s => s.record fun _ => false

/-- One method of `Db`: a failing SQLite statement leaves the database as it was. -/
def access {α : Type} (env : Env) (f : Db → Except DbError (α × Db)) : Fs α := fun s =>
  let s' := { s with tick := s.tick + 1 }
  match env.fault s.tick with
  | some failure =>
    (.error (errnoFromDbError failure.toDbError), { s' with failures := s.failures + 1 })
  | none =>
    match f s.db with
    | .error error => (.error (errnoFromDbError error), s')
    | .ok (a, db) => (.ok a, { s' with db := db })

def query {α : Type} (env : Env) (f : Db → Except DbError α) : Fs α :=
  access env fun db => (f db).map fun a => (a, db)

def exec (env : Env) (f : Db → Except DbError Db) : Fs Unit :=
  access env fun db => (f db).map fun db' => ((), db')

/-- `now_ts`, and the time of a buffered write. -/
def now (env : Env) : Fs Timestamp := fun s =>
  (.ok (.fromSystemTime (env.clock s.tick)), { s with tick := s.tick + 1 })

def order (env : Env) : Fs (List Slot → List Slot) := fun s =>
  (.ok (env.order s.tick), { s with tick := s.tick + 1 })

/-- Syncs the database file; its failures are reported as `DbError::Sqlite`. -/
def syncDurable (env : Env) : Fs Unit := fun s =>
  let s' := { s with tick := s.tick + 1 }
  match env.fault s.tick with
  | some _ => (.error Errno.EIO, { s' with failures := s.failures + 1 })
  | none => (.ok (), s')

end Fs

end VibeDbfs
