import Mathlib.Tactic.Common

/-!
The records of the store: timestamps, file kinds, inodes and the errors of the database layer.
-/

set_option autoImplicit false
set_option relaxedAutoImplicit false

namespace VibeDbfs

abbrev SystemTime := Int

def i64Min : Int := -9223372036854775808

def i64Max : Int := 9223372036854775807

/-- Seconds and nanoseconds since the Unix epoch. Only `secs` carries the sign; `nsec` is a
magnitude. -/
structure Timestamp where
  secs : Int
  nsec : Nat
  deriving DecidableEq, Repr

namespace Timestamp

def fromSystemTime (time : SystemTime) : Timestamp :=
  if 0 ≤ time then
    ⟨time / 1000000000, (time % 1000000000).toNat⟩
  else
    ⟨-((-time) / 1000000000), ((-time) % 1000000000).toNat⟩

/-- Nanoseconds since the epoch as stored on disk, clamped to the `i64` range. -/
def toNs (t : Timestamp) : Int :=
  let magnitude : Int := t.secs.natAbs * 1000000000 + t.nsec
  let ns := if t.secs < 0 then -magnitude else magnitude
  max i64Min (min i64Max ns)

def fromNs (ns : Int) : Timestamp :=
  let secs : Int := (ns.natAbs / 1000000000 : Nat)
  ⟨if ns < 0 then -secs else secs, ns.natAbs % 1000000000⟩

def toSystemTime (t : Timestamp) : SystemTime :=
  if 0 ≤ t.secs then
    t.secs * 1000000000 + t.nsec
  else
    -(t.secs.natAbs * 1000000000 + t.nsec : Int)

end Timestamp

inductive FileKind where
  | regularFile
  | directory
  | symlink
  deriving DecidableEq, Repr

inductive DbError where
  | alreadyExists
  | directoryNotEmpty
  | invalidInput
  | isDirectory
  | nameTooLong
  | noSpace
  | notDirectory
  | notFound
  | corrupt
  | unsupportedSchema (version : Int)
  | fileTooLarge
  | sqlite (message : String)
  deriving DecidableEq, Repr

def FileKind.regularFileError : FileKind → Option DbError
  | .regularFile => none
  | .directory => some .isDirectory
  | .symlink => some .invalidInput

abbrev Bytes := List UInt8

abbrev Name := Bytes

structure Inode where
  ino : Nat
  kind : FileKind
  mode : UInt32
  uid : UInt32
  gid : UInt32
  size : Nat
  atime : Timestamp
  mtime : Timestamp
  ctime : Timestamp
  nlink : Nat
  deriving DecidableEq, Repr

structure MetadataUpdate where
  mode : Option UInt32
  uid : Option UInt32
  gid : Option UInt32
  atime : Option Timestamp
  mtime : Option Timestamp
  deriving DecidableEq, Repr

@[simp] theorem FileKind.regularFileError_eq_none {k : FileKind} :
    k.regularFileError = none ↔ k = .regularFile := by
  cases k <;> simp [regularFileError]

end VibeDbfs
