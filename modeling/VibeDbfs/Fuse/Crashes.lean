import VibeDbfs.Fuse.Accounting

/-!
What a crash leaves: each named file as it was at one moment since it was last saved.
-/

set_option autoImplicit false
set_option relaxedAutoImplicit false

namespace VibeDbfs

open Lib Lib.Bytes

variable {db : Db} {env : Env} {ino : Nat}

section Crash

private theorem Chronicle.suffix {later earlier : List Moment} {m : Moment}
    (h : Chronicle (later ++ m :: earlier)) : Chronicle (m :: earlier) := by
  induction later with
  | nil => exact h
  | cons m' later ih => exact ih h.2.2

/-- What a named file holds after a crash is what it held at one moment since it was last saved. -/
private theorem Chronicle.recovered {m : Moment} {earlier : List Moment}
    (h : Chronicle (m :: earlier)) (mountUid mountGid : UInt32) (now : Timestamp) :
    let reopened := m.db.initializeTables mountUid mountGid now
    reopened.Named ino → ∃ bytes, Since ino bytes (m :: earlier) ∧
      reopened.storedSize ino = bytes.length ∧
      ∀ offset size, reopened.readFile ino offset size = .ok (slice offset size bytes) := by
  intro reopened hnamed
  obtain ⟨hs, hsince, -⟩ := h
  have hs' : reopened.Sound := hs.initializeTables now mountUid mountGid
  have hfile : reopened.file ino = if m.db.nlinkOf ino = 0 then .absent else m.db.file ino :=
    hs.file_initialize mountUid mountGid ino
  have hstays : m.db.nlinkOf ino ≠ 0 := fun hzero => by
    rw [if_pos hzero] at hfile
    exact nomatch hnamed.1.symm.trans (congrArg StoredFile.kind hfile)
  rw [if_neg hstays] at hfile
  have hkind : m.db.kindOf ino = some .regularFile :=
    (congrArg StoredFile.kind hfile).symm.trans hnamed.1
  refine ⟨(m.db.file ino).bytes, hsince ino ⟨hkind, Nat.pos_of_ne_zero hstays⟩, ?_,
    fun offset size => ?_⟩
  · rw [StoredFile.bytes, length_glue]
    exact congrArg StoredFile.size hfile
  · rw [Db.readFile_eq hs'.owned hs'.keys hnamed.1, hs'.content_eq hnamed.1, hfile]
    rfl

private theorem swept_of_sound (hs : db.Sound) (mountUid mountGid : UInt32) (now : Timestamp) :
    let reopened := db.initializeTables mountUid mountGid now
    (∀ ino, db.nlinkOf ino = 0 → reopened.kindOf ino = none) ∧
      ∀ row ∈ reopened.fileChunks, ∃ ino c, reopened.OwnedBy row ino c ∧ 0 < db.nlinkOf ino := by
  intro reopened
  have hkind : ∀ i, reopened.kindOf i = if db.nlinkOf i = 0 then none else db.kindOf i := fun i =>
    Db.kindOf_initialize mountUid mountGid now hs.toLinked
  refine ⟨fun i hzero => (hkind i).trans (if_pos hzero), fun row hrow => ?_⟩
  obtain ⟨i, c, howned⟩ := (hs.initializeTables now mountUid mountGid).owned.rows row hrow
  refine ⟨i, c, howned, Nat.pos_of_ne_zero fun hzero => ?_⟩
  exact nomatch howned.2.2.1.symm.trans ((hkind i).trans (if_pos hzero))

end Crash

namespace Dbfs

/-- A crash at any moment of a legal run, followed by a restart: every named file has the content
of one moment since it was last saved, and inodes without a name are gone with their chunks. The
link counts say which inodes have a name. -/
theorem recovered_of_crash (hdb : db.Reached) (writeBuffer : Nat) (env : Env) (calls : List Call)
    (h : LegalCalls env (.withWriteBuffer db writeBuffer) calls) (later earlier : List Moment)
    (m : Moment)
    (hm : (run env (.withWriteBuffer db writeBuffer) calls).moments = later ++ m :: earlier)
    (mountUid mountGid : UInt32) (now : Timestamp) :
    let reopened := m.db.initializeTables mountUid mountGid now
    (∀ ino, reopened.Named ino → ∃ bytes, Since ino bytes (m :: earlier) ∧
      reopened.storedSize ino = bytes.length ∧
      ∀ offset size, reopened.readFile ino offset size = .ok (slice offset size bytes)) ∧
    (∀ ino, m.db.nlinkOf ino = 0 → reopened.kindOf ino = none) ∧
    (∀ row ∈ reopened.fileChunks, ∃ ino c, reopened.OwnedBy row ino c ∧ 0 < m.db.nlinkOf ino) ∧
    ∀ db' ∈ [m.db, reopened], ∀ ino, (db'.kindOf ino).isSome →
      (db'.nlinkOf ino = 0 ↔ ino ≠ 1 ∧ ∀ d ∈ db'.dirents, d.childIno ≠ ino) := by
  have hchronicle := (inv_of_run hdb writeBuffer h).1.chronicle
  rw [hm] at hchronicle
  have hsuffix := hchronicle.suffix
  obtain ⟨hgone, hrows⟩ := swept_of_sound hsuffix.1 mountUid mountGid now
  refine ⟨fun ino => hsuffix.recovered mountUid mountGid now, hgone, hrows, fun db' hdb' ino => ?_⟩
  rcases List.mem_pair.mp hdb' with rfl | rfl
  · exact hsuffix.1.toLinked.nlink_eq_zero_iff
  · exact (hsuffix.1.initializeTables now mountUid mountGid).toLinked.nlink_eq_zero_iff

/-- A crash after the last of the calls `sharedFile`. -/
theorem recovered_of_sharedFile : ∃ m earlier,
    (run calm (.withWriteBuffer (.fresh 0 0 ⟨0, 0⟩) 65536) sharedFile).moments = m :: earlier ∧
    ∀ ino, (m.db.initializeTables 0 0 ⟨9, 0⟩).Named ino → ∃ bytes,
      Since ino bytes (m :: earlier) ∧
      (m.db.initializeTables 0 0 ⟨9, 0⟩).storedSize ino = bytes.length ∧
      ∀ offset size, (m.db.initializeTables 0 0 ⟨9, 0⟩).readFile ino offset size =
        .ok (slice offset size bytes) :=
  ⟨_, _, rfl, (recovered_of_crash (.fresh 0 0 ⟨0, 0⟩) 65536 calm sharedFile sharedFile_legal
    [] _ _ rfl 0 0 ⟨9, 0⟩).1⟩

end Dbfs

end VibeDbfs
