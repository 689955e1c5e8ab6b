import VibeDbfs.Fuse.Accounting

/-!
Calls that meet a failing SQLite statement: no file changes, but that a write which fails may have
written its first pieces.
-/

set_option autoImplicit false
set_option relaxedAutoImplicit false

namespace VibeDbfs

open Lib Lib.Bytes Shared

namespace Dbfs

def writeOf (s : Shared) : Call → Option (Nat × Nat × Bytes)
  | .write ino offset data => some (ino, offset, data)
  | .writeFh fh offset data => (s.table.handleIno fh).map fun ino => (ino, offset, data)
  | _ => none

def Buffering : Call → Prop
  | .write .. | .writeFh .. | .flushFile .. | .flushFh .. | .syncFh .. | .flushAll | .fallocate ..
  | .unlink .. | .rename .. | .releaseFile .. | .createOpen .. => True
  | _ => False

/-- What is still held keeps its content, and a written file has some pieces of the write, the
first ones, over its old content. -/
structure Unharmed (s s' : Shared) (c : Call) : Prop where
  bytes : ∀ ino, s'.Held ino → (∀ offset data, writeOf s c ≠ some (ino, offset, data)) →
    (s'.file ino).bytes = (s.file ino).bytes
  written : ∀ ino offset data, writeOf s c = some (ino, offset, data) →
    PartlyWritten offset data (s.file ino).bytes (s'.file ino).bytes

variable {s s' : Shared} {env : Env} {busy : Nat → Prop} {c : Call}

private theorem Unharmed.of_bytes (hc : writeOf s c = none)
    (h : ∀ ino, s'.Held ino → (s'.file ino).bytes = (s.file ino).bytes) : Unharmed s s' c where
  bytes ino hheld _ := h ino hheld
  written _ _ _ hwrite := nomatch hc.symm.trans hwrite

private theorem Unharmed.of_quiet (hc : writeOf s c = none) (h : Quiet s s') : Unharmed s s' c :=
  .of_bytes hc fun ino _ => h.bytes ino not_false

private theorem not_failed (h : s'.failures = s.failures) : ¬s.failures < s'.failures := by
  omega

private theorem Unharmed.of_write {ino offset : Nat} {data : Bytes} {r : Except Errno Nat}
    (hc : writeOf s c = some (ino, offset, data))
    (hresult : Fs.WriteResult env s s' ino offset data r) (hfailed : s.failures < s'.failures) :
    Unharmed s s' c := by
  obtain ⟨hframe, -, hresult⟩ := hresult
  constructor
  · intro j _ hother
    refine hframe.bytes j ?_
    rintro rfl
    exact hother offset data hc
  · intro j offset' data' hwrite
    obtain ⟨rfl, rfl, rfl⟩ : ino = j ∧ offset = offset' ∧ data = data' := by
      rw [hc] at hwrite
      simpa using hwrite
    rcases r with e | n
    · rcases hresult with ⟨-, hpartly⟩ | ⟨hfailures, -⟩
      · exact hpartly
      · exact (not_failed hfailures hfailed).elim
    · exact (not_failed hresult.1 hfailed).elim

/-- Releasing a handle changes the content of no file that is still held. -/
private theorem Unharmed.of_release {fh ino : Nat} {r : Except Errno Unit} (hc : writeOf s c = none)
    (hcase : Fs.Closed env ino s s' r ∨ Fs.Deleted env fh ino s s' r)
    (hfailed : s.failures < s'.failures) : Unharmed s s' c := by
  refine .of_bytes hc fun j hheld => ?_
  rcases hcase with hclosed | hdeleted
  · exact hclosed.bytes j
  · rcases r with e | ⟨⟩
    · by_cases hj : j = ino
      · subst hj
        rcases hheld with hnlink | hrefs
        · rw [(hdeleted.error nofun).2, hdeleted.nlink] at hnlink
          exact (Nat.lt_irrefl 0 hnlink).elim
        · rw [Shared.file, hdeleted.none] at hrefs
          exact (Nat.lt_irrefl 0 hrefs).elim
      · rw [hdeleted.other j hj]
    · exact (not_failed (hdeleted.ok rfl).1 hfailed).elim

private theorem unharmed_call (h : s.Inv [] busy) (hadm : Admissible busy s c) (hc : Buffering c) :
    Prog.wp (call env c) (fun _ s' => s.failures < s'.failures → Unharmed s s' c) s := by
  cases c with
  | write ino offset data =>
    refine (Prog.wp_map ..).mpr (Prog.wp_mono (Fs.write_spec hadm h) ?_)
    intro r s' hr hfailed
    exact .of_write rfl hr.2 hfailed
  | writeFh fh offset data =>
    refine (Prog.wp_map ..).mpr (Prog.wp_mono (Fs.writeFh_spec hadm h) ?_)
    rintro r s' ⟨-, hr⟩ hfailed
    rcases hfh : s.table.handleIno fh with _ | ino
    · rw [hfh] at hr
      obtain ⟨-, rfl⟩ := hr
      exact (Nat.lt_irrefl _ hfailed).elim
    · rw [hfh] at hr
      refine .of_write ?_ hr hfailed
      rw [writeOf, hfh]
      rfl
  | fallocate ino offset length mode =>
    refine (Prog.wp_map ..).mpr (Prog.wp_mono (Fs.fallocate_spec h) ?_)
    rintro r s' ⟨-, -, -, hresult⟩ hfailed
    rcases r with e | ⟨⟩
    · exact .of_quiet rfl hresult.1
    · exact (not_failed hresult.1 hfailed).elim
  | flushFile ino =>
    refine (Prog.wp_map ..).mpr (Prog.wp_mono (Fs.flushFile_spec h) ?_)
    intro r s' hr _
    exact .of_quiet rfl hr.2.1
  | flushFh fh =>
    refine (Prog.wp_map ..).mpr (Prog.wp_mono (Fs.flushFh_spec h) ?_)
    rintro r s' ⟨-, hr⟩ hfailed
    rcases hfh : s.table.handleIno fh with _ | ino
    · rw [hfh] at hr
      obtain ⟨-, rfl⟩ := hr
      exact (Nat.lt_irrefl _ hfailed).elim
    · rw [hfh] at hr
      exact .of_quiet rfl hr.1
  | syncFh fh =>
    refine (Prog.wp_map ..).mpr (Prog.wp_mono (Fs.syncFh_spec h) ?_)
    rintro r s' ⟨-, hr⟩ hfailed
    rcases hfh : s.table.handleIno fh with _ | ino
    · rw [hfh] at hr
      obtain ⟨-, rfl⟩ := hr
      exact (Nat.lt_irrefl _ hfailed).elim
    · rw [hfh] at hr
      exact .of_quiet rfl hr.1
  | flushAll =>
    refine (Prog.wp_map ..).mpr (Prog.wp_mono (Fs.flushAll_spec h) ?_)
    intro r s' hr _
    exact .of_quiet rfl hr.2.1
  | releaseFile fh =>
    refine (Prog.wp_map ..).mpr (Prog.wp_mono (Fs.releaseFh_spec h) ?_)
    rintro r s' ⟨-, hr⟩ hfailed
    rcases hfh : s.table.handleIno fh with _ | ino
    · rw [hfh] at hr
      obtain ⟨-, rfl⟩ := hr
      exact (Nat.lt_irrefl _ hfailed).elim
    · rw [hfh] at hr
      exact .of_release rfl hr.2.2 hfailed
  | unlink parent name =>
    refine (Prog.wp_map ..).mpr (Prog.wp_mono (Fs.unlink_spec h) ?_)
    rintro r s' ⟨-, -, hresult⟩ hfailed
    rcases r with e | ⟨⟩
    · exact .of_quiet rfl (Frame.of_eq hresult.1 hresult.2.1)
    · exact (not_failed hresult.1 hfailed).elim
  | rename parent name newParent newName flags =>
    refine (Prog.wp_map ..).mpr (Prog.wp_mono (Fs.rename_spec hadm h) ?_)
    rintro r s' ⟨-, -, hresult⟩ hfailed
    rcases r with e | ⟨⟩
    · exact .of_quiet rfl (Frame.of_eq hresult.1 hresult.2.1)
    · exact (not_failed hresult.1 hfailed).elim
  | createOpen parent name mode umask uid gid =>
    refine (Prog.wp_map ..).mpr (Prog.wp_mono (Fs.createOpen_spec h) ?_)
    rintro r s' ⟨-, hresult⟩ hfailed
    rcases r with e | ⟨attr, fh⟩
    · exact .of_quiet rfl (Frame.of_eq hresult.1 hresult.2.1)
    · exact (not_failed hresult.1 hfailed).elim
  | _ => exact hc.elim

/-- A call that meets a failure after any legal run changes no content, but for the first pieces of
a write that fails. -/
theorem unharmed_of_failure {db : Db} (hdb : db.Reached) (writeBuffer : Nat) (env : Env)
    (calls : List Call) (c : Call) (hc : Buffering c)
    (h : LegalCalls env (.withWriteBuffer db writeBuffer) (calls ++ [c])) :
    let s := run env (.withWriteBuffer db writeBuffer) calls
    s.failures < (step env s c).failures → Unharmed s (step env s c) c := by
  intro s hfailed
  obtain ⟨hcalls, hlegal, -⟩ := legalRun_append.mp h
  have hinv : s.Inv [] fun _ => False := (inv_of_run hdb writeBuffer hcalls).1
  have hcall : Prog.wp (call env c) (fun _ s' => s.failures < s'.failures → Unharmed s s' c) s :=
    unharmed_call hinv (Legal.admissible hinv hlegal) hc
  have hunharmed := hcall hfailed
  exact ⟨hunharmed.bytes, hunharmed.written⟩

def fullDisk : Env := { calm with fault := fun n => if n = 4 then some .full else none }

/-- A flush that fails after a file was created and written. -/
theorem unharmed_of_fullDisk :
    let s := run fullDisk (.withWriteBuffer (.fresh 0 0 ⟨0, 0⟩) 65536)
      [.createOpen 1 [97] 0o644 0 0 0, .writeFh 0 0 [1, 2, 3]]
    s.failures < (step fullDisk s (.flushFile 2)).failures ∧
      Unharmed s (step fullDisk s (.flushFile 2)) (.flushFile 2) := by
  intro s
  have hfailed : s.failures < (step fullDisk s (.flushFile 2)).failures := by decide
  exact ⟨hfailed, unharmed_of_failure (.fresh 0 0 ⟨0, 0⟩) 65536 fullDisk
    [.createOpen 1 [97] 0o644 0 0 0, .writeFh 0 0 [1, 2, 3]] (.flushFile 2) trivial (by decide)
    hfailed⟩

end Dbfs

end VibeDbfs
