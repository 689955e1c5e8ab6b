import VibeDbfs.Fuse.AnyCalls
import VibeDbfs.Storage.OpenedLimits

/-!
No call takes a store past the limits on inode numbers and file sizes: those of a fresh database
always hold, and those of an opened older file exactly if they held for the inodes it keeps.
-/

set_option autoImplicit false
set_option relaxedAutoImplicit false

namespace VibeDbfs

open Lib Lib.Sql Migration

/-- The stores that any calls of `Db`, and of `Dbfs` on a file system mounted on it, lead to. -/
inductive Db.Leads (db : Db) : Db → Prop
  | refl : Leads db db
  | store {db' : Db} (call : Timestamp × StoreCall) (h : Leads db db') : Leads db (db'.step call)
  | mounted {db' : Db} (writeBuffer : Nat) (env : Env) (calls : List Call) (h : Leads db db') :
      Leads db (Dbfs.run env (.withWriteBuffer db' writeBuffer) calls).db

namespace Dbfs

variable {env : Env} {s : Shared}

/-- A call on a tidy table, whichever slots it leaves without need. -/
private theorem step_limits (h : s.Tidy True fun _ => True) (c : Call) :
    (step env s c).Tidy True fun _ => True := by
  have hcall : Prog.wp (call env c) _ s := call_tidy h (.inl trivial)
  rcases hcall with hkept | ⟨slot, -, -, -, hkept⟩
  · exact ⟨hkept.table, hkept.limits⟩
  · exact ⟨hkept.table.mono fun _ _ => trivial, hkept.limits⟩

private theorem run_limits (h : s.Tidy True fun _ => True) (calls : List Call) :
    (run env s calls).Tidy True fun _ => True := by
  induction calls generalizing s with
  | nil => exact h
  | cons c calls ih => exact ih (step_limits h c)

end Dbfs

namespace Db

variable {db db' : Db}

private theorem Limits.leads (h : db.Limits) (hleads : db.Leads db') : db'.Limits := by
  induction hleads with
  | refl => exact h
  | store call _ ih => exact ih.step call
  | mounted writeBuffer env calls _ ih =>
    have hstart : (Shared.withWriteBuffer _ writeBuffer).Tidy True fun _ => True :=
      ⟨OpenTable.Tidy.new writeBuffer, ih⟩
    exact (Dbfs.run_limits hstart calls).limits

/-- Every store that a fresh database leads to is within the limits, and every store that an opened
file leads to is if and only if each inode of the file is, or is deleted at opening. -/
theorem limits_of_leads {engine : Engine} {f f' : Sql.File} {mountUid mountGid : UInt32}
    {now : Timestamp} {db : Db} (hids : TypedInodes f)
    (hopen : openFile engine f mountUid mountGid now = (.ok db, f')) :
    (∀ mountUid mountGid now db', (Db.fresh mountUid mountGid now).Leads db' → db'.Limits) ∧
    ((∀ db', db.Leads db' → db'.Limits) ↔ ∀ r ∈ f.rowsOf "inodes", RowSwept r ∨ RowFits r) := by
  constructor
  · intro mountUid mountGid now db' hleads
    exact (Sound.fresh mountUid mountGid now).limits.leads hleads
  · rw [← limits_of_openFile hids hopen]
    constructor
    · intro hall
      exact hall db .refl
    · intro hlimits db' hleads
      exact hlimits.leads hleads

/-- A file of version 3 with a root and an empty file `a` of `size` bytes. -/
def sparseFile (size : Int) : Sql.File where
  userVersion := 3
  indexes := [direntsName, direntsChild, direntsScan]
  tables name := [
    ("inodes", {
      columns := ["ino", "kind", "mode", "uid", "gid", "size", "atime", "mtime", "ctime", "nlink",
        "atime_nsec", "mtime_nsec", "ctime_nsec"]
      rowid := some "ino", primaryKey := ["ino"], foreignKeys := []
      rows := [[1, 2, 493, 0, 0, 0, 1, 1, 1, 2, 0, 0, 0],
        [2, 1, 420, 7, 7, size, 1, 1, 1, 1, 0, 0, 0]].map fun values =>
          Sql.row (["ino", "kind", "mode", "uid", "gid", "size", "atime", "mtime", "ctime", "nlink",
            "atime_nsec", "mtime_nsec", "ctime_nsec"].zip (values.map .integer)) }),
    ("dirents", { direntsTable with rows := [Sql.row [("id", .integer 1),
      ("parent_ino", .integer 1), ("name", .blob [97]), ("child_ino", .integer 2)]] }),
    ("file_chunks", {
      columns := ["ino", "chunk_index", "data"], rowid := none
      primaryKey := ["ino", "chunk_index"], foreignKeys := [("ino", "inodes")], rows := [] }),
    ("symlink_targets", symlinkTargetsTable)].lookup name

private theorem typed_sparseFile {size : Int} (hsize : i64Min ≤ size ∧ size ≤ i64Max) :
    TypedInodes (sparseFile size) := by
  constructor
  · intro r hr column hcolumn
    simp only [headColumns, List.mem_cons, List.not_mem_nil, or_false] at hcolumn
    rcases List.mem_cons.mp hr with rfl | hr
    · rcases hcolumn with rfl | rfl | rfl | rfl
      · exact ⟨1, rfl, by decide⟩
      · exact ⟨2, rfl, by decide⟩
      · exact ⟨0, rfl, by decide⟩
      · exact ⟨2, rfl, by decide⟩
    · rw [List.mem_singleton.mp hr]
      rcases hcolumn with rfl | rfl | rfl | rfl
      · exact ⟨2, rfl, by decide⟩
      · exact ⟨1, rfl, by decide⟩
      · exact ⟨size, rfl, hsize⟩
      · exact ⟨1, rfl, by decide⟩
  · have hids : ((sparseFile size).rowsOf "inodes").map (fun r => r "ino") =
        [.integer 1, .integer 2] := rfl
    rw [hids]
    decide

def openedHeads (size : Int) : Option (List (Nat × FileKind × Nat)) :=
  (openFile .plain (sparseFile size) 0 0 ⟨9, 0⟩).1.toOption.map fun db =>
    db.inodes.map fun r => (r.ino, r.kind, r.size)

/-- The file of 2 TiB is opened, and stays past the limit. -/
theorem limits_false : ∃ db, (openFile .plain (sparseFile 2199023255552) 0 0 ⟨9, 0⟩).1 = .ok db ∧
    ¬db.Limits := by
  have hheads : openedHeads 2199023255552 =
      some [(1, .directory, 0), (2, .regularFile, 2199023255552)] := by decide
  obtain ⟨db, hdb, hrows⟩ := Option.map_eq_some_iff.mp hheads
  have hopen : (openFile .plain (sparseFile 2199023255552) 0 0 ⟨9, 0⟩).1 = .ok db := by
    rcases hresult : (openFile .plain (sparseFile 2199023255552) 0 0 ⟨9, 0⟩).1 with e | db'
    · rw [hresult] at hdb
      cases hdb
    · rw [hresult] at hdb
      cases hdb
      rfl
  refine ⟨db, hopen, fun hlimits => ?_⟩
  have hmem : (2, FileKind.regularFile, 2199023255552) ∈
      db.inodes.map fun r => (r.ino, r.kind, r.size) := by
    rw [hrows]
    decide
  obtain ⟨r, hr, heq⟩ := List.mem_map.mp hmem
  simp only [Prod.mk.injEq] at heq
  have hsize := (hlimits r hr).size heq.2.1
  rw [heq.2.2] at hsize
  revert hsize
  decide

/-- A file within the limits: so is every store it leads to. -/
theorem limits_of_sparseFile : ∃ db, (openFile .plain (sparseFile 65538) 0 0 ⟨9, 0⟩).1 = .ok db ∧
    ∀ db', db.Leads db' → db'.Limits := by
  rcases hopen : openFile .plain (sparseFile 65538) 0 0 ⟨9, 0⟩ with ⟨r, f'⟩
  have hsome : (openFile .plain (sparseFile 65538) 0 0 ⟨9, 0⟩).1.isOk = true := by decide
  rw [hopen] at hsome
  cases r with
  | error e => cases hsome
  | ok db =>
    refine ⟨db, rfl, (limits_of_leads (typed_sparseFile (by decide)) hopen).2.mpr ?_⟩
    intro r hr
    right
    rcases List.mem_cons.mp hr with rfl | hr
    · exact ⟨by decide, fun hfile => absurd hfile (by decide)⟩
    · rw [List.mem_singleton.mp hr]
      exact ⟨by decide, fun _ => by decide⟩

end Db

end VibeDbfs
