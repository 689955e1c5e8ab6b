import VibeDbfs.Fuse.Requests

/-!
The life of one database: it is mounted, serves requests, and is unmounted or left by a crash,
again and again. Its tree lasts; handles and inodes without a name do not.
-/

set_option autoImplicit false
set_option relaxedAutoImplicit false

namespace VibeDbfs

open Lib Shared

/-- What happens to a mounted database. Before the next mount its files are `flushed`, or a crash
loses what the buffer has. -/
inductive LifeEvent where
  | request (r : Request)
  | remount (flushed : Bool) (writeBuffer : Nat) (mountUid mountGid : UInt32) (now : Timestamp)

namespace LifeEvent

def remounted (env : Env) (flushed : Bool) (writeBuffer : Nat) (mountUid mountGid : UInt32)
    (now : Timestamp) (s : Shared) : Shared :=
  let left := if flushed then (Fs.flushAll env s).2 else s
  { Shared.withWriteBuffer (left.db.initializeTables mountUid mountGid now) writeBuffer with
    tick := left.tick }

def step (env : Env) (s : Shared) : LifeEvent → Shared
  | request r => r.step env s
  | remount flushed writeBuffer mountUid mountGid now =>
    remounted env flushed writeBuffer mountUid mountGid now s

def answer (env : Env) (s : Shared) : LifeEvent → Option (Except ReplyErrno Answer)
  | request r => some (r.answer env s)
  | remount .. => none

def failed (env : Env) (s : Shared) : LifeEvent → Bool
  | request r => s.failures < (r.step env s).failures
  | remount flushed _ _ _ _ => flushed && s.failures < (Fs.flushAll env s).2.failures

def told (env : Env) (s : Shared) (e : LifeEvent) : Told (Option (Except ReplyErrno Answer)) :=
  ⟨e.answer env s, e.failed env s⟩

def Legal (s : Shared) : LifeEvent → Prop
  | request r => r.Legal s
  | remount .. => True

instance (s : Shared) : ∀ e, Decidable (Legal s e)
  | request r => inferInstanceAs (Decidable (r.Legal s))
  | remount .. => inferInstanceAs (Decidable True)

end LifeEvent

/-- The life of a tree: a mount finds the nodes that have a name, and no handle. -/
inductive OpenTree.Lives (m : OpenTree) :
    LifeEvent → Told (Option (Except ReplyErrno Answer)) → OpenTree → Prop
  | served {r : Request} {answer : Except ReplyErrno Answer} {failed : Bool} {m' : OpenTree}
      (h : Serves (failed = true) m r answer m') : Lives m (.request r) ⟨some answer, failed⟩ m'
  | remounted (flushed : Bool) (writeBuffer : Nat) (mountUid mountGid : UInt32) (now : Timestamp)
      (failed : Bool) :
      Lives m (.remount flushed writeBuffer mountUid mountGid now) ⟨none, failed⟩
        (.mounted m.tree.sweep)

namespace Shared

variable {env : Env} {s : Shared}

private theorem not_nameless_after_mount {db : Db} (hs : db.Sound) (mountUid mountGid : UInt32)
    (now : Timestamp) (ino : Nat) :
    ¬(db.initializeTables mountUid mountGid now).Nameless ino := by
  rintro ⟨hsome, hzero⟩
  have hfile : (db.initializeTables mountUid mountGid now).file ino =
      if db.nlinkOf ino = 0 then .absent else db.file ino :=
    hs.file_initialize mountUid mountGid ino
  split at hfile
  · have hkind : (db.initializeTables mountUid mountGid now).kindOf ino = none :=
      congrArg StoredFile.kind hfile
    rw [hkind] at hsome
    cases hsome
  · next hnlink => exact hnlink ((congrArg StoredFile.nlink hfile).symm.trans hzero)

private theorem Serving.mounted {db : Db} (hs : db.Sound) (hids : db.EntryIds)
    (htargets : db.HasTargets) (writeBuffer tick : Nat) :
    ({ Shared.withWriteBuffer db writeBuffer with tick := tick } : Shared).Serving := by
  have hstart : (Shared.withWriteBuffer db writeBuffer).Serving :=
    ⟨.withWriteBuffer hs writeBuffer, hids, htargets⟩
  exact hstart.of_idle ⟨rfl, rfl, rfl⟩

theorem Serving.fresh (mountUid mountGid : UInt32) (created : Timestamp) (writeBuffer : Nat) :
    (Shared.withWriteBuffer (.fresh mountUid mountGid created) writeBuffer).Serving := by
  have hfresh := Db.Readable.fresh mountUid mountGid created
  exact .mounted hfresh.sound hfresh.ids (.of_rows hfresh.links) writeBuffer 0

theorem tree_flushAll (h : s.Serving) (env : Env) :
    (Fs.flushAll env s).2.db.tree = s.db.tree ∧ (Fs.flushAll env s).2.Serving := by
  have hspec : Prog.wp (Fs.flushAll env) _ s := Fs.flushAll_spec h.inv
  have hcall := (Prog.wp_map ..).mp (h.call (c := .flushAll) trivial env).2
  exact ⟨Db.tree_of_names hspec.2.1.names hspec.2.1.symlinks, hcall⟩

private theorem openTree_mounted {db : Db} (hnameless : ∀ ino, ¬db.Nameless ino)
    (writeBuffer tick : Nat) :
    ({ Shared.withWriteBuffer db writeBuffer with tick := tick } : Shared).openTree =
      .mounted db.tree := by
  have hleft : ({ Shared.withWriteBuffer db writeBuffer with tick := tick } : Shared).Left =
      fun _ => False := funext fun i => eq_false fun hleft => hnameless i hleft.1
  unfold openTree
  rw [hleft]
  rfl

theorem serving_remounted (h : s.Serving) (env : Env) (flushed : Bool) (writeBuffer : Nat)
    (mountUid mountGid : UInt32) (now : Timestamp) :
    (LifeEvent.remounted env flushed writeBuffer mountUid mountGid now s).Serving ∧
      (LifeEvent.remounted env flushed writeBuffer mountUid mountGid now s).openTree =
        .mounted s.openTree.tree.sweep := by
  obtain ⟨left, hserving, hleft, hremounted⟩ : ∃ left : Shared, left.Serving ∧
      left.db.tree = s.db.tree ∧
      LifeEvent.remounted env flushed writeBuffer mountUid mountGid now s =
        { Shared.withWriteBuffer (left.db.initializeTables mountUid mountGid now) writeBuffer with
          tick := left.tick } := by
    cases flushed with
    | false => exact ⟨s, h, rfl, rfl⟩
    | true => exact ⟨_, (tree_flushAll h env).2, (tree_flushAll h env).1, rfl⟩
  have hs := hserving.inv.sound
  have hperform : left.db.perform now (.reopen mountUid mountGid) =
      .ok (left.db.initializeTables mountUid mountGid now) := rfl
  rw [hremounted]
  refine ⟨.mounted (hs.initializeTables now mountUid mountGid) (hserving.ids.perform hs hperform)
    (hserving.targets.perform hs hperform) writeBuffer left.tick, ?_⟩
  rw [openTree_mounted (not_nameless_after_mount hs mountUid mountGid now),
    Db.initialize_outcome hs, hleft]
  rfl

theorem serving_step (h : s.Serving) (env : Env) (e : LifeEvent) (hlegal : e.Legal s) :
    OpenTree.Lives s.openTree e (e.told env s) (e.step env s).openTree ∧
      (e.step env s).Serving := by
  cases e with
  | request r =>
    have hserves : Prog.wp (r.serve env) (Serves s r) s := serve_serves h hlegal
    refine ⟨.served ?_, hserves.serving⟩
    rw [LifeEvent.failed, decide_eq_true_eq]
    exact hserves.step
  | remount flushed writeBuffer mountUid mountGid now =>
    obtain ⟨hserving, htree⟩ := serving_remounted h env flushed writeBuffer mountUid mountGid now
    refine ⟨?_, hserving⟩
    change OpenTree.Lives _ _ ⟨none, _⟩ (LifeEvent.remounted ..).openTree
    rw [htree]
    exact .remounted flushed writeBuffer mountUid mountGid now _

end Shared

namespace Dbfs

def symlinkLife : List LifeEvent := [
  .request (.mkdir 1 [97] 0o755 0 0 0),
  .request (.symlink 2 [98] [120] 0 0),
  .request (.create 1 [99] 0o644 0 0 0),
  .request (.unlink 1 [99]),
  .remount false 65536 0 0 ⟨9, 0⟩,
  .request (.readlink 3),
  .request (.getxattr 4 [117] 0),
  .request (.mknod 1 [100] 0o010644 0 0 0)]

end Dbfs

end VibeDbfs
