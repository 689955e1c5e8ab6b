import VibeDbfs.Lib.Runs
import VibeDbfs.Storage.Sound

/-!
Runs of the store: any sequence of its methods, with reopenings, from a fresh database.
-/

set_option autoImplicit false
set_option relaxedAutoImplicit false

namespace VibeDbfs

open Lib
open Relation (ReflTransGen)

/-- A method of the store that changes it. `unlinkEntry` gets the target just looked up. -/
inductive StoreCall where
  | createNode (parent : Nat) (name : Name) (node : NewNode) (uid gid : UInt32)
  | link (ino newParent : Nat) (newName : Name)
  | unlinkEntry (parent : Nat) (name : Name) (isOpen : Bool)
  | removeDir (parent : Nat) (name : Name)
  | renameEntry (parent : Nat) (name : Name) (newParent : Nat) (newName : Name) (noreplace : Bool)
      (isOpen : Nat → Bool)
  | deleteInode (ino : Nat)
  | writeFileBatch (ino : Nat) (writes : List (Nat × Bytes))
  | truncateFile (ino size : Nat)
  | updateMetadata (ino : Nat) (update : MetadataUpdate)
  | reopen (mountUid mountGid : UInt32)

namespace Db

def perform (db : Db) (now : Timestamp) : StoreCall → Except DbError Db
  | .createNode parent name node uid gid => do
    let (_, db) ← db.createNode parent name node uid gid now
    .ok db
  | .link ino newParent newName => do
    let (_, db) ← db.link ino newParent newName now
    .ok db
  | .unlinkEntry parent name isOpen => do
    let target ← db.lookup parent name
    db.unlinkEntry parent name target isOpen now
  | .removeDir parent name => db.removeDir parent name now
  | .renameEntry parent name newParent newName noreplace isOpen => do
    let (_, db) ← db.renameEntry parent name newParent newName noreplace isOpen now
    .ok db
  | .deleteInode ino => db.deleteInode ino
  | .writeFileBatch ino writes => do
    let (_, db) ← db.writeFileBatchAt ino writes now
    .ok db
  | .truncateFile ino size => db.truncateFile ino size now
  | .updateMetadata ino update => db.updateMetadata ino update now
  | .reopen mountUid mountGid => .ok (db.initializeTables mountUid mountGid now)

def step (db : Db) (call : Timestamp × StoreCall) : Db :=
  match db.perform call.1 call.2 with
  | .ok db' => db'
  | .error _ => db

def Allowed (db : Db) (call : Timestamp × StoreCall) : Prop :=
  match call.2 with
  | .deleteInode ino => (db.findInode ino).any fun r => r.nlink = 0
  | _ => True

instance (db : Db) : ∀ call, Decidable (Allowed db call)
  | (_, .deleteInode ino) => inferInstanceAs (Decidable ((db.findInode ino).any _ = true))
  | (_, .createNode ..) | (_, .link ..) | (_, .unlinkEntry ..) | (_, .removeDir ..)
  | (_, .renameEntry ..) | (_, .writeFileBatch ..) | (_, .truncateFile ..)
  | (_, .updateMetadata ..) | (_, .reopen ..) => inferInstanceAs (Decidable True)

/-- The store after `calls`. -/
def runCalls (db : Db) (calls : List (Timestamp × StoreCall)) : Db := runFrom step db calls

def AllowedCalls (db : Db) (calls : List (Timestamp × StoreCall)) : Prop :=
  LegalRun step Allowed db calls

instance (db : Db) (calls : List (Timestamp × StoreCall)) : Decidable (db.AllowedCalls calls) :=
  decidableLegalRun step Allowed db calls

variable {db db' : Db}

theorem Sound.perform (hs : db.Sound) {now : Timestamp} {call : StoreCall}
    (hallowed : db.Allowed (now, call)) (h : db.perform now call = .ok db') : db'.Sound := by
  cases call with
  | createNode parent name node uid gid =>
    obtain ⟨⟨inode, db''⟩, h, ⟨⟩⟩ := except_bind_eq_ok.mp h
    exact hs.createNode h
  | link ino newParent newName =>
    obtain ⟨⟨inode, db''⟩, h, ⟨⟩⟩ := except_bind_eq_ok.mp h
    exact hs.link h
  | unlinkEntry parent name isOpen =>
    obtain ⟨target, hlookup, h⟩ := except_bind_eq_ok.mp h
    exact hs.unlinkEntry hlookup h
  | removeDir parent name => exact hs.removeDir h
  | renameEntry parent name newParent newName noreplace isOpen =>
    obtain ⟨⟨replaced, db''⟩, h, ⟨⟩⟩ := except_bind_eq_ok.mp h
    exact hs.renameEntry h
  | deleteInode ino =>
    cases h
    change (db.findInode ino).any (fun r => r.nlink = 0) = true at hallowed
    rcases hfind : db.findInode ino with _ | r
    · simp [hfind] at hallowed
    · rw [hfind, Option.any_some, decide_eq_true_eq] at hallowed
      exact hs.deleteInodeRows (by simp [kindOf_of_find hfind])
        ((nlinkOf_of_find hfind).trans hallowed)
  | writeFileBatch ino writes =>
    obtain ⟨⟨written, db''⟩, h, ⟨⟩⟩ := except_bind_eq_ok.mp h
    exact hs.writeFileBatchAt h
  | truncateFile ino size => exact hs.truncateFile h
  | updateMetadata ino update => exact hs.updateMetadata h
  | reopen mountUid mountGid =>
    cases h
    exact hs.initializeTables now mountUid mountGid

theorem Sound.step (hs : db.Sound) {call : Timestamp × StoreCall} (hallowed : db.Allowed call) :
    (db.step call).Sound := by
  unfold Db.step
  split
  · next h => exact hs.perform hallowed h
  · exact hs

theorem Sound.runCalls (hs : db.Sound) {calls : List (Timestamp × StoreCall)}
    (h : db.AllowedCalls calls) : (db.runCalls calls).Sound :=
  runFrom_induction (I := Sound) (fun _ _ hallowed hs => hs.step hallowed) hs h

section Tree

variable (mountUid mountGid : UInt32) (now : Timestamp)

/-- In every reachable store the entries form a tree of directories below the root, and the
ancestor walk ends on every directory with the right answer. -/
theorem tree_of_run (calls : List (Timestamp × StoreCall))
    (h : (Db.fresh mountUid mountGid now).AllowedCalls calls) :
    let db := (Db.fresh mountUid mountGid now).runCalls calls
    db.names.Tree ∧ ∀ dir, db.kindOf dir = some .directory → ∀ ancestor,
      ∃ answer, db.isDescendant dir ancestor = some answer ∧
        (answer = true ↔ ReflTransGen db.names.Up dir ancestor) := by
  have hs := (Sound.fresh mountUid mountGid now).runCalls h
  exact ⟨hs.tree, fun dir hdir ancestor => isDescendant_spec hs.tree hdir ancestor⟩

def subtreeMove : List (Timestamp × StoreCall) := [
  (⟨1, 0⟩, .createNode 1 [97] (.directory 0o755) 0 0),
  (⟨2, 0⟩, .createNode 2 [98] (.directory 0o755) 0 0),
  (⟨3, 0⟩, .createNode 3 [99] (.file 0o644) 0 0),
  (⟨4, 0⟩, .createNode 1 [100] (.directory 0o755) 0 0),
  (⟨5, 0⟩, .renameEntry 2 [98] 1 [100] false fun _ => false)]

theorem tree_of_subtreeMove :
    (Db.fresh 0 0 ⟨0, 0⟩).AllowedCalls subtreeMove ∧
      ((Db.fresh 0 0 ⟨0, 0⟩).runCalls subtreeMove).names.Tree := by
  have hallowed : (Db.fresh 0 0 ⟨0, 0⟩).AllowedCalls subtreeMove := by decide
  exact ⟨hallowed, (tree_of_run 0 0 ⟨0, 0⟩ subtreeMove hallowed).1⟩

/-- In every reachable store the link counts are exact, so recomputing them changes nothing. -/
theorem nlink_of_run (calls : List (Timestamp × StoreCall))
    (h : (Db.fresh mountUid mountGid now).AllowedCalls calls) :
    let db := (Db.fresh mountUid mountGid now).runCalls calls
    (∀ ino r, db.findInode ino = some r → r.nlink =
      if r.kind = .directory then
        2 + db.dirents.countP fun d => d.parentIno = ino ∧ db.kindOf d.childIno = some .directory
      else db.dirents.countP fun d => d.childIno = ino) ∧
    db.recomputeDirectoryNlink = db := by
  intro db
  have hs : db.Sound := (Sound.fresh mountUid mountGid now).runCalls h
  refine ⟨fun ino r hr => ?_, recompute_eq hs.toLinked⟩
  have hexact := hs.exact ino (by simp [names, kindOf_of_find hr])
  change db.nlinkOf ino = _ at hexact
  rw [nlinkOf_of_find hr] at hexact
  rw [hexact, Names.linkCount]
  refine if_congr ?_ rfl rfl
  simp [names, kindOf_of_find hr]

def linkedFile : List (Timestamp × StoreCall) := [
  (⟨1, 0⟩, .createNode 1 [97] (.file 0o644) 0 0),
  (⟨2, 0⟩, .link 2 1 [98]),
  (⟨3, 0⟩, .renameEntry 1 [97] 1 [98] false fun _ => false),
  (⟨4, 0⟩, .unlinkEntry 1 [98] true),
  (⟨5, 0⟩, .deleteInode 2),
  (⟨6, 0⟩, .reopen 0 0)]

theorem nlink_of_linkedFile :
    (Db.fresh 0 0 ⟨0, 0⟩).AllowedCalls linkedFile ∧
      ((Db.fresh 0 0 ⟨0, 0⟩).runCalls linkedFile).recomputeDirectoryNlink =
        (Db.fresh 0 0 ⟨0, 0⟩).runCalls linkedFile := by
  have hallowed : (Db.fresh 0 0 ⟨0, 0⟩).AllowedCalls linkedFile := by decide
  exact ⟨hallowed, (nlink_of_run 0 0 ⟨0, 0⟩ linkedFile hallowed).2⟩

end Tree

end Db

end VibeDbfs
