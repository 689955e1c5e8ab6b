import VibeDbfs.Fuse.ConcurrentReads
import VibeDbfs.Storage.ByteArray

/-!
The same calls without a buffer: each one changes the stored file at once. What a mount buffers,
evicts and flushes comes to the same file in the end.
-/

set_option autoImplicit false
set_option relaxedAutoImplicit false

namespace VibeDbfs

open Lib Lib.Bytes Shared

namespace Dbfs

variable {db : Db} {ino : Nat} {bytes : Bytes} {c : Call} {now : Timestamp}

/-- What the call does to the stored file `ino` when nothing is buffered. -/
def direct (ino : Nat) (now : Timestamp) (db : Db) : Call → Db
  | .write _ offset data => DataCall.step ino db (now, .write [(offset, data)])
  | .writeFh _ offset data => DataCall.step ino db (now, .write [(offset, data)])
  | .setattr _ _ _ _ (some size) _ _ => DataCall.step ino db (now, .truncate size)
  | .fallocate _ offset length mode =>
    match Fs.fallocateStop offset length mode with
    | some stop => DataCall.step ino db (now, .truncate (max (db.storedSize ino) stop))
    | none => db
  | _ => db

private theorem onArray_write {offset : Nat} {data : Bytes}
    (hmax : (written offset data bytes).length ≤ maxFileSize) :
    DataCall.onArray bytes (.write [(offset, data)]) = written offset data bytes := by
  rw [DataCall.onArray, if_neg]
  · rfl
  · rintro ⟨⟨w, hw, hdata⟩, ⟨w', hw', hlarge⟩⟩
    rw [List.mem_singleton.mp hw] at hdata
    rw [List.mem_singleton.mp hw'] at hlarge
    rw [written, if_neg hdata, length_splice] at hmax
    exact Nat.not_lt.mpr ((Nat.le_max_right _ _).trans hmax) hlarge

private theorem onArray_truncate {size : Nat} (hmax : size ≤ maxFileSize) :
    DataCall.onArray bytes (.truncate size) = resize size bytes := if_neg (Nat.not_lt.mpr hmax)

private theorem direct_holds (h : db.Holds ino bytes) (now : Timestamp) (c : Call)
    (hmax : (newContent c bytes).length ≤ maxFileSize) :
    (direct ino now db c).Holds ino (newContent c bytes) := by
  have hstep : ∀ {call : DataCall} {bytes' : Bytes}, DataCall.onArray bytes call = bytes' →
      (DataCall.step ino db (now, call)).Holds ino bytes' := by
    rintro call bytes' rfl
    exact (DataCall.step_spec h (now, call)).1
  cases c with
  | write i offset data => exact hstep (onArray_write hmax)
  | writeFh fh offset data => exact hstep (onArray_write hmax)
  | setattr i mode uid gid size atime mtime =>
    cases size with
    | none => exact h
    | some size =>
      have hsize : size ≤ maxFileSize := by
        rwa [newContent, Fs.resized, length_resize] at hmax
      exact hstep (onArray_truncate hsize)
  | fallocate i offset length mode =>
    rw [direct]
    rw [newContent] at hmax ⊢
    rcases hstop : Fs.fallocateStop offset length mode with _ | stop
    · exact h
    · rw [hstop] at hmax
      have hsize : max bytes.length stop ≤ maxFileSize := by
        rwa [Option.map_some, Fs.resized, length_resize] at hmax
      rw [h.size]
      exact hstep (onArray_truncate hsize)
  | _ => exact h

end Dbfs

namespace Threads

variable {env : Env} {ino : Nat} {stamp : Threads → Timestamp}

/-- A mount, and beside it a store in which the calls on `ino` that return are done directly. -/
def beside (env : Env) (ino : Nat) (stamp : Threads → Timestamp) (p : Threads × Db) (e : Event) :
    Threads × Db :=
  (step env p.1 e,
    match ends env p.1 e with
    | some (c, _) =>
      if Dbfs.changes p.1.shared c = some ino then Dbfs.direct ino (stamp p.1) p.2 c else p.2
    | none => p.2)

/-- No call on the file `ino` fails, and it keeps a name. -/
def Succeeds (env : Env) (ino : Nat) (p : Threads × Db) (e : Event) : Prop :=
  Allowed p.1 e ∧ (step env p.1 e).shared.db.Named ino ∧
    ∀ q ∈ ends env p.1 e, Dbfs.changes p.1.shared q.1 = some ino → q.2.isOk = true

instance (p : Threads × Db) (e : Event) : Decidable (Succeeds env ino p e) :=
  have : Decidable ((step env p.1 e).shared.db.Named ino) := inferInstanceAs (Decidable (_ ∧ _))
  inferInstanceAs (Decidable (_ ∧ _ ∧ _))

variable {t : Threads} {bytes : Bytes}

/-- The content of the file `ino` after a call that did not fail on it. -/
noncomputable def became (t : Threads) (ino : Nat) (c : Call) (bytes : Bytes) : Bytes :=
  if Dbfs.changes t.shared c = some ino then Dbfs.newContent c bytes else bytes

private theorem content_returned {c : Call} {r : Except Errno Reply} {s : Shared}
    (hkind : (s.db.kindOf ino).isSome) (hcontent : t.content ino = {bytes})
    (hok : Dbfs.changes t.shared c = some ino → r.isOk = true) :
    (t.returned c r s).content ino = {t.became ino c bytes} := by
  have hreturned : (t.returned c r s).content ino =
      if (s.db.kindOf ino).isSome then
        if Dbfs.changes t.shared c = some ino then
          {bytes | ∃ old ∈ t.content ino, Dbfs.Becomes c r old bytes}
        else t.content ino
      else {[]} := rfl
  rw [hreturned, if_pos hkind]
  unfold became
  split
  · next hchanges =>
    ext bytes'
    rw [hcontent]
    simp [Dbfs.Becomes, hok hchanges]
  · exact hcontent

/-- A section that ends a call makes of the content what the call does, and one that ends none
leaves it. -/
private theorem content_step (env : Env) (e : Event)
    (hkind : ((step env t e).shared.db.kindOf ino).isSome) (hcontent : t.content ino = {bytes})
    (hok : ∀ q ∈ ends env t e, Dbfs.changes t.shared q.1 = some ino → q.2.isOk = true) :
    (step env t e).content ino =
      {((ends env t e).map fun q => t.became ino q.1 bytes).getD bytes} := by
  cases e with
  | call c =>
    rcases hsession : t.session with _ | ⟨c', rest⟩ | q
    · rw [step, hsession] at hkind ⊢
      rw [ends, hsession] at hok ⊢
      dsimp only at hkind hok ⊢
      rcases hfirst : Dbfs.firstSection env c t.shared with ⟨errno | rest, s⟩
      · rw [hfirst] at hkind hok
        exact content_returned hkind hcontent (hok _ rfl)
      · rw [hfirst] at hkind hok
        cases rest with
        | done reply => exact content_returned hkind hcontent (hok _ rfl)
        | _ => exact (if_pos hkind).trans hcontent
    all_goals
      rw [step, ends, hsession]
      exact hcontent
  | resume =>
    rcases hsession : t.session with _ | ⟨c, rest⟩ | q
    · rw [step, ends, hsession]
      exact hcontent
    · rw [step, hsession] at hkind ⊢
      rw [ends, hsession] at hok ⊢
      exact content_returned hkind hcontent (hok _ rfl)
    · rw [step, ends, hsession]
      exact hcontent
  | destroy =>
    rcases hsession : t.session with _ | ⟨c, rest⟩ | q
    all_goals
      rw [step, hsession]
      exact hcontent
  | shutdown => exact hcontent

/-- The same threads, where other contents are known. -/
def knowing (t : Threads) (content : Nat → Set Bytes) : Threads := { t with content := content }

/-- No thread looks at what is known of the contents. -/
private theorem step_knowing (env : Env) (t : Threads) (content : Nat → Set Bytes) (e : Event) :
    ∃ content', step env (t.knowing content) e = (step env t e).knowing content' := by
  cases e with
  | call c =>
    rcases hsession : t.session with _ | ⟨c', rest⟩ | q
    · rw [step, step, hsession, show (t.knowing content).session = .idle from hsession]
      change ∃ content', (t.knowing content).begun c (Dbfs.firstSection env c t.shared) =
        (t.begun c (Dbfs.firstSection env c t.shared)).knowing content'
      rcases Dbfs.firstSection env c t.shared with ⟨errno | rest, s⟩
      · exact ⟨_, rfl⟩
      · cases rest <;> exact ⟨_, rfl⟩
    all_goals
      rw [step, step, hsession, show (t.knowing content).session = _ from hsession]
      exact ⟨content, rfl⟩
  | resume =>
    rcases hsession : t.session with _ | ⟨c, rest⟩ | q
    all_goals
      rw [step, step, hsession, show (t.knowing content).session = _ from hsession]
      exact ⟨_, rfl⟩
  | destroy =>
    rcases hsession : t.session with _ | ⟨c, rest⟩ | q
    all_goals
      rw [step, step, hsession, show (t.knowing content).session = _ from hsession]
      exact ⟨content, rfl⟩
  | shutdown => exact ⟨content, rfl⟩

private theorem Sound.knowing (h : Sound t) :
    Sound (t.knowing fun ino => {(t.shared.file ino).bytes}) :=
  { h with
    content := fun _ _ => rfl
    missing := fun ino hmissing => by
      change {(t.shared.file ino).bytes} = _
      rw [h.inv.toCore.bytes_of_missing hmissing] }

/-- The two stores agree on the file `ino`, where the content is known. -/
structure Agree (ino : Nat) (p : Threads × Db) (content : Nat → Set Bytes) : Prop where
  sound : Sound (p.1.knowing content)
  named : p.1.shared.db.Named ino
  content : ∃ bytes, content ino = {bytes} ∧ p.2.Holds ino bytes

variable {p : Threads × Db} {content : Nat → Set Bytes}

private theorem Agree.bytes_eq (h : Agree ino p content) :
    (p.1.shared.file ino).bytes = p.2.array ino := by
  obtain ⟨bytes, hcontent, hholds⟩ := h.content
  have hmem := h.sound.content ino (live_of_named h.named)
  change _ ∈ content ino at hmem
  rw [hcontent] at hmem
  rw [hholds.array_eq]
  exact hmem

private theorem agree_step (h : Agree ino p content) {e : Event} (he : Succeeds env ino p e) :
    ∃ content', Agree ino (beside env ino stamp p e) content' := by
  obtain ⟨hallowed, hnamed, hok⟩ := he
  obtain ⟨bytes, hcontent, hholds⟩ := h.content
  have hallowed' : Allowed (p.1.knowing content) e := by
    cases e <;> exact hallowed
  have hends' : ends env (p.1.knowing content) e = ends env p.1 e := by
    cases e <;> rfl
  obtain ⟨content', hstep⟩ := step_knowing env p.1 content e
  have hsound : Sound ((step env p.1 e).knowing content') :=
    hstep ▸ sound_step env h.sound hallowed'
  have hkind : ((step env (p.1.knowing content) e).shared.db.kindOf ino).isSome := by
    rw [hstep]
    exact Option.isSome_of_eq_some hnamed.1
  have hnext := content_step env e hkind hcontent (hends' ▸ hok)
  rw [hstep, hends'] at hnext
  refine ⟨content', hsound, hnamed, _, hnext, ?_⟩
  change Db.Holds (match ends env p.1 e with
    | some (c, _) =>
      if Dbfs.changes p.1.shared c = some ino then Dbfs.direct ino (stamp p.1) p.2 c else p.2
    | none => p.2) ino _
  rcases hends : ends env p.1 e with _ | ⟨c, r⟩
  · exact hholds
  · rw [hends] at hnext
    change content' ino = {p.1.became ino c bytes} at hnext
    change Db.Holds _ ino (p.1.became ino c bytes)
    -- the new content is that of a regular file, which is never too large
    have hmax : (p.1.became ino c bytes).length ≤ maxFileSize := by
      have hmem := hsound.content ino (live_of_named hnamed)
      change _ ∈ content' ino at hmem
      rw [hnext] at hmem
      rw [← show _ = p.1.became ino c bytes from hmem, File.length_bytes]
      exact (hsound.inv.toCore.file_ok ino).size_le hnamed.1
    unfold became at hmax ⊢
    dsimp only
    split
    · next hchanges =>
      rw [if_pos hchanges] at hmax
      exact Dbfs.direct_holds hholds (stamp p.1) c hmax
    · exact hholds

private theorem beside_run (env : Env) (ino : Nat) (stamp : Threads → Timestamp)
    (events : List Event) (p : Threads × Db) :
    (runFrom (beside env ino stamp) p events).1 = runFrom (step env) p.1 events := by
  induction events generalizing p with
  | nil => rfl
  | cons e events ih => exact ih (beside env ino stamp p e)

def emptyFile : Db where
  inodes := [⟨1, .directory, 0o755, 0, 0, 0, 0, 0, 0, 2, false⟩,
    ⟨2, .regularFile, 0o644, 0, 0, 0, 0, 0, 0, 1, false⟩]
  dirents := [⟨1, 1, [97], 2⟩]
  fileChunks := []
  symlinkTargets := []

private theorem emptyFile_holds : emptyFile.Holds 2 [] := by
  refine ⟨⟨by decide, by decide, by decide, by decide⟩, by decide, by decide, rfl, fun p => ?_⟩
  unfold Db.byte
  split
  · rfl
  · rfl

def cutFile : List Event :=
  [.call (.writeFh 0 0 [1, 2, 3]), .call (.setattr 2 none none none (some 2) none none),
    .call (.write 2 5 [9]), .shutdown, .shutdown, .shutdown, .shutdown, .shutdown, .shutdown]

end Threads

end VibeDbfs
