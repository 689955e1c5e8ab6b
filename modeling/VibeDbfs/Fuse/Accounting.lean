import VibeDbfs.Fuse.Runs

/-!
Who owns what in the open-inode table between two calls: each arena slot, each table slot and each
handle is either free, once, or has exactly one user.
-/

set_option autoImplicit false
set_option relaxedAutoImplicit false

namespace VibeDbfs

open Lib Lib.Bytes Shared

variable {env : Env} {busy : Nat → Prop} {db : Db}

namespace OpenTable

/-- The arena slot `a` is in the free list, and no live inode uses it. -/
def FreeOnce (t : OpenTable) (a : ArenaSlot) : Prop :=
  t.arena.free.count a = 1 ∧
    ∀ slot ∈ t.inodes.values, a ∉ (t.inodes.get slot).dirty.entries.map Prod.snd

/-- The arena slot `a` is in one entry of the dirty index of one live inode, and not free. -/
def DirtyOnce (t : OpenTable) (a : ArenaSlot) : Prop :=
  a ∉ t.arena.free ∧ ∃ slot ∈ t.inodes.values,
    ((t.inodes.get slot).dirty.entries.map Prod.snd).count a = 1 ∧
      ∀ slot' ∈ t.inodes.values, a ∈ (t.inodes.get slot').dirty.entries.map Prod.snd →
        slot' = slot

/-- Every arena slot has exactly one owner, within the budget. -/
structure ArenaOwned (writeBuffer : Nat) (t : OpenTable) : Prop where
  owned : ∀ a < t.arena.len.length, (FreeOnce t a ∧ ¬DirtyOnce t a) ∨
    (DirtyOnce t a ∧ ¬FreeOnce t a)
  inside : ∀ a, FreeOnce t a ∨ DirtyOnce t a → a < t.arena.len.length
  sorted : ∀ slot ∈ t.inodes.values,
    ((t.inodes.get slot).dirty.entries.map Prod.fst).Pairwise (· < ·)
  valid : ∀ n ∈ t.arena.len, n ≤ chunkSize
  budget : t.arena.len.length ≤ max 1 (writeBuffer / chunkSize)

variable {t : OpenTable} {a : ArenaSlot} {slot : Slot}

private theorem WF.live_of_dirty (h : t.WF []) (ha : a ∈ (t.inodes.get slot).dirty.slots) :
    slot ∈ t.inodes.values := by
  by_contra hout
  rw [(h.unused slot hout).2] at ha
  cases ha

private theorem WF.owned_once (h : t.WF []) (ha : a < t.arena.len.length) :
    FreeOnce t a ∨ DirtyOnce t a := by
  have hnodup := h.nodup
  have hperm := h.arena
  rw [List.append_nil] at hnodup hperm
  obtain ⟨hfree, howned, hdisjoint⟩ := List.nodup_append.mp hnodup
  rcases List.mem_append.mp (hperm.mem_iff.mpr (List.mem_range.mpr ha)) with hin | hin
  · exact .inl ⟨List.count_eq_one_of_mem hfree hin, fun slot _ hdirty =>
      hdisjoint a hin a (mem_owned hdirty) rfl⟩
  · obtain ⟨o, ho, hdirty⟩ := List.mem_flatMap.mp hin
    obtain ⟨slot, hlt, rfl⟩ := List.getElem_of_mem ho
    rw [owned, (Cells.flatMap_perm hlt).nodup_iff, List.nodup_append] at howned
    rw [← get_eq_getElem hlt] at hdirty howned
    exact .inr ⟨fun hfree' => hdisjoint a hfree' a hin rfl, slot, h.live_of_dirty hdirty,
      List.count_eq_one_of_mem howned.1 hdirty, fun slot' _ hdirty' => h.owner_unique
        hdirty hdirty'⟩

private theorem not_dirtyOnce (h : FreeOnce t a) : ¬DirtyOnce t a := fun hdirty =>
  hdirty.1 (List.count_pos_iff.mp (by rw [h.1]; exact Nat.one_pos))

private theorem WF.arenaOwned (h : t.WF []) {writeBuffer : Nat}
    (hslots : t.arena.maxSlots = max (writeBuffer / chunkSize) 1) : ArenaOwned writeBuffer t where
  owned a ha := (h.owned_once ha).imp (fun hf => ⟨hf, not_dirtyOnce hf⟩)
    fun hd => ⟨hd, fun hf => not_dirtyOnce hf hd⟩
  inside a ha := by
    refine h.mem_lt ?_
    rw [List.append_nil]
    rcases ha with ⟨hcount, -⟩ | ⟨-, slot, -, hcount, -⟩
    · exact List.mem_append_left _ (List.count_pos_iff.mp (by rw [hcount]; exact Nat.one_pos))
    · have hdirty : a ∈ (t.inodes.get slot).dirty.slots :=
        List.count_pos_iff.mp (by rw [DirtyIdx.slots, hcount]; exact Nat.one_pos)
      exact List.mem_append_right _ (mem_owned hdirty)
  sorted slot _ := h.sorted slot
  valid := h.bounded
  budget := by
    rw [max_comm, ← hslots]
    exact h.room.len

structure Consistent (t : OpenTable) : Prop where
  keys : (t.inodes.byIno.map Prod.fst).Nodup
  ino : ∀ ino slot, t.inodes.find ino = some slot →
    slot < t.inodes.slots.length ∧ (t.inodes.get slot).ino = ino
  injective : ∀ ino ino' slot, t.inodes.find ino = some slot → t.inodes.find ino' = some slot →
    ino = ino'
  freeSlots : t.inodes.free.Nodup ∧ ∀ slot, slot ∈ t.inodes.free ↔
    slot < t.inodes.slots.length ∧ ∀ ino, t.inodes.find ino ≠ some slot
  freeHandles : t.handles.free.Nodup ∧ ∀ fh, fh ∈ t.handles.free ↔ t.handles.slot[fh]? = some none
  live : ∀ fh slot, t.handles.get fh = some slot → ∃ ino, t.inodes.find ino = some slot
  refs : ∀ ino slot, t.inodes.find ino = some slot →
    (t.inodes.get slot).refs = t.handles.slot.count (some slot)

private theorem WF.consistent (h : t.WF []) : t.Consistent where
  keys := h.inos
  ino _ _ hf := ⟨h.find_lt hf, h.find_ino hf⟩
  injective _ _ _ := h.find_inj
  freeSlots := by
    obtain ⟨-, hfree, hdisjoint⟩ := List.nodup_append.mp h.slots
    refine ⟨hfree, fun slot => ⟨fun hin => ⟨h.bound slot (List.mem_append_right _ hin),
      fun ino hf => hdisjoint slot (h.find_mem hf) slot hin rfl⟩, fun ⟨hlt, hnone⟩ => ?_⟩⟩
    refine (List.mem_append.mp (h.cover.mem_iff.mpr (List.mem_range.mpr hlt))).resolve_left ?_
    exact fun hlive => hnone _ (h.find_of_mem hlive)
  freeHandles := ⟨h.handles.nodup, h.handles.closed⟩
  live _ _ hfh := ⟨_, h.find_of_handle hfh⟩
  refs _ _ _ := h.refs _

end OpenTable

namespace Dbfs

def handleOf : Call → Option Nat
  | .readFh fh _ _ => some fh
  | .writeFh fh _ _ => some fh
  | .flushFh fh => some fh
  | .syncFh fh => some fh
  | .releaseFile fh => some fh
  | _ => none

/-- Some call of the run hands out `fh`. -/
def HandsOut (env : Env) (fh : Nat) : Shared → List Call → Prop
  | _, [] => False
  | s, c :: calls => newHandle (reply env s c) = some fh ∨ HandsOut env fh (step env s c) calls

/-- What a handle means from the state `s` on, when `calls` come next. -/
structure HandleLife (env : Env) (s : Shared) (calls : List Call) : Prop where
  kept : ∀ fh ino, s.table.handleIno fh = some ino → .releaseFile fh ∉ calls →
    (run env s calls).table.handleIno fh = some ino
  closed : ∀ fh, s.table.handleIno fh = none → ¬HandsOut env fh s calls →
    (run env s calls).table.handleIno fh = none
  badHandle : ∀ c fh, handleOf c = some fh → s.table.handleIno fh = none →
    reply env s c = .error .EBADF ∧ (call env c s).2 = s
  opened : ∀ ino fh, Legal s (.openFile ino) → reply env s (.openFile ino) = .ok (.opened fh) →
    s.table.handleIno fh = none ∧ (step env s (.openFile ino)).table.handleIno fh = some ino
  created : ∀ parent name mode umask uid gid attr fh,
    reply env s (.createOpen parent name mode umask uid gid) = .ok (.created attr fh) →
      s.table.handleIno fh = none ∧
      (step env s (.createOpen parent name mode umask uid gid)).table.handleIno fh = some attr.ino
  released : ∀ fh, (step env s (.releaseFile fh)).table.handleIno fh = none
  counted : ∀ fh slot, s.table.handles.get fh = some slot → 0 < (s.table.inodes.get slot).refs

section Handles

variable {s : Shared} {fh ino : Nat}

private theorem handleAfter_of_some {c : Call} {r : Except Errno Reply}
    (hfh : s.table.handleIno fh = some ino)
    (hfresh : ∀ k, newHandle r = some k → s.table.handleIno k = none) (hc : c ≠ .releaseFile fh) :
    handleAfter s fh c r = some ino := by
  have hne : ∀ k, newHandle r = some k → fh ≠ k := by
    rintro k hk rfl
    exact nomatch (hfresh fh hk).symm.trans hfh
  unfold handleAfter
  split
  · exact (if_neg (hne _ rfl)).trans hfh
  · exact (if_neg (hne _ rfl)).trans hfh
  · next k =>
    refine (if_neg ?_).trans hfh
    rintro rfl
    exact hc rfl
  · exact hfh

private theorem handleAfter_of_none {c : Call} {r : Except Errno Reply}
    (hfh : s.table.handleIno fh = none)
    (hnew : newHandle r ≠ some fh) : handleAfter s fh c r = none := by
  unfold handleAfter
  split
  · exact (if_neg fun heq => hnew (congrArg some heq.symm)).trans hfh
  · exact (if_neg fun heq => hnew (congrArg some heq.symm)).trans hfh
  · split
    · rfl
    · exact hfh
  · exact hfh

private theorem handles_run {calls : List Call} (h : s.Inv [] fun _ => False)
    (hcalls : LegalCalls env s calls) :
    (∀ fh ino, s.table.handleIno fh = some ino → .releaseFile fh ∉ calls →
      (run env s calls).table.handleIno fh = some ino) ∧
    ∀ fh, s.table.handleIno fh = none → ¬HandsOut env fh s calls →
      (run env s calls).table.handleIno fh = none := by
  induction calls generalizing s with
  | nil => exact ⟨fun _ _ hfh _ => hfh, fun _ hfh _ => hfh⟩
  | cons c calls ih =>
    have hkeeps := step_keeps env h (Legal.admissible h hcalls.1)
    obtain ⟨hkept, hclosed⟩ := ih hkeeps.inv hcalls.2
    refine ⟨fun fh ino hfh hnot => hkept fh ino ?_ fun hin => hnot (List.mem_cons_of_mem _ hin),
      fun fh hfh hnot => hclosed fh ?_ fun hout => hnot (.inr hout)⟩
    · rw [hkeeps.handles]
      exact handleAfter_of_some hfh hkeeps.fresh fun heq => hnot (heq ▸ List.mem_cons_self)
    · rw [hkeeps.handles]
      exact handleAfter_of_none hfh fun heq => hnot (.inl heq)

private theorem reply_badHandle {c : Call} (hc : handleOf c = some fh)
    (hfh : s.table.handleIno fh = none) :
    reply env s c = .error .EBADF ∧ (call env c s).2 = s := by
  have hget : s.table.handles.get fh = none := Option.map_eq_none_iff.mp hfh
  change Prog.wp (call env c) (fun r s' => r = .error .EBADF ∧ s' = s) s
  cases c with
  | readFh k offset size =>
    obtain rfl : k = fh := Option.some.inj hc
    rw [call, Prog.wp_map, Fs.readFh, Fs.wp_table_bind, hget]
    exact ⟨rfl, rfl⟩
  | writeFh k offset data =>
    obtain rfl : k = fh := Option.some.inj hc
    rw [call, Prog.wp_map, Fs.writeFh, Fs.wp_table_bind, hget]
    exact ⟨rfl, rfl⟩
  | flushFh k =>
    obtain rfl : k = fh := Option.some.inj hc
    rw [call, Prog.wp_map, Fs.flushFh, Fs.wp_table_bind, hget]
    exact ⟨rfl, rfl⟩
  | syncFh k =>
    obtain rfl : k = fh := Option.some.inj hc
    rw [call, Prog.wp_map, Fs.syncFh, Prog.wp_bind_iff, Fs.flushFh, Fs.wp_table_bind, hget]
    exact ⟨rfl, rfl⟩
  | releaseFile k =>
    obtain rfl : k = fh := Option.some.inj hc
    have hrelease : s.table.handles.release k = none := by rw [Handles.release, hget]; rfl
    rw [call, Prog.wp_map, Fs.releaseFh, Fs.wp_table_bind, hrelease]
    exact ⟨rfl, rfl⟩
  | _ => cases hc

private theorem handleLife {calls : List Call} (h : s.Inv [] fun _ => False)
    (hcalls : LegalCalls env s calls) : HandleLife env s calls where
  kept := (handles_run h hcalls).1
  closed := (handles_run h hcalls).2
  badHandle _ _ := reply_badHandle
  opened ino fh hlegal hreply := by
    have hkeeps := step_keeps env h (Legal.admissible h hlegal)
    rw [hreply] at hkeeps
    exact ⟨hkeeps.fresh fh rfl, (hkeeps.handles fh).trans (if_pos rfl)⟩
  created parent name mode umask uid gid attr fh hreply := by
    have hkeeps := step_keeps env (c := .createOpen parent name mode umask uid gid) h trivial
    rw [hreply] at hkeeps
    exact ⟨hkeeps.fresh fh rfl, (hkeeps.handles fh).trans (if_pos rfl)⟩
  released fh := by
    have hkeeps := step_keeps env (c := .releaseFile fh) h trivial
    exact (hkeeps.handles fh).trans (if_pos rfl)
  counted _ _ := h.table.refs_pos

end Handles

/-- After every legal run each arena slot has one owner. -/
theorem arenaOwned_of_run (hdb : db.Reached) (writeBuffer : Nat) (env : Env) (calls : List Call)
    (h : LegalCalls env (.withWriteBuffer db writeBuffer) calls) :
    (run env (.withWriteBuffer db writeBuffer) calls).table.ArenaOwned writeBuffer :=
  (inv_of_run hdb writeBuffer h).1.table.arenaOwned (inv_of_run hdb writeBuffer h).2

/-- The environment of an uneventful run: nothing fails, and each access takes a second. -/
def calm : Env := ⟨fun _ => none, fun n => n * 1000000000, fun _ slots => slots, fun _ _ => .refl _⟩

def sharedFile : List Call := [
  .createOpen 1 [97] 0o644 0 0 0,
  .writeFh 0 0 [1, 2, 3],
  .openFile 2,
  .unlink 1 [97],
  .releaseFile 0]

theorem sharedFile_legal :
    LegalCalls calm (.withWriteBuffer (.fresh 0 0 ⟨0, 0⟩) 65536) sharedFile := by
  decide

theorem arenaOwned_of_sharedFile :
    (run calm (.withWriteBuffer (.fresh 0 0 ⟨0, 0⟩) 65536) sharedFile).table.ArenaOwned 65536 :=
  arenaOwned_of_run (.fresh 0 0 ⟨0, 0⟩) 65536 calm sharedFile sharedFile_legal

/-- After every legal run the table is consistent, and through the calls that follow the handles
keep their meaning. -/
theorem handles_of_run (hdb : db.Reached) (writeBuffer : Nat) (env : Env) (calls next : List Call)
    (h : LegalCalls env (.withWriteBuffer db writeBuffer) (calls ++ next)) :
    let s := run env (.withWriteBuffer db writeBuffer) calls
    s.table.Consistent ∧ HandleLife env s next := by
  obtain ⟨hcalls, hnext⟩ := legalRun_append.mp h
  have hinv := (inv_of_run hdb writeBuffer hcalls).1
  exact ⟨hinv.table.consistent, handleLife hinv hnext⟩

theorem handles_of_sharedFile :
    (run calm (.withWriteBuffer (.fresh 0 0 ⟨0, 0⟩) 65536) sharedFile).table.Consistent :=
  (handles_of_run (.fresh 0 0 ⟨0, 0⟩) 65536 calm sharedFile [] sharedFile_legal).1

end Dbfs

end VibeDbfs
