import VibeDbfs.Fuse.AnyCalls
import VibeDbfs.Fuse.Failures

/-!
A slot stays live only while it is needed, until a `fallocate` flushes a file without handles and
then fails.
-/

set_option autoImplicit false
set_option relaxedAutoImplicit false

namespace VibeDbfs

open Lib Lib.Bytes

def Shared.SlotsNeeded (s : Shared) : Prop := ∀ slot ∈ s.table.inodes.values,
  0 < (s.table.inodes.get slot).refs ∨ (s.table.inodes.get slot).dirty.isEmpty = false

namespace Shared

variable {s : Shared}

private theorem Tidy.slotsNeeded (h : s.Tidy True fun _ => False) : s.SlotsNeeded := by
  intro slot hslot
  by_cases hrefs : (s.table.inodes.get slot).refs = 0
  · right
    rw [Bool.eq_false_iff]
    intro hempty
    exact h.table.needed slot hslot ⟨hrefs, OpenTable.isEmpty_iff_eq_empty.mp hempty⟩
  · left
    exact Nat.pos_of_ne_zero hrefs

private theorem SlotsNeeded.not_idle (h : s.SlotsNeeded) {slot : Slot}
    (hslot : slot ∈ s.table.inodes.values) : ¬(s.table.inodes.get slot).Idle := by
  rintro ⟨hrefs, hdirty⟩
  rcases h slot hslot with hpos | hneeded
  · exact Nat.lt_irrefl 0 (hrefs ▸ hpos)
  · rw [hdirty] at hneeded
    cases hneeded

end Shared

namespace Fs

section Abandon

variable {env : Env} {s : Shared} {slot : Slot} {ino : Nat} {offset length : Int} {mode : UInt32}

private theorem fallocateCheck_ok (hlimits : s.db.Limits)
    (hfits : Fallocates s.db ino offset length mode)
    (hfault : env.fault s.tick = none) : Prog.wp (fallocateCheck env ino offset length mode)
      (fun r s' => r = .ok (fallocateStop offset length mode) ∧ s'.table = s.table ∧
        s'.tick = s.tick + 1) s := by
  obtain ⟨hoffset, hlength, hflags, hkind, hmax⟩ := hfits
  have hrange : ¬(offset < 0 ∨ length ≤ 0) := by omega
  unfold fallocateCheck
  rw [if_neg hrange, if_neg (not_not.mpr hflags)]
  refine Prog.wp_bind (R := fun r s' => r = .ok .regularFile ∧ s'.table = s.table ∧
    s'.tick = s.tick + 1) ?_ (fun kind s₁ hs₁ => ?_) fun e s₁ hs₁ => ?_
  · refine wp_query (fun failure hfault' => ?_) (fun error herror => ?_) fun kind hok => ?_
    · cases hfault.symm.trans hfault'
    · cases herror.symm.trans (hlimits.inodeKindOf_of_regular hkind)
    · cases (Db.kindOf_of_read hok).symm.trans hkind
      exact ⟨rfl, rfl, rfl⟩
  · obtain ⟨hregular, htable, htick⟩ := hs₁
    obtain rfl := Except.ok.inj hregular
    have hi64 : ¬offset + length > i64Max := by
      simp only [i64Max, maxFileSize] at *
      omega
    have hstop : ¬(offset + length).toNat > maxFileSize := by omega
    rw [if_neg (not_not.mpr rfl), if_neg hi64]
    dsimp only
    rw [if_neg hstop, fallocateStop]
    split
    · exact ⟨rfl, htable, htick⟩
    · exact ⟨rfl, htable, htick⟩
  · cases hs₁.1

private theorem abandoned_idle (h : s.Tidy True fun _ => False)
    (habandons : FallocateAbandons env s ino offset length mode slot) :
    Prog.wp (fallocate env ino offset length mode) (fun _ s' =>
      slot ∈ s'.table.inodes.values ∧ (s'.table.inodes.get slot).Idle) s := by
  obtain ⟨haccepted, hgrows, hf, hrefs, hsize, hchecked, hflushed, hfailed⟩ := habandons
  have hdirty : (s.table.inodes.get slot).dirty ≠ .empty := fun hempty =>
    h.table.needed slot (OpenTable.mem_values_of_find hf) ⟨hrefs, hempty⟩
  have hstop : fallocateStop offset length mode = some (offset + length).toNat :=
    if_neg (not_not.mpr hgrows)
  rw [fallocate]
  refine Prog.wp_bind (Prog.wp_and (fallocateCheck_ok h.limits haccepted hchecked)
    (fallocateCheck_spec h.limits.inodeKindOf_of_regular))
    (fun stop s₁ hs₁ => ?_) fun e s₁ hs₁ => ?_
  · obtain ⟨⟨hok, htable, htick⟩, hdb, -⟩ := hs₁
    obtain rfl := (Except.ok.inj hok).trans hstop
    have h₁ : s₁.Tidy True fun _ => False := h.of_table hdb htable
    have hf₁ : s₁.table.inodes.find ino = some slot := htable ▸ hf
    have hdirty₁ : (s₁.table.inodes.get slot).dirty ≠ .empty := htable ▸ hdirty
    rw [fallocateLocked]
    refine Prog.wp_bind currentSize_tidy (fun size s₂ hs₂ => ?_) fun e s₂ hs₂ => ?_
    · obtain ⟨hgot, rfl⟩ := hs₂.2.2 slot hf₁
      obtain rfl := Except.ok.inj hgot
      rw [htable, if_neg (Nat.not_le.mpr hsize), truncateLocked, wp_table_bind, hf₁]
      dsimp only
      rw [ifSome]
      refine Prog.wp_bind (Prog.wp_and (flushSlot_tidy .persist h₁) (flushSlot_run hdirty₁))
        (fun _ s₃ hs₃ => ?_) fun e s₃ hs₃ => ?_
      · obtain ⟨⟨-, -, -, -, hbyIno, -, dirty, hget, -, hempty⟩, htick₃, -, -⟩ := hs₃
        rw [wp_now_bind]
        have hidle : slot ∈ s₃.table.inodes.values ∧ (s₃.table.inodes.get slot).Idle := by
          constructor
          · rw [OpenInodes.values, hbyIno]
            exact OpenTable.mem_values_of_find hf₁
          · rw [hget]
            refine ⟨?_, hempty rfl⟩
            change (s₂.table.inodes.get slot).refs = 0
            rw [htable]
            exact hrefs
        refine Prog.wp_bind (exec_outcome env _ { s₃ with tick := s₃.tick + 1 })
          (fun _ s₄ hs₄ => ?_) fun e s₄ hs₄ => ?_
        · obtain ⟨-, -, hnone, -⟩ := hs₄
          change env.fault (s₃.tick + 1) = none at hnone
          rw [htick₃, htick] at hnone
          exact (hfailed hnone).elim
        · rw [hs₄.2.1]
          exact hidle
      · obtain ⟨-, -, -, hiff⟩ := hs₃
        rw [htick] at hiff
        cases hiff.mpr hflushed
    · obtain ⟨hgot, -⟩ := hs₂.2.2 slot hf₁
      cases hgot
  · cases hs₁.1.1

end Abandon

end Fs

namespace Dbfs

variable {env : Env} {s : Shared} {c : Call}

/-- A call that abandons no slot leaves none that nothing needs. -/
private theorem step_tidy (h : s.Tidy True fun _ => False) (hc : ∀ slot, ¬Abandons env s c slot) :
    (step env s c).Tidy True fun _ => False := by
  have hcall : Prog.wp (call env c) _ s := call_tidy h (.inl trivial)
  rcases hcall with hkept | ⟨slot, habandons, hrefs, hslot, -⟩
  · exact ⟨hkept.table, hkept.limits⟩
  · refine (hc slot (habandons fun hempty => ?_)).elim
    exact h.table.needed slot hslot ⟨hrefs, hempty⟩

private theorem step_abandons (h : s.Tidy True fun _ => False) {slot : Slot}
    (hc : Abandons env s c slot) :
    ¬(step env s c).SlotsNeeded := by
  intro hneeded
  cases c with
  | fallocate ino offset length mode =>
    have hcall : Prog.wp (call env (.fallocate ino offset length mode)) (fun _ s' =>
        slot ∈ s'.table.inodes.values ∧ (s'.table.inodes.get slot).Idle) s :=
      (Prog.wp_map ..).mpr (Fs.abandoned_idle h hc)
    exact hneeded.not_idle hcall.1 hcall.2
  | _ => exact hc

/-- In every run whose calls abandon no slot, every live slot is needed; and the next call leaves
it so exactly if it abandons none either. -/
theorem slotsNeeded_of_run {db : Db} (hdb : db.Reached) (writeBuffer : Nat) (env : Env)
    (calls : List Call) (hcalls : LegalRun (step env) (fun s c => ∀ slot, ¬Abandons env s c slot)
      (.withWriteBuffer db writeBuffer) calls) :
    let s := run env (.withWriteBuffer db writeBuffer) calls
    s.SlotsNeeded ∧ ∀ c, (step env s c).SlotsNeeded ↔ ∀ slot, ¬Abandons env s c slot := by
  intro s
  have hstart : (Shared.withWriteBuffer db writeBuffer).Tidy True fun _ => False :=
    ⟨OpenTable.Tidy.new writeBuffer, hdb.sound.limits⟩
  have htidy : s.Tidy True fun _ => False :=
    runFrom_induction (I := fun s => s.Tidy True fun _ => False)
      (fun _ _ hc hs => step_tidy hs hc) hstart hcalls
  refine ⟨htidy.slotsNeeded, fun c => ⟨fun hneeded slot habandons => ?_, fun hc => ?_⟩⟩
  · exact step_abandons htidy habandons hneeded
  · exact (step_tidy htidy hc).slotsNeeded

def fullLater : Env := { calm with fault := fun n => if n = 8 then some .full else none }

/-- A file is written without a handle, and the truncate of its `fallocate` fails. -/
theorem slotsNeeded_false : ¬∀ (env : Env) (calls : List Call),
    (run env (.withWriteBuffer (.fresh 0 0 ⟨0, 0⟩) 65536) calls).SlotsNeeded := by
  intro h
  have hneeded := h fullLater [.create 1 [97] 0o644 0 0 0, .write 2 0 [1], .fallocate 2 0 100 0] 0
    (by decide)
  rcases hneeded with hrefs | hdirty
  · exact absurd hrefs (by decide)
  · exact absurd hdirty (by decide)

theorem slotsNeeded_of_fullLater :
    (run fullLater (.withWriteBuffer (.fresh 0 0 ⟨0, 0⟩) 65536)
      [.create 1 [97] 0o644 0 0 0, .write 2 0 [1]]).SlotsNeeded :=
  (slotsNeeded_of_run (.fresh 0 0 ⟨0, 0⟩) 65536 fullLater
    [.create 1 [97] 0o644 0 0 0, .write 2 0 [1]] ⟨fun _ h => h, fun _ h => h, trivial⟩).1

end Dbfs

end VibeDbfs
