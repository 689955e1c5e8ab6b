import VibeDbfs.Storage.Migration
import VibeDbfs.Storage.Timestamps

/-!
The seconds and nanoseconds of an older inode row, merged by the migration and by the encoder.
-/

set_option autoImplicit false
set_option relaxedAutoImplicit false

namespace VibeDbfs

open Lib.Sql

namespace Migration

/-- A time within the range of the column, in a second that the migration's cut-off leaves out. -/
def CutOff (secs : Int) (nsec : Nat) : Prop :=
  secs = 9223372036 ∧ nsec < 854775807 ∨ secs = -9223372036 ∧ nsec < 854775808

instance (secs : Int) (nsec : Nat) : Decidable (CutOff secs nsec) :=
  inferInstanceAs (Decidable (_ ∨ _))

/-- The merged column never leaves the range of 64 bits. -/
private theorem ns_eq (engine : Engine) {secs : Int} {nsec : Nat} (h : nsec < 1000000000) :
    ns engine (.integer secs) (.integer nsec) = .integer (
      if secs > 9223372035 then i64Max
      else if secs < -9223372035 then i64Min
      else Timestamp.signed secs nsec) := by
  unfold ns Timestamp.signed
  dsimp only
  by_cases hhigh : secs > 9223372035
  · rw [if_pos hhigh, if_pos hhigh]
    rfl
  · rw [if_neg hhigh, if_neg hhigh]
    by_cases hlow : secs < -9223372035
    · rw [if_pos hlow, if_pos hlow]
      rfl
    · rw [if_neg hlow, if_neg hlow]
      by_cases hneg : secs < 0
      · have hrange : i64Min ≤ secs * 1000000000 - nsec ∧ secs * 1000000000 - nsec ≤ i64Max := by
          simp only [i64Min, i64Max]
          omega
        rw [if_pos hneg, if_pos hneg, integerOrReal, if_pos hrange]
        congr 1
        omega
      · have hrange : i64Min ≤ secs * 1000000000 + nsec ∧ secs * 1000000000 + nsec ≤ i64Max := by
          simp only [i64Min, i64Max]
          omega
        rw [if_neg hneg, if_neg hneg, integerOrReal, if_pos hrange]
        congr 1
        omega

/-- The migration merges a time as the encoder does, without overflow, unless its cut-off takes a
time that is still in range. -/
theorem ns_eq_toNs_iff (engine : Engine) (secs : Int64) {nsec : Nat} (h : nsec < 1000000000) :
    ns engine (.integer secs.toInt) (.integer nsec) =
      .integer (Timestamp.toNs ⟨secs.toInt, nsec⟩) ↔ ¬CutOff secs.toInt nsec := by
  rw [ns_eq engine h, Value.integer.injEq, Timestamp.toNs_eq]
  simp only [Timestamp.clamp, Timestamp.signed, CutOff, i64Min, i64Max]
  omega

/-- The first second that is cut off is not yet out of range. -/
theorem ns_eq_toNs_false : ¬∀ (secs : Int64) (nsec : Nat), nsec < 1000000000 →
    ns .plain (.integer secs.toInt) (.integer nsec) =
      .integer (Timestamp.toNs ⟨secs.toInt, nsec⟩) := by
  intro h
  exact absurd (h 9223372036 0 (by decide)) (by decide)

theorem ns_eq_toNs_of_epoch : ns .plain (.integer 1700000000) (.integer 999999999) =
    .integer (Timestamp.toNs ⟨1700000000, 999999999⟩) :=
  (ns_eq_toNs_iff .plain 1700000000 (by decide)).mpr (by decide)

end Migration

end VibeDbfs
