import Mathlib.Order.MinMax
import VibeDbfs.Storage.Records

/-!
How a time fares through the store: a `SystemTime` is split into seconds and nanoseconds, written as
one signed nanosecond count, read back and joined again.
-/

set_option autoImplicit false
set_option relaxedAutoImplicit false

namespace VibeDbfs

namespace Timestamp

/-- What lies within the last second before the epoch: its seconds are zero, so no sign is kept. -/
def SubSecond (n : Int) : Prop :=
  -1000000000 < n ∧ n < 0

instance (n : Int) : Decidable (SubSecond n) :=
  inferInstanceAs (Decidable (_ ∧ _))

/-- The nearer end of the `i64` range, for what lies outside it. -/
def clamp (n : Int) : Int :=
  max i64Min (min i64Max n)

def store (time : SystemTime) : Int :=
  (fromSystemTime time).toNs

def load (ns : Int) : SystemTime :=
  (fromNs ns).toSystemTime

theorem clamp_of_range {n : Int} (hlo : i64Min ≤ n) (hhi : n ≤ i64Max) : clamp n = n := by
  rw [clamp, min_eq_right hhi, max_eq_right hlo]

theorem clamp_range (n : Int) : i64Min ≤ clamp n ∧ clamp n ≤ i64Max := by
  refine ⟨le_max_left _ _, max_le ?_ (min_le_left _ _)⟩
  decide

def stripped (n : Int) : Int :=
  if SubSecond n then -n else n

private theorem subSecond_clamp (n : Int) : SubSecond (clamp n) ↔ SubSecond n := by
  simp only [SubSecond, clamp, i64Min, i64Max]
  omega

theorem stripped_clamp (n : Int) : stripped (clamp n) = clamp (stripped n) := by
  by_cases h : SubSecond n
  · have hr : i64Min ≤ n ∧ n ≤ i64Max := by
      simp only [SubSecond, i64Min, i64Max] at h ⊢
      omega
    have hr' : i64Min ≤ -n ∧ -n ≤ i64Max := by
      simp only [SubSecond, i64Min, i64Max] at h ⊢
      omega
    rw [clamp_of_range hr.1 hr.2, stripped, if_pos h, clamp_of_range hr'.1 hr'.2]
  · rw [stripped, if_neg (fun hc => h ((subSecond_clamp n).mp hc)), stripped, if_neg h]

private theorem stripped_eq_self {n : Int} : stripped n = n ↔ ¬ SubSecond n := by
  by_cases h : SubSecond n
  · refine ⟨fun heq => ?_, fun hn => absurd h hn⟩
    rw [stripped, if_pos h] at heq
    simp only [SubSecond] at h
    omega
  · simp [stripped, h]

theorem stripped_of_nonneg {n : Int} (h : 0 ≤ n) : stripped n = n :=
  stripped_eq_self.mpr fun hn => by
    simp only [SubSecond] at hn
    omega

/-- Seconds and nanoseconds put together: the sign of the whole is that of the seconds. -/
def signed (secs : Int) (nsec : Nat) : Int :=
  if secs < 0 then -(secs.natAbs * 1000000000 + nsec : Int) else secs.natAbs * 1000000000 + nsec

theorem toNs_eq (t : Timestamp) : t.toNs = clamp (signed t.secs t.nsec) := rfl

theorem toSystemTime_eq (t : Timestamp) : t.toSystemTime = signed t.secs t.nsec := by
  simp only [toSystemTime, signed]
  by_cases h : 0 ≤ t.secs
  · rw [if_pos h, if_neg (Int.not_lt.mpr h), Int.natAbs_of_nonneg h]
  · rw [if_neg h, if_pos (Int.not_le.mp h)]

theorem signed_fromNs (ns : Int) : signed (fromNs ns).secs (fromNs ns).nsec = stripped ns := by
  simp only [fromNs, signed, stripped]
  by_cases h : ns < 0
  · simp only [if_pos h]
    by_cases hsub : -1000000000 < ns
    · rw [if_neg (by omega), if_pos ⟨hsub, h⟩]
      omega
    · rw [if_pos (by omega), if_neg (fun hc => hsub hc.1)]
      omega
  · simp only [if_neg h]
    rw [if_neg (by omega), if_neg (fun hc => h hc.2)]
    omega

theorem fromSystemTime_eq (time : Int) : fromSystemTime time = fromNs time := by
  simp only [fromSystemTime, fromNs]
  by_cases h : 0 ≤ time
  · rw [if_pos h, if_neg (Int.not_lt.mpr h)]
    congr 1
    · omega
    · omega
  · rw [if_neg h, if_pos (Int.not_le.mp h)]
    congr 1
    · omega
    · omega

theorem toNs_fromNs (ns : Int) : (fromNs ns).toNs = clamp (stripped ns) := by
  rw [toNs_eq, signed_fromNs]

private theorem store_eq (time : SystemTime) : store time = clamp (stripped time) := by
  rw [store, fromSystemTime_eq, toNs_fromNs]

theorem load_eq (ns : Int) : load ns = stripped ns := by
  rw [load, toSystemTime_eq, signed_fromNs]

theorem stripped_stripped (n : Int) : stripped (stripped n) = stripped n := by
  have h : 0 ≤ stripped n ∨ ¬ SubSecond n := by
    simp only [stripped, SubSecond]
    split_ifs <;> omega
  rcases h with h | h
  · exact stripped_of_nonneg h
  · rw [stripped_eq_self.mpr h]
    exact stripped_eq_self.mpr h

theorem load_store (time : SystemTime) : load (store time) = clamp (stripped time) := by
  rw [load_eq, store_eq, stripped_clamp, stripped_stripped]

private theorem clamp_stripped_eq {n : Int} : clamp (stripped n) = clamp n ↔ ¬ SubSecond n := by
  rw [← stripped_clamp, stripped_eq_self, subSecond_clamp]

private theorem int64_range (n : Int64) : i64Min ≤ n.toInt ∧ n.toInt ≤ i64Max := by
  have hlo := n.le_toInt
  have hhi := n.toInt_lt
  simp only [i64Min, i64Max]
  omega

/-- A stored count is read and written back unchanged, and a time survives the store (clamped to the
range of the column), unless it lies within the last second before the epoch. -/
theorem roundTrip_iff (n : Int64) (time : SystemTime) :
    ((fromNs n.toInt).toNs = n.toInt ↔ ¬ SubSecond n.toInt) ∧
      (load (store time) = clamp time ↔ ¬ SubSecond time) := by
  refine ⟨?_, ?_⟩
  · have hclamp : clamp n.toInt = n.toInt := clamp_of_range (int64_range n).1 (int64_range n).2
    rw [toNs_fromNs, ← clamp_stripped_eq, hclamp]
  · rw [load_store]
    exact clamp_stripped_eq

theorem roundTrip_false :
    ¬ ((∀ n : Int64, (fromNs n.toInt).toNs = n.toInt) ∧
      ∀ time : SystemTime, load (store time) = clamp time) := by
  rintro ⟨hcount, -⟩
  exact absurd (hcount (-1)) (by decide)

end Timestamp

end VibeDbfs
