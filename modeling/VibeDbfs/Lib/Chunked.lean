import Mathlib.Order.Basic
import Mathlib.Algebra.Order.Ring.Nat
import VibeDbfs.Lib.Bytes

/-!
A sequence cut into chunks of `K` elements, each of them possibly short: reading it back, and what
a write into one chunk or a cut at the end does to the whole.
-/

set_option autoImplicit false
set_option relaxedAutoImplicit false

namespace VibeDbfs.Lib.Bytes

variable {α : Type} [Zero α] {K size : Nat} {chunk chunk' : Nat → List α}

/-- The sequence of length `size` with the given chunks. -/
def glue (K size : Nat) (chunk : Nat → List α) : List α :=
  tabulate size fun p => byteAt (chunk (p / K)) (p % K)

/-- Each chunk has at most `K` elements and ends at `size` or before. -/
def Within (K size : Nat) (chunk : Nat → List α) : Prop :=
  ∀ c, (chunk c).length ≤ K ∧ (chunk c ≠ [] → c * K + (chunk c).length ≤ size)

omit [Zero α] in
theorem Within.mono {n : Nat} (h : Within K size chunk) (hle : size ≤ n) : Within K n chunk :=
  fun c => ⟨(h c).1, fun hne => ((h c).2 hne).trans hle⟩

@[simp] theorem length_glue : (glue K size chunk).length = size := length_tabulate _ _

/-- No element lies beyond the end, so each can be read from its chunk. -/
theorem byteAt_glue (h : Within K size chunk) (p : Nat) :
    byteAt (glue K size chunk) p = byteAt (chunk (p / K)) (p % K) := by
  rw [glue, byteAt_tabulate]
  split
  · rfl
  · next hp =>
    refine (byteAt_of_le (Nat.le_of_not_lt fun hlt => hp ?_)).symm
    have hne : chunk (p / K) ≠ [] := List.ne_nil_of_length_pos (Nat.zero_lt_of_lt hlt)
    calc p = p / K * K + p % K := (Nat.div_add_mod' p K).symm
      _ < p / K * K + (chunk (p / K)).length := Nat.add_lt_add_left hlt _
      _ ≤ size := (h (p / K)).2 hne

theorem mem_piece_iff {c start stop p : Nat} (hstop : stop ≤ K) :
    (c * K + start ≤ p ∧ p < c * K + stop) ↔ p / K = c ∧ start ≤ p % K ∧ p % K < stop := by
  constructor
  · rintro ⟨hlow, hhigh⟩
    have hc : p / K = c := by
      refine Nat.div_eq_of_lt_le ((Nat.le_add_right _ _).trans hlow) ?_
      rw [Nat.succ_mul]
      omega
    have hp := Nat.div_add_mod' p K
    rw [hc] at hp
    omega
  · rintro ⟨rfl, hlow, hhigh⟩
    have hp := Nat.div_add_mod' p K
    omega

/-- A write into chunk `c` is a write into the whole. The bytes outside the piece come from the
chunk as it was, unless the piece is all of it. -/
theorem glue_splice {c start : Nat} {data base : List α} (h : Within K size chunk)
    (hdata : 0 < data.length) (hstop : start + data.length ≤ K)
    (hbase : base = chunk c ∨ base = [] ∧ start = 0 ∧ data.length = K)
    (hchunk : ∀ d, chunk' d = if d = c then splice start data base else chunk d) :
    Within K (max size (c * K + (start + data.length))) chunk' ∧
      glue K (max size (c * K + (start + data.length))) chunk' =
        splice (c * K + start) data (glue K size chunk) := by
  have hlen : (splice start data base).length ≤ K ∧
      c * K + (splice start data base).length ≤ max size (c * K + (start + data.length)) := by
    rw [length_splice]
    rcases hbase with rfl | ⟨rfl, -, -⟩
    · have hold := h c
      by_cases hnil : chunk c = []
      · rw [hnil, List.length_nil]
        omega
      · have := hold.2 hnil
        omega
    · rw [List.length_nil]
      omega
  have hwithin : Within K (max size (c * K + (start + data.length))) chunk' := fun d => by
    rw [hchunk]
    split
    · next hd =>
      subst hd
      exact ⟨hlen.1, fun _ => hlen.2⟩
    · exact (h.mono (Nat.le_max_left _ _)) d
  refine ⟨hwithin, ext_byteAt ?_ fun p _ => ?_⟩
  · rw [length_glue, length_splice, length_glue, Nat.add_assoc]
  · rw [byteAt_glue hwithin, byteAt_splice, byteAt_glue h, hchunk]
    have hpiece : (c * K + start ≤ p ∧ p < c * K + (start + data.length)) ↔ _ :=
      mem_piece_iff hstop
    have hp := Nat.div_add_mod' p K
    rw [← Nat.add_assoc] at hpiece
    split
    · next hc =>
      rw [byteAt_splice]
      rw [hc] at hp hpiece
      by_cases hin : start ≤ p % K ∧ p % K < start + data.length
      · rw [if_pos hin, if_pos (hpiece.mpr ⟨rfl, hin⟩)]
        congr 1
        omega
      · rw [if_neg hin, if_neg fun hout => hin (hpiece.mp hout).2, hc]
        rcases hbase with rfl | ⟨rfl, rfl, hfull⟩
        · rfl
        · have := Nat.mod_lt p (hfull ▸ hdata)
          exact (hin ⟨Nat.zero_le _, by omega⟩).elim
    · next hc => rw [if_neg fun hin => hc (hpiece.mp hin).1]

theorem glue_resize {n : Nat} (h : Within K size chunk)
    (hchunk : ∀ c, chunk' c = (chunk c).take (n - c * K)) :
    Within K n chunk' ∧ glue K n chunk' = resize n (glue K size chunk) := by
  have hwithin : Within K n chunk' := fun c => by
    rw [hchunk, List.length_take]
    have := (h c).1
    refine ⟨by omega, fun hne => ?_⟩
    have hpos : 0 < n - c * K := Nat.pos_of_ne_zero fun hz => hne (by rw [hz, List.take_zero])
    omega
  refine ⟨hwithin, ext_byteAt (by rw [length_glue, length_resize]) fun p hp => ?_⟩
  rw [length_glue] at hp
  rw [byteAt_glue hwithin, byteAt_resize, if_pos hp, byteAt_glue h, hchunk, byteAt_take, if_pos]
  have := Nat.div_add_mod' p K
  omega

end VibeDbfs.Lib.Bytes
