import Mathlib.Data.List.Basic
import Mathlib.Tactic.Common

/-!
Finite sequences that read as zero past their end. Two sequences of one length are equal when
`byteAt` agrees on them, so every law below is a length and a pointwise statement.
-/

set_option autoImplicit false
set_option relaxedAutoImplicit false

namespace VibeDbfs.Lib.Bytes

variable {α : Type} [Zero α]

/-- The element at `p`, or zero past the end. -/
def byteAt (xs : List α) (p : Nat) : α := xs.getD p 0

def zeros (n : Nat) : List α := List.replicate n 0

/-- Cut or zero-extend to length `n`. -/
def resize (n : Nat) (xs : List α) : List α := xs.take n ++ zeros (n - xs.length)

/-- Overwrite from offset `off`, zero-filling a gap before it. -/
def splice (off : Nat) (data xs : List α) : List α :=
  resize off xs ++ data ++ xs.drop (off + data.length)

/-- The elements at `off .. off + n` that exist. -/
def slice (off n : Nat) (xs : List α) : List α := (xs.drop off).take n

/-- The sequence of length `n` with element `f p` at `p`. -/
def tabulate (n : Nat) (f : Nat → α) : List α := (List.range n).map f

/-- Overwrite the memory `m` from address `a` with `data`. -/
def poke (m : Nat → α) (a : Nat) (data : List α) : Nat → α := fun i =>
  if a ≤ i ∧ i < a + data.length then byteAt data (i - a) else m i

/-- Zero the memory `m` on `a .. a + n`. -/
def wipe (m : Nat → α) (a n : Nat) : Nat → α := fun i => if a ≤ i ∧ i < a + n then 0 else m i

@[simp] theorem length_zeros (n : Nat) : (zeros n : List α).length = n :=
  List.length_replicate

@[simp] theorem byteAt_nil (p : Nat) : byteAt ([] : List α) p = 0 := rfl

theorem byteAt_of_le {xs : List α} {p : Nat} (h : xs.length ≤ p) : byteAt xs p = 0 := by
  simp [byteAt, List.getD_eq_getElem?_getD, List.getElem?_eq_none h]

theorem byteAt_eq_getElem {xs : List α} {p : Nat} (h : p < xs.length) : byteAt xs p = xs[p] := by
  simp [byteAt, List.getD_eq_getElem?_getD, List.getElem?_eq_getElem h]

@[simp] theorem byteAt_zeros (n p : Nat) : byteAt (zeros n : List α) p = 0 := by
  simp only [byteAt, zeros, List.getD_eq_getElem?_getD, List.getElem?_replicate]
  split <;> rfl

theorem byteAt_append (xs ys : List α) (p : Nat) :
    byteAt (xs ++ ys) p = if p < xs.length then byteAt xs p else byteAt ys (p - xs.length) := by
  simp only [byteAt, List.getD_eq_getElem?_getD, List.getElem?_append]
  split <;> rfl

theorem byteAt_take (xs : List α) (n p : Nat) :
    byteAt (xs.take n) p = if p < n then byteAt xs p else 0 := by
  simp only [byteAt, List.getD_eq_getElem?_getD, List.getElem?_take]
  split <;> rfl

theorem byteAt_drop (xs : List α) (n p : Nat) : byteAt (xs.drop n) p = byteAt xs (n + p) := by
  simp only [byteAt, List.getD_eq_getElem?_getD, List.getElem?_drop]

theorem ext_byteAt {xs ys : List α} (hlen : xs.length = ys.length)
    (h : ∀ p < xs.length, byteAt xs p = byteAt ys p) : xs = ys := by
  refine List.ext_getElem hlen fun p hp hq => ?_
  have hpq := h p hp
  rwa [byteAt_eq_getElem hp, byteAt_eq_getElem hq] at hpq

omit [Zero α] in
@[simp] theorem length_tabulate (n : Nat) (f : Nat → α) : (tabulate n f).length = n := by
  simp [tabulate]

theorem byteAt_tabulate (n : Nat) (f : Nat → α) (p : Nat) :
    byteAt (tabulate n f) p = if p < n then f p else 0 := by
  split
  · next h => rw [byteAt_eq_getElem (by simpa using h)]; simp [tabulate]
  · next h => exact byteAt_of_le (by simpa using h)

omit [Zero α] in
theorem tabulate_congr {n : Nat} {f g : Nat → α} (h : ∀ p < n, f p = g p) :
    tabulate n f = tabulate n g :=
  List.map_congr_left fun p hp => h p (List.mem_range.mp hp)

@[simp] theorem length_resize (n : Nat) (xs : List α) : (resize n xs).length = n := by
  simp only [resize, List.length_append, List.length_take, length_zeros]
  omega

theorem byteAt_resize (n : Nat) (xs : List α) (p : Nat) :
    byteAt (resize n xs) p = if p < n then byteAt xs p else 0 := by
  simp only [resize, byteAt_append, List.length_take, byteAt_take, byteAt_zeros]
  by_cases hp : p < n
  · by_cases hx : p < xs.length
    · rw [if_pos (by omega)]
    · rw [if_neg (by omega), if_pos hp, byteAt_of_le (by omega)]
  · rw [if_neg (by omega), if_neg hp]

theorem resize_length (xs : List α) : resize xs.length xs = xs := by
  simp [resize, zeros]

@[simp] theorem length_splice (off : Nat) (data xs : List α) :
    (splice off data xs).length = max xs.length (off + data.length) := by
  simp only [splice, List.length_append, length_resize, List.length_drop]
  omega

theorem byteAt_splice (off : Nat) (data xs : List α) (p : Nat) :
    byteAt (splice off data xs) p =
      if off ≤ p ∧ p < off + data.length then byteAt data (p - off) else byteAt xs p := by
  simp only [splice, byteAt_append, List.length_append, length_resize, byteAt_resize, byteAt_drop]
  by_cases h1 : p < off
  · rw [if_pos (by omega), if_pos h1, if_pos h1, if_neg (by omega)]
  · by_cases h2 : p < off + data.length
    · rw [if_pos h2, if_neg h1, if_pos (by omega)]
    · rw [if_neg h2, if_neg (by omega)]
      congr 1
      omega

omit [Zero α] in
theorem length_slice (off n : Nat) (xs : List α) :
    (slice off n xs).length = min n (xs.length - off) := by
  simp [slice]

theorem byteAt_slice (off n : Nat) (xs : List α) (p : Nat) :
    byteAt (slice off n xs) p = if p < n then byteAt xs (off + p) else 0 := by
  rw [slice, byteAt_take, byteAt_drop]

theorem poke_add (m : Nat → α) (base start i : Nat) (data : List α) :
    poke m (base + start) data (base + i) =
      if start ≤ i ∧ i < start + data.length then byteAt data (i - start) else m (base + i) := by
  unfold poke
  by_cases h : start ≤ i ∧ i < start + data.length
  · rw [if_pos (by omega), if_pos h]
    congr 1
    omega
  · rw [if_neg (by omega), if_neg h]

theorem poke_apart {m : Nat → α} {a i : Nat} {data : List α} (h : i < a ∨ a + data.length ≤ i) :
    poke m a data i = m i :=
  if_neg (by omega)

theorem wipe_add (m : Nat → α) (base start n i : Nat) :
    wipe m (base + start) n (base + i) = if start ≤ i ∧ i < start + n then 0 else m (base + i) := by
  unfold wipe
  exact if_congr (by omega) rfl rfl

theorem wipe_apart {m : Nat → α} {a n i : Nat} (h : i < a ∨ a + n ≤ i) : wipe m a n i = m i :=
  if_neg (by omega)

theorem splice_append (off : Nat) (a b xs : List α) :
    splice off (a ++ b) xs = splice (off + a.length) b (splice off a xs) := by
  refine ext_byteAt (by simp only [length_splice, List.length_append]; omega) fun p _ => ?_
  simp only [byteAt_splice, byteAt_append, List.length_append]
  by_cases h1 : off + a.length ≤ p ∧ p < off + a.length + b.length
  · rw [if_pos (by omega), if_neg (by omega), if_pos h1]
    congr 1
    omega
  · rw [if_neg h1]
    by_cases h2 : off ≤ p ∧ p < off + a.length
    · rw [if_pos (by omega), if_pos h2, if_pos (by omega)]
    · rw [if_neg (by omega), if_neg h2]

end VibeDbfs.Lib.Bytes
