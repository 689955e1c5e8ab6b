import Mathlib.Data.List.Perm.Basic
import Mathlib.Tactic.Common

/-!
Lists as arrays of cells: what a change of one cell does to the other cells, to a list gathered
from all cells and to the number of cells with a given value.
-/

set_option autoImplicit false
set_option relaxedAutoImplicit false

namespace VibeDbfs.Lib.Cells

variable {α β : Type} {xs : List α} {i j : Nat} {d : α}

theorem getD_modify {f : α → α} (h : i < xs.length) :
    (xs.modify i f).getD j d = if j = i then f (xs.getD j d) else xs.getD j d := by
  rw [List.getD_eq_getElem?_getD, List.getD_eq_getElem?_getD, List.getElem?_modify]
  split
  · next hj =>
    subst hj
    rw [List.getElem?_eq_getElem h]
    simp
  · next hj =>
    rw [if_neg (Ne.symm hj)]
    rcases xs[j]? with _ | x <;> rfl

theorem getD_append_singleton {x : α} :
    (xs ++ [x]).getD j d = if j = xs.length then x else xs.getD j d := by
  rw [List.getD_eq_getElem?_getD, List.getD_eq_getElem?_getD, List.getElem?_append]
  split
  · next hlt => rw [if_neg (Nat.ne_of_lt hlt)]
  · next hge =>
    split
    · next hj => simp [hj]
    · next hj =>
      rw [List.getElem?_eq_none (by simp only [List.length_singleton]; omega),
        List.getElem?_eq_none (by omega)]

/-- The cells other than `i`. -/
def others (xs : List α) (i : Nat) : List α := xs.take i ++ xs.drop (i + 1)

theorem mem_others (hj : j < xs.length) (hne : j ≠ i) : xs[j] ∈ others xs i := by
  rw [others, List.mem_append]
  rcases Nat.lt_or_gt_of_ne hne with h | h
  · exact .inl (List.mem_take_iff_getElem.mpr ⟨j, by omega, rfl⟩)
  · refine .inr (List.mem_drop_iff_getElem.mpr ⟨j - (i + 1), by omega, ?_⟩)
    congr 1
    omega

variable {g : α → List β}

theorem flatMap_perm (h : i < xs.length) :
    (xs.flatMap g).Perm (g xs[i] ++ (others xs i).flatMap g) := by
  have hsplit : xs.take i ++ xs[i] :: xs.drop (i + 1) = xs := by
    rw [List.getElem_cons_drop, List.take_append_drop]
  have hmove := List.Perm.flatMap_right g
    (List.perm_middle : (xs.take i ++ xs[i] :: xs.drop (i + 1)).Perm _)
  rw [hsplit] at hmove
  exact hmove

theorem flatMap_modify_perm (h : i < xs.length) (f : α → α) :
    ((xs.modify i f).flatMap g).Perm (g (f xs[i]) ++ (others xs i).flatMap g) := by
  rw [List.modify_eq_take_cons_drop h]
  exact List.Perm.flatMap_right g
    (List.perm_middle : (xs.take i ++ f xs[i] :: xs.drop (i + 1)).Perm _)

theorem flatMap_modify_of_eq {f : α → α} (hf : ∀ x, g (f x) = g x) :
    (xs.modify i f).flatMap g = xs.flatMap g := by
  induction xs generalizing i with
  | nil => cases i <;> rfl
  | cons x xs ih =>
    cases i with
    | zero => simp [hf]
    | succ i => simp [ih]

end VibeDbfs.Lib.Cells
