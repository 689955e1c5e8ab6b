import Mathlib.Data.List.Forall2
import Mathlib.Tactic.Common

/-!
Two lists whose elements correspond one by one: decoding a list, members, maps and lookups.
-/

set_option autoImplicit false
set_option relaxedAutoImplicit false

namespace VibeDbfs.Lib.Paired

variable {α β γ κ : Type} {R : α → β → Prop} {xs : List α} {ys : List β}

theorem mapM_eq_some_iff {decode : α → Option β} :
    xs.mapM decode = some ys ↔ List.Forall₂ (fun x y => decode x = some y) xs ys := by
  induction xs generalizing ys with
  | nil => simp [eq_comm]
  | cons x xs ih =>
    rw [List.mapM_cons, Option.bind_eq_bind, Option.bind_eq_some_iff]
    constructor
    · rintro ⟨y, hy, h⟩
      obtain ⟨ys', hys, ⟨⟩⟩ := Option.bind_eq_some_iff.mp h
      exact .cons hy (ih.mp hys)
    · rintro (_ | ⟨hy, hys⟩)
      exact ⟨_, hy, Option.bind_eq_some_iff.mpr ⟨_, ih.mpr hys, rfl⟩⟩

theorem mem_left (h : List.Forall₂ R xs ys) {x : α} (hx : x ∈ xs) : ∃ y ∈ ys, R x y := by
  induction h with
  | nil => cases hx
  | cons hr _ ih =>
    rcases List.mem_cons.mp hx with rfl | hx
    · exact ⟨_, List.mem_cons_self, hr⟩
    · obtain ⟨y, hy, hxy⟩ := ih hx
      exact ⟨y, List.mem_cons_of_mem _ hy, hxy⟩

theorem map_eq {f : α → κ} {g : β → κ} (h : List.Forall₂ R xs ys)
    (hfg : ∀ x y, R x y → f x = g y) : xs.map f = ys.map g := by
  induction h with
  | nil => rfl
  | cons hr _ ih => rw [List.map_cons, List.map_cons, hfg _ _ hr, ih]

theorem and_left {P : α → Prop} (h : List.Forall₂ R xs ys) (hP : ∀ x ∈ xs, P x) :
    List.Forall₂ (fun x y => P x ∧ R x y) xs ys := by
  induction h with
  | nil => exact .nil
  | cons hr _ ih =>
    exact .cons ⟨hP _ List.mem_cons_self, hr⟩ (ih fun x hx => hP x (List.mem_cons_of_mem _ hx))

theorem join {S : α → γ → Prop} {zs : List γ} (h : List.Forall₂ R xs ys)
    (h' : List.Forall₂ S xs zs) : List.Forall₂ (fun y z => ∃ x, R x y ∧ S x z) ys zs := by
  induction h generalizing zs with
  | nil =>
    cases h'
    exact .nil
  | cons hr _ ih =>
    rcases h' with _ | ⟨hs, hrest⟩
    exact .cons ⟨_, hr, hs⟩ (ih hrest)

variable [DecidableEq κ]

theorem find (key : α → κ) (key' : β → κ) (h : List.Forall₂ R xs ys)
    (hkey : ∀ x y, R x y → key x = key' y) (k : κ) :
    Option.Rel R (xs.find? fun x => key x = k) (ys.find? fun y => key' y = k) := by
  induction h with
  | nil => exact .none
  | @cons x y _ _ hr _ ih =>
    have hxy := hkey x y hr
    by_cases hk : key x = k
    · rw [List.find?_cons_of_pos (by simpa using hk),
        List.find?_cons_of_pos (by simpa using hxy ▸ hk)]
      exact .some hr
    · rw [List.find?_cons_of_neg (by simpa using hk),
        List.find?_cons_of_neg (by simpa using hxy ▸ hk)]
      exact ih

end VibeDbfs.Lib.Paired
