import Mathlib.Data.List.Nodup
import Mathlib.Data.List.Perm.Basic
import Mathlib.Tactic.Common

/-!
Lists whose elements have a key: looking a key up after an update, a filter or an insertion, and
splitting a list at the one element with a given key.
-/

set_option autoImplicit false
set_option relaxedAutoImplicit false

namespace VibeDbfs.Lib.Keyed

variable {α κ : Type} {key : α → κ} {xs : List α} {k : κ}

theorem nodup_append_singleton {a : α} (hnodup : (xs.map key).Nodup)
    (h : ∀ r ∈ xs, key r ≠ key a) : ((xs ++ [a]).map key).Nodup := by
  rw [List.map_append, List.nodup_append]
  refine ⟨hnodup, by simp, fun b hb c hc => ?_⟩
  obtain ⟨r, hr, rfl⟩ := List.mem_map.mp hb
  rw [List.map_singleton, List.mem_singleton] at hc
  exact hc ▸ h r hr

theorem nodup_map_keep {f : α → α} (hf : ∀ r ∈ xs, key (f r) = key r)
    (hnodup : (xs.map key).Nodup) : ((xs.map f).map key).Nodup := by
  have hkeys : (xs.map f).map key = xs.map key := by
    rw [List.map_map]
    exact List.map_congr_left hf
  rwa [hkeys]

theorem nodup_filter {p : α → Bool} (hnodup : (xs.map key).Nodup) :
    ((xs.filter p).map key).Nodup :=
  hnodup.sublist (List.filter_sublist.map key)

variable [DecidableEq κ]

theorem find_eq_some_iff (hnodup : (xs.map key).Nodup) {a : α} :
    xs.find? (fun r => key r = k) = some a ↔ a ∈ xs ∧ key a = k := by
  induction xs with
  | nil => simp
  | cons x xs ih =>
    rw [List.map_cons, List.nodup_cons] at hnodup
    by_cases hx : key x = k
    · rw [List.find?_cons_of_pos (by simpa using hx)]
      constructor
      · rintro ⟨rfl⟩
        exact ⟨List.mem_cons_self, hx⟩
      · rintro ⟨ha, hk⟩
        rcases List.mem_cons.mp ha with rfl | ha
        · rfl
        · exact (hnodup.1 (hx.trans hk.symm ▸ List.mem_map_of_mem ha)).elim
    · rw [List.find?_cons_of_neg (by simpa using hx), ih hnodup.2, List.mem_cons]
      constructor
      · exact fun h => ⟨.inr h.1, h.2⟩
      · rintro ⟨rfl | ha, hk⟩
        · exact (hx hk).elim
        · exact ⟨ha, hk⟩

theorem find_perm {ys : List α} (h : xs.Perm ys) (hnodup : (xs.map key).Nodup) :
    xs.find? (fun r => key r = k) = ys.find? fun r => key r = k := by
  have hnodup' : (ys.map key).Nodup := (h.map key).nodup_iff.mp hnodup
  apply Option.ext
  intro a
  rw [find_eq_some_iff hnodup, find_eq_some_iff hnodup', h.mem_iff]

theorem find_eq_none_iff :
    xs.find? (fun r => key r = k) = none ↔ ∀ a ∈ xs, key a ≠ k := by
  simp [List.find?_eq_none]

theorem find_isSome_iff :
    (xs.find? (fun r => key r = k)).isSome ↔ ∃ a ∈ xs, key a = k := by
  simp [List.find?_isSome]

theorem find_map {f : α → α} (hf : ∀ r, key (f r) = key r) :
    (xs.map f).find? (fun r => key r = k) = (xs.find? fun r => key r = k).map f := by
  induction xs with
  | nil => rfl
  | cons x xs ih =>
    rw [List.map_cons]
    by_cases hx : key x = k
    · rw [List.find?_cons_of_pos (by simpa [hf] using hx),
        List.find?_cons_of_pos (by simpa using hx), Option.map_some]
    · rw [List.find?_cons_of_neg (by simpa [hf] using hx),
        List.find?_cons_of_neg (by simpa using hx), ih]

theorem find_map_at {i : κ} {f : α → α} (hf : ∀ r, key (f r) = key r) :
    (xs.map fun r => if key r = i then f r else r).find? (fun r => key r = k) =
      if k = i then (xs.find? fun r => key r = k).map f else xs.find? fun r => key r = k := by
  rw [find_map fun r => by by_cases h : key r = i <;> simp [h, hf]]
  rcases hfind : xs.find? (fun r => key r = k) with _ | a
  · simp
  · have hk : key a = k := by simpa using List.find?_some hfind
    simp only [Option.map_some, hk]
    split <;> rfl

theorem find_filter_of_keep {p : α → Bool} (h : ∀ a ∈ xs, key a = k → p a) :
    (xs.filter p).find? (fun r => key r = k) = xs.find? fun r => key r = k := by
  induction xs with
  | nil => rfl
  | cons x xs ih =>
    have ih := ih fun a ha => h a (List.mem_cons_of_mem _ ha)
    by_cases hx : key x = k
    · rw [List.filter_cons_of_pos (h x List.mem_cons_self hx),
        List.find?_cons_of_pos (by simpa using hx), List.find?_cons_of_pos (by simpa using hx)]
    · rw [List.find?_cons_of_neg (by simpa using hx), List.filter_cons]
      split
      · rw [List.find?_cons_of_neg (by simpa using hx), ih]
      · exact ih

theorem find_filter_of_drop {p : α → Bool} (h : ∀ a ∈ xs, key a = k → ¬p a) :
    (xs.filter p).find? (fun r => key r = k) = none := by
  rw [find_eq_none_iff]
  intro a ha hk
  rw [List.mem_filter] at ha
  exact h a ha.1 hk ha.2

theorem find_append_singleton {a : α} (h : ∀ r ∈ xs, key r ≠ key a) :
    (xs ++ [a]).find? (fun r => key r = k) =
      if k = key a then some a else xs.find? fun r => key r = k := by
  rw [List.find?_append]
  split
  · next hk =>
    rw [find_eq_none_iff.mpr (hk ▸ h)]
    simp [hk]
  · next hk => simp [Ne.symm hk]

theorem perm_cons_filter (hnodup : (xs.map key).Nodup) {a : α}
    (ha : a ∈ xs) : xs.Perm (a :: xs.filter fun r => ¬key r = key a) := by
  induction xs with
  | nil => simp at ha
  | cons x xs ih =>
    rw [List.map_cons, List.nodup_cons] at hnodup
    have hother : ∀ r ∈ xs, key r ≠ key x := fun r hr he =>
      hnodup.1 (he ▸ List.mem_map_of_mem hr)
    rcases List.mem_cons.mp ha with rfl | ha
    · rw [List.filter_cons_of_neg (by simp), List.filter_eq_self.mpr fun r hr => by
        simpa using hother r hr]
    · rw [List.filter_cons_of_pos (by simpa using (hother a ha).symm)]
      exact ((ih hnodup.2 ha).cons x).trans (List.Perm.swap a x _)

end VibeDbfs.Lib.Keyed
