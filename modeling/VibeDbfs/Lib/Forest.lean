import Mathlib.Logic.Relation
import Mathlib.Data.List.Nodup
import Mathlib.Data.List.Perm.Subperm
import Mathlib.Tactic.Common

/-!
Parent relations whose every vertex climbs to a root: re-hanging a subtree keeps them rooted, and
a climb is never longer than the list of vertices that have a parent.
-/

set_option autoImplicit false
set_option relaxedAutoImplicit false

namespace VibeDbfs.Lib.Forest

open Relation (ReflTransGen)

variable {V : Type} {R R' : V → V → Prop}

/-- A climb that never meets `s` survives any change of the parents of `s`. -/
theorem climb_of_avoids {x root s : V} (hstep : ∀ a b, a ≠ s → R a b → R' a b)
    (hpath : ReflTransGen R x root) (havoid : ¬ ReflTransGen R x s) :
    ReflTransGen R' x root := by
  induction hpath using ReflTransGen.head_induction_on with
  | refl => exact .refl
  | head hab hb ih =>
    refine .head (hstep _ _ ?_ hab) (ih fun hs => havoid (.head hab hs))
    rintro rfl
    exact havoid .refl

theorem climb_to_moved {x s : V} (hstep : ∀ a b, a ≠ s → R a b → R' a b)
    (hpath : ReflTransGen R x s) : ReflTransGen R' x s := by
  induction hpath using ReflTransGen.head_induction_on with
  | refl => exact .refl
  | @head a b hab hb ih =>
    by_cases ha : a = s
    · subst ha
      exact .refl
    · exact .head (hstep _ _ ha hab) ih

theorem climb_of_rehang {root s t : V} (hstep : ∀ a b, a ≠ s → R a b → R' a b)
    (hst : R' s t) (ht : ReflTransGen R t root) (hnot : ¬ ReflTransGen R t s)
    {x : V} (hx : ReflTransGen R x root) : ReflTransGen R' x root := by
  by_cases hxs : ReflTransGen R x s
  · exact (climb_to_moved hstep hxs).trans (.head hst (climb_of_avoids hstep ht hnot))
  · exact climb_of_avoids hstep hx hxs

/-- `Steps R n x y`: `y` is reached from `x` by `n` steps up. -/
inductive Steps (R : V → V → Prop) : Nat → V → V → Prop
  | zero (x : V) : Steps R 0 x x
  | succ {n : Nat} {x y z : V} : R x y → Steps R n y z → Steps R (n + 1) x z

theorem exists_steps {x y : V} (h : ReflTransGen R x y) : ∃ n, Steps R n x y := by
  induction h using ReflTransGen.head_induction_on with
  | refl => exact ⟨0, .zero _⟩
  | head hab _ ih =>
    obtain ⟨n, hn⟩ := ih
    exact ⟨n + 1, .succ hab hn⟩

section Functional

variable (hfun : ∀ a b c : V, R a b → R a c → b = c)

include hfun in
theorem Steps.depth_unique {root : V} (hroot : ∀ b, ¬ R root b) {n m : Nat} {x : V}
    (hn : Steps R n x root) (hm : Steps R m x root) : n = m := by
  induction hn generalizing m with
  | zero x =>
    cases hm with
    | zero => rfl
    | succ hab _ => exact (hroot _ hab).elim
  | succ hab _ ih =>
    cases hm with
    | zero => exact (hroot _ hab).elim
    | succ hac hc =>
      have hbc := hfun _ _ _ hab hac
      subst hbc
      rw [ih hroot hc]

theorem Steps.trans {n m : Nat} {x y z : V} (h : Steps R n x y) (h' : Steps R m y z) :
    Steps R (n + m) x z := by
  induction h with
  | zero _ => exact (Nat.zero_add m).symm ▸ h'
  | succ hab _ ih => exact (Nat.succ_add _ m).symm ▸ .succ hab (ih h')

include hfun in
/-- No climb that gets to the root comes back to where it was. -/
theorem no_cycle {root : V} (hroot : ∀ b, ¬ R root b) {x y : V} (hx : ReflTransGen R x root)
    (hxy : R x y) : ¬ ReflTransGen R y x := by
  intro hback
  obtain ⟨n, hn⟩ := exists_steps hx
  obtain ⟨m, hm⟩ := exists_steps hback
  have := Steps.depth_unique hfun hroot hn (.succ hxy (hm.trans hn))
  omega

include hfun in
theorem Steps.length_le {root : V} (hroot : ∀ b, ¬ R root b) {vs : List V}
    (hvs : ∀ a b, R a b → a ∈ vs) {n : Nat} {x : V} (h : Steps R n x root) : n ≤ vs.length := by
  -- `path` holds the vertices left behind, each still at most `n` steps below the root
  have hpath : ∃ path : List V, path.length = n ∧ path.Nodup ∧
      ∀ a ∈ path, a ∈ vs ∧ ∃ m ≤ n, Steps R m a root := by
    induction h with
    | zero _ => exact ⟨[], rfl, List.nodup_nil, by simp⟩
    | @succ n x y z hab hb ih =>
      obtain ⟨path, hlen, hnodup, hmem⟩ := ih hroot
      refine ⟨x :: path, by simp [hlen], List.nodup_cons.mpr ⟨?_, hnodup⟩, ?_⟩
      · intro hx
        obtain ⟨-, m, hm, hsteps⟩ := hmem x hx
        have := Steps.depth_unique hfun hroot hsteps (.succ hab hb)
        omega
      · intro a ha
        rcases List.mem_cons.mp ha with rfl | ha
        · exact ⟨hvs _ _ hab, n + 1, Nat.le_refl _, .succ hab hb⟩
        · obtain ⟨hin, m, hm, hsteps⟩ := hmem a ha
          exact ⟨hin, m, by omega, hsteps⟩
  obtain ⟨path, hlen, hnodup, hmem⟩ := hpath
  rw [← hlen]
  exact (hnodup.subperm fun a ha => (hmem a ha).1).length_le

end Functional

end VibeDbfs.Lib.Forest
