import Mathlib.Logic.Function.Basic
import Mathlib.Logic.Relation
import Mathlib.Tactic.Common

/-!
Nodes with numbers, and names for them: an entry is a name in a node that holds entries, and says
which node it names. What a tree of names does when entries come and go, in general.
-/

set_option autoImplicit false
set_option relaxedAutoImplicit false

namespace VibeDbfs.Lib

open Relation (ReflTransGen)

/-- What is known of each node, and the node behind each name in each node. -/
@[ext] structure NameTree (ν κ β : Type) where
  node : ν → Option β
  entry : ν → κ → Option ν

namespace NameTree

variable {ν κ β : Type} (t : NameTree ν κ β)

/-- Some entry names the node `i`. -/
def Named (i : ν) : Prop := ∃ p n, t.entry p n = some i

/-- The node `i` holds no entry. -/
def Empty (i : ν) : Prop := ∀ n, t.entry i n = none

/-- An entry of `b` names `a`. -/
def Up (a b : ν) : Prop := ∃ n, t.entry b n = some a

/-- From `a`, entries lead up to `b`. -/
def Within (a b : ν) : Prop := ReflTransGen t.Up a b

open scoped Classical in
noncomputable def setEntry (p : ν) (n : κ) (i : Option ν) : NameTree ν κ β :=
  { t with entry := fun q m => if q = p ∧ m = n then i else t.entry q m }

open scoped Classical in
noncomputable def setNode (i : ν) (b : Option β) : NameTree ν κ β :=
  { t with node := fun j => if j = i then b else t.node j }

open scoped Classical in
/-- The name `n` goes, and the node `i` that it named goes with it, unless `stays` or another entry
names it. -/
noncomputable def dropEntry (p : ν) (n : κ) (i : ν) (stays : Prop) : NameTree ν κ β :=
  let t' := t.setEntry p n none
  if stays ∨ t'.Named i then t' else t'.setNode i none

/-- The entry `n` of `p` becomes the entry `m` of `q`. -/
noncomputable def moveEntry (p : ν) (n : κ) (q : ν) (m : κ) : NameTree ν κ β :=
  (t.setEntry p n none).setEntry q m (t.entry p n)

variable {t} {p q i j : ν} {n m : κ} {o : Option ν} {b : Option β} {stays : Prop}

@[simp] theorem node_setEntry : (t.setEntry p n o).node = t.node := rfl

@[simp] theorem entry_setNode : (t.setNode i b).entry = t.entry := rfl

@[simp] theorem entry_setEntry_self : (t.setEntry p n o).entry p n = o := if_pos ⟨rfl, rfl⟩

theorem entry_setEntry_of_ne (h : ¬(q = p ∧ m = n)) :
    (t.setEntry p n o).entry q m = t.entry q m := if_neg h

@[simp] theorem node_setNode_self : (t.setNode i b).node i = b := if_pos rfl

theorem node_setNode_of_ne (h : j ≠ i) : (t.setNode i b).node j = t.node j := if_neg h

@[simp] theorem setNode_named : (t.setNode i b).Named j ↔ t.Named j := Iff.rfl

@[simp] theorem setEntry_setEntry (o' : Option ν) :
    (t.setEntry p n o).setEntry p n o' = t.setEntry p n o' := by
  ext q m : 3
  · rfl
  · by_cases h : q = p ∧ m = n
    · obtain ⟨rfl, rfl⟩ := h
      rw [entry_setEntry_self, entry_setEntry_self]
    · rw [entry_setEntry_of_ne h, entry_setEntry_of_ne h, entry_setEntry_of_ne h]

theorem setEntry_eq_self (h : t.entry p n = o) : t.setEntry p n o = t := by
  ext q m : 3
  · rfl
  · by_cases hat : q = p ∧ m = n
    · obtain ⟨rfl, rfl⟩ := hat
      rw [entry_setEntry_self, h]
    · rw [entry_setEntry_of_ne hat]

@[simp] theorem setNode_setNode (b' : Option β) :
    (t.setNode i b).setNode i b' = t.setNode i b' := by
  ext j : 2
  · by_cases h : j = i
    · subst h
      rw [node_setNode_self, node_setNode_self]
    · rw [node_setNode_of_ne h, node_setNode_of_ne h, node_setNode_of_ne h]
  · rfl

theorem setNode_eq_self (h : t.node i = b) : t.setNode i b = t := by
  ext j : 2
  · by_cases hat : j = i
    · subst hat
      rw [node_setNode_self, h]
    · rw [node_setNode_of_ne hat]
  · rfl

theorem dropEntry_of_stays (h : stays ∨ (t.setEntry p n none).Named i) :
    t.dropEntry p n i stays = t.setEntry p n none := if_pos h

theorem dropEntry_of_last (h : ¬(stays ∨ (t.setEntry p n none).Named i)) :
    t.dropEntry p n i stays = (t.setEntry p n none).setNode i none := if_neg h

section Undo

theorem setEntry_undo (hfree : t.entry p n = none) : (t.setEntry p n o).setEntry p n none = t := by
  rw [setEntry_setEntry, setEntry_eq_self hfree]

theorem dropEntry_setEntry (hfree : t.entry p n = none) (h : stays ∨ t.Named i) :
    (t.setEntry p n (some i)).dropEntry p n i stays = t := by
  have hback : (t.setEntry p n (some i)).setEntry p n none = t := setEntry_undo hfree
  rw [dropEntry_of_stays (hback.symm ▸ h), hback]

theorem dropEntry_new (hfree : t.entry p n = none) (hnew : t.node i = none) (hnone : ¬t.Named i) :
    ((t.setNode i b).setEntry p n (some i)).dropEntry p n i False = t := by
  have hback : ((t.setNode i b).setEntry p n (some i)).setEntry p n none = t.setNode i b :=
    setEntry_undo hfree
  rw [dropEntry_of_last, hback, setNode_setNode, setNode_eq_self hnew]
  rw [hback, setNode_named]
  exact fun h => h.elim id hnone

theorem moveEntry_undo (hfree : t.entry q m = none) (hne : ¬(p = q ∧ n = m)) :
    (t.moveEntry p n q m).moveEntry q m p n = t := by
  have hne' : ¬(q = p ∧ m = n) := fun h => hne ⟨h.1.symm, h.2.symm⟩
  have hmoved : (t.moveEntry p n q m).entry q m = t.entry p n := entry_setEntry_self
  have hback : (t.moveEntry p n q m).setEntry q m none = t.setEntry p n none := by
    apply setEntry_undo
    rw [entry_setEntry_of_ne hne', hfree]
  rw [moveEntry, hmoved, hback, setEntry_setEntry, setEntry_eq_self rfl]

end Undo

end NameTree

end VibeDbfs.Lib
