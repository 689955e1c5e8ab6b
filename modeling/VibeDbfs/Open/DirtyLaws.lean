import Mathlib.Data.List.TakeWhile
import VibeDbfs.Lib.Keyed
import VibeDbfs.Open.ArenaLaws

/-!
The dirty index as a finite map from chunk indexes to arena slots, kept as a sorted list.
-/

set_option autoImplicit false
set_option relaxedAutoImplicit false

namespace VibeDbfs

open Lib Lib.Bytes

section Partition

variable {α : Type} {p : α → Bool} {xs : List α}

private theorem partitionPoint_split (p : α → Bool) (xs : List α) :
    xs.take (partitionPoint p xs) = xs.takeWhile p ∧
      xs.drop (partitionPoint p xs) = xs.dropWhile p := by
  have hsplit : xs.takeWhile p ++ xs.dropWhile p = xs := List.takeWhile_append_dropWhile
  have htake : (xs.takeWhile p ++ xs.dropWhile p).take (xs.takeWhile p).length = xs.takeWhile p :=
    List.take_left
  have hdrop : (xs.takeWhile p ++ xs.dropWhile p).drop (xs.takeWhile p).length = xs.dropWhile p :=
    List.drop_left
  rw [hsplit] at htake hdrop
  exact ⟨htake, hdrop⟩

theorem partitionPoint_le : partitionPoint p xs ≤ xs.length := by
  rw [partitionPoint]
  exact (List.takeWhile_sublist p).length_le

end Partition

namespace DirtyIdx

def Sorted (idx : DirtyIdx) : Prop := (idx.entries.map Prod.fst).Pairwise (· < ·)

/-- The arena slot of chunk `c`. -/
def lookup (idx : DirtyIdx) (c : Nat) : Option ArenaSlot :=
  (idx.entries.find? fun e => e.1 = c).map Prod.snd

def slots (idx : DirtyIdx) : List ArenaSlot := idx.entries.map Prod.snd

variable {idx : DirtyIdx} {c d position : Nat} {a : ArenaSlot}

theorem Sorted.nodup (h : idx.Sorted) : (idx.entries.map Prod.fst).Nodup :=
  h.imp Nat.ne_of_lt

theorem sorted_empty : empty.Sorted := List.Pairwise.nil

theorem lookup_eq_some (h : idx.Sorted) : idx.lookup c = some a ↔ (c, a) ∈ idx.entries := by
  rw [lookup, Option.map_eq_some_iff]
  constructor
  · rintro ⟨⟨_, _⟩, he, rfl⟩
    obtain ⟨hmem, rfl⟩ := (Keyed.find_eq_some_iff h.nodup).mp he
    exact hmem
  · exact fun hmem => ⟨_, (Keyed.find_eq_some_iff h.nodup).mpr ⟨hmem, rfl⟩, rfl⟩

theorem lookup_eq_none : idx.lookup c = none ↔ ∀ e ∈ idx.entries, e.1 ≠ c := by
  rw [lookup, Option.map_eq_none_iff]
  exact Keyed.find_eq_none_iff

theorem mem_slots (h : idx.lookup c = some a) : a ∈ idx.slots := by
  obtain ⟨e, he, rfl⟩ := Option.map_eq_some_iff.mp h
  exact List.mem_map_of_mem (List.mem_of_find?_eq_some he)

theorem isEmpty_iff : idx.isEmpty = true ↔ idx.entries = [] := List.isEmpty_iff

theorem isEmpty_iff_lookup : idx.isEmpty = true ↔ ∀ c, idx.lookup c = none := by
  rw [isEmpty_iff]
  constructor
  · exact fun h c => lookup_eq_none.mpr (by simp [h])
  · intro h
    rcases hentries : idx.entries with _ | ⟨e, rest⟩
    · rfl
    · exact (lookup_eq_none.mp (h e.1) e (by simp [hentries]) rfl).elim

section Search

variable {entries : List (Nat × ArenaSlot)}

private theorem takeWhile_lt (h : (entries.map Prod.fst).Pairwise (· < ·)) :
    (∀ e ∈ entries.takeWhile (fun e => e.1 < c), e.1 < c) ∧
      ∀ e ∈ entries.dropWhile (fun e => e.1 < c), c ≤ e.1 := by
  refine ⟨fun e he => by simpa using List.mem_takeWhile_imp he, ?_⟩
  induction entries with
  | nil => simp
  | cons e entries ih =>
    rw [List.map_cons, List.pairwise_cons] at h
    rw [List.dropWhile_cons]
    split
    · exact ih h.2
    · next hge =>
      intro e' he'
      simp only [decide_eq_true_eq, Nat.not_lt] at hge
      rcases List.mem_cons.mp he' with rfl | he'
      · exact hge
      · exact hge.trans (Nat.le_of_lt (h.1 e'.1 (List.mem_map_of_mem he')))

theorem binarySearch_ok (h : binarySearchByKey c entries = .ok position) :
    ∃ a, entries[position]? = some (c, a) := by
  unfold binarySearchByKey at h
  dsimp only at h
  split at h
  · next e he =>
    split at h
    · next hkey =>
      cases h
      exact ⟨e.2, by rw [he, ← hkey]⟩
    · cases h
  · cases h

/-- A position at which `c` can be inserted: smaller entries before it, larger ones after it. -/
def Splits (entries : List (Nat × ArenaSlot)) (c position : Nat) : Prop :=
  position ≤ entries.length ∧ (∀ e ∈ entries.take position, e.1 < c) ∧ ∀ e ∈
    entries.drop position, c < e.1

theorem binarySearch_error (hs : (entries.map Prod.fst).Pairwise (· < ·))
    (h : binarySearchByKey c entries = .error position) : Splits entries c position := by
  unfold binarySearchByKey at h
  dsimp only at h
  have hposition : position = partitionPoint (fun e => e.1 < c) entries ∧
      ∀ e, entries[partitionPoint (fun e => decide (e.1 < c)) entries]? = some e → e.1 ≠ c := by
    split at h
    · next e he =>
      split at h
      · cases h
      · next hkey =>
        cases h
        refine ⟨rfl, fun e' he' => ?_⟩
        rw [he] at he'
        cases he'
        exact hkey
    · next hnone =>
      cases h
      exact ⟨rfl, fun e' he' => by rw [hnone] at he'; cases he'⟩
  obtain ⟨rfl, hne⟩ := hposition
  obtain ⟨htake, hdrop⟩ := partitionPoint_split (fun e => decide (e.1 < c)) entries
  obtain ⟨hlt, hge⟩ := takeWhile_lt (c := c) hs
  refine ⟨partitionPoint_le, fun e he => hlt e (htake ▸ he), fun e he => ?_⟩
  rw [hdrop] at he
  -- only the first entry after the point could have the key `c`
  have hsorted : ((entries.dropWhile fun e => decide (e.1 < c)).map Prod.fst).Pairwise (· < ·) :=
    hs.sublist ((List.dropWhile_sublist _).map _)
  rcases hrest : entries.dropWhile (fun e => decide (e.1 < c)) with _ | ⟨first, rest⟩
  · rw [hrest] at he
    simp at he
  · have hget : entries[partitionPoint (fun e => decide (e.1 < c)) entries]? = some first := by
      have h0 : (entries.drop (partitionPoint (fun e => decide (e.1 < c)) entries))[0]? =
          entries[partitionPoint (fun e => decide (e.1 < c)) entries + 0]? := List.getElem?_drop
      rw [hdrop, hrest] at h0
      simpa using h0.symm
    have hfirst : c < first.1 := by
      have hle := hge first (by rw [hrest]; exact List.mem_cons_self)
      exact Nat.lt_of_le_of_ne hle (hne first hget).symm
    rw [hrest] at he hsorted
    rw [List.map_cons, List.pairwise_cons] at hsorted
    rcases List.mem_cons.mp he with rfl | he
    · exact hfirst
    · exact hfirst.trans (hsorted.1 e.1 (List.mem_map_of_mem he))

end Search

theorem find_ok (h : idx.find c = .ok position) :
    idx.entries[position]? = some (c, idx.slotAt position) := by
  have hget : ∃ a, idx.entries[position]? = some (c, a) := by
    unfold find at h
    split at h
    · cases h
    · next last a hlast =>
      split at h
      · next heq =>
        cases h
        rw [List.getLast?_eq_getElem?] at hlast
        exact ⟨a, heq ▸ hlast⟩
      · split at h
        · cases h
        · exact binarySearch_ok h
  obtain ⟨a, ha⟩ := hget
  rw [slotAt, List.getD_eq_getElem?_getD, ha]
  rfl

theorem find_error (hs : idx.Sorted) (h : idx.find c = .error position) :
    Splits idx.entries c position := by
  unfold find at h
  split at h
  · next hnone =>
    cases h
    rw [List.getLast?_eq_none_iff] at hnone
    simp [Splits, hnone]
  · next last a hlast =>
    split at h
    · cases h
    · split at h
      · next hlt =>
        cases h
        -- `c` is larger than the last index, hence than every index
        refine ⟨Nat.le_refl _, fun e he => ?_, by simp⟩
        rw [List.take_length] at he
        obtain ⟨front, hfront⟩ := List.getLast?_eq_some_iff.mp hlast
        have hs' : (idx.entries.map Prod.fst).Pairwise (· < ·) := hs
        rw [hfront] at he hs'
        rw [List.map_append, List.pairwise_append] at hs'
        rcases List.mem_append.mp he with he | he
        · exact (hs'.2.2 e.1 (List.mem_map_of_mem he) last (by simp)).trans hlt
        · rw [List.mem_singleton.mp he]
          exact hlt
      · exact binarySearch_error hs h

theorem lookup_of_find (hs : idx.Sorted) (h : idx.find c = .ok position) :
    idx.lookup c = some (idx.slotAt position) :=
  (lookup_eq_some hs).mpr (List.mem_of_getElem? (find_ok h))

theorem lookup_of_find_error (hs : idx.Sorted) (h : idx.find c = .error position) :
    idx.lookup c = none := by
  obtain ⟨-, hlow, hhigh⟩ := find_error hs h
  refine lookup_eq_none.mpr fun e he heq => ?_
  rw [← List.take_append_drop position idx.entries] at he
  rcases List.mem_append.mp he with he | he
  · exact Nat.ne_of_lt (hlow e he) heq
  · exact Nat.ne_of_gt (hhigh e he) heq

section Insert

theorem insert_entries (h : position ≤ idx.entries.length) : (idx.insert position c a).entries =
    idx.entries.take position ++ (c, a) :: idx.entries.drop position := by
  rw [insert]
  dsimp only
  generalize idx.entries = entries at *
  induction position generalizing entries with
  | zero => simp
  | succ position ih =>
    cases entries with
    | nil => simp at h
    | cons e entries =>
      rw [List.insertIdx_succ_cons, ih entries (Nat.le_of_succ_le_succ h)]
      rfl

private theorem mem_insert (h : position ≤ idx.entries.length) {e : Nat × ArenaSlot} :
    e ∈ (idx.insert position c a).entries ↔ e = (c, a) ∨ e ∈ idx.entries := by
  rw [insert_entries h, List.mem_append, List.mem_cons, or_left_comm, ← List.mem_append,
    List.take_append_drop]

theorem Sorted.insert (hs : idx.Sorted) (h : Splits idx.entries c position) :
    (idx.insert position c a).Sorted := by
  obtain ⟨hle, hlow, hhigh⟩ := h
  have hs' : (idx.entries.map Prod.fst).Pairwise (· < ·) := hs
  rw [← List.take_append_drop position idx.entries, List.map_append, List.pairwise_append] at hs'
  obtain ⟨hbefore, hafter, hacross⟩ := hs'
  rw [Sorted, insert_entries hle, List.map_append, List.map_cons, List.pairwise_append,
    List.pairwise_cons]
  refine ⟨hbefore, ⟨fun k hk => ?_, hafter⟩, fun i hi k hk => ?_⟩
  · obtain ⟨e, he, rfl⟩ := List.mem_map.mp hk
    exact hhigh e he
  · rcases List.mem_cons.mp hk with rfl | hk
    · obtain ⟨e, he, rfl⟩ := List.mem_map.mp hi
      exact hlow e he
    · exact hacross i hi k hk

theorem lookup_insert (hs : idx.Sorted) (h : Splits idx.entries c position) :
    (idx.insert position c a).lookup d = if d = c then some a else idx.lookup d := by
  have hnew : ∀ b, (idx.insert position c a).lookup d = some b ↔ (d, b) = (c, a) ∨
      (d, b) ∈ idx.entries := fun b => (lookup_eq_some (hs.insert h)).trans (mem_insert h.1)
  split
  · next hd =>
    subst hd
    exact (hnew a).mpr (.inl rfl)
  · next hd =>
    refine Option.ext fun b => ?_
    rw [hnew, lookup_eq_some hs]
    exact or_iff_right fun he => hd (congrArg Prod.fst he)

theorem slots_insert (h : position ≤ idx.entries.length) :
    (idx.insert position c a).slots.Perm (a :: idx.slots) := by
  have hmove : ((idx.entries.take position ++ (c, a) :: idx.entries.drop position).map
      Prod.snd).Perm
      (((c, a) :: (idx.entries.take position ++ idx.entries.drop position)).map Prod.snd) :=
    List.perm_middle.map Prod.snd
  rw [List.take_append_drop, ← insert_entries h] at hmove
  exact hmove

end Insert

section Range

variable {first last : Nat}

theorem range_sublist : (idx.range first last).Sublist idx.entries :=
  (List.take_sublist _ _).trans (List.drop_sublist _ _)

theorem mem_range (hs : idx.Sorted) {e : Nat × ArenaSlot} : e ∈ idx.range first last ↔
    e ∈ idx.entries ∧ first ≤ e.1 ∧ e.1 ≤ last := by
  have hlast : (fun e : Nat × ArenaSlot => decide (e.1 ≤ last)) = fun e => decide
      (e.1 < last + 1) :=
    funext fun e => decide_eq_decide.mpr Nat.lt_succ_iff.symm
  obtain ⟨htake, hdrop⟩ := partitionPoint_split (fun e => decide (e.1 < first)) idx.entries
  obtain ⟨htake', hdrop'⟩ := partitionPoint_split (fun e => decide (e.1 < last + 1)) idx.entries
  obtain ⟨hlow, hhigh⟩ := takeWhile_lt (c := first) hs
  obtain ⟨hlow', hhigh'⟩ := takeWhile_lt (c := last + 1) hs
  rw [← htake] at hlow
  rw [← hdrop] at hhigh
  rw [← htake'] at hlow'
  rw [← hdrop'] at hhigh'
  rw [range, hlast]
  generalize partitionPoint (fun e : Nat × ArenaSlot => decide (e.1 < first)) idx.entries =
    start at *
  generalize partitionPoint (fun e : Nat × ArenaSlot => decide (e.1 < last + 1)) idx.entries =
    stop at *
  rw [slice, ← List.drop_take]
  constructor
  · intro he
    have hmem := List.mem_of_mem_drop he
    refine ⟨List.mem_of_mem_take hmem, ?_, Nat.le_of_lt_succ (hlow' e hmem)⟩
    rw [List.drop_take] at he
    exact hhigh e (List.mem_of_mem_take he)
  · rintro ⟨he, hfirst, hstop⟩
    -- not beyond `stop`, and then not before `start`
    rw [← List.take_append_drop stop idx.entries] at he
    have he := (List.mem_append.mp he).resolve_right fun hout => by
      have := hhigh' e hout
      omega
    rw [← List.take_append_drop start (idx.entries.take stop)] at he
    refine (List.mem_append.mp he).resolve_left fun hout => ?_
    rw [List.take_take] at hout
    have := hlow e ((List.take_subset_take_left _ (Nat.min_le_left _ _)) hout)
    omega

end Range

theorem releaseInto_eq (arena : ChunkArena) : idx.releaseInto arena =
    (empty, { arena with free := idx.slots.reverse ++ arena.free }) := by
  unfold releaseInto slots
  generalize idx.entries = entries
  congr 1
  induction entries generalizing arena with
  | nil => rfl
  | cons e entries ih =>
    rw [List.foldl_cons, ih]
    simp [ChunkArena.release]

end DirtyIdx

end VibeDbfs
