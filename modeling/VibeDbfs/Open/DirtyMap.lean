import VibeDbfs.Open.DirtyLaws

/-!
The dirty index as a sorted map, for every way to build one. What `find` and `range` return is
fixed by the entries alone, so the shortcut for the last entry and the binary search agree.
-/

set_option autoImplicit false
set_option relaxedAutoImplicit false

namespace VibeDbfs

open Lib Lib.Bytes

/-- What a binary search for `c` may return: the position of an entry of `c`, or the position at
which an entry of `c` keeps the order. -/
def SearchResult (c : Nat) (entries : List (Nat × ArenaSlot)) : Except Nat Nat → Prop
  | .ok position => ∃ a, entries[position]? = some (c, a)
  | .error position => DirtyIdx.Splits entries c position

namespace DirtyIdx

/-- The indexes that `find` followed by `insert`, and `release_into`, build from the empty one. -/
inductive Built : DirtyIdx → Prop
  | empty : Built empty
  | insert {idx : DirtyIdx} {c position : Nat} (slot : ArenaSlot) :
      Built idx → idx.find c = .error position → Built (idx.insert position c slot)
  | release {idx : DirtyIdx} (arena : ChunkArena) : Built idx → Built (idx.releaseInto arena).1

variable {idx : DirtyIdx} {c position first last : Nat} {a : ArenaSlot}

private theorem Built.sorted (h : Built idx) : idx.Sorted := by
  induction h with
  | empty => exact sorted_empty
  | insert slot _ hfind ih => exact ih.insert (find_error ih hfind)
  | release arena _ _ =>
    rw [releaseInto_eq]
    exact sorted_empty

section Search

variable {entries : List (Nat × ArenaSlot)}

private theorem key_lt (hs : (entries.map Prod.fst).Pairwise (· < ·)) {i j : Nat}
    {e f : Nat × ArenaSlot}
    (hi : entries[i]? = some e) (hj : entries[j]? = some f) (hij : i < j) : e.1 < f.1 := by
  have hfst : ∀ {k : Nat} {g : Nat × ArenaSlot}, entries[k]? = some g →
      (entries.map Prod.fst)[k]? = some g.1 := by
    intro k g hk
    rw [List.getElem?_map, hk, Option.map_some]
  obtain ⟨hilt, hi'⟩ := List.getElem?_eq_some_iff.mp (hfst hi)
  obtain ⟨hjlt, hj'⟩ := List.getElem?_eq_some_iff.mp (hfst hj)
  have hlt := List.pairwise_iff_getElem.mp hs i j hilt hjlt hij
  rwa [hi', hj'] at hlt

private theorem Splits.get (h : Splits entries c position) {i : Nat} {e : Nat × ArenaSlot}
    (hi : entries[i]? = some e) : (i < position → e.1 < c) ∧ (position ≤ i → c < e.1) := by
  obtain ⟨-, hlow, hhigh⟩ := h
  constructor
  · intro hlt
    apply hlow
    apply List.mem_of_getElem?
    rw [List.getElem?_take_of_lt hlt, hi]
  · intro hle
    apply hhigh
    apply List.mem_of_getElem?
    rw [List.getElem?_drop, Nat.add_sub_cancel' hle, hi]

private theorem searchResult_unique (hs : (entries.map Prod.fst).Pairwise (· < ·))
    {r q : Except Nat Nat}
    (hr : SearchResult c entries r) (hq : SearchResult c entries q) : r = q := by
  have hmixed : ∀ {i p : Nat}, SearchResult c entries (.ok i) →
      SearchResult c entries (.error p) → False := by
    rintro i p ⟨a, hi⟩ hp
    rcases Nat.lt_or_ge i p with hlt | hge
    · exact Nat.lt_irrefl c ((Splits.get hp hi).1 hlt)
    · exact Nat.lt_irrefl c ((Splits.get hp hi).2 hge)
  have herror : ∀ {p q : Nat}, SearchResult c entries (.error p) →
      SearchResult c entries (.error q) → ¬p < q := by
    intro p q hp hq hlt
    -- the entry at `p` is past `p`, so above `c`, and before `q`, so below it
    have hin : p < entries.length := hlt.trans_le hq.1
    have hget := List.getElem?_eq_getElem hin
    exact Nat.lt_asymm ((Splits.get hp hget).2 (Nat.le_refl p)) ((Splits.get hq hget).1 hlt)
  cases r with
  | ok i =>
    cases q with
    | ok j =>
      obtain ⟨a, hi⟩ := hr
      obtain ⟨b, hj⟩ := hq
      rcases Nat.lt_trichotomy i j with hlt | rfl | hgt
      · exact absurd (key_lt hs hi hj hlt) (Nat.lt_irrefl c)
      · rfl
      · exact absurd (key_lt hs hj hi hgt) (Nat.lt_irrefl c)
    | error p => exact (hmixed hr hq).elim
  | error p =>
    cases q with
    | ok j => exact (hmixed hq hr).elim
    | error q =>
      have hpq := herror hr hq
      have hqp := herror hq hr
      congr 1
      omega

private theorem searchResult_binarySearch (hs : (entries.map Prod.fst).Pairwise (· < ·)) :
    SearchResult c entries (binarySearchByKey c entries) := by
  rcases h : binarySearchByKey c entries with position | position
  · exact binarySearch_error hs h
  · exact binarySearch_ok h

end Search

private theorem searchResult_find (hs : idx.Sorted) : SearchResult c idx.entries (idx.find c) := by
  rcases h : idx.find c with position | position
  · exact find_error hs h
  · exact ⟨_, find_ok h⟩

private theorem find_eq (hs : idx.Sorted) : idx.find c = binarySearchByKey c idx.entries :=
  searchResult_unique hs (searchResult_find hs) (searchResult_binarySearch hs)

private theorem find_eq_iff (hs : idx.Sorted) {r : Except Nat Nat} :
    idx.find c = r ↔ SearchResult c idx.entries r := by
  constructor
  · intro h
    exact h ▸ searchResult_find hs
  · intro h
    exact searchResult_unique hs (searchResult_find hs) h

private theorem splits_iff (hs : idx.Sorted) : Splits idx.entries c position ↔
    position ≤ idx.entries.length ∧ (idx.insert position c a).Sorted := by
  constructor
  · intro h
    exact ⟨h.1, hs.insert h⟩
  · rintro ⟨hle, hsorted⟩
    rw [Sorted, insert_entries hle, List.map_append, List.map_cons, List.pairwise_append,
      List.pairwise_cons] at hsorted
    obtain ⟨-, ⟨hafter, -⟩, hacross⟩ := hsorted
    refine ⟨hle, ?_, ?_⟩
    · intro e he
      exact hacross e.1 (List.mem_map_of_mem he) c List.mem_cons_self
    · intro e he
      exact hafter e.1 (List.mem_map_of_mem he)

section Range

def Before (e f : Nat × ArenaSlot) : Prop := e.1 < f.1

instance : Std.Irrefl Before := ⟨fun e => Nat.lt_irrefl e.1⟩

instance : Std.Antisymm Before := ⟨fun _ _ h h' => absurd h' (Nat.lt_asymm h)⟩

private theorem Sorted.pairwise (hs : idx.Sorted) : idx.entries.Pairwise Before := by
  rw [Sorted, List.pairwise_map] at hs
  exact hs

private theorem range_eq_filter (hs : idx.Sorted) : idx.range first last =
    idx.entries.filter fun e => first ≤ e.1 ∧ e.1 ≤ last := by
  have hrange : (idx.range first last).Pairwise Before := hs.pairwise.sublist range_sublist
  have hfilter : (idx.entries.filter fun e => first ≤ e.1 ∧ e.1 ≤ last).Pairwise Before :=
    hs.pairwise.sublist List.filter_sublist
  apply hrange.eq_of_mem_iff hfilter
  intro e
  rw [mem_range hs, List.mem_filter, decide_eq_true_eq]

private theorem range_bounds (idx : DirtyIdx) (hle : first ≤ last) :
    partitionPoint (fun e => decide (e.1 < first)) idx.entries ≤
        partitionPoint (fun e => decide (e.1 ≤ last)) idx.entries ∧
      partitionPoint (fun e => decide (e.1 ≤ last)) idx.entries ≤ idx.entries.length := by
  refine ⟨?_, partitionPoint_le⟩
  unfold partitionPoint
  generalize idx.entries = entries
  induction entries with
  | nil => exact Nat.le_refl _
  | cons e entries ih =>
    rw [List.takeWhile_cons, List.takeWhile_cons]
    by_cases hbelow : e.1 < first
    · rw [if_pos (decide_eq_true hbelow), if_pos (decide_eq_true (by omega))]
      exact Nat.succ_le_succ ih
    · rw [if_neg (by simp [hbelow])]
      exact Nat.zero_le _

end Range

/-- The dirty index is a sorted map: `find` tells where a chunk is, or the only place to insert it,
and `range` returns the entries of a range of chunks. -/
theorem built_sortedMap (h : Built idx) :
    (idx.entries.map Prod.fst).Pairwise (· < ·) ∧
    (∀ c position, idx.find c = .ok position ↔ ∃ a, idx.entries[position]? = some (c, a)) ∧
    (∀ c position a, idx.find c = .error position ↔
      position ≤ idx.entries.length ∧ (idx.insert position c a).Sorted) ∧
    (∀ c r, SearchResult c idx.entries r → idx.find c = r ∧ binarySearchByKey c idx.entries = r) ∧
    ∀ first last, first ≤ last →
      partitionPoint (fun e => decide (e.1 < first)) idx.entries ≤
          partitionPoint (fun e => decide (e.1 ≤ last)) idx.entries ∧
        partitionPoint (fun e => decide (e.1 ≤ last)) idx.entries ≤ idx.entries.length ∧
        idx.range first last = idx.entries.filter fun e => first ≤ e.1 ∧ e.1 ≤ last := by
  have hs := h.sorted
  refine ⟨hs, ?_, ?_, ?_, ?_⟩
  · intro c position
    exact find_eq_iff hs
  · intro c position a
    exact (find_eq_iff hs).trans (splits_iff hs)
  · intro c r hr
    have hfind := (find_eq_iff hs).mpr hr
    exact ⟨hfind, (find_eq hs).symm.trans hfind⟩
  · intro first last hle
    obtain ⟨hstart, hstop⟩ := range_bounds idx hle
    exact ⟨hstart, hstop, range_eq_filter hs⟩

/-- Chunks 4 and 2, and the place of chunk 3 between them. -/
theorem built_sortedMap_two : (⟨[(2, 1), (4, 0)]⟩ : DirtyIdx).find 3 = .error 1 ∧
    (⟨[(2, 1), (4, 0)]⟩ : DirtyIdx).range 3 7 = [(4, 0)] := by
  have hone : Built ⟨[(4, 0)]⟩ := @Built.insert _ 4 0 0 Built.empty rfl
  have htwo : Built ⟨[(2, 1), (4, 0)]⟩ := @Built.insert _ 2 0 1 hone rfl
  obtain ⟨-, -, hfind, -, hrange⟩ := built_sortedMap htwo
  refine ⟨(hfind 3 1 9).mpr ⟨by decide, by unfold Sorted; decide⟩, ?_⟩
  rw [(hrange 3 7 (by decide)).2.2]
  decide

end DirtyIdx

end VibeDbfs
