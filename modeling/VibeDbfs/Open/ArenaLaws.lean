import VibeDbfs.Open.Arena

/-!
The arena as a memory of separate chunks: what each operation does to the bytes of a slot, and that
it leaves every other slot alone.
-/

set_option autoImplicit false
set_option relaxedAutoImplicit false

namespace VibeDbfs

open Lib.Bytes

namespace ChunkArena

def Bounded (arena : ChunkArena) : Prop := ∀ n ∈ arena.len, n ≤ chunkSize

/-- The slots fit in the budget, which is not empty. -/
structure Budgeted (arena : ChunkArena) : Prop where
  pos : 0 < arena.maxSlots
  len : arena.len.length ≤ arena.maxSlots

variable {arena arena' : ChunkArena} {a b : Nat} {data : Bytes}

theorem Bounded.len_le (h : arena.Bounded) (a : Nat) : arena.len.getD a 0 ≤ chunkSize := by
  rw [List.getD_eq_getElem?_getD]
  rcases hget : arena.len[a]? with _ | n
  · exact Nat.zero_le _
  · exact h n (List.mem_of_getElem? hget)

@[simp] theorem length_chunk : (arena.chunk a).length = arena.len.getD a 0 := length_tabulate _ _

private theorem byteAt_chunk (i : Nat) : byteAt (arena.chunk a) i =
    if i < arena.len.getD a 0 then arena.bytes (base a + i) else 0 :=
  byteAt_tabulate _ _ _

private theorem buffers_apart {i : Nat} (start : Nat) {stop : Nat} (hne : b ≠ a)
    (hi : i < chunkSize) (hstop : stop ≤ chunkSize) :
    base b + i < base a + start ∨ base a + stop ≤ base b + i := by
  simp only [base, chunkSize] at *
  omega

private theorem chunk_congr (hlen : arena'.len.getD b 0 = arena.len.getD b 0)
    (hbytes : ∀ i < arena.len.getD b 0,
      arena'.bytes (base b + i) = arena.bytes (base b + i)) :
    arena'.chunk b = arena.chunk b := by
  unfold chunk
  rw [hlen]
  exact tabulate_congr hbytes

private theorem getD_set_ne {xs : List Nat} {n : Nat} (hne : b ≠ a) :
    (xs.set a n).getD b 0 = xs.getD b 0 := by
  rw [List.getD_eq_getElem?_getD, List.getD_eq_getElem?_getD, List.getElem?_set_ne hne.symm]

private theorem getD_set_self {xs : List Nat} {n : Nat} (ha : a < xs.length) :
    (xs.set a n).getD a 0 = n := by
  rw [List.getD_eq_getElem?_getD, List.getElem?_set_self ha]
  rfl

private theorem Bounded.set (h : arena.Bounded) {n : Nat} (hn : n ≤ chunkSize) :
    ∀ m ∈ arena.len.set a n, m ≤ chunkSize := by
  intro m hm
  rcases List.mem_or_eq_of_mem_set hm with hm | rfl
  · exact h m hm
  · exact hn

theorem alloc_cases (h : arena.alloc = some (a, arena')) :
    (arena.free = a :: arena'.free ∧ arena'.len = arena.len.set a 0 ∧ arena'.bytes = arena.bytes ∧
      arena'.maxSlots = arena.maxSlots) ∨
    (arena.free = [] ∧ arena'.free = [] ∧ a = arena.len.length ∧ a < arena.maxSlots ∧
      arena'.len = arena.len ++ [0] ∧ arena'.bytes = wipe arena.bytes (base a) chunkSize ∧
      arena'.maxSlots = arena.maxSlots) := by
  unfold alloc at h
  split at h
  · next slot free hfree =>
    cases h
    exact .inl ⟨hfree, rfl, rfl, rfl⟩
  · next hfree =>
    split at h
    · next hroom =>
      cases h
      exact .inr ⟨hfree, hfree, rfl, hroom, rfl, rfl, rfl⟩
    · cases h

theorem alloc_eq_none : arena.alloc = none ↔ arena.free = [] ∧ arena.maxSlots ≤
    arena.len.length := by
  unfold alloc
  split
  · next hfree => simp [hfree]
  · next hfree =>
    split
    · next hroom => simp [hfree, Nat.not_le.mpr hroom]
    · next hfull => simp [hfree, Nat.le_of_not_lt hfull]

theorem alloc_bounded (hb : arena.Bounded) (h : arena.alloc = some (a, arena')) :
    arena'.Bounded := by
  rcases alloc_cases h with ⟨-, hlen, -⟩ | ⟨-, -, -, -, hlen, -⟩
  · intro n hn
    exact hb.set (Nat.zero_le _) n (hlen ▸ hn)
  · intro n hn
    rw [hlen, List.mem_append, List.mem_singleton] at hn
    rcases hn with hn | rfl
    · exact hb n hn
    · exact Nat.zero_le _

theorem alloc_maxSlots (h : arena.alloc = some (a, arena')) : arena'.maxSlots = arena.maxSlots := by
  rcases alloc_cases h with ⟨-, -, -, hmax⟩ | ⟨-, -, -, -, -, -, hmax⟩ <;> exact hmax

theorem alloc_budgeted (hb : arena.Budgeted) (h : arena.alloc = some (a, arena')) :
    arena'.Budgeted := by
  have hmax := alloc_maxSlots h
  refine ⟨hmax ▸ hb.pos, hmax ▸ ?_⟩
  rcases alloc_cases h with ⟨-, hlen, -⟩ | ⟨-, -, rfl, hroom, hlen, -⟩
  · rw [hlen, List.length_set]
    exact hb.len
  · rw [hlen, List.length_append, List.length_singleton]
    exact hroom

theorem chunk_alloc_self (hfree : ∀ b ∈ arena.free, b < arena.len.length)
    (h : arena.alloc = some (a, arena')) : arena'.chunk a = [] := by
  have hlen : arena'.len.getD a 0 = 0 := by
    rcases alloc_cases h with ⟨hmem, hlen, -⟩ | ⟨-, -, rfl, -, hlen, -⟩
    · rw [hlen, getD_set_self (hfree a (hmem ▸ List.mem_cons_self))]
    · rw [hlen]
      simp
  rw [chunk, hlen]
  rfl

theorem chunk_alloc_ne (hb : arena.Bounded) (hne : b ≠ a) (hin : b < arena.len.length)
    (h : arena.alloc = some (a, arena')) : arena'.chunk b = arena.chunk b := by
  rcases alloc_cases h with ⟨-, hlen, hbytes, -⟩ | ⟨-, -, rfl, -, hlen, hbytes, -⟩
  · exact chunk_congr (hlen ▸ getD_set_ne hne) fun i _ => by rw [hbytes]
  · refine chunk_congr ?_ fun i hi => ?_
    · rw [hlen, List.getD_eq_getElem?_getD, List.getD_eq_getElem?_getD,
        List.getElem?_append_left hin]
    · have houter := buffers_apart 0 hne (hi.trans_le (hb.len_le b)) (Nat.le_refl _)
      rw [Nat.add_zero] at houter
      rw [hbytes, wipe_apart houter]

section Fill

variable {len : Nat}

theorem chunk_fill_take (ha : a < arena.len.length) (hle : len ≤ data.length) :
    ((arena.fillBuffer a data).setLen a len).chunk a = data.take len := by
  have hlen : ((arena.fillBuffer a data).setLen a len).len.getD a 0 = len := getD_set_self ha
  refine ext_byteAt ?_ fun i hi => ?_
  · rw [length_chunk, hlen, List.length_take, Nat.min_eq_left hle]
  · rw [length_chunk, hlen] at hi
    rw [byteAt_chunk, hlen, if_pos hi, byteAt_take, if_pos hi]
    have hpoke := poke_add arena.bytes (base a) 0 i data
    rw [Nat.add_zero, Nat.sub_zero, if_pos ⟨Nat.zero_le i, by omega⟩] at hpoke
    exact hpoke

theorem chunk_fill_self (ha : a < arena.len.length) :
    ((arena.fillBuffer a data).setLen a data.length).chunk a = data := by
  rw [chunk_fill_take ha (Nat.le_refl _), List.take_length]

theorem chunk_fill_ne (hb : arena.Bounded) (hne : b ≠ a) (hdata : data.length ≤ chunkSize) :
    ((arena.fillBuffer a data).setLen a len).chunk b = arena.chunk b := by
  refine chunk_congr (getD_set_ne hne) fun i hi => ?_
  have houter := buffers_apart 0 hne (hi.trans_le (hb.len_le b)) hdata
  rw [Nat.add_zero] at houter
  exact poke_apart houter

theorem fill_bounded (hb : arena.Bounded) (hlen : len ≤ chunkSize) :
    ((arena.fillBuffer a data).setLen a len).Bounded := hb.set hlen

theorem fill_budgeted (hb : arena.Budgeted) :
    ((arena.fillBuffer a data).setLen a data.length).Budgeted :=
  ⟨hb.pos, (List.length_set ..).trans_le hb.len⟩

end Fill

section Write

variable {range : Range}

theorem write_len : (arena.write a range data).len =
    arena.len.set a (max (arena.len.getD a 0) range.stop) := rfl

theorem write_bounded (hb : arena.Bounded) (hstop : range.stop ≤ chunkSize) :
    (arena.write a range data).Bounded :=
  hb.set (Nat.max_le.mpr ⟨hb.len_le a, hstop⟩)

theorem write_budgeted (hb : arena.Budgeted) : (arena.write a range data).Budgeted :=
  ⟨hb.pos, (List.length_set ..).trans_le hb.len⟩

theorem chunk_write_self (ha : a < arena.len.length)
    (hrange : range.start + data.length = range.stop) :
    (arena.write a range data).chunk a = splice range.start data (arena.chunk a) := by
  have hlen : (arena.write a range data).len.getD a 0 = max (arena.len.getD a 0) range.stop :=
    getD_set_self ha
  refine ext_byteAt (by rw [length_chunk, hlen, length_splice, length_chunk, hrange]) fun i hi => ?_
  rw [length_chunk, hlen] at hi
  rw [byteAt_chunk, hlen, if_pos hi, byteAt_splice, byteAt_chunk, hrange]
  refine (poke_add _ (base a) range.start i data).trans ?_
  rw [hrange]
  refine ite_congr rfl (fun _ => rfl) fun hout => ?_
  split
  · rw [wipe_add]
    by_cases hold : i < arena.len.getD a 0
    · rw [if_neg (by omega), if_pos hold]
    · rw [if_pos (by omega), if_neg hold]
  · rw [if_pos (by omega)]

theorem chunk_write_ne (hb : arena.Bounded) (hne : b ≠ a)
    (hrange : range.start + data.length = range.stop) (hstop : range.stop ≤ chunkSize) :
    (arena.write a range data).chunk b = arena.chunk b := by
  refine chunk_congr (getD_set_ne hne) fun i hi => ?_
  have hi' := hi.trans_le (hb.len_le b)
  have houter : base b + i < base a + range.start ∨
      base a + range.stop ≤ base b + i := buffers_apart _ hne hi' hstop
  have hgap : base b + i < base a + arena.len.getD a 0 ∨
      base a + range.start ≤ base b + i := buffers_apart _ hne hi' (by omega)
  refine (poke_apart ?_).trans ?_
  · rwa [Nat.add_assoc, hrange]
  · split
    · next hstart =>
      refine wipe_apart ?_
      rwa [Nat.add_assoc, Nat.add_sub_cancel' (Nat.le_of_lt hstart)]
    · rfl

end Write

end ChunkArena

end VibeDbfs
