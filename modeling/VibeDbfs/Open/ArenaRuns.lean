import Mathlib.Logic.Function.Basic
import VibeDbfs.Open.ArenaLaws

/-!
Runs of an arena. The bytes of a slot are those of a reference string that only the use since the
last `alloc` decides, whatever was in the memory before.
-/

set_option autoImplicit false
set_option relaxedAutoImplicit false

namespace VibeDbfs

open Lib.Bytes

/-- A use of the arena. `fill` is `buffer_mut` followed by `set_len`, with `len` of the bytes
written to the buffer. -/
inductive ArenaOp
  | alloc
  | fill (slot : ArenaSlot) (data : Bytes) (len : Nat)
  | write (slot : ArenaSlot) (range : Range) (data : Bytes)
  | release (slot : ArenaSlot)

/-- An arena and the reference bytes of the slots in use. -/
structure ArenaTrace where
  arena : ChunkArena
  reference : ArenaSlot → Option Bytes

namespace ArenaTrace

def new (budget : Nat) : ArenaTrace := ⟨.new budget, fun _ => none⟩

def step (s : ArenaTrace) : ArenaOp → ArenaTrace
  | .alloc =>
    match s.arena.alloc with
    | none => s
    | some (slot, arena) => ⟨arena, Function.update s.reference slot (some [])⟩
  | .fill slot data len =>
    ⟨(s.arena.fillBuffer slot data).setLen slot len,
      Function.update s.reference slot (some (data.take len))⟩
  | .write slot range data =>
    ⟨s.arena.write slot range data,
      Function.update s.reference slot ((s.reference slot).map (splice range.start data))⟩
  | .release slot => ⟨s.arena.release slot, Function.update s.reference slot none⟩

def run (s : ArenaTrace) (ops : List ArenaOp) : ArenaTrace := ops.foldl step s

/-- `slot` is between its `alloc` and its `release`. -/
def InUse (s : ArenaTrace) (slot : ArenaSlot) : Prop := ∃ bytes, s.reference slot = some bytes

def Legal (s : ArenaTrace) : ArenaOp → Prop
  | .alloc => True
  | .fill slot data len => s.InUse slot ∧ len ≤ data.length ∧ data.length ≤ chunkSize
  | .write slot range data => s.InUse slot ∧ range.start + data.length = range.stop ∧
      range.stop ≤ chunkSize
  | .release slot => s.InUse slot

def LegalRun (s : ArenaTrace) : List ArenaOp → Prop
  | [] => True
  | op :: ops => s.Legal op ∧ (s.step op).LegalRun ops

def slotOf : ArenaOp → Option ArenaSlot
  | .alloc => none
  | .fill slot _ _ => some slot
  | .write slot _ _ => some slot
  | .release slot => some slot

/-- The free slots are reserved and not in use, and a slot in use reads as its reference. -/
structure Sound (s : ArenaTrace) : Prop where
  bounded : s.arena.Bounded
  free : ∀ slot ∈ s.arena.free, slot < s.arena.len.length ∧ s.reference slot = none
  nodup : s.arena.free.Nodup
  inUse : ∀ slot bytes, s.reference slot = some bytes →
    slot < s.arena.len.length ∧ s.arena.chunk slot = bytes

variable {s : ArenaTrace} {a b : ArenaSlot} {data bytes : Bytes} {len : Nat} {range : Range}

private theorem sound_new (budget : Nat) : (new budget).Sound := by
  constructor
  · intro n hn
    exact absurd hn List.not_mem_nil
  · intro slot hslot
    exact absurd hslot List.not_mem_nil
  · exact List.nodup_nil
  · intro slot bytes hbytes
    cases hbytes

section Steps

private theorem inUse_update {arena' : ChunkArena} {new : Option Bytes} (hs : s.Sound)
    (hlength : s.arena.len.length ≤ arena'.len.length)
    (hself : ∀ bytes, new = some bytes → a < arena'.len.length ∧ arena'.chunk a = bytes)
    (hothers : ∀ b < s.arena.len.length, b ≠ a → arena'.chunk b = s.arena.chunk b) :
    ∀ b bytes, Function.update s.reference a new b = some bytes →
      b < arena'.len.length ∧ arena'.chunk b = bytes := by
  intro b bytes hb
  by_cases hba : b = a
  · subst hba
    rw [Function.update_self] at hb
    exact hself bytes hb
  · rw [Function.update_of_ne hba] at hb
    obtain ⟨hlt, hchunk⟩ := hs.inUse b bytes hb
    exact ⟨hlt.trans_le hlength, (hothers b hlt hba).trans hchunk⟩

private theorem sound_alloc (hs : s.Sound) {arena' : ChunkArena}
    (h : s.arena.alloc = some (a, arena')) :
    Sound ⟨arena', Function.update s.reference a (some [])⟩ := by
  have hnil := ChunkArena.chunk_alloc_self (fun b hb => (hs.free b hb).1) h
  have hothers : ∀ b < s.arena.len.length, b ≠ a → arena'.chunk b = s.arena.chunk b :=
    fun b hb hba => ChunkArena.chunk_alloc_ne hs.bounded hba hb h
  rcases ChunkArena.alloc_cases h with ⟨hfree, hlen, -⟩ | ⟨hfree, hfree', rfl, -, hlen, -⟩
  · -- a slot that was released
    have hlength : arena'.len.length = s.arena.len.length := by rw [hlen, List.length_set]
    have ha : a < s.arena.len.length := (hs.free a (hfree ▸ List.mem_cons_self)).1
    have hnodup : (a :: arena'.free).Nodup := hfree ▸ hs.nodup
    constructor
    · exact ChunkArena.alloc_bounded hs.bounded h
    · intro b hb
      obtain ⟨hlt, hnone⟩ := hs.free b (hfree ▸ List.mem_cons_of_mem a hb)
      have hba : b ≠ a := fun heq => (List.nodup_cons.mp hnodup).1 (heq ▸ hb)
      exact ⟨hlength ▸ hlt, (Function.update_of_ne hba _ _).trans hnone⟩
    · exact (List.nodup_cons.mp hnodup).2
    · apply inUse_update hs hlength.ge _ hothers
      intro bytes hbytes
      cases hbytes
      exact ⟨hlength ▸ ha, hnil⟩
  · -- a new slot at the end of the memory
    have hlength : arena'.len.length = s.arena.len.length + 1 := by
      rw [hlen, List.length_append, List.length_singleton]
    constructor
    · exact ChunkArena.alloc_bounded hs.bounded h
    · intro b hb
      rw [hfree'] at hb
      exact absurd hb List.not_mem_nil
    · rw [hfree']
      exact List.nodup_nil
    · apply inUse_update hs (hlength ▸ Nat.le_succ _) _ hothers
      intro bytes hbytes
      cases hbytes
      exact ⟨hlength ▸ Nat.lt_succ_self _, hnil⟩

private theorem sound_change (hs : s.Sound) {arena' : ChunkArena} (ha : s.InUse a)
    (hbounded : arena'.Bounded) (hfree : arena'.free = s.arena.free)
    (hlength : arena'.len.length = s.arena.len.length) (hself : arena'.chunk a = bytes)
    (hothers : ∀ b ≠ a, arena'.chunk b = s.arena.chunk b) :
    Sound ⟨arena', Function.update s.reference a (some bytes)⟩ := by
  obtain ⟨old, hold⟩ := ha
  constructor
  · exact hbounded
  · intro b hb
    obtain ⟨hlt, hnone⟩ := hs.free b (hfree ▸ hb)
    have hba : b ≠ a := by
      intro heq
      rw [← heq, hnone] at hold
      cases hold
    exact ⟨hlength ▸ hlt, (Function.update_of_ne hba _ _).trans hnone⟩
  · exact hfree ▸ hs.nodup
  · apply inUse_update hs hlength.ge _ fun b _ => hothers b
    intro bytes' hbytes
    cases hbytes
    exact ⟨hlength ▸ (hs.inUse a old hold).1, hself⟩

private theorem sound_release (hs : s.Sound) (ha : s.InUse a) : (s.step (.release a)).Sound := by
  obtain ⟨old, hold⟩ := ha
  have hnew : ∀ b ∈ s.arena.free, b ≠ a := by
    intro b hb heq
    have hnone := (hs.free b hb).2
    rw [heq, hold] at hnone
    cases hnone
  constructor
  · exact hs.bounded
  · intro b hb
    rcases List.mem_cons.mp hb with rfl | hb
    · exact ⟨(hs.inUse b old hold).1, Function.update_self ..⟩
    · obtain ⟨hlt, hnone⟩ := hs.free b hb
      exact ⟨hlt, (Function.update_of_ne (hnew b hb) _ _).trans hnone⟩
  · exact List.nodup_cons.mpr ⟨fun hmem => hnew a hmem rfl, hs.nodup⟩
  · apply inUse_update hs (Nat.le_refl _)
    · intro bytes hbytes
      cases hbytes
    · intro b _ _
      rfl

private theorem step_sound (hs : s.Sound) {op : ArenaOp} (hop : s.Legal op) :
    (s.step op).Sound := by
  cases op with
  | alloc =>
    unfold step
    rcases halloc : s.arena.alloc with _ | ⟨slot, arena'⟩
    · exact hs
    · exact sound_alloc hs halloc
  | fill slot data len =>
    obtain ⟨⟨old, hold⟩, hlen, hdata⟩ := hop
    have hslot := (hs.inUse slot old hold).1
    apply sound_change hs ⟨old, hold⟩ (ChunkArena.fill_bounded hs.bounded (hlen.trans hdata)) rfl
    · exact List.length_set ..
    · exact ChunkArena.chunk_fill_take hslot hlen
    · intro b hb
      exact ChunkArena.chunk_fill_ne hs.bounded hb hdata
  | write slot range data =>
    obtain ⟨⟨old, hold⟩, hrange, hstop⟩ := hop
    obtain ⟨hslot, hchunk⟩ := hs.inUse slot old hold
    have hnew : (s.reference slot).map (splice range.start data) =
        some (splice range.start data old) := by rw [hold, Option.map_some]
    change Sound ⟨_, Function.update s.reference slot _⟩
    rw [hnew]
    apply sound_change hs ⟨old, hold⟩ (ChunkArena.write_bounded hs.bounded hstop) rfl
    · exact List.length_set ..
    · rw [ChunkArena.chunk_write_self hslot hrange, hchunk]
    · intro b hb
      exact ChunkArena.chunk_write_ne hs.bounded hb hrange hstop
  | release slot => exact sound_release hs hop

private theorem run_sound {ops : List ArenaOp} (hs : s.Sound) (hops : s.LegalRun ops) :
    (s.run ops).Sound := by
  induction ops generalizing s with
  | nil => exact hs
  | cons op ops ih => exact ih (step_sound hs hops.1) hops.2

/-- A use of one slot, or an `alloc`, leaves the reference of every other slot in use. -/
private theorem reference_step (hs : s.Sound) {op : ArenaOp} (hb : s.InUse b)
    (hne : slotOf op ≠ some b) :
    (s.step op).reference b = s.reference b := by
  cases op with
  | alloc =>
    obtain ⟨bytes, hbytes⟩ := hb
    unfold step
    rcases halloc : s.arena.alloc with _ | ⟨slot, arena'⟩
    · rfl
    · have hslot : b ≠ slot := by
        intro heq
        subst heq
        rcases ChunkArena.alloc_cases halloc with ⟨hfree, -⟩ | ⟨-, -, hlen, -⟩
        · have hnone := (hs.free b (hfree ▸ List.mem_cons_self)).2
          rw [hbytes] at hnone
          cases hnone
        · exact absurd (hs.inUse b bytes hbytes).1 (hlen ▸ Nat.lt_irrefl _)
      exact Function.update_of_ne hslot _ _
  | fill slot data len =>
    have hslot : b ≠ slot := fun heq => hne (heq ▸ rfl)
    exact Function.update_of_ne hslot _ _
  | write slot range data =>
    have hslot : b ≠ slot := fun heq => hne (heq ▸ rfl)
    exact Function.update_of_ne hslot _ _
  | release slot =>
    have hslot : b ≠ slot := fun heq => hne (heq ▸ rfl)
    exact Function.update_of_ne hslot _ _

private theorem chunk_step (hs : s.Sound) {op : ArenaOp} (hop : s.Legal op) (hb : s.InUse b)
    (hne : slotOf op ≠ some b) : (s.step op).arena.chunk b = s.arena.chunk b := by
  obtain ⟨bytes, hbytes⟩ := hb
  have hafter : (s.step op).reference b = some bytes :=
    (reference_step hs ⟨bytes, hbytes⟩ hne).trans hbytes
  rw [((step_sound hs hop).inUse b bytes hafter).2, (hs.inUse b bytes hbytes).2]

end Steps

section Memory

def withMemory (s : ArenaTrace) (mem : Nat → UInt8) : ArenaTrace :=
  ⟨{ s.arena with bytes := mem }, s.reference⟩

/-- The memory decides nothing about slots, lengths and references. -/
private theorem step_withMemory (s : ArenaTrace) (mem : Nat → UInt8) (op : ArenaOp) :
    ∃ mem', (s.withMemory mem).step op = (s.step op).withMemory mem' := by
  cases op with
  | alloc =>
    rcases hfree : s.arena.free with _ | ⟨slot, free⟩
    · by_cases hroom : s.arena.len.length < s.arena.maxSlots
      · refine ⟨wipe mem (ChunkArena.base s.arena.len.length) chunkSize, ?_⟩
        simp [step, withMemory, ChunkArena.alloc, hfree, hroom]
      · refine ⟨mem, ?_⟩
        simp [step, withMemory, ChunkArena.alloc, hfree, hroom]
    · refine ⟨mem, ?_⟩
      simp [step, withMemory, ChunkArena.alloc, hfree]
  | fill slot data len => exact ⟨_, rfl⟩
  | write slot range data => exact ⟨_, rfl⟩
  | release slot => exact ⟨_, rfl⟩

private theorem run_withMemory (s : ArenaTrace) (mem : Nat → UInt8) (ops : List ArenaOp) :
    ∃ mem', (s.withMemory mem).run ops = (s.run ops).withMemory mem' := by
  induction ops generalizing s mem with
  | nil => exact ⟨mem, rfl⟩
  | cons op ops ih =>
    obtain ⟨mem₁, hstep⟩ := step_withMemory s mem op
    obtain ⟨mem₂, hrun⟩ := ih (s.step op) mem₁
    refine ⟨mem₂, ?_⟩
    change ((s.withMemory mem).step op).run ops = _
    rw [hstep, hrun]
    rfl

private theorem legal_withMemory {mem : Nat → UInt8} {op : ArenaOp} (hop : s.Legal op) :
    (s.withMemory mem).Legal op := by
  cases op <;> exact hop

private theorem legalRun_withMemory {mem : Nat → UInt8} {ops : List ArenaOp}
    (hops : s.LegalRun ops) :
    (s.withMemory mem).LegalRun ops := by
  induction ops generalizing s mem with
  | nil => trivial
  | cons op ops ih =>
    obtain ⟨mem', hstep⟩ := step_withMemory s mem op
    exact ⟨legal_withMemory hops.1, hstep ▸ ih hops.2⟩

private theorem sound_withMemory (hs : s.Sound) {mem : Nat → UInt8}
    (hmem : ∀ a, s.InUse a → (s.withMemory mem).arena.chunk a = s.arena.chunk a) :
    (s.withMemory mem).Sound := by
  constructor
  · exact hs.bounded
  · exact hs.free
  · exact hs.nodup
  · intro a bytes ha
    obtain ⟨hlt, hchunk⟩ := hs.inUse a bytes ha
    exact ⟨hlt, (hmem a ⟨bytes, ha⟩).trans hchunk⟩

end Memory

/-- The arena never shows bytes of an earlier use. After every legal run a slot in use reads as its
reference; a use of another slot does not change it; and a run over any other memory that holds the
same bytes for the slots in use ends in the same bytes. -/
theorem run_reference (budget : Nat) (ops : List ArenaOp) (hops : (new budget).LegalRun ops) :
    let s := (new budget).run ops
    (∀ a bytes, s.reference a = some bytes → a < s.arena.len.length ∧
      bytes.length ≤ chunkSize ∧ s.arena.chunk a = bytes) ∧
    (∀ op, s.Legal op → ∀ b, s.InUse b → slotOf op ≠ some b →
      (s.step op).arena.chunk b = s.arena.chunk b) ∧
    ∀ mem, (∀ a, s.InUse a → (s.withMemory mem).arena.chunk a = s.arena.chunk a) →
      ∀ more, s.LegalRun more → ∃ mem', (s.withMemory mem).run more = (s.run more).withMemory mem' ∧
        ∀ a, (s.run more).InUse a →
          ((s.run more).withMemory mem').arena.chunk a = (s.run more).arena.chunk a := by
  intro s
  have hs : s.Sound := run_sound (sound_new budget) hops
  refine ⟨?_, ?_, ?_⟩
  · intro a bytes ha
    obtain ⟨hlt, hchunk⟩ := hs.inUse a bytes ha
    refine ⟨hlt, ?_, hchunk⟩
    rw [← hchunk, ChunkArena.length_chunk]
    exact hs.bounded.len_le a
  · intro op hop b hb hne
    exact chunk_step hs hop hb hne
  · intro mem hmem more hmore
    obtain ⟨mem', hrun⟩ := run_withMemory s mem more
    refine ⟨mem', hrun, ?_⟩
    rintro a ⟨bytes, ha⟩
    have hleft : ((s.withMemory mem).run more).Sound :=
      run_sound (sound_withMemory hs hmem) (legalRun_withMemory hmore)
    have hright : (s.run more).Sound := run_sound hs hmore
    rw [hrun] at hleft
    rw [(hleft.inUse a bytes ha).2, (hright.inUse a bytes ha).2]

/-- A slot is written, released, and allocated again; a write with a gap then shows zeros. -/
theorem run_reference_reused :
    (((new chunkSize).run [.alloc, .write 0 ⟨0, 3⟩ [1, 2, 3], .release 0, .alloc,
      .write 0 ⟨2, 3⟩ [9]]).arena.chunk 0) = [0, 0, 9] := by
  have hlegal : (new chunkSize).LegalRun [.alloc, .write 0 ⟨0, 3⟩ [1, 2, 3], .release 0, .alloc,
      .write 0 ⟨2, 3⟩ [9]] :=
    ⟨trivial, ⟨⟨[], rfl⟩, rfl, by decide⟩, ⟨[1, 2, 3], rfl⟩, trivial, ⟨⟨[], rfl⟩, rfl, by decide⟩,
      trivial⟩
  exact ((run_reference chunkSize _ hlegal).1 0 [0, 0, 9] rfl).2.2

end ArenaTrace

end VibeDbfs
