import VibeDbfs.Lib.Cells
import VibeDbfs.Open.DirtyLaws
import VibeDbfs.Open.Table

/-!
The open-inode table as a map from inode numbers to open files. `OpenTable.WF` is its invariant;
each operation keeps it and changes one file of the map.
-/

set_option autoImplicit false
set_option relaxedAutoImplicit false

namespace VibeDbfs

open Lib Lib.Bytes

structure OpenFile where
  kind : FileKind
  size : Nat
  refs : Nat
  unlinked : Bool
  dirty : Nat → Option Bytes

namespace Handles

/-- The free handles are distinct, and they are those that point nowhere. -/
structure WF (handles : Handles) : Prop where
  nodup : handles.free.Nodup
  closed : ∀ fh, fh ∈ handles.free ↔ handles.slot[fh]? = some none

variable {handles handles' : Handles} {slot : Slot} {fh : Nat}

theorem get_eq_some : handles.get fh = some slot ↔ handles.slot[fh]? = some (some slot) := by
  rw [get, Option.join_eq_some_iff]

private theorem alloc_spec (h : handles.WF) (ha : handles.alloc slot = (fh, handles')) :
    handles.get fh = none ∧ handles'.WF ∧
      (∀ k, handles'.get k = if k = fh then some slot else handles.get k) ∧
      ∀ s, handles'.slot.count (some s) =
        handles.slot.count (some s) + if s = slot then 1 else 0 := by
  unfold alloc at ha
  split at ha
  · next fh' free hfree =>
    obtain ⟨rfl, rfl⟩ := Prod.mk.inj ha
    have hnodup := h.nodup
    rw [hfree, List.nodup_cons] at hnodup
    have hnone := (h.closed fh').mp (hfree ▸ List.mem_cons_self)
    obtain ⟨hlt, hget⟩ := List.getElem?_eq_some_iff.mp hnone
    refine ⟨by rw [get, hnone]; rfl, ⟨hnodup.2, fun k => ?_⟩, fun k => ?_, fun s => ?_⟩
    · by_cases heq : fh' = k
      · rw [← heq, List.getElem?_set_self hlt]
        exact ⟨fun hin => (hnodup.1 hin).elim, nofun⟩
      · rw [List.getElem?_set_ne heq, ← h.closed, hfree, List.mem_cons]
        exact ⟨.inr, fun hin => hin.resolve_left (Ne.symm heq)⟩
    · rw [get, get]
      split
      · next heq => rw [heq, List.getElem?_set_self hlt]; rfl
      · next hne => rw [List.getElem?_set_ne (Ne.symm hne)]
    · rw [List.count_set hlt, hget]
      by_cases hs : s = slot
      · simp [hs]
      · simp [hs, Ne.symm hs]
  · next hfree =>
    obtain ⟨rfl, rfl⟩ := Prod.mk.inj ha
    refine ⟨by rw [get, List.getElem?_eq_none (Nat.le_refl _)]; rfl, ⟨List.nodup_nil, fun k => ?_⟩,
      fun k => ?_, fun s => ?_⟩
    · have hold := h.closed k
      rw [hfree] at hold
      refine ⟨nofun, fun hnone => ?_⟩
      rw [List.getElem?_append] at hnone
      split at hnone
      · exact hold.mpr hnone
      · rw [List.getElem?_singleton] at hnone
        split at hnone <;> cases hnone
    · rw [get, get, List.getElem?_append]
      split
      · next hlt => rw [if_neg (Nat.ne_of_lt hlt)]
      · next hge =>
        split
        · next heq => simp [heq]
        · next hne =>
          rw [List.getElem?_eq_none (by simp only [List.length_singleton]; omega),
            List.getElem?_eq_none (by omega)]
    · rw [List.count_append, List.count_singleton]
      by_cases hs : s = slot
      · simp [hs]
      · simp [hs, Ne.symm hs]

private theorem release_spec (h : handles.WF) (hr : handles.release fh = some (slot, handles')) :
    handles.get fh = some slot ∧ handles'.WF ∧
      (∀ k, handles'.get k = if k = fh then none else handles.get k) ∧
      ∀ s, handles'.slot.count (some s) =
        handles.slot.count (some s) - if s = slot then 1 else 0 := by
  obtain ⟨slot', hget, heq⟩ := Option.map_eq_some_iff.mp hr
  obtain ⟨rfl, rfl⟩ := Prod.mk.inj heq
  have hsome := get_eq_some.mp hget
  obtain ⟨hlt, hval⟩ := List.getElem?_eq_some_iff.mp hsome
  refine ⟨hget, ⟨List.nodup_cons.mpr ⟨fun hin => ?_, h.nodup⟩, fun k => ?_⟩, fun k => ?_,
    fun s => ?_⟩
  · have hclosed := (h.closed fh).mp hin
    rw [hsome] at hclosed
    cases hclosed
  · rw [List.mem_cons, h.closed]
    by_cases heq : fh = k
    · rw [← heq, List.getElem?_set_self hlt]
      exact ⟨fun _ => rfl, fun _ => .inl rfl⟩
    · rw [List.getElem?_set_ne heq]
      exact ⟨fun hin => hin.resolve_left (Ne.symm heq), .inr⟩
  · rw [get, get]
    split
    · next heq => rw [heq, List.getElem?_set_self hlt]; rfl
    · next hne => rw [List.getElem?_set_ne (Ne.symm hne)]
  · rw [List.count_set hlt, hval]
    by_cases hs : s = slot'
    · simp [hs]
    · simp [hs, Ne.symm hs]

end Handles

namespace OpenTable

/-- The slot `o` with the bytes of its dirty chunks. -/
def view (t : OpenTable) (o : OpenInode) : OpenFile :=
  ⟨o.kind, o.size, o.refs, o.unlinked, fun c => (o.dirty.lookup c).map t.arena.chunk⟩

def fileAt (t : OpenTable) (slot : Slot) : OpenFile := t.view (t.inodes.get slot)

/-- The open file of `ino`, if it has a slot. -/
def file (t : OpenTable) (ino : Nat) : Option OpenFile := (t.inodes.find ino).map t.fileAt

/-- The invariant of the table. `held` are the arena slots that a write has taken and not indexed
yet. -/
structure WF (held : List ArenaSlot) (t : OpenTable) : Prop where
  inos : (t.inodes.byIno.map Prod.fst).Nodup
  cover : (t.inodes.values ++ t.inodes.free).Perm (List.range t.inodes.slots.length)
  ino : ∀ e ∈ t.inodes.byIno, (t.inodes.get e.2).ino = e.1
  refs : ∀ slot, (t.inodes.get slot).refs = t.handles.slot.count (some slot)
  unused : ∀ slot, slot ∉ t.inodes.values →
    (t.inodes.get slot).refs = 0 ∧ (t.inodes.get slot).dirty = .empty
  sorted : ∀ slot, (t.inodes.get slot).dirty.Sorted
  handles : t.handles.WF
  bounded : t.arena.Bounded
  room : t.arena.Budgeted
  arena : (t.arena.free ++ held ++ t.inodes.slots.flatMap fun o => o.dirty.slots).Perm
    (List.range t.arena.len.length)

variable {t t' : OpenTable} {held : List ArenaSlot} {ino j : Nat} {slot : Slot} {a : ArenaSlot}

theorem WF.slots (h : t.WF held) : (t.inodes.values ++ t.inodes.free).Nodup :=
  h.cover.nodup_iff.mpr List.nodup_range

theorem WF.bound (h : t.WF held) (slot : Slot) (hs : slot ∈ t.inodes.values ++ t.inodes.free) :
    slot < t.inodes.slots.length :=
  List.mem_range.mp (h.cover.mem_iff.mp hs)

section Find

private theorem WF.find_iff (h : t.WF held) :
    t.inodes.find ino = some slot ↔ (ino, slot) ∈ t.inodes.byIno := by
  rw [OpenInodes.find, Option.map_eq_some_iff]
  constructor
  · rintro ⟨⟨_, _⟩, he, rfl⟩
    obtain ⟨hmem, rfl⟩ := (Keyed.find_eq_some_iff h.inos).mp he
    exact hmem
  · exact fun hmem => ⟨_, (Keyed.find_eq_some_iff h.inos).mpr ⟨hmem, rfl⟩, rfl⟩

theorem WF.find_mem (h : t.WF held) (hf : t.inodes.find ino = some slot) : slot ∈ t.inodes.values :=
  List.mem_map_of_mem (h.find_iff.mp hf)

theorem WF.find_ino (h : t.WF held) (hf : t.inodes.find ino = some slot) :
    (t.inodes.get slot).ino = ino :=
  h.ino _ (h.find_iff.mp hf)

theorem WF.find_lt (h : t.WF held) (hf : t.inodes.find ino = some slot) :
    slot < t.inodes.slots.length :=
  h.bound slot (List.mem_append_left _ (h.find_mem hf))

theorem WF.find_of_mem (h : t.WF held) (hs : slot ∈ t.inodes.values) :
    t.inodes.find (t.inodes.get slot).ino = some slot := by
  obtain ⟨⟨ino, slot'⟩, he, rfl⟩ := List.mem_map.mp hs
  rw [h.ino _ he]
  exact h.find_iff.mpr he

private theorem WF.find_ne (h : t.WF held) {slot' : Slot} (hf : t.inodes.find ino = some slot)
    (hf' : t.inodes.find j = some slot') (hne : j ≠ ino) : slot' ≠ slot := by
  rintro rfl
  exact hne ((h.find_ino hf').symm.trans (h.find_ino hf))

theorem WF.find_inj (h : t.WF held) (hf : t.inodes.find ino = some slot)
    (hf' : t.inodes.find j = some slot) : ino = j :=
  (h.find_ino hf).symm.trans (h.find_ino hf')

private theorem find_eq_none : t.inodes.find ino = none ↔ ∀ e ∈ t.inodes.byIno, e.1 ≠ ino := by
  rw [OpenInodes.find, Option.map_eq_none_iff]
  exact Keyed.find_eq_none_iff

private theorem WF.live_of_refs (h : t.WF held) (hrefs : 0 < (t.inodes.get slot).refs) :
    t.inodes.find (t.inodes.get slot).ino = some slot := by
  refine h.find_of_mem (Classical.byContradiction fun hout => ?_)
  rw [(h.unused slot hout).1] at hrefs
  exact Nat.lt_irrefl 0 hrefs

theorem WF.refs_pos (h : t.WF held) {fh : Nat} (hfh : t.handles.get fh = some slot) :
    0 < (t.inodes.get slot).refs := by
  rw [h.refs, List.count_pos_iff]
  exact List.mem_of_getElem? (Handles.get_eq_some.mp hfh)

theorem WF.find_of_handle (h : t.WF held) {fh : Nat} (hfh : t.handles.get fh = some slot) :
    t.inodes.find (t.inodes.get slot).ino = some slot :=
  h.live_of_refs (h.refs_pos hfh)

theorem file_of_find (hf : t.inodes.find ino = some slot) :
    t.file ino = some (t.fileAt slot) := by
  rw [file, hf, Option.map_some]

theorem file_eq_none : t.file ino = none ↔ t.inodes.find ino = none := Option.map_eq_none_iff

theorem file_congr (hfind : t'.inodes.find j = t.inodes.find j)
    (hget : ∀ slot, t.inodes.find j = some slot → t'.inodes.get slot = t.inodes.get slot)
    (hchunk : ∀ slot, t.inodes.find j = some slot → ∀ a ∈ (t.inodes.get slot).dirty.slots,
      t'.arena.chunk a = t.arena.chunk a) : t'.file j = t.file j := by
  rw [file, file, hfind]
  rcases hf : t.inodes.find j with _ | slot
  · rfl
  · rw [Option.map_some, Option.map_some, fileAt, fileAt, hget slot hf, view, view]
    congr 2
    funext c
    rcases hc : (t.inodes.get slot).dirty.lookup c with _ | a
    · rfl
    · rw [Option.map_some, Option.map_some, hchunk slot hf a (DirtyIdx.mem_slots hc)]

end Find

section Owners

def owned (t : OpenTable) : List ArenaSlot := t.inodes.slots.flatMap fun o => o.dirty.slots

theorem get_eq_getElem (h : slot < t.inodes.slots.length) :
    t.inodes.get slot = t.inodes.slots[slot] := by
  rw [OpenInodes.get, List.getD_eq_getElem?_getD, List.getElem?_eq_getElem h, Option.getD_some]

theorem get_of_le (h : t.inodes.slots.length ≤ slot) : t.inodes.get slot = .absent := by
  rw [OpenInodes.get, List.getD_eq_getElem?_getD, List.getElem?_eq_none h, Option.getD_none]

private theorem lt_of_mem_slots (ha : a ∈ (t.inodes.get slot).dirty.slots) :
    slot < t.inodes.slots.length := by
  refine Nat.lt_of_not_le fun hle => ?_
  rw [get_of_le hle] at ha
  simp [OpenInode.absent, DirtyIdx.empty, DirtyIdx.slots] at ha

theorem mem_owned (ha : a ∈ (t.inodes.get slot).dirty.slots) : a ∈ t.owned := by
  have hlt := lt_of_mem_slots ha
  rw [get_eq_getElem hlt] at ha
  exact List.mem_flatMap.mpr ⟨_, List.getElem_mem hlt, ha⟩

theorem WF.nodup (h : t.WF held) : (t.arena.free ++ held ++ t.owned).Nodup :=
  h.arena.nodup_iff.mpr List.nodup_range

theorem WF.mem_lt (h : t.WF held) (ha : a ∈ t.arena.free ++ held ++ t.owned) :
    a < t.arena.len.length :=
  List.mem_range.mp (h.arena.mem_iff.mp ha)

private theorem WF.owned_not_held (h : t.WF held) (ha : a ∈ t.owned) : a ∉ t.arena.free ++ held :=
  fun hin => (List.nodup_append.mp h.nodup).2.2 a hin a ha rfl

/-- Two slots never share an arena slot. -/
theorem WF.owner_unique (h : t.WF held) {slot' : Slot} (ha : a ∈ (t.inodes.get slot).dirty.slots)
    (ha' : a ∈ (t.inodes.get slot').dirty.slots) : slot' = slot := by
  have hlt := lt_of_mem_slots ha
  have hlt' := lt_of_mem_slots ha'
  refine Classical.byContradiction fun hne => ?_
  have hnodup := (List.nodup_append.mp h.nodup).2.1
  rw [owned, (Cells.flatMap_perm hlt).nodup_iff, List.nodup_append] at hnodup
  rw [get_eq_getElem hlt] at ha
  rw [get_eq_getElem hlt'] at ha'
  exact hnodup.2.2 a ha a (List.mem_flatMap.mpr ⟨_, Cells.mem_others hlt' hne, ha'⟩) rfl

private theorem WF.lookup_inj (h : t.WF held) {c d : Nat}
    (hc : (t.inodes.get slot).dirty.lookup c = some a)
    (hd : (t.inodes.get slot).dirty.lookup d = some a) : d = c := by
  have hlt := lt_of_mem_slots (DirtyIdx.mem_slots hc)
  have hnodup := (List.nodup_append.mp h.nodup).2.1
  rw [owned, (Cells.flatMap_perm hlt).nodup_iff, List.nodup_append, ← get_eq_getElem hlt] at hnodup
  have hc := (DirtyIdx.lookup_eq_some (h.sorted slot)).mp hc
  have hd := (DirtyIdx.lookup_eq_some (h.sorted slot)).mp hd
  have heq := List.inj_on_of_nodup_map hnodup.1 hd hc rfl
  exact congrArg Prod.fst heq

end Owners

private theorem WF.arena_split (h : t.WF held) (hf : t.inodes.find ino = some slot) :
    (t.arena.free ++ held ++ ((t.inodes.get slot).dirty.slots ++
      (Cells.others t.inodes.slots slot).flatMap fun o => o.dirty.slots)).Perm
        (List.range t.arena.len.length) := by
  have hlt := h.find_lt hf
  rw [get_eq_getElem hlt]
  exact ((Cells.flatMap_perm hlt).append_left _).symm.trans h.arena

section Change

variable {f : OpenInode → OpenInode}

theorem get_update (hlt : slot < t.inodes.slots.length) (s : Slot) :
    (t.inodes.update slot f).get s = if s = slot then f (t.inodes.get s) else t.inodes.get s :=
  Cells.getD_modify hlt

private theorem WF.change (h : t.WF held) (hf : t.inodes.find ino = some slot) {handles : Handles}
    {arena : ChunkArena} {held' : List ArenaSlot} (closing : Bool)
    (hino : (f (t.inodes.get slot)).ino = (t.inodes.get slot).ino)
    (hrefs : ∀ s, (if s = slot then (f (t.inodes.get slot)).refs else (t.inodes.get s).refs) =
      handles.slot.count (some s))
    (hsorted : (f (t.inodes.get slot)).dirty.Sorted)
    (hhandles : handles.WF) (hbounded : arena.Bounded) (hroom : arena.Budgeted)
    (harena : (arena.free ++ held' ++ ((f (t.inodes.get slot)).dirty.slots ++
      (Cells.others t.inodes.slots slot).flatMap fun o => o.dirty.slots)).Perm
        (List.range arena.len.length)) :
    OpenTable.WF held' ⟨t.inodes.update slot f, handles, arena, closing⟩ := by
  have hlt := h.find_lt hf
  have hget := get_update (f := f) hlt
  have hmem := h.find_mem hf
  refine ⟨h.inos, ?_, fun e he => ?_, fun s => ?_, fun s hs => ?_, fun s => ?_,
    hhandles, hbounded, hroom, ?_⟩
  · change (t.inodes.values ++ t.inodes.free).Perm
      (List.range (t.inodes.slots.modify slot f).length)
    rw [List.length_modify]
    exact h.cover
  · refine Eq.trans ?_ (h.ino e he)
    rw [hget]
    split
    · next heq => rw [heq, hino]
    · rfl
  · rw [← hrefs s, hget]
    split
    · next heq => rw [heq]
    · rfl
  · have hne : s ≠ slot := fun heq => hs (heq ▸ hmem)
    rw [hget, if_neg hne]
    exact h.unused s hs
  · rw [hget]
    split
    · next heq => rw [heq]; exact hsorted
    · exact h.sorted s
  · refine ((Cells.flatMap_modify_perm hlt f).append_left _).trans ?_
    rwa [← get_eq_getElem hlt]

private theorem WF.file_change (h : t.WF held) (hf : t.inodes.find ino = some slot)
    (hfind : ∀ i, t'.inodes.find i = t.inodes.find i)
    (hget : ∀ s, s ≠ slot → t'.inodes.get s = t.inodes.get s)
    (hchunk : ∀ s, s ≠ slot → ∀ a ∈ (t.inodes.get s).dirty.slots,
      t'.arena.chunk a = t.arena.chunk a) :
    t'.file j = if j = ino then some (t'.fileAt slot) else t.file j := by
  split
  · next hj => rw [hj, file_of_find ((hfind ino).trans hf)]
  · next hj =>
    exact file_congr (hfind j) (fun s hs => hget s (h.find_ne hf hs hj))
      fun s hs => hchunk s (h.find_ne hf hs hj)

private theorem handleIno_change (hlt : slot < t.inodes.slots.length)
    (hino : (f (t.inodes.get slot)).ino = (t.inodes.get slot).ino)
    {fh : Nat} (hinodes : t'.inodes = t.inodes.update slot f) :
    t'.handleIno fh = (t'.handles.get fh).map fun s => (t.inodes.get s).ino := by
  rw [handleIno, hinodes]
  congr 1
  funext s
  rw [get_update hlt]
  split
  · next heq => rw [heq, hino]
  · rfl

/-- A change that keeps what the invariant speaks of. -/
theorem WF.updateSlot (h : t.WF held) (hf : t.inodes.find ino = some slot)
    (hino : ∀ o, (f o).ino = o.ino) (hrefs : ∀ o, (f o).refs = o.refs)
    (hdirty : ∀ o, (f o).dirty = o.dirty) : (t.updateSlot slot f).WF held := by
  refine h.change hf t.closing (hino _) (fun s => ?_) ?_ h.handles h.bounded h.room ?_
  · rw [← h.refs s]
    split
    · next heq => rw [heq, hrefs]
    · rfl
  · rw [hdirty]
    exact h.sorted slot
  · rw [hdirty]
    exact h.arena_split hf

private theorem WF.file_update (h : t.WF held) (hf : t.inodes.find ino = some slot)
    (hinodes : t'.inodes = t.inodes.update slot f)
    (hchunk : ∀ s, s ≠ slot → ∀ a ∈ (t.inodes.get s).dirty.slots,
      t'.arena.chunk a = t.arena.chunk a) :
    t'.file j = if j = ino then some (t'.view (f (t.inodes.get slot))) else t.file j := by
  have hget := get_update (f := f) (h.find_lt hf)
  refine (h.file_change hf (fun i => by rw [hinodes]; rfl)
    (fun s hs => by rw [hinodes, hget, if_neg hs]) hchunk).trans ?_
  rw [fileAt, hinodes, hget, if_pos rfl]

theorem WF.file_updateSlot (h : t.WF held) (hf : t.inodes.find ino = some slot) (j : Nat) :
    (t.updateSlot slot f).file j =
      if j = ino then some (t.view (f (t.inodes.get slot))) else t.file j :=
  Eq.trans (h.file_update hf rfl fun _ _ _ _ => rfl) rfl

theorem WF.handleIno_updateSlot (h : t.WF held) (hf : t.inodes.find ino = some slot)
    (hino : ∀ o, (f o).ino = o.ino) (fh : Nat) :
    (t.updateSlot slot f).handleIno fh = t.handleIno fh :=
  handleIno_change (h.find_lt hf) (hino _) rfl

end Change

section HandleOps

variable {fh : Nat} {handles : Handles}

theorem WF.openSlot (h : t.WF held) (hf : t.inodes.find ino = some slot)
    (ho : t.openSlot slot = (fh, t')) :
    t'.WF held ∧ t'.closing = t.closing ∧ t.handleIno fh = none ∧
      (∀ k, t'.handleIno k = if k = fh then some ino else t.handleIno k) ∧
      ∀ j, t'.file j =
        if j = ino then some
          { t.fileAt slot with refs := (t.fileAt slot).refs + 1 } else t.file j := by
  obtain ⟨handles, halloc, rfl⟩ : ∃ handles, t.handles.alloc slot = (fh, handles) ∧
      t' = ⟨t.inodes.update slot fun o => { o with refs := o.refs + 1 }, handles, t.arena,
        t.closing⟩ :=
    have hfh : (t.handles.alloc slot).1 = fh := congrArg Prod.fst ho
    ⟨(t.handles.alloc slot).2, Prod.ext hfh rfl, (congrArg Prod.snd ho).symm⟩
  obtain ⟨hnone, hhandles, hget, hcount⟩ := Handles.alloc_spec h.handles halloc
  refine ⟨h.change hf t.closing rfl (fun s => ?_) (h.sorted slot) hhandles h.bounded h.room
    (h.arena_split hf), rfl, by rw [handleIno, hnone]; rfl, fun k => ?_, fun j => ?_⟩
  · rw [hcount, ← h.refs]
    split
    · next heq => rw [heq]
    · rfl
  · refine (handleIno_change (h.find_lt hf) rfl rfl).trans ?_
    refine (congrArg (Option.map _) (hget k)).trans ?_
    split
    · rw [Option.map_some, h.find_ino hf]
    · rfl
  · exact Eq.trans (h.file_update hf rfl fun _ _ _ _ => rfl) rfl

theorem WF.closeHandle (h : t.WF held) (hr : t.handles.release fh = some (slot, handles)) :
    let t' := { t with handles := handles }.updateSlot slot fun o => { o with refs := o.refs - 1 }
    t.inodes.find (t.inodes.get slot).ino = some slot ∧ 0 < (t.fileAt slot).refs ∧
      t.handleIno fh = some (t.inodes.get slot).ino ∧ t'.WF held ∧
      (∀ k, t'.handleIno k = if k = fh then none else t.handleIno k) ∧
      ∀ j, t'.file j = if j = (t.inodes.get slot).ino then
        some { t.fileAt slot with refs := (t.fileAt slot).refs - 1 } else t.file j := by
  intro t'
  obtain ⟨hget, hhandles, hgets, hcount⟩ := Handles.release_spec h.handles hr
  have hf := h.find_of_handle hget
  refine ⟨hf, h.refs_pos hget, by rw [handleIno, hget]; rfl,
    h.change hf t.closing rfl (fun s => ?_) (h.sorted slot) hhandles h.bounded h.room
      (h.arena_split hf), fun k => ?_, fun j => ?_⟩
  · rw [hcount, ← h.refs]
    split
    · next heq => rw [heq]
    · rfl
  · refine (handleIno_change (h.find_lt hf) rfl rfl).trans ?_
    refine (congrArg (Option.map _) (hgets k)).trans ?_
    split <;> rfl
  · exact Eq.trans (h.file_update hf rfl fun _ _ _ _ => rfl) rfl

end HandleOps

section Data

variable {c position : Nat} {range : Range} {data : Bytes}

theorem WF.releaseDirty (h : t.WF held) (hf : t.inodes.find ino = some slot) :
    (t.releaseDirty slot).WF held ∧ (∀ k, (t.releaseDirty slot).handleIno k = t.handleIno k) ∧
      ∀ j, (t.releaseDirty slot).file j =
        if j = ino then some { t.fileAt slot with dirty := fun _ => none } else t.file j := by
  have heq : t.releaseDirty slot =
      ⟨t.inodes.update slot fun o => { o with dirty := .empty }, t.handles,
        { t.arena with free := (t.inodes.get slot).dirty.slots.reverse ++ t.arena.free },
        t.closing⟩ := by
    unfold OpenTable.releaseDirty
    rw [DirtyIdx.releaseInto_eq]
  rw [heq]
  refine ⟨h.change hf t.closing rfl (fun s => ?_) DirtyIdx.sorted_empty h.handles h.bounded
    ⟨h.room.pos, h.room.len⟩ ?_, fun k => handleIno_change (h.find_lt hf) rfl rfl, fun j => ?_⟩
  · rw [← h.refs]
    split
    · next heq => rw [heq]
    · rfl
  · refine List.Perm.trans (List.perm_iff_count.mpr fun x => ?_) (h.arena_split hf)
    simp only [List.count_append, List.count_reverse, DirtyIdx.empty, DirtyIdx.slots, List.map_nil,
      List.count_nil]
    omega
  · exact Eq.trans (h.file_update hf rfl fun _ _ _ _ => rfl) rfl

theorem WF.indexChunk {f : OpenInode → OpenInode} (h : t.WF [a])
    (hf : t.inodes.find ino = some slot)
    (hfind : (t.inodes.get slot).dirty.find c = .error position)
    (hfo : f (t.inodes.get slot) = { t.inodes.get slot with
      dirty := (t.inodes.get slot).dirty.insert position c a }) :
    (t.updateSlot slot f).WF [] ∧ (∀ k, (t.updateSlot slot f).handleIno k = t.handleIno k) ∧
      ((t.updateSlot slot f).inodes.get slot).dirty.lookup c = some a ∧
      ∀ j, (t.updateSlot slot f).file j = if j = ino then
        some { t.fileAt slot with dirty := fun d =>
          (if d = c then some (t.arena.chunk a) else (t.fileAt slot).dirty d) } else t.file j := by
  have hsplits := DirtyIdx.find_error (h.sorted slot) hfind
  have hlookup := fun d => DirtyIdx.lookup_insert (d := d) (a := a) (h.sorted slot) hsplits
  refine ⟨h.change hf t.closing (by rw [hfo]) (fun s => ?_) ?_ h.handles h.bounded h.room ?_,
    fun k => Eq.trans (handleIno_change (h.find_lt hf) (by rw [hfo]) rfl) rfl, ?_, fun j => ?_⟩
  · rw [← h.refs, hfo]
    split
    · next heq => rw [heq]
    · rfl
  · rw [hfo]
    exact (h.sorted slot).insert hsplits
  · rw [hfo]
    refine List.Perm.trans (List.perm_iff_count.mpr fun x => ?_) (h.arena_split hf)
    have hcount := (DirtyIdx.slots_insert (c := c) (a := a) hsplits.1).count_eq x
    simp only [List.count_append, List.count_cons, List.count_nil] at hcount ⊢
    omega
  · rw [OpenTable.updateSlot, get_update (h.find_lt hf), if_pos rfl, hfo, hlookup, if_pos rfl]
  · rw [h.file_updateSlot hf, hfo]
    refine if_congr Iff.rfl (congrArg some ?_) rfl
    rw [fileAt, view, view]
    congr 1
    funext d
    rw [hlookup]
    split <;> rfl

private theorem WF.withArena (h : t.WF held) {arena : ChunkArena} {held' : List ArenaSlot}
    (hbounded : arena.Bounded) (hroom : arena.Budgeted)
    (harena : (arena.free ++ held' ++ t.owned).Perm (List.range arena.len.length)) :
    OpenTable.WF held' { t with arena := arena } :=
  ⟨h.inos, h.cover, h.ino, h.refs, h.unused, h.sorted, h.handles, hbounded, hroom, harena⟩

theorem WF.writeChunk (h : t.WF held) (hf : t.inodes.find ino = some slot)
    (hc : (t.inodes.get slot).dirty.lookup c = some a)
    (hrange : range.start + data.length = range.stop) (hstop : range.stop ≤ chunkSize) :
    OpenTable.WF held { t with arena := t.arena.write a range data } ∧
      ∀ j, { t with arena := t.arena.write a range data }.file j = if j = ino then
        some { t.fileAt slot with dirty := fun d =>
          (if d = c then some (splice range.start data (t.arena.chunk a))
          else (t.fileAt slot).dirty d) } else t.file j := by
  have ha := DirtyIdx.mem_slots hc
  have halt := h.mem_lt (List.mem_append_right _ (mem_owned ha))
  refine ⟨h.withArena (ChunkArena.write_bounded h.bounded hstop)
    (ChunkArena.write_budgeted h.room) ?_, fun j => ?_⟩
  · rw [ChunkArena.write_len, List.length_set]
    exact h.arena
  · have hothers : ∀ s, s ≠ slot → ∀ b ∈ (t.inodes.get s).dirty.slots,
        (t.arena.write a range data).chunk b = t.arena.chunk b := fun s hs b hb =>
      ChunkArena.chunk_write_ne h.bounded
        (fun heq => hs (h.owner_unique ha (heq ▸ hb))) hrange hstop
    refine Eq.trans (h.file_change hf (fun _ => rfl) (fun _ _ => rfl) hothers) ?_
    refine if_congr Iff.rfl (congrArg some ?_) rfl
    rw [fileAt, fileAt, view, view]
    congr 1
    funext d
    dsimp only
    split
    · next hd => rw [hd, hc, Option.map_some, ChunkArena.chunk_write_self halt hrange]
    · next hd =>
      rcases hb : (t.inodes.get slot).dirty.lookup d with _ | b
      · rfl
      · have hne : b ≠ a := by
          rintro rfl
          exact hd (h.lookup_inj hc hb)
        rw [Option.map_some, Option.map_some, ChunkArena.chunk_write_ne h.bounded hne hrange hstop]

theorem WF.allocChunk {arena : ChunkArena} (h : t.WF [])
    (halloc : t.arena.alloc = some (a, arena)) :
    OpenTable.WF [a] { t with arena := arena } ∧ arena.chunk a = [] ∧
      ∀ j, { t with arena := arena }.file j = t.file j := by
  have hfree : ∀ b ∈ t.arena.free, b < t.arena.len.length := fun b hb =>
    h.mem_lt (List.mem_append_left _ (List.mem_append_left _ hb))
  have hperm := h.arena
  rw [List.append_nil] at hperm
  have hcases := ChunkArena.alloc_cases halloc
  have hnew : a ∉ t.owned := by
    intro ha
    rcases hcases with ⟨hmem, -⟩ | ⟨-, -, rfl, -⟩
    · exact h.owned_not_held ha (by rw [hmem]; simp)
    · exact Nat.lt_irrefl _ (h.mem_lt (List.mem_append_right _ ha))
  refine ⟨h.withArena (ChunkArena.alloc_bounded h.bounded halloc)
    (ChunkArena.alloc_budgeted h.room halloc) ?_, ChunkArena.chunk_alloc_self hfree halloc,
    fun j => file_congr rfl (fun _ _ => rfl) ?_⟩
  · rcases hcases with ⟨hmem, hlen, -⟩ | ⟨hnil, hnil', rfl, -, hlen, -⟩
    · rw [hmem] at hperm
      rw [hlen, List.length_set]
      refine List.Perm.trans (List.perm_iff_count.mpr fun x => ?_) hperm
      simp only [List.count_append, List.count_cons, List.count_nil, owned]
      omega
    · rw [hnil] at hperm
      rw [hlen, hnil', List.length_append, List.length_singleton, List.range_succ]
      refine List.Perm.trans (List.perm_append_comm) ?_
      exact hperm.append_right _
  · intro s _ b hb
    have hb := mem_owned hb
    have hne : b ≠ a := fun heq => hnew (heq ▸ hb)
    exact ChunkArena.chunk_alloc_ne h.bounded hne (h.mem_lt (List.mem_append_right _ hb)) halloc

theorem WF.releaseHeld (h : t.WF [a]) :
    OpenTable.WF [] { t with arena := t.arena.release a } := by
  refine h.withArena h.bounded ⟨h.room.pos, h.room.len⟩
    (List.Perm.trans (List.perm_iff_count.mpr fun x => ?_) h.arena)
  simp only [ChunkArena.release, List.count_append, List.count_cons, List.count_nil, owned]
  omega

theorem WF.fillHeld (h : t.WF [a]) (hdata : data.length ≤ chunkSize) :
    let t' := { t with arena := (t.arena.fillBuffer a data).setLen a data.length }
    t'.WF [a] ∧ t'.arena.chunk a = data ∧ ∀ j, t'.file j = t.file j := by
  intro t'
  have halt : a < t.arena.len.length := h.mem_lt (by simp)
  refine ⟨h.withArena (ChunkArena.fill_bounded h.bounded hdata)
    (ChunkArena.fill_budgeted h.room) ?_,
    ChunkArena.chunk_fill_self halt, fun j => file_congr rfl (fun _ _ => rfl) ?_⟩
  · exact h.arena.trans (by simp [ChunkArena.setLen, ChunkArena.fillBuffer])
  · intro s _ b hb
    refine ChunkArena.chunk_fill_ne h.bounded ?_ hdata
    rintro rfl
    exact h.owned_not_held (mem_owned hb) (by simp)

end Data

section Slots

variable {kind : FileKind} {size : Nat} {inodes : OpenInodes}

theorem WF.insert_cases (h : t.WF held) (hnone : t.inodes.find ino = none)
    (hi : t.inodes.insert ino kind size = (slot, inodes)) :
    slot ∉ t.inodes.values ∧ inodes.byIno = (ino, slot) :: t.inodes.byIno ∧
      (inodes.values ++ inodes.free).Perm (List.range inodes.slots.length) ∧
      (∀ s, inodes.get s =
        if s = slot then ⟨ino, kind, size, ⟨0, 0⟩, 0, false, .empty⟩ else t.inodes.get s) ∧
      (inodes.slots.flatMap fun o => o.dirty.slots) = t.owned := by
  have hfilter : (t.inodes.byIno.filter fun e => e.1 ≠ ino) = t.inodes.byIno :=
    List.filter_eq_self.mpr fun e he => by simpa using find_eq_none.mp hnone e he
  have hcover := h.cover
  have hnodup := h.slots
  have hbound := h.bound
  unfold OpenInodes.insert at hi
  split at hi
  · next slot' free hfree =>
    obtain ⟨rfl, rfl⟩ := Prod.mk.inj hi
    rw [hfree] at hnodup hbound hcover
    have hlt := hbound slot' (by simp)
    have hnew : slot' ∉ t.inodes.values := fun hin =>
      (List.nodup_append.mp hnodup).2.2 slot' hin slot' List.mem_cons_self rfl
    refine ⟨hnew, congrArg _ hfilter, ?_, fun s => ?_, ?_⟩
    · rw [OpenInodes.values, hfilter, List.length_modify]
      exact List.perm_middle.symm.trans hcover
    · refine (Cells.getD_modify hlt).trans ?_
      split
      · next heq =>
        subst heq
        have hdirty := (h.unused s hnew).2
        rw [OpenInodes.get] at hdirty
        rw [hdirty]
      · rfl
    · exact Cells.flatMap_modify_of_eq fun _ => rfl
  · next hfree =>
    obtain ⟨rfl, rfl⟩ := Prod.mk.inj hi
    rw [hfree, List.append_nil] at hbound hcover
    have hnew : t.inodes.slots.length ∉ t.inodes.values := fun hin =>
      Nat.lt_irrefl _ (hbound _ hin)
    refine ⟨hnew, congrArg _ hfilter, ?_, fun s => Cells.getD_append_singleton, ?_⟩
    · rw [OpenInodes.values, hfilter, List.append_nil, List.length_append, List.length_singleton,
        List.range_succ]
      exact (hcover.cons _).trans (List.perm_append_singleton _ _).symm
    · simp [owned, DirtyIdx.empty, DirtyIdx.slots]

theorem WF.insert (h : t.WF held) (hnone : t.inodes.find ino = none)
    (hi : t.inodes.insert ino kind size = (slot, inodes)) :
    let t' := { t with inodes := inodes }
    t'.WF held ∧ t'.inodes.find ino = some slot ∧ (∀ k, t'.handleIno k = t.handleIno k) ∧
      ∀ j, t'.file j = if j =
        ino then some ⟨kind, size, 0, false, fun _ => none⟩ else t.file j := by
  intro t'
  obtain ⟨hnew, hbyIno, hcover, hget, howned⟩ := h.insert_cases hnone hi
  have hfind : ∀ i, inodes.find i = if i = ino then some slot else t.inodes.find i := fun i => by
    rw [OpenInodes.find, hbyIno]
    split
    · next heq => rw [List.find?_cons_of_pos (by simpa using heq.symm)]; rfl
    · next hne => rw [List.find?_cons_of_neg (by simpa using Ne.symm hne)]; rfl
  have hself : inodes.find ino = some slot := (hfind ino).trans (if_pos rfl)
  have hother : ∀ s ∈ t.inodes.values, inodes.get s = t.inodes.get s := fun s hs => by
    rw [hget, if_neg fun heq : s = slot => hnew (heq ▸ hs)]
  refine ⟨⟨?_, hcover, fun e he => ?_, fun s => ?_, fun s hs => ?_, fun s => ?_, h.handles,
    h.bounded, h.room, ?_⟩, hself, fun k => ?_, fun j => ?_⟩
  · change (inodes.byIno.map Prod.fst).Nodup
    rw [hbyIno, List.map_cons, List.nodup_cons]
    refine ⟨fun hin => ?_, h.inos⟩
    obtain ⟨e, he, heq⟩ := List.mem_map.mp hin
    exact find_eq_none.mp hnone e he heq
  · change e ∈ inodes.byIno at he
    rw [hbyIno] at he
    rcases List.mem_cons.mp he with rfl | he
    · exact congrArg OpenInode.ino ((hget slot).trans (if_pos rfl))
    · exact (congrArg OpenInode.ino (hother e.2 (List.mem_map_of_mem he))).trans (h.ino e he)
  · change (inodes.get s).refs = _
    rw [hget]
    split
    · next heq => rw [heq, ← h.refs, (h.unused slot hnew).1]
    · exact h.refs s
  · change s ∉ inodes.values at hs
    change (inodes.get s).refs = 0 ∧ (inodes.get s).dirty = .empty
    rw [OpenInodes.values, hbyIno, List.map_cons, List.mem_cons, not_or] at hs
    rw [hget, if_neg hs.1]
    exact h.unused s hs.2
  · change (inodes.get s).dirty.Sorted
    rw [hget]
    split
    · exact DirtyIdx.sorted_empty
    · exact h.sorted s
  · exact (List.Perm.of_eq (congrArg _ howned)).trans h.arena
  · rw [handleIno, handleIno]
    rcases hk : t.handles.get k with _ | s
    · rfl
    · rw [Option.map_some, Option.map_some,
        show t'.inodes.get s = t.inodes.get s from hother s (h.find_mem (h.find_of_handle hk))]
  · split
    · next heq =>
      rw [heq, file_of_find hself, fileAt]
      change some ((t'.view (inodes.get slot))) = _
      rw [hget, if_pos rfl]
      rfl
    · next hne =>
      exact file_congr ((hfind j).trans (if_neg hne)) (fun s hs => hother s (h.find_mem hs))
        fun _ _ _ _ => rfl

theorem WF.remove (h : t.WF held) (hf : t.inodes.find ino = some slot)
    (hrefs : (t.inodes.get slot).refs = 0) (hdirty : (t.inodes.get slot).dirty = .empty) :
    let t' := { t with inodes := t.inodes.remove slot }
    t'.WF held ∧ (∀ k, t'.handleIno k = t.handleIno k) ∧
      ∀ j, t'.file j = if j = ino then none else t.file j := by
  intro t'
  have hlt := h.find_lt hf
  have hino := h.find_ino hf
  have hmem := h.find_iff.mp hf
  have hget : ∀ s, t'.inodes.get s = if s = slot then
      { t.inodes.get s with refs := 0, unlinked := false } else t.inodes.get s := fun s =>
    Cells.getD_modify hlt
  have hbyIno : t'.inodes.byIno = t.inodes.byIno.filter fun e => ¬e.1 = ino := by
    change t.inodes.byIno.filter (fun e => e.1 ≠ (t.inodes.get slot).ino) = _
    rw [hino]
  have hperm : t.inodes.byIno.Perm ((ino, slot) :: t'.inodes.byIno) :=
    hbyIno ▸ Keyed.perm_cons_filter h.inos hmem
  have hvalues : (t.inodes.values ++ t.inodes.free).Perm (t'.inodes.values ++ t'.inodes.free) :=
    ((hperm.map Prod.snd).append_right _).trans List.perm_middle.symm
  have hfind : ∀ i, t'.inodes.find i = if i = ino then none else t.inodes.find i := fun i => by
    rw [OpenInodes.find, hbyIno]
    split
    · next heq => rw [Keyed.find_filter_of_drop fun e _ he => by simp [he, heq]]; rfl
    · next hne => rw [Keyed.find_filter_of_keep fun e _ he => by simp [he, hne]]; rfl
  have hsame : ∀ s, (t'.inodes.get s).ino = (t.inodes.get s).ino ∧
      (t'.inodes.get s).refs = (t.inodes.get s).refs ∧
      (t'.inodes.get s).dirty = (t.inodes.get s).dirty := fun s => by
    rw [hget]
    split
    · next heq => exact ⟨rfl, by rw [heq, hrefs], rfl⟩
    · exact ⟨rfl, rfl, rfl⟩
  refine ⟨⟨?_, ?_, fun e he => ?_, fun s => ?_,
    fun s hs => ?_, fun s => ?_, h.handles, h.bounded, h.room, ?_⟩, fun k => ?_, fun j => ?_⟩
  · rw [hbyIno]
    exact Keyed.nodup_filter h.inos
  · change (t'.inodes.values ++ t'.inodes.free).Perm (List.range (t.inodes.slots.modify _ _).length)
    rw [List.length_modify]
    exact hvalues.symm.trans h.cover
  · rw [(hsame e.2).1]
    exact h.ino e (hperm.mem_iff.mpr (List.mem_cons_of_mem _ he))
  · rw [(hsame s).2.1]
    exact h.refs s
  · rw [(hsame s).2.1, (hsame s).2.2]
    by_cases heq : s = slot
    · rw [heq]
      exact ⟨hrefs, hdirty⟩
    · refine h.unused s fun hin => ?_
      rcases List.mem_cons.mp ((hperm.map Prod.snd).mem_iff.mp hin) with h' | h'
      · exact heq h'
      · exact hs h'
  · rw [(hsame s).2.2]
    exact h.sorted s
  · have howned : t'.owned = t.owned := Cells.flatMap_modify_of_eq fun _ => rfl
    exact (List.Perm.of_eq (congrArg _ howned)).trans h.arena
  · rw [handleIno, handleIno]
    congr 1
    funext s
    exact (hsame s).1
  · split
    · next heq => rw [heq, file_eq_none, hfind, if_pos rfl]
    · next hne =>
      refine file_congr ((hfind j).trans (if_neg hne)) (fun s hs => ?_) fun _ _ _ _ => rfl
      rw [hget, if_neg (h.find_ne hf hs hne)]

end Slots

end OpenTable

end VibeDbfs
