import VibeDbfs.Open.Files

/-!
What holds of the open-inode table over any store, after any calls: its handles are counted, its
free slots are empty, it buffers no more than a file may hold, and a live slot is needed.
-/

set_option autoImplicit false
set_option relaxedAutoImplicit false

namespace VibeDbfs

open Lib

/-- Dirty data belongs to a regular file within the limit. -/
structure OpenInode.Bounded (o : OpenInode) : Prop where
  size : o.kind = .regularFile → o.size ≤ maxFileSize
  kind : o.kind ≠ .regularFile → o.dirty = .empty

/-- Nothing needs the slot any more: it has no handles and no dirty data. -/
def OpenInode.Idle (o : OpenInode) : Prop := o.refs = 0 ∧ o.dirty = .empty

/-- The slots `spare`, and `slot`. -/
def besides (spare : Slot → Prop) (slot : Slot) : Slot → Prop := fun j => spare j ∨ j = slot

namespace OpenTable

/-- `slot` exists and is not free. -/
def Uses (t : OpenTable) (slot : Slot) : Prop :=
  slot < t.inodes.slots.length ∧ slot ∉ t.inodes.free

/-- The invariant. Only the slots `spare` may be live though nothing needs them, and a slot in use
is the one of its inode, unless a slot was `lost` to a second one of the same inode. -/
structure Tidy (lost : Prop) (spare : Slot → Prop) (t : OpenTable) : Prop where
  counted : ∀ slot, t.handles.slot.count (some slot) ≤ (t.inodes.get slot).refs
  named : ∀ e ∈ t.inodes.byIno, (t.inodes.get e.2).ino = e.1 ∧ t.Uses e.2
  distinct : t.inodes.values.Nodup
  free : ∀ slot ∈ t.inodes.free, slot < t.inodes.slots.length ∧ (t.inodes.get slot).Idle
  once : t.inodes.free.Nodup
  bounded : ∀ slot, (t.inodes.get slot).Bounded
  needed : ∀ slot ∈ t.inodes.values, (t.inodes.get slot).Idle → spare slot
  mapped : lost ∨ ∀ slot, t.Uses slot → t.inodes.find (t.inodes.get slot).ino = some slot

variable {t t' : OpenTable} {lost : Prop} {spare spare' : Slot → Prop} {slot other : Slot}
  {ino fh : Nat}

theorem Tidy.new (writeBuffer : Nat) : (OpenTable.new writeBuffer).Tidy lost spare := by
  have hempty : ∀ slot, (OpenTable.new writeBuffer).inodes.get slot = .absent := fun _ => rfl
  constructor
  · intro slot
    exact Nat.zero_le _
  · intro e he
    cases he
  · exact List.nodup_nil
  · intro slot hslot
    cases hslot
  · exact List.nodup_nil
  · intro slot
    rw [hempty]
    exact ⟨fun _ => Nat.zero_le _, fun _ => rfl⟩
  · intro slot hslot
    cases hslot
  · exact .inr fun slot huses => (Nat.not_lt_zero slot huses.1).elim

theorem Tidy.mono (h : t.Tidy lost spare) (hspare : ∀ j, spare j → spare' j) : t.Tidy lost spare' :=
  { h with needed := fun j hj hidle => hspare j (h.needed j hj hidle) }

theorem Tidy.besides (h : t.Tidy lost spare) (slot : Slot) : t.Tidy lost (besides spare slot) :=
  h.mono fun _ => .inl

theorem Tidy.of_besides (h : t.Tidy lost (VibeDbfs.besides spare slot))
    (hneeded : ¬(t.inodes.get slot).Idle) : t.Tidy lost spare := by
  refine { h with needed := fun j hj hidle => ?_ }
  rcases h.needed j hj hidle with hspare | rfl
  · exact hspare
  · exact (hneeded hidle).elim

theorem Tidy.congr (h : t.Tidy lost spare) (hinodes : t'.inodes = t.inodes)
    (hhandles : t'.handles = t.handles) : t'.Tidy lost spare := by
  cases t
  cases t'
  cases hinodes
  cases hhandles
  exact ⟨h.counted, h.named, h.distinct, h.free, h.once, h.bounded, h.needed, h.mapped⟩

theorem Tidy.uses_of_mem (h : t.Tidy lost spare) (hmem : slot ∈ t.inodes.values) : t.Uses slot := by
  obtain ⟨e, he, rfl⟩ := List.mem_map.mp hmem
  exact (h.named e he).2

private theorem mem_of_find (hf : t.inodes.find ino = some slot) :
    (ino, slot) ∈ t.inodes.byIno := by
  obtain ⟨⟨i, s⟩, he, rfl⟩ := Option.map_eq_some_iff.mp hf
  obtain rfl := of_decide_eq_true (List.find?_some
      (p := fun e : Nat × Slot => decide (e.1 = ino)) he)
  exact List.mem_of_find?_eq_some he

theorem mem_values_of_find (hf : t.inodes.find ino = some slot) : slot ∈ t.inodes.values :=
  List.mem_map_of_mem (mem_of_find hf)

theorem Tidy.uses_of_find (h : t.Tidy lost spare) (hf : t.inodes.find ino = some slot) :
    t.Uses slot :=
  h.uses_of_mem (mem_values_of_find hf)

theorem Tidy.ino_of_find (h : t.Tidy lost spare) (hf : t.inodes.find ino = some slot) :
    (t.inodes.get slot).ino = ino :=
  (h.named _ (mem_of_find hf)).1

private theorem absent_idle : OpenInode.absent.Idle := ⟨rfl, rfl⟩

theorem Tidy.uses_of_needed (h : t.Tidy lost spare) (hneeded : ¬(t.inodes.get slot).Idle) :
    t.Uses slot := by
  constructor
  · by_contra hle
    apply hneeded
    rw [get_of_le (Nat.le_of_not_lt hle)]
    exact absent_idle
  · intro hfree
    exact hneeded (h.free slot hfree).2

theorem Tidy.refs_of_handle (h : t.Tidy lost spare) (hfh : t.handles.get fh = some slot) :
    (t.inodes.get slot).refs ≠ 0 := by
  have hmem : some slot ∈ t.handles.slot := List.mem_of_getElem? (Handles.get_eq_some.mp hfh)
  have hcount := List.count_pos_iff.mpr hmem
  have hcounted := h.counted slot
  omega

theorem Tidy.uses_of_handle (h : t.Tidy lost spare) (hfh : t.handles.get fh = some slot) :
    t.Uses slot :=
  h.uses_of_needed fun hidle => h.refs_of_handle hfh hidle.1

section Change

variable {f : OpenInode → OpenInode}

theorem uses_update (hinodes : t'.inodes = t.inodes.update slot f) (j : Slot) :
    t'.Uses j ↔ t.Uses j := by
  rw [Uses, Uses, hinodes]
  change j < (t.inodes.slots.modify slot f).length ∧ _ ↔ _
  rw [List.length_modify]
  exact Iff.rfl

theorem kind_update (hinodes : t'.inodes = t.inodes.update slot f)
    (hkind : ∀ o, (f o).kind = o.kind)
    (j : Slot) : (t'.inodes.get j).kind = (t.inodes.get j).kind := by
  rw [hinodes]
  by_cases hlt : slot < t.inodes.slots.length
  · rw [get_update hlt]
    split
    · exact hkind _
    · rfl
  · rw [OpenInodes.update, OpenInodes.get, OpenInodes.get,
      List.modify_eq_self (Nat.le_of_not_lt hlt)]

private theorem Tidy.change (h : t.Tidy lost spare) (huses : t.Uses slot)
    (hinodes : t'.inodes = t.inodes.update slot f)
    (hcounted : ∀ j, t'.handles.slot.count (some j) ≤ (t'.inodes.get j).refs)
    (hino : (f (t.inodes.get slot)).ino = (t.inodes.get slot).ino)
    (hbounded : (f (t.inodes.get slot)).Bounded) : t'.Tidy lost (VibeDbfs.besides spare slot) := by
  have hget : ∀ j, t'.inodes.get j = if j = slot then f
      (t.inodes.get slot) else t.inodes.get j := by
    intro j
    rw [hinodes, get_update huses.1]
    split
    · next heq => rw [heq]
    · rfl
  have hfree : t'.inodes.free = t.inodes.free := by rw [hinodes]; rfl
  have hbyIno : t'.inodes.byIno = t.inodes.byIno := by rw [hinodes]; rfl
  have hlength : t'.inodes.slots.length = t.inodes.slots.length := by
    rw [hinodes]
    exact List.length_modify ..
  refine ⟨hcounted, ?_, ?_, ?_, hfree ▸ h.once, ?_, ?_, h.mapped.imp_right fun hmapped j hj => ?_⟩
  · intro e he
    rw [hbyIno] at he
    rw [uses_update hinodes, hget]
    refine ⟨?_, (h.named e he).2⟩
    split
    · next heq =>
      rw [hino, ← heq]
      exact (h.named e he).1
    · exact (h.named e he).1
  · rw [OpenInodes.values, hbyIno]
    exact h.distinct
  · intro j hj
    rw [hfree] at hj
    have hne : j ≠ slot := fun heq => huses.2 (heq ▸ hj)
    rw [hlength, hget, if_neg hne]
    exact h.free j hj
  · intro j
    rw [hget]
    split
    · exact hbounded
    · exact h.bounded j
  · intro j hj hidle
    rw [OpenInodes.values, hbyIno] at hj
    rw [hget] at hidle
    split at hidle
    · next heq => exact .inr heq
    · exact .inl (h.needed j hj hidle)
  · have hsame : (t'.inodes.get j).ino = (t.inodes.get j).ino := by
      rw [hget]
      split
      · next heq => rw [hino, heq]
      · rfl
    rw [hsame, OpenInodes.find, hbyIno]
    exact hmapped j ((uses_update hinodes j).mp hj)

theorem Tidy.updateSlot (h : t.Tidy lost spare) (huses : t.Uses slot)
    (hrefs : (f (t.inodes.get slot)).refs = (t.inodes.get slot).refs)
    (hino : (f (t.inodes.get slot)).ino = (t.inodes.get slot).ino)
    (hbounded : (f (t.inodes.get slot)).Bounded) :
    (t.updateSlot slot f).Tidy lost (VibeDbfs.besides spare slot) := by
  apply h.change huses rfl _ hino hbounded
  intro j
  change t.handles.slot.count (some j) ≤ ((t.inodes.update slot f).get j).refs
  rw [get_update huses.1]
  split
  · next heq =>
    rw [heq, hrefs]
    exact h.counted slot
  · exact h.counted j

theorem Tidy.releaseDirty (h : t.Tidy lost spare) (huses : t.Uses slot) :
    (t.releaseDirty slot).Tidy lost (VibeDbfs.besides spare slot) ∧
      ((t.releaseDirty slot).inodes.get slot).dirty = .empty ∧
      ((t.releaseDirty slot).inodes.get slot).refs = (t.inodes.get slot).refs := by
  have hchange : (t.releaseDirty slot).inodes =
      t.inodes.update slot fun o => { o with dirty := .empty } := by
    unfold OpenTable.releaseDirty
    rw [DirtyIdx.releaseInto_eq]
  have hget : (t.releaseDirty slot).inodes.get slot =
      { t.inodes.get slot with dirty := .empty } := by
    rw [hchange, get_update huses.1, if_pos rfl]
  refine ⟨?_, by rw [hget], by rw [hget]⟩
  have htidy := h.updateSlot (f := fun o => { o with dirty := .empty }) huses rfl rfl
    ⟨(h.bounded slot).size, fun _ => rfl⟩
  exact htidy.congr hchange rfl

end Change

private theorem Tidy.remove (h : t.Tidy lost (VibeDbfs.besides spare slot)) (huses : t.Uses slot)
    (hidle : (t.inodes.get slot).Idle) :
    ({ t with inodes := t.inodes.remove slot } : OpenTable).Tidy lost spare := by
  have hget : ∀ j, (t.inodes.remove slot).get j =
      if j = slot then { t.inodes.get slot with refs := 0, unlinked := false }
      else t.inodes.get j := by
    intro j
    refine (get_update huses.1 j).trans ?_
    split
    · next heq => rw [heq]
    · rfl
  have hlength : (t.inodes.remove slot).slots.length = t.inodes.slots.length :=
    List.length_modify ..
  have hmem : ∀ e ∈ (t.inodes.remove slot).byIno, e ∈ t.inodes.byIno ∧ e.2 ≠ slot := by
    intro e he
    obtain ⟨hold, hne⟩ := List.mem_filter.mp he
    refine ⟨hold, fun heq => of_decide_eq_true hne ?_⟩
    rw [← heq]
    exact (h.named e hold).1.symm
  constructor
  · intro j
    change t.handles.slot.count (some j) ≤ ((t.inodes.remove slot).get j).refs
    rw [hget]
    split
    · next heq =>
      rw [heq]
      exact hidle.1 ▸ h.counted slot
    · exact h.counted j
  · intro e he
    obtain ⟨he, hne⟩ := hmem e he
    obtain ⟨hino, hlt, hused⟩ := h.named e he
    refine ⟨?_, ?_, ?_⟩
    · change ((t.inodes.remove slot).get e.2).ino = e.1
      rw [hget, if_neg hne]
      exact hino
    · change e.2 < (t.inodes.remove slot).slots.length
      rw [hlength]
      exact hlt
    · intro hin
      rcases List.mem_cons.mp hin with heq | hin
      · exact hne heq
      · exact hused hin
  · exact h.distinct.sublist (List.filter_sublist.map _)
  · intro j hj
    change j < (t.inodes.remove slot).slots.length ∧ ((t.inodes.remove slot).get j).Idle
    rw [hlength, hget]
    split
    · next heq => exact ⟨heq ▸ huses.1, rfl, hidle.2⟩
    · next hne => exact h.free j ((List.mem_cons.mp hj).resolve_left hne)
  · exact List.nodup_cons.mpr ⟨huses.2, h.once⟩
  · intro j
    change ((t.inodes.remove slot).get j).Bounded
    rw [hget]
    split
    · exact ⟨(h.bounded slot).size, (h.bounded slot).kind⟩
    · exact h.bounded j
  · intro j hj hfree
    obtain ⟨e, he, rfl⟩ := List.mem_map.mp hj
    obtain ⟨he, hne⟩ := hmem e he
    have hget' : (t.inodes.remove slot).get e.2 = t.inodes.get e.2 := (hget e.2).trans (if_neg hne)
    rw [show ({ t with inodes := t.inodes.remove slot } : OpenTable).inodes.get e.2 =
      t.inodes.get e.2 from hget'] at hfree
    exact (h.needed e.2 (List.mem_map_of_mem he) hfree).resolve_right hne
  · refine h.mapped.imp_right fun hmapped j hj => ?_
    have hne : j ≠ slot := fun heq => hj.2 (heq ▸ List.mem_cons_self)
    have hused : t.Uses j := by
      refine ⟨?_, fun hin => hj.2 (List.mem_cons_of_mem slot hin)⟩
      have hlt : j < (t.inodes.remove slot).slots.length := hj.1
      rwa [hlength] at hlt
    change (t.inodes.remove slot).find ((t.inodes.remove slot).get j).ino = some j
    rw [hget, if_neg hne]
    refine (find_filtered t.inodes _ _).trans ((if_neg ?_).trans (hmapped j hused))
    intro heq
    have hj' := hmapped j hused
    rw [heq, hmapped slot huses] at hj'
    exact hne (Option.some.inj hj').symm

private theorem uses_remove (hne : other ≠ slot) (h : t.Uses other) :
    ({ t with inodes := t.inodes.remove slot } : OpenTable).Uses other := by
  refine ⟨?_, ?_⟩
  · change other < (t.inodes.slots.modify slot _).length
    rw [List.length_modify]
    exact h.1
  · intro hin
    exact h.2 ((List.mem_cons.mp hin).resolve_left hne)

section FreeIfIdle

theorem isEmpty_iff_eq_empty {idx : DirtyIdx} : idx.isEmpty = true ↔ idx = .empty := by
  rw [DirtyIdx.isEmpty_iff]
  cases idx
  exact ⟨congrArg DirtyIdx.mk, congrArg DirtyIdx.entries⟩

theorem kind_freeIfIdle (j : Slot) :
    ((t.freeIfIdle slot).inodes.get j).kind = (t.inodes.get j).kind := by
  unfold OpenTable.freeIfIdle
  dsimp only
  split
  · let f : OpenInode → OpenInode := fun o => { o with refs := 0, unlinked := false }
    have hkind : ((t.updateSlot slot f).inodes.get j).kind = (t.inodes.get j).kind :=
      kind_update (f := f) rfl (fun _ => rfl) j
    exact hkind
  · rfl

theorem Tidy.freeIfIdle (h : t.Tidy lost (VibeDbfs.besides spare slot)) (huses : t.Uses slot) :
    (t.freeIfIdle slot).Tidy lost spare ∧ (∀ j, j ≠ slot → t.Uses j → (t.freeIfIdle slot).Uses j) ∧
      (t.freeIfIdle slot).handles = t.handles ∧
      ∀ j, (t.freeIfIdle slot).inodes.find (t.inodes.get slot).ino = some j →
        t.inodes.find (t.inodes.get slot).ino = some j ∧
          (t.freeIfIdle slot).inodes.get slot = t.inodes.get slot ∧ ¬(t.inodes.get slot).Idle := by
  unfold OpenTable.freeIfIdle
  dsimp only
  split
  · next hidle =>
    refine ⟨h.remove huses ⟨hidle.1, isEmpty_iff_eq_empty.mp hidle.2⟩,
      fun j hne hj => uses_remove hne hj, rfl, fun j hj => ?_⟩
    obtain ⟨-, hne⟩ := List.mem_filter.mp (mem_of_find hj)
    exact (of_decide_eq_true hne rfl).elim
  · next hneeded =>
    have hidle : ¬(t.inodes.get slot).Idle :=
      fun hidle => hneeded ⟨hidle.1, isEmpty_iff_eq_empty.mpr hidle.2⟩
    exact ⟨h.of_besides hidle, fun _ _ hj => hj, rfl, fun j hj => ⟨hj, rfl, hidle⟩⟩

theorem Tidy.discardSlot (h : t.Tidy lost (VibeDbfs.besides spare slot)) (huses : t.Uses slot)
    (hrefs : (t.inodes.get slot).refs = 0) : (t.discardSlot slot).Tidy lost spare := by
  obtain ⟨htidy, hdirty, hrefs'⟩ := h.releaseDirty huses
  have hmono : (t.releaseDirty slot).Tidy lost (VibeDbfs.besides spare slot) :=
    htidy.mono fun j hj => hj.elim id .inr
  have huses' : (t.releaseDirty slot).Uses slot := by
    unfold OpenTable.releaseDirty
    exact (uses_update rfl slot).mpr huses
  exact hmono.remove huses' ⟨hrefs'.trans hrefs, hdirty⟩

end FreeIfIdle

theorem mem_of_largestDirty {order : List Slot → List Slot}
    (horder : ∀ slots, (order slots).Perm slots)
    (hslot : t.inodes.largestDirty order = some slot) : slot ∈ t.inodes.values := by
  obtain ⟨-, hsome⟩ := foldl_laterMax (fun slot => (t.inodes.get slot).dirty.entries.length)
    ((order t.inodes.values).filter fun slot => !(t.inodes.get slot).dirty.isEmpty) none
  rcases hsome slot hslot with hnone | hmem
  · cases hnone
  · exact (horder _).mem_iff.mp (List.mem_filter.mp hmem).1

section Insert

theorem find_cons {inodes : OpenInodes}
    (hbyIno : inodes.byIno = (ino, slot) :: t.inodes.byIno.filter fun e => e.1 ≠ ino) (j : Nat) :
    inodes.find j = if j = ino then some slot else t.inodes.find j := by
  rw [OpenInodes.find, hbyIno]
  split
  · next heq => simp [heq]
  · next hne =>
    rw [List.find?_cons_of_neg (by simpa using Ne.symm hne), find_filtered, if_neg hne]

variable {kind : FileKind} {size : Nat} {inodes : OpenInodes}

private theorem uses_of_insert (hinsert : t.inodes.insert ino kind size = (slot, inodes))
    (hne : other ≠ slot) (h : ({ t with inodes := inodes } : OpenTable).Uses other) :
    t.Uses other := by
  obtain ⟨hlt, hused⟩ := h
  change other < inodes.slots.length at hlt
  change other ∉ inodes.free at hused
  unfold OpenInodes.insert at hinsert
  split at hinsert
  · next slot' free hfree =>
    obtain ⟨rfl, rfl⟩ := Prod.mk.inj hinsert
    rw [List.length_modify] at hlt
    refine ⟨hlt, fun hin => ?_⟩
    rw [hfree] at hin
    exact hused ((List.mem_cons.mp hin).resolve_left hne)
  · next hfree =>
    obtain ⟨rfl, rfl⟩ := Prod.mk.inj hinsert
    rw [List.length_append] at hlt
    refine ⟨Nat.lt_of_le_of_ne (Nat.le_of_lt_succ hlt) hne, ?_⟩
    rw [hfree]
    exact List.not_mem_nil

private theorem Tidy.insert_cases (h : t.Tidy lost spare)
    (hinsert : t.inodes.insert ino kind size = (slot, inodes)) :
    ¬t.Uses slot ∧ slot < inodes.slots.length ∧ t.inodes.slots.length ≤ inodes.slots.length ∧
      inodes.byIno = ((ino, slot) :: t.inodes.byIno.filter fun e => e.1 ≠ ino) ∧
      t.inodes.free.erase slot = inodes.free ∧
      ∀ j, inodes.get j =
        if j = slot then ⟨ino, kind, size, ⟨0, 0⟩, 0, false, .empty⟩ else t.inodes.get j := by
  unfold OpenInodes.insert at hinsert
  split at hinsert
  · next slot' free hfree =>
    obtain ⟨rfl, rfl⟩ := Prod.mk.inj hinsert
    have hmem : slot' ∈ t.inodes.free := hfree ▸ List.mem_cons_self
    obtain ⟨hlt, -, hdirty⟩ := h.free slot' hmem
    refine ⟨fun huses => huses.2 hmem, ?_, ?_, rfl, ?_, ?_⟩
    · rwa [List.length_modify]
    · rw [List.length_modify]
    · rw [hfree, List.erase_cons_head]
    · intro j
      refine (Cells.getD_modify hlt).trans ?_
      split
      · next heq =>
        rw [OpenInodes.get] at hdirty
        rw [heq, hdirty]
      · rfl
  · next hfree =>
    obtain ⟨rfl, rfl⟩ := Prod.mk.inj hinsert
    refine ⟨fun huses => Nat.lt_irrefl _ huses.1, ?_, ?_, rfl, ?_,
      fun j => Cells.getD_append_singleton⟩
    · rw [List.length_append]
      exact Nat.lt_succ_self _
    · rw [List.length_append]
      exact Nat.le_add_right _ _
    · rw [hfree]
      rfl

theorem Tidy.insert (h : t.Tidy lost spare) (hsize : kind = .regularFile → size ≤ maxFileSize)
    (hnone : lost ∨ t.inodes.find ino = none)
    (hinsert : t.inodes.insert ino kind size = (slot, inodes)) :
    ({ t with inodes := inodes } : OpenTable).Tidy lost (VibeDbfs.besides spare slot) ∧
      ({ t with inodes := inodes } : OpenTable).Uses slot := by
  obtain ⟨hnew, hlt, hle, hbyIno, hfree, hget⟩ := h.insert_cases hinsert
  have huses : ({ t with inodes := inodes } : OpenTable).Uses slot := by
    refine ⟨hlt, ?_⟩
    change slot ∉ inodes.free
    rw [← hfree]
    exact h.once.not_mem_erase
  have hother : ∀ j, t.Uses j → ({ t with inodes := inodes } : OpenTable).Uses j := by
    intro j hj
    refine ⟨hj.1.trans_le hle, ?_⟩
    change j ∉ inodes.free
    rw [← hfree]
    exact fun hin => hj.2 (List.mem_of_mem_erase hin)
  have hempty : (t.inodes.get slot).Idle := by
    by_contra hneeded
    exact hnew (h.uses_of_needed hneeded)
  refine ⟨?_, huses⟩
  constructor
  · intro j
    change t.handles.slot.count (some j) ≤ (inodes.get j).refs
    rw [hget]
    split
    · next heq =>
      rw [heq]
      exact hempty.1 ▸ h.counted slot
    · exact h.counted j
  · intro e he
    change e ∈ inodes.byIno at he
    rw [hbyIno] at he
    change (inodes.get e.2).ino = e.1 ∧ _
    rw [hget]
    rcases List.mem_cons.mp he with rfl | he
    · rw [if_pos rfl]
      exact ⟨rfl, huses⟩
    · obtain ⟨hino, hused⟩ := h.named e (List.mem_filter.mp he).1
      rw [if_neg fun heq : e.2 = slot => hnew (heq ▸ hused)]
      exact ⟨hino, hother e.2 hused⟩
  · change (inodes.byIno.map Prod.snd).Nodup
    rw [hbyIno]
    refine List.nodup_cons.mpr ⟨?_, h.distinct.sublist (List.filter_sublist.map _)⟩
    intro hin
    obtain ⟨e, he, heq⟩ := List.mem_map.mp hin
    have hused := (h.named e (List.mem_filter.mp he).1).2
    rw [show e.2 = slot from heq] at hused
    exact hnew hused
  · intro j hj
    change j ∈ inodes.free at hj
    rw [← hfree] at hj
    obtain ⟨hlt', hrest⟩ := h.free j (List.mem_of_mem_erase hj)
    have hne : j ≠ slot := fun heq => h.once.not_mem_erase (heq ▸ hj)
    change _ ∧ (inodes.get j).Idle
    rw [hget, if_neg hne]
    exact ⟨hlt'.trans_le hle, hrest⟩
  · change inodes.free.Nodup
    rw [← hfree]
    exact h.once.erase slot
  · intro j
    change (inodes.get j).Bounded
    rw [hget]
    split
    · exact ⟨hsize, fun _ => rfl⟩
    · exact h.bounded j
  · intro j hj hidle
    change j ∈ inodes.byIno.map Prod.snd at hj
    change (inodes.get j).Idle at hidle
    rw [hbyIno] at hj
    rw [hget] at hidle
    split at hidle
    · next heq => exact .inr heq
    · next hne =>
      obtain ⟨e, he, rfl⟩ := List.mem_map.mp ((List.mem_cons.mp hj).resolve_left hne)
      exact .inl (h.needed e.2 (List.mem_map_of_mem (List.mem_filter.mp he).1) hidle)
  · rcases h.mapped with hlost | hmapped
    · exact .inl hlost
    rcases hnone with hlost | hnone
    · exact .inl hlost
    refine .inr fun j hj => ?_
    change inodes.find (inodes.get j).ino = some j
    rw [find_cons hbyIno, hget]
    split
    · next heq => rw [if_pos rfl, heq]
    · next hne =>
      have hused : t.Uses j := uses_of_insert hinsert hne hj
      have hold := hmapped j hused
      rw [if_neg]
      · exact hold
      · intro heq
        rw [heq, hnone] at hold
        cases hold

end Insert

section Handles

private theorem count_alloc (handles : Handles) (slot other : Slot) :
    (handles.alloc slot).2.slot.count (some other) ≤
      handles.slot.count (some other) + if other = slot then 1 else 0 := by
  unfold Handles.alloc
  split
  · next fh free hfree =>
    by_cases hlt : fh < handles.slot.length
    · rw [List.count_set hlt]
      by_cases heq : other = slot
      · rw [if_pos heq, heq]
        simp
      · rw [if_neg heq]
        simp [Ne.symm heq]
    · rw [List.set_eq_of_length_le (Nat.le_of_not_lt hlt)]
      exact Nat.le_add_right _ _
  · rw [List.count_append, List.count_singleton]
    by_cases heq : other = slot
    · simp [heq]
    · simp [heq, Ne.symm heq]

theorem Tidy.openSlot (h : t.Tidy lost (VibeDbfs.besides spare slot)) (huses : t.Uses slot) :
    (t.openSlot slot).2.Tidy lost spare := by
  have hinodes : (t.openSlot slot).2.inodes =
      t.inodes.update slot fun o => { o with refs := o.refs + 1 } := rfl
  have htidy : (t.openSlot slot).2.Tidy lost (VibeDbfs.besides
      (VibeDbfs.besides spare slot) slot) := by
    apply h.change huses hinodes _ rfl ⟨(h.bounded slot).size, (h.bounded slot).kind⟩
    intro j
    refine (count_alloc _ slot j).trans ?_
    rw [hinodes, get_update huses.1]
    have hcounted := h.counted j
    split
    · exact Nat.succ_le_succ hcounted
    · exact hcounted
  apply (htidy.mono fun j hj => hj.elim id .inr).of_besides
  rw [hinodes, get_update huses.1, if_pos rfl]
  exact fun hidle => Nat.succ_ne_zero _ hidle.1

theorem Tidy.closeHandle (h : t.Tidy lost spare) {handles : Handles}
    (hrelease : t.handles.release fh = some (slot, handles)) : t.Uses slot ∧
      OpenTable.Tidy lost (VibeDbfs.besides spare slot)
        (({ t with handles := handles } : OpenTable).updateSlot
        slot fun o => { o with refs := o.refs - 1 }) := by
  obtain ⟨slot', hget, heq⟩ := Option.map_eq_some_iff.mp hrelease
  obtain ⟨rfl, rfl⟩ := Prod.mk.inj heq
  have huses := h.uses_of_handle hget
  refine ⟨huses, ?_⟩
  apply h.change (f := fun o => { o with refs := o.refs - 1 }) huses rfl _ rfl
    ⟨(h.bounded slot').size, (h.bounded slot').kind⟩
  intro j
  change (t.handles.slot.set fh none).count (some j) ≤ ((t.inodes.update slot' _).get j).refs
  obtain ⟨hlt, hval⟩ := List.getElem?_eq_some_iff.mp (Handles.get_eq_some.mp hget)
  rw [get_update huses.1, List.count_set hlt, hval]
  have hcounted := h.counted j
  by_cases heq : j = slot'
  · subst heq
    simp
    omega
  · rw [if_neg heq]
    simp [Ne.symm heq]
    exact hcounted

end Handles

end OpenTable

end VibeDbfs
