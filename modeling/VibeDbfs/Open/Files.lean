import VibeDbfs.Open.TableLaws

/-!
The composite operations of the table on its files, and the choice of the file to evict.
-/

set_option autoImplicit false
set_option relaxedAutoImplicit false

namespace VibeDbfs

open Lib Lib.Bytes

def OpenFile.Clean (o : OpenFile) : Prop := ∀ c, o.dirty c = none

namespace OpenTable

variable {t : OpenTable} {held : List ArenaSlot} {ino j : Nat} {slot : Slot}

theorem clean_iff : (t.fileAt slot).Clean ↔ (t.inodes.get slot).dirty.isEmpty = true := by
  rw [DirtyIdx.isEmpty_iff_lookup]
  exact forall_congr' fun c => Option.map_eq_none_iff

theorem fileAt_eq {o : OpenFile} (h : t.file ino = some o) (hf : t.inodes.find ino = some slot) :
    t.fileAt slot = o :=
  Option.some.inj ((file_of_find hf).symm.trans h)

private theorem dirty_eq_empty (h : (t.fileAt slot).Clean) :
    (t.inodes.get slot).dirty = .empty := by
  have hentries := DirtyIdx.isEmpty_iff.mp (clean_iff.mp h)
  rcases hd : (t.inodes.get slot).dirty with ⟨entries⟩
  rw [hd] at hentries
  exact congrArg DirtyIdx.mk hentries

/-- The budget never changes. -/
@[simp] theorem maxSlots_releaseDirty :
    (t.releaseDirty slot).arena.maxSlots = t.arena.maxSlots := by
  unfold OpenTable.releaseDirty
  rw [DirtyIdx.releaseInto_eq]

@[simp] theorem maxSlots_freeIfIdle : (t.freeIfIdle slot).arena.maxSlots = t.arena.maxSlots := by
  unfold OpenTable.freeIfIdle
  dsimp only
  split <;> rfl

@[simp] theorem maxSlots_entryRemoved {target : Inode} :
    (t.entryRemoved target).arena.maxSlots = t.arena.maxSlots := by
  unfold OpenTable.entryRemoved
  split
  · rfl
  · split
    · rfl
    · split
      · rfl
      · exact maxSlots_releaseDirty

theorem find_filtered (inodes : OpenInodes) (ino j : Nat) :
    ((inodes.byIno.filter fun e => e.1 ≠ ino).find? fun e => e.1 = j).map Prod.snd =
      if j = ino then none else inodes.find j := by
  split
  · next heq => rw [Keyed.find_filter_of_drop fun e _ he => by simp [he, heq]]; rfl
  · next hne => rw [Keyed.find_filter_of_keep fun e _ he => by simp [he, hne]]; rfl

theorem find_remove (h : t.WF held) (hf : t.inodes.find ino = some slot) :
    (t.inodes.remove slot).find j = if j = ino then none else t.inodes.find j := by
  rw [← h.find_ino hf]
  exact find_filtered t.inodes _ j

theorem WF.freeIfIdle (h : t.WF held) (hf : t.inodes.find ino = some slot) :
    ((t.fileAt slot).refs = 0 ∧ (t.fileAt slot).Clean ∧ (t.freeIfIdle slot).WF held ∧
      (t.freeIfIdle slot).closing = t.closing ∧
      (∀ j, (t.freeIfIdle slot).inodes.find j = if j = ino then none else t.inodes.find j) ∧
      (∀ k, (t.freeIfIdle slot).handleIno k = t.handleIno k) ∧
      ∀ j, (t.freeIfIdle slot).file j = if j = ino then none else t.file j) ∨
    (¬((t.fileAt slot).refs = 0 ∧ (t.fileAt slot).Clean) ∧ t.freeIfIdle slot = t) := by
  by_cases hidle : (t.fileAt slot).refs = 0 ∧ (t.fileAt slot).Clean
  · have heq : t.freeIfIdle slot = { t with inodes := t.inodes.remove slot } :=
      if_pos ⟨hidle.1, clean_iff.mp hidle.2⟩
    obtain ⟨hwf, hhandles, hfile⟩ := h.remove hf hidle.1 (dirty_eq_empty hidle.2)
    rw [heq]
    exact .inl ⟨hidle.1, hidle.2, hwf, rfl, fun j => find_remove h hf, hhandles, hfile⟩
  · exact .inr ⟨hidle, if_neg fun hin => hidle ⟨hin.1, clean_iff.mpr hin.2⟩⟩

theorem WF.discardSlot (h : t.WF held) (hf : t.inodes.find ino = some slot)
    (hrefs : (t.fileAt slot).refs = 0) :
    (t.discardSlot slot).WF held ∧ (t.discardSlot slot).closing = t.closing ∧
      (∀ j, (t.discardSlot slot).inodes.find j = if j = ino then none else t.inodes.find j) ∧
      (∀ k, (t.discardSlot slot).handleIno k = t.handleIno k) ∧
      ∀ j, (t.discardSlot slot).file j = if j = ino then none else t.file j := by
  obtain ⟨hwf, hhandles, hfile⟩ := h.releaseDirty hf
  have hslot : (t.releaseDirty slot).inodes.get slot = { t.inodes.get slot with dirty := .empty } :=
    (get_update (h.find_lt hf) slot).trans (if_pos rfl)
  obtain ⟨hwf', hhandles', hfile'⟩ := hwf.remove hf (by rw [hslot]; exact hrefs) (by rw [hslot])
  refine ⟨hwf', rfl, fun j => find_remove hwf hf, fun k => (hhandles' k).trans (hhandles k),
    fun j => (hfile' j).trans ?_⟩
  split
  · rfl
  · next hne => rw [hfile, if_neg hne]

theorem isOpen_iff : t.isOpen ino = true ↔ ∃ o, t.file ino = some o ∧ 0 < o.refs := by
  unfold isOpen file
  rcases t.inodes.find ino with _ | slot
  · simp
  · simp [OpenInodes.isOpen, fileAt, view]

/-- What the removal of an entry for `target` leaves of its slot. -/
def afterRemoval (target : Inode) (o : OpenFile) : Option OpenFile :=
  if target.kind = .directory ∨ target.nlink > 1 then some o
  else if 0 < o.refs then some { o with unlinked := true }
  else none

theorem WF.entryRemoved (h : t.WF held) (target : Inode) :
    (t.entryRemoved target).WF held ∧ (t.entryRemoved target).closing = t.closing ∧
      (∀ k, (t.entryRemoved target).handleIno k = t.handleIno k) ∧
      ∀ j, (t.entryRemoved target).file j =
        if j = target.ino then (t.file j).bind (afterRemoval target) else t.file j := by
  unfold OpenTable.entryRemoved
  split
  · next hstay =>
    refine ⟨h, rfl, fun _ => rfl, fun j => ?_⟩
    split
    · rcases t.file j with _ | o
      · rfl
      · exact (if_pos hstay).symm
    · rfl
  · next hgone =>
    split
    · next hnone =>
      refine ⟨h, rfl, fun _ => rfl, fun j => ?_⟩
      split
      · next heq => rw [heq, file_eq_none.mpr hnone]; rfl
      · rfl
    · next slot hf =>
      have hafter : (t.file target.ino).bind (afterRemoval target) =
          if 0 < (t.fileAt slot).refs then some
            { t.fileAt slot with unlinked := true } else none := by
        rw [file_of_find hf]
        exact if_neg hgone
      split
      · next hopen =>
        have hrefs : 0 < (t.fileAt slot).refs := of_decide_eq_true hopen
        refine ⟨h.updateSlot hf (fun _ => rfl) (fun _ => rfl) (fun _ => rfl), rfl,
          h.handleIno_updateSlot hf fun _ => rfl, fun j => (h.file_updateSlot hf j).trans ?_⟩
        split
        · next heq => rw [heq, hafter, if_pos hrefs]; rfl
        · rfl
      · next hclosed =>
        have hrefs : ¬0 < (t.fileAt slot).refs := fun hpos => hclosed (decide_eq_true hpos)
        obtain ⟨hwf, hclosing, -, hhandles, hfile⟩ :=
          h.discardSlot hf (Nat.eq_zero_of_not_pos hrefs)
        refine ⟨hwf, hclosing, hhandles, fun j => (hfile j).trans ?_⟩
        split
        · next heq => rw [heq, hafter, if_neg hrefs]
        · rfl

section Evict

private theorem laterMax_eq (key : Slot → Nat) (best : Option Slot) (slot : Slot) :
    ∃ b, OpenInodes.laterMax key best slot = some b ∧ (b = slot ∨ best = some b) := by
  unfold OpenInodes.laterMax
  split
  · exact ⟨slot, rfl, .inl rfl⟩
  · next b =>
    split
    · exact ⟨slot, rfl, .inl rfl⟩
    · exact ⟨b, rfl, .inr rfl⟩

theorem foldl_laterMax (key : Slot → Nat) (slots : List Slot) (best : Option Slot) :
    (slots.foldl (OpenInodes.laterMax key) best = none → best = none ∧ slots = []) ∧
      ∀ slot, slots.foldl (OpenInodes.laterMax key) best = some slot →
        best = some slot ∨ slot ∈ slots := by
  induction slots generalizing best with
  | nil => exact ⟨fun h => ⟨h, rfl⟩, fun slot h => .inl h⟩
  | cons s slots ih =>
    obtain ⟨b, hb, hmem⟩ := laterMax_eq key best s
    obtain ⟨hnone, hsome⟩ := ih (some b)
    rw [List.foldl_cons, hb]
    refine ⟨fun h => (nomatch (hnone h).1), fun slot h => ?_⟩
    rcases hsome slot h with heq | hin
    · obtain rfl := Option.some.inj heq
      rcases hmem with rfl | hbest
      · exact .inr List.mem_cons_self
      · exact .inl hbest
    · exact .inr (List.mem_cons_of_mem _ hin)

theorem WF.largestDirty (h : t.WF held) {order : List Slot → List Slot}
    (horder : ∀ slots, (order slots).Perm slots) :
    (t.inodes.largestDirty order = none → ∀ ino o, t.file ino = some o → o.Clean) ∧
      ∀ slot, t.inodes.largestDirty order = some slot →
        t.inodes.find (t.inodes.get slot).ino = some slot ∧ ¬(t.fileAt slot).Clean := by
  obtain ⟨hnone, hsome⟩ := foldl_laterMax
    (fun slot => (t.inodes.get slot).dirty.entries.length)
    ((order t.inodes.values).filter fun slot => !(t.inodes.get slot).dirty.isEmpty) none
  constructor
  · intro hlargest ino o ho
    obtain ⟨slot, hf, rfl⟩ := Option.map_eq_some_iff.mp ho
    have hout := List.filter_eq_nil_iff.mp (hnone hlargest).2 slot
      ((horder _).mem_iff.mpr (h.find_mem hf))
    exact clean_iff.mpr (by simpa using hout)
  · intro slot hslot
    obtain ⟨hmem, hdirty⟩ := List.mem_filter.mp ((hsome slot hslot).resolve_left nofun)
    refine ⟨h.find_of_mem ((horder _).mem_iff.mp hmem), fun hclean => ?_⟩
    rw [clean_iff.mp hclean] at hdirty
    cases hdirty

theorem WF.dirty_of_full (h : t.WF []) (hfull : t.arena.alloc = none) :
    ∃ ino o, t.file ino = some o ∧ ¬o.Clean := by
  obtain ⟨hfree, hmax⟩ := ChunkArena.alloc_eq_none.mp hfull
  have hperm := h.arena
  rw [hfree] at hperm
  have ha : 0 ∈ t.owned := hperm.mem_iff.mpr (List.mem_range.mpr (h.room.pos.trans_le hmax))
  obtain ⟨o, ho, ha⟩ := List.mem_flatMap.mp ha
  obtain ⟨slot, hlt, rfl⟩ := List.getElem_of_mem ho
  rw [← get_eq_getElem hlt] at ha
  have hdirty : (t.inodes.get slot).dirty ≠ .empty := by
    intro hempty
    rw [hempty] at ha
    simp [DirtyIdx.empty, DirtyIdx.slots] at ha
  have hlive : slot ∈ t.inodes.values := Classical.byContradiction fun hout =>
    hdirty (h.unused slot hout).2
  exact ⟨_, _, file_of_find (h.find_of_mem hlive), fun hclean => hdirty (dirty_eq_empty hclean)⟩

end Evict

end OpenTable

end VibeDbfs
