import VibeDbfs.Fuse.Writing

/-!
Handles: opening a file, and releasing a handle, which for the last handle of an unlinked file
deletes it.
-/

set_option autoImplicit false
set_option relaxedAutoImplicit false

namespace VibeDbfs

open Lib Lib.Bytes Shared

variable {s s' s'' : Shared} {env : Env} {held : List ArenaSlot} {busy : Nat → Prop} {ino fh : Nat}
  {slot : Slot}

namespace Shared

def Held (s : Shared) (ino : Nat) : Prop := 0 < s.db.nlinkOf ino ∨ 0 < (s.file ino).refs

/-- From `s` to `s'` the inodes that are still held keep their content, and none gets longer. -/
structure Kept (s s' : Shared) : Prop where
  bytes : ∀ ino, (s.db.kindOf ino).isSome → s'.Held ino → (s'.file ino).bytes = (s.file ino).bytes
  ends : ∀ ino, (s.db.kindOf ino).isSome → (s'.db.kindOf ino).isSome →
    (s'.file ino).size ≤ (s.file ino).size
  clean : ∀ ino, (s.file ino).Clean → (s'.file ino).Clean
  steady : Fs.Steady s s'
  closing : s'.table.closing = s.table.closing
  maxSlots : s'.table.arena.maxSlots = s.table.arena.maxSlots

theorem size_le_of_bytes {f g : File} (h : g.bytes = f.bytes) : g.size ≤ f.size := by
  rw [← File.length_bytes, h, File.length_bytes]

theorem Kept.of_quiet (h : Quiet s s') : Kept s s' :=
  ⟨fun ino _ _ => h.bytes ino not_false, fun ino _ _ => size_le_of_bytes (h.bytes ino not_false),
    fun ino => h.clean ino not_false, Fs.steady_of_quiet h, h.closing, h.maxSlots⟩

theorem Kept.after (hquiet : Quiet s s') (h : Kept s' s'') : Kept s s'' where
  bytes ino hsome hheld := (h.bytes ino (hquiet.kind ▸ hsome) hheld).trans
    (hquiet.bytes ino not_false)
  ends ino hsome hsome' := (h.ends ino (hquiet.kind ▸ hsome) hsome').trans
    (size_le_of_bytes (hquiet.bytes ino not_false))
  clean ino hc := h.clean ino (hquiet.clean ino not_false hc)
  steady := (Fs.steady_of_quiet hquiet).trans h.steady
  closing := h.closing.trans hquiet.closing
  maxSlots := h.maxSlots.trans hquiet.maxSlots

theorem Kept.followed (h : Kept s s') (hquiet : Quiet s' s'') : Kept s s'' where
  bytes ino hsome hheld := (hquiet.bytes ino not_false).trans (h.bytes ino hsome
    (hheld.imp (fun hn => hquiet.nlink ▸ hn) fun hr => hquiet.refs ino ▸ hr))
  ends ino hsome hsome' := (size_le_of_bytes (hquiet.bytes ino not_false)).trans
    (h.ends ino hsome (hquiet.kind ▸ hsome'))
  clean ino hc := hquiet.clean ino not_false (h.clean ino hc)
  steady := h.steady.trans (Fs.steady_of_quiet hquiet)
  closing := hquiet.closing.trans h.closing
  maxSlots := hquiet.maxSlots.trans h.maxSlots

/-- Two steps, of which the first drops no inode and what is held after the second was held after
the first. -/
theorem Kept.trans (h : Kept s s') (h' : Kept s' s'')
    (hstays : ∀ ino, (s.db.kindOf ino).isSome → (s'.db.kindOf ino).isSome)
    (hheld : ∀ ino, (s.db.kindOf ino).isSome → s''.Held ino → s'.Held ino) : Kept s s'' where
  bytes ino hsome hheld' := (h'.bytes ino (hstays ino hsome) hheld').trans
    (h.bytes ino hsome (hheld ino hsome hheld'))
  ends ino hsome hsome' := (h'.ends ino (hstays ino hsome) hsome').trans
    (h.ends ino hsome (hstays ino hsome))
  clean ino hc := h'.clean ino (h.clean ino hc)
  steady := h.steady.trans h'.steady
  closing := h'.closing.trans h.closing
  maxSlots := h'.maxSlots.trans h.maxSlots

private theorem Kept.of_handles (hdb : s'.db = s.db)
    (hother : ∀ j, j ≠ ino → s'.file j = s.file j) {o : OpenFile} {refs : Nat}
    (hold : s.table.file ino = some o) (hnew : s'.table.file ino = some { o with refs := refs })
    (hclosing : s'.table.closing = s.table.closing)
    (hslots : s'.table.arena.maxSlots = s.table.arena.maxSlots) : Kept s s' := by
  have hself : (s'.file ino).bytes = (s.file ino).bytes ∧
      ((s'.file ino).Clean ↔ (s.file ino).Clean) ∧
      (s'.file ino).unlinked = (s.file ino).unlinked := by
    simp only [Shared.file, hold, hnew, hdb]
    refine ⟨rfl, ⟨fun h p hp c => ?_, fun h p hp c => ?_⟩, rfl⟩
    · cases hp
      exact h _ rfl c
    · cases hp
      exact h _ rfl c
  have hall : ∀ j, (s'.file j).bytes = (s.file j).bytes ∧ ((s.file j).Clean → (s'.file j).Clean) ∧
      (s'.file j).unlinked = (s.file j).unlinked := fun j => by
    by_cases heq : j = ino
    · exact heq ▸ ⟨hself.1, hself.2.1.mpr, hself.2.2⟩
    · rw [hother j heq]
      exact ⟨rfl, id, rfl⟩
  exact ⟨fun j _ _ => (hall j).1, fun j _ _ => size_le_of_bytes (hall j).1, fun j => (hall j).2.1,
    fun j hs => hs.imp (hall j).2.1 (hall j).2.2.trans, hclosing, hslots⟩

private theorem Kept.of_gone (hnlink : s'.db.nlinkOf ino = 0) (hnone : s'.table.file ino = none)
    (hend : (s'.db.file ino).size ≤ (s.file ino).size)
      (hother : ∀ j, j ≠ ino → s'.file j = s.file j) (hclosing : s'.table.closing = s.table.closing)
    (hslots : s'.table.arena.maxSlots = s.table.arena.maxSlots) : Kept s s' := by
  have hclean : (s'.file ino).Clean := fun o ho => nomatch hnone.symm.trans ho
  have hrefs : (s'.file ino).refs = 0 := by
    rw [Shared.file, hnone]
    rfl
  refine ⟨fun j _ hheld => ?_, fun j _ _ => ?_, fun j hc => ?_, fun j hs => ?_, hclosing, hslots⟩
  · rw [hother j]
    rintro rfl
    rcases hheld with hn | hr
    · exact Nat.lt_irrefl 0 (hnlink ▸ hn)
    · exact Nat.lt_irrefl 0 (hrefs ▸ hr)
  · by_cases heq : j = ino
    · rw [heq, Shared.file, hnone]
      exact hend
    · rw [hother j heq]
  · by_cases heq : j = ino
    · exact heq ▸ hclean
    · exact hother j heq ▸ hc
  · by_cases heq : j = ino
    · exact .inl (heq ▸ hclean)
    · exact hother j heq ▸ hs

/-- A new handle `fh` of the file `ino`. -/
structure Opened (ino fh : Nat) (s s' : Shared) : Prop where
  new : s.table.handleIno fh = none
  handles : ∀ k, s'.table.handleIno k = if k = fh then some ino else s.table.handleIno k
  refs : ∀ j, j ≠ ino → (s'.file j).refs = (s.file j).refs
  unlinked : ∀ j, (s'.file j).unlinked = (s.file j).unlinked

theorem Opened.after (hquiet : Quiet s s') (h : Opened ino fh s' s'') : Opened ino fh s s'' where
  new := (hquiet.handles fh).symm.trans h.new
  handles k := by rw [h.handles, hquiet.handles]
  refs j hj := (h.refs j hj).trans (hquiet.refs j)
  unlinked j := (h.unlinked j).trans (hquiet.unlinked j)

end Shared

namespace Fs

section Open

theorem openSlot_spec (h : s.Inv held busy) (hf : s.table.inodes.find ino = some slot) :
    Prog.wp (openSlot slot) (fun r s' => ∃ fh, r = .ok fh ∧ s'.Inv held busy ∧ s'.db = s.db ∧
      s'.failures = s.failures ∧ Kept s s' ∧ Opened ino fh s s') s := by
  rcases ho : s.table.openSlot slot with ⟨fh, t'⟩
  obtain ⟨hwf, hclosing, hnew, hhandles, hfiles⟩ := h.table.openSlot hf ho
  have hfile := OpenTable.file_of_find hf
  have hself := (hfiles ino).trans (if_pos rfl)
  have hslots : t'.arena = s.table.arena := by
    rw [OpenTable.openSlot] at ho
    exact (congrArg (fun p => p.2.arena) ho).symm
  have hrun : openSlot slot s = (.ok fh, { s with table := t' }) := by
    unfold openSlot
    rw [ho]
  unfold Prog.wp
  rw [hrun]
  have hother : ∀ j, j ≠ ino → ({ s with table := t' } : Shared).file j = s.file j := fun j hj => by
    rw [Shared.file, show ({ s with table := t' } : Shared).table.file j = _ from
      (hfiles j).trans (if_neg hj)]
    rfl
  refine ⟨fh, rfl, h.of_table (h.toCore.of_table rfl rfl hwf (fun j o hj => ?_)
    fun j o hj hd => ?_) rfl rfl, rfl, rfl, Kept.of_handles rfl hother hfile
      hself hclosing (congrArg _ hslots), hnew, hhandles, fun j hj => by rw [hother j hj],
      fun j => ?_⟩
  · rw [show ({ s with table := t' } : Shared).table.file j = _ from hfiles j] at hj
    split at hj
    · next heq =>
      cases hj
      have ha := h.live ino _ hfile
      exact heq ▸ { ha with unlinked := fun hu => ⟨Nat.succ_pos _, (ha.unlinked hu).2⟩ }
    · exact h.live j o hj
  · rw [show ({ s with table := t' } : Shared).table.file j = _ from hfiles j] at hj
    split at hj
    · next heq =>
      cases hj
      exact heq ▸ h.directory ino _ hfile hd
    · exact h.directory j o hj hd
  · by_cases heq : j = ino
    · rw [heq, Shared.file, Shared.file, hfile,
        show ({ s with table := t' } : Shared).table.file ino = _ from hself]
      rfl
    · rw [hother j heq]

theorem openFile_spec (h : s.Inv held busy)
    (hdirectory : s.db.kindOf ino = some .directory → ino = 1 ∨ busy ino) :
    Prog.wp (openFile env ino) (fun r s' => s'.Inv held busy ∧ s'.db = s.db ∧ Kept s s' ∧
      match r with
      | .ok fh => s'.failures = s.failures ∧ (s.db.kindOf ino).isSome ∧ Opened ino fh s s'
      | .error e => Quiet s s' ∧ (env.Failed s s' ∨
          s'.failures = s.failures ∧ s.db.kindOf ino = none ∧ e = .ENOENT)) s := by
  refine Prog.wp_bind (slotFor_spec h) (fun slot s₁ hs₁ => ?_) fun e s₁ hs₁ => ?_
  · obtain ⟨hquiet, hdb, -, hinv, hfailures, hf, hsome⟩ := hs₁
    have hinv₁ : s₁.Inv held busy := hinv.mono fun i o ho hd hb => by
      rcases hb with hb | rfl
      · exact .inr hb
      · refine hdirectory ?_
        rw [← hquiet.kind, ← hd]
        exact hinv.kindOf ho
    refine Prog.wp_mono (openSlot_spec hinv₁ hf) ?_
    rintro r s' ⟨fh, rfl, hinv', hdb', hfailures', hkept, hopened⟩
    exact ⟨hinv', hdb'.trans hdb, hkept.after hquiet, hfailures'.trans hfailures, hsome,
      hopened.after hquiet⟩
  · obtain ⟨hquiet, hdb, -, hinv, herror⟩ := hs₁
    exact ⟨hinv, hdb, .of_quiet hquiet, hquiet, herror⟩

end Open

section Release

theorem discard_core (h : s.Inv held busy) {handles : Handles}
    (hr : s.table.handles.release fh = some (slot, handles))
    (hino : (s.table.inodes.get slot).ino = ino)
    (hlast : (s.table.fileAt slot).refs = 1) (hunlinked : (s.table.fileAt slot).unlinked = true) :
    let s' := { s with table := ({ s.table with handles := handles }.updateSlot slot fun o =>
      { o with refs := o.refs - 1 }).discardSlot slot }
    s'.Inv held busy ∧ s.db.nlinkOf ino = 0 ∧ (s.db.kindOf ino).isSome ∧
      s'.table.file ino = none ∧ (∀ j, j ≠ ino → s'.file j = s.file j) ∧
      (∀ k, s'.table.handleIno k = if k = fh then none else s.table.handleIno k) ∧
      s'.table.closing = s.table.closing ∧
      s'.table.arena.maxSlots = s.table.arena.maxSlots := by
  intro s'
  obtain ⟨hf, -, -, hwf, hhandles, hfiles⟩ := h.table.closeHandle hr
  rw [hino] at hf hfiles
  have hfile := OpenTable.file_of_find hf
  have ha := h.live ino _ hfile
  have hzero : (({ s.table with handles := handles }.updateSlot slot fun o =>
      { o with refs := o.refs - 1 }).fileAt slot).refs = 0 := by
    rw [OpenTable.fileAt_eq ((hfiles ino).trans (if_pos rfl)) hf, hlast]
  obtain ⟨hwf', hclosing, -, hhandles', hfiles'⟩ := hwf.discardSlot hf hzero
  have hnone : s'.table.file ino = none := (hfiles' ino).trans (if_pos rfl)
  have hother : ∀ j, j ≠ ino → s'.table.file j = s.table.file j := fun j hj =>
    ((hfiles' j).trans (if_neg hj)).trans ((hfiles j).trans (if_neg hj))
  have hmem : ∀ j o, s'.table.file j = some o → s.table.file j = some o := by
    intro j o ho
    by_cases heq : j = ino
    · rw [heq, hnone] at ho
      cases ho
    · rwa [hother j heq] at ho
  refine ⟨h.of_table (h.toCore.of_table rfl rfl hwf' (fun j o ho => h.live j o (hmem j o ho))
    fun j o ho => h.directory j o (hmem j o ho)) rfl rfl, (ha.unlinked hunlinked).2, ?_, hnone,
    fun j hj => ?_, fun k => (hhandles' k).trans (hhandles k), hclosing,
    OpenTable.maxSlots_releaseDirty⟩
  · rw [h.kindOf hfile]
    rfl
  · rw [Shared.file, hother j hj]
    rfl

/-- The state after a handle went whose file stays. -/
theorem close_core (h : s.Inv held busy) {handles : Handles}
    (hr : s.table.handles.release fh = some (slot, handles))
    (hino : (s.table.inodes.get slot).ino = ino)
    (hstays : ¬((s.table.fileAt slot).refs = 1 ∧ (s.table.fileAt slot).unlinked = true)) :
    let s' := { s with table := { s.table with handles := handles }.updateSlot slot fun o =>
      { o with refs := o.refs - 1 } }
    s'.Inv held busy ∧ Kept s s' ∧ s'.table.inodes.find ino = some slot ∧
      (∀ j, (s'.file j).bytes = (s.file j).bytes) ∧
      (∀ j, (s'.file j).unlinked = (s.file j).unlinked) ∧
      ∀ k, s'.table.handleIno k = if k = fh then none else s.table.handleIno k := by
  intro s'
  obtain ⟨hf, hpos, -, hwf, hhandles, hfiles⟩ := h.table.closeHandle hr
  rw [hino] at hf hfiles
  have hfile := OpenTable.file_of_find hf
  have hself : s'.table.file ino = some { s.table.fileAt slot with
      refs := (s.table.fileAt slot).refs - 1 } := (hfiles ino).trans (if_pos rfl)
  have hother : ∀ j, j ≠ ino → s'.file j = s.file j := fun j hj => by
    rw [Shared.file, show s'.table.file j = _ from (hfiles j).trans (if_neg hj)]
    rfl
  have hbefore : s.file ino = ⟨s.db.file ino, some (s.table.fileAt slot)⟩ := by
    rw [Shared.file, hfile]
  have hafter : s'.file ino = ⟨s.db.file ino, some { s.table.fileAt slot with
      refs := (s.table.fileAt slot).refs - 1 }⟩ := by
    rw [Shared.file, hself]
  refine ⟨h.of_table (h.toCore.of_table rfl rfl hwf (fun j o hj => ?_) fun j o hj hd => ?_) rfl rfl,
    Kept.of_handles rfl hother hfile hself rfl rfl, hf, fun j => ?_, fun j => ?_, hhandles⟩
  · rw [show s'.table.file j = _ from hfiles j] at hj
    split at hj
    · next heq =>
      cases hj
      have ha := h.live ino _ hfile
      refine heq ▸ { ha with unlinked := fun hu => ⟨?_, (ha.unlinked hu).2⟩ }
      have hmore : (s.table.fileAt slot).refs ≠ 1 := fun hone => hstays ⟨hone, hu⟩
      exact Nat.sub_pos_of_lt (Nat.lt_of_le_of_ne hpos hmore.symm)
    · exact h.live j o hj
  · rw [show s'.table.file j = _ from hfiles j] at hj
    split at hj
    · next heq =>
      cases hj
      exact heq ▸ h.directory ino _ hfile hd
    · exact h.directory j o hj hd
  · by_cases heq : j = ino
    · rw [heq, hafter, hbefore]
      rfl
    · rw [hother j heq]
  · by_cases heq : j = ino
    · rw [heq, hafter, hbefore]
      rfl
    · rw [hother j heq]

private theorem delete_core (h : s.Inv held busy) (hnlink : s.db.nlinkOf ino = 0)
    (hsome : (s.db.kindOf ino).isSome) (hnone : s.table.file ino = none) (tick : Nat) :
    let s' := { s with tick := tick, db := s.db.deleteInodeRows ino }
    s'.Inv held busy ∧ s'.db.nlinkOf ino = 0 ∧ ∀ j, j ≠ ino → s'.file j = s.file j := by
  intro s'
  have hino := (h.sound.keys.range hsome).2
  have hfiles := Db.file_deleteInodeRows h.sound.keys hino
  have hself : s'.db.file ino = .absent := (hfiles ino).trans (if_pos rfl)
  have hother : ∀ j, j ≠ ino → s'.db.file j = s.db.file j := fun j hj =>
    (hfiles j).trans (if_neg hj)
  have hne : ∀ j o, s'.table.file j = some o → j ≠ ino := by
    rintro j o ho rfl
    exact nomatch hnone.symm.trans ho
  refine ⟨h.of_core ⟨h.sound.deleteInodeRows hsome hnlink, h.table, fun j o ho => ?_, h.directory,
    h.chronicle⟩ rfl fun j hnamed => ?_, congrArg StoredFile.nlink hself, fun j hj => ?_⟩
  · rw [hother j (hne j o ho)]
    exact h.live j o ho
  · have hj : j ≠ ino := by
      rintro rfl
      exact nomatch hnamed.1.symm.trans (congrArg StoredFile.kind hself)
    have hkind := congrArg StoredFile.kind (hother j hj)
    have hlinks := congrArg StoredFile.nlink (hother j hj)
    exact ⟨⟨hkind.symm.trans hnamed.1, lt_of_lt_of_eq hnamed.2 hlinks⟩, by rw [hother j hj]⟩
  · rw [Shared.file, hother j hj]
    rfl

/-- The file stays: its unflushed data is stored unless it was unlinked. -/
structure Closed (env : Env) (ino : Nat) (s s' : Shared) (r : Except Errno Unit) : Prop where
  names : s'.db.names = s.db.names
  symlinks : s'.db.symlinkTargets = s.db.symlinkTargets
  bytes : ∀ j, (s'.file j).bytes = (s.file j).bytes
  unlinked : ∀ j, (s'.file j).unlinked = (s.file j).unlinked
  ok : r = .ok () → s'.failures = s.failures ∧
    ((s'.file ino).Clean ∨ (s.file ino).unlinked = true)
  error : r ≠ .ok () → env.Failed s s'

/-- The file goes, as this was the last handle of an unlinked file. A failing database keeps the
row. -/
structure Deleted (env : Env) (fh ino : Nat) (s s' : Shared) (r : Except Errno Unit) : Prop where
  unlinked : (s.file ino).unlinked = true
  nlink : s.db.nlinkOf ino = 0
  last : ∀ k, s.table.handleIno k = some ino → k = fh
  kind : (s.db.kindOf ino).isSome
  none : s'.table.file ino = none
  other : ∀ j, j ≠ ino → s'.file j = s.file j
  ok : r = .ok () → s'.failures = s.failures ∧ s'.db = s.db.deleteInodeRows ino
  error : r ≠ .ok () → env.Failed s s' ∧ s'.db = s.db

theorem releaseFh_spec (h : s.Inv held busy) :
    Prog.wp (releaseFh env fh) (fun r s' => s'.Inv held busy ∧
      match s.table.handleIno fh with
      | none => r = .error .EBADF ∧ s' = s
      | some ino => Kept s s' ∧
          (∀ k, s'.table.handleIno k = if k = fh then none else s.table.handleIno k) ∧
          (Closed env ino s s' r ∨ Deleted env fh ino s s' r)) s := by
  rw [releaseFh, wp_table_bind]
  rcases hr : s.table.handles.release fh with _ | ⟨slot, handles⟩
  · have hnone : s.table.handleIno fh = none := by
      rw [OpenTable.handleIno, Option.map_eq_none_iff]
      exact Option.map_eq_none_iff.mp hr
    rw [hnone]
    exact ⟨h, rfl, rfl⟩
  · obtain ⟨hf, hpos, hfh, -⟩ := h.table.closeHandle hr
    have hslot : ({ s.table with handles := handles }.updateSlot slot fun o =>
        { o with refs := o.refs - 1 }).inodes.get slot =
          { s.table.inodes.get slot with refs := (s.table.inodes.get slot).refs - 1 } :=
      (OpenTable.get_update (h.table.find_lt hf) slot).trans (if_pos rfl)
    generalize hino : (s.table.inodes.get slot).ino = ino at hf hfh
    rw [hfh, orErrno, Prog.wp_pure_bind, wp_updateTable_bind, wp_updateTable_bind, dropHandle,
      wp_table_bind]
    dsimp only
    rw [hslot]
    by_cases hlast : (s.table.fileAt slot).refs = 1 ∧ (s.table.fileAt slot).unlinked = true
    · have hzero : (s.table.inodes.get slot).refs - 1 = 0 := Nat.sub_eq_zero_of_le hlast.1.le
      rw [if_pos ⟨hzero, hlast.2⟩, wp_updateTable_bind]
      obtain ⟨hinv, hnlink, hsome, hnone, hother, hhandles, hclosing, hslots⟩ :=
        discard_core h hr hino hlast.1 hlast.2
      have hunlinked : (s.file ino).unlinked = true := by
        rw [Shared.file, OpenTable.file_of_find hf]
        exact hlast.2
      have honly : ∀ k, s.table.handleIno k = some ino → k = fh := fun k hk => by
        by_contra hne
        have hk' := (hhandles k).trans ((if_neg hne).trans hk)
        obtain ⟨slot', hget, hino'⟩ := Option.map_eq_some_iff.mp hk'
        have hlive := hinv.table.find_of_handle hget
        rw [hino'] at hlive
        rw [OpenTable.file_of_find hlive] at hnone
        cases hnone
      rw [hino]
      -- what the file had in the slot beyond the stored end goes with the slot
      have hgrows : (s.db.file ino).size ≤ (s.file ino).size := by
        have hlive := OpenTable.file_of_find hf
        rw [Shared.file, hlive]
        exact (h.live ino _ hlive).grows
      refine wp_exec (fun failure hfault => ?_) (fun error herror => ?_) fun db hdb => ?_
      · exact ⟨hinv.of_eq rfl rfl rfl, .of_gone hnlink hnone hgrows hother hclosing hslots,
          hhandles, .inr ⟨hunlinked, hnlink, honly, hsome, hnone, hother, (fun hok => by cases hok),
            fun _ => ⟨⟨Nat.lt_succ_self _, env.not_healthy hfault⟩, rfl⟩⟩⟩
      · cases herror
      · obtain rfl := Except.ok.inj hdb
        obtain ⟨hinv', hnlink', hother'⟩ := delete_core hinv hnlink hsome hnone (s.tick + 1)
        have hother'' := fun j hj => (hother' j hj).trans (hother j hj)
        have hdeleted : (s.db.deleteInodeRows ino).file ino = .absent :=
          (Db.file_deleteInodeRows h.sound.keys (h.sound.keys.range hsome).2 ino).trans (if_pos rfl)
        have hend : ((s.db.deleteInodeRows ino).file ino).size ≤ (s.file ino).size := by
          rw [hdeleted]
          exact Nat.zero_le _
        exact ⟨hinv', .of_gone hnlink' hnone hend hother'' hclosing hslots, hhandles,
          .inr ⟨hunlinked, hnlink, honly, hsome, hnone, hother'', fun _ => ⟨rfl, rfl⟩,
            fun hr => (hr rfl).elim⟩⟩
    · have hstays : ¬((s.table.inodes.get slot).refs - 1 = 0 ∧
          (s.table.inodes.get slot).unlinked = true) := by
        rintro ⟨hzero, hunlinked⟩
        exact hlast ⟨Nat.le_antisymm (Nat.sub_eq_zero_iff_le.mp hzero) hpos, hunlinked⟩
      rw [if_neg hstays]
      obtain ⟨hinv, hkept, hf', hbytes, hunlinked, hhandles⟩ := close_core h hr hino hlast
      refine Prog.wp_mono (flushFree_spec .skip hinv hf') ?_
      rintro r s' ⟨hinv', hquiet, -, -, hresult⟩
      refine ⟨hinv', hkept.followed hquiet, fun k => (hquiet.handles k).trans (hhandles k),
        .inl ⟨hquiet.names, hquiet.symlinks, fun j => (hquiet.bytes j not_false).trans (hbytes j),
          fun j => (hquiet.unlinked j).trans (hunlinked j), fun hok => ?_, fun herror => ?_⟩⟩
      · rw [hok] at hresult
        refine ⟨hresult.1, hresult.2.imp_right fun hskip => ?_⟩
        rw [← hunlinked ino, ← hquiet.unlinked ino]
        exact hskip.1
      · rcases r with e | ⟨⟩
        · exact ⟨hresult.1, hresult.2.1⟩
        · exact (herror rfl).elim

end Release

end Fs

end VibeDbfs
