import VibeDbfs.Fuse.Times

/-!
The attributes of an inode as a row with an overlay, and what flushes do to both: the overlay moves
into the row, and goes when the slot does.
-/

set_option autoImplicit false
set_option relaxedAutoImplicit false

namespace VibeDbfs

open Lib Lib.Bytes Shared

/-- What the table says of an inode: the size of its slot, and the time of its unflushed data. -/
abbrev Overlay := Option (Nat × Option Timestamp)

def FileAttr.under (attr : FileAttr) : Overlay → FileAttr
  | none => attr
  | some (size, none) => { attr with size := size, blocks := (size + 511) / 512 }
  | some (size, some modified) =>
    { attr with
      size := size
      blocks := (size + 511) / 512
      mtime := modified.toSystemTime
      ctime := modified.toSystemTime }

def OpenInode.overlay (o : OpenInode) : Nat × Option Timestamp :=
  (o.size, if o.dirty.isEmpty then none else some o.mtime)

def OpenTable.overlay (t : OpenTable) (ino : Nat) : Overlay :=
  (t.inodes.find ino).map fun slot => (t.inodes.get slot).overlay

theorem OpenTable.overlayAttr_eq (t : OpenTable) (attr : FileAttr) :
    t.overlayAttr attr = attr.under (t.overlay attr.ino) := by
  unfold overlayAttr overlay
  rcases t.inodes.find attr.ino with _ | slot
  · rfl
  · simp only [Option.map_some, OpenInode.overlay]
    split
    · rfl
    · rfl

/-- The row of an inode and what the table says of it. -/
structure Look where
  row : Option InodeRow
  overlay : Overlay

namespace Look

def attr (l : Look) : Option FileAttr :=
  l.row.map fun r => (fileAttrFromInode r.inode).under l.overlay

/-- The time of the unflushed data, if there is any, is one that the store gives back. -/
def Punctual (l : Look) : Prop := ∀ size modified, l.overlay = some (size, some modified) →
  modified.Exact

def saved (r : InodeRow) (size : Nat) (modified : Timestamp) : InodeRow :=
  { r with size := size, mtimeNs := modified.toNs, ctimeNs := modified.toNs }

/-- What flushes and the freeing of slots do to an inode. -/
inductive Settles : Look → Look → Prop
  | refl (l : Look) : Settles l l
  | save (r : InodeRow) (size : Nat) (modified : Timestamp) :
      Settles ⟨some r, some (size, some modified)⟩ ⟨some (saved r size modified), some (size, none)⟩
  | free (r : InodeRow) : Settles ⟨some r, some (r.size, none)⟩ ⟨some r, none⟩
  | trans {l l' l'' : Look} (h : Settles l l') (h' : Settles l' l'') : Settles l l''

variable {l l' : Look}

private theorem Settles.of_eq (h : l' = l) : l.Settles l' := h ▸ .refl l

theorem Settles.attr (h : l.Settles l') (hpunctual : l.Punctual) :
    l'.attr = l.attr ∧ l'.Punctual := by
  induction h with
  | refl l => exact ⟨rfl, hpunctual⟩
  | save r size modified =>
    have hexact : (Timestamp.fromNs modified.toNs).toSystemTime = modified.toSystemTime :=
      hpunctual size modified rfl
    refine ⟨?_, fun _ _ hnone => by cases hnone⟩
    simp only [Look.attr, Option.map_some, FileAttr.under, fileAttrFromInode, InodeRow.inode, saved,
      hexact]
  | free r => exact ⟨rfl, fun _ _ hnone => by cases hnone⟩
  | trans _ _ ih ih' =>
    obtain ⟨hattr, hpunctual'⟩ := ih hpunctual
    obtain ⟨hattr', hpunctual''⟩ := ih' hpunctual'
    exact ⟨hattr'.trans hattr, hpunctual''⟩

private theorem Settles.isSome (h : l.Settles l') : l'.row.isSome = l.row.isSome := by
  induction h with
  | refl l => rfl
  | save r size modified => rfl
  | free r => rfl
  | trans _ _ ih ih' => exact ih'.trans ih

end Look

namespace Shared

def look (s : Shared) (ino : Nat) : Look := ⟨s.db.findInode ino, s.table.overlay ino⟩

/-- From `s` to `s'` data was flushed and slots were freed, of all inodes but the `touched`. -/
structure Unseen (touched : Nat → Prop) (s s' : Shared) : Prop where
  dirents : s'.db.dirents = s.db.dirents
  rows : ∀ j, (s'.db.findInode j).isSome = (s.db.findInode j).isSome
  look : ∀ j, ¬touched j → (s.look j).Settles (s'.look j)

abbrev Hidden (s s' : Shared) : Prop := Unseen (fun _ => False) s s'

variable {s s' s'' : Shared} {touched : Nat → Prop}

theorem Unseen.refl (s : Shared) : Unseen touched s s := ⟨rfl, fun _ => rfl, fun _ _ => .refl _⟩

theorem Unseen.trans (h : Unseen touched s s') (h' : Unseen touched s' s'') :
    Unseen touched s s'' := by
  refine ⟨h'.dirents.trans h.dirents, fun j => ?_, fun j hj => ?_⟩
  · exact (h'.rows j).trans (h.rows j)
  · exact (h.look j hj).trans (h'.look j hj)

private theorem Unseen.mono {touched' : Nat → Prop} (h : Unseen touched s s')
    (hsub : ∀ j, touched j → touched' j) : Unseen touched' s s' :=
  ⟨h.dirents, h.rows, fun j hj => h.look j fun ht => hj (hsub j ht)⟩

private theorem Hidden.unseen (h : Hidden s s') : Unseen touched s s' := h.mono fun _ => False.elim

theorem Unseen.of_overlay (hdb : s'.db = s.db)
    (htable : ∀ j, ¬touched j → s'.table.overlay j = s.table.overlay j) : Unseen touched s s' := by
  refine ⟨by rw [hdb], fun j => by rw [hdb], fun j hj => .of_eq ?_⟩
  rw [Shared.look, Shared.look, hdb, htable j hj]

theorem Unseen.of_eq (hdb : s'.db = s.db) (htable : s'.table = s.table) : Unseen touched s s' :=
  .of_overlay hdb fun j _ => by rw [htable]

private theorem Unseen.after_eq {s₁ : Shared} (h : Unseen touched s₁ s') (hdb : s₁.db = s.db)
    (htable : s₁.table = s.table) : Unseen touched s s' :=
  (Unseen.of_eq hdb htable).trans h

private theorem Unseen.of_look (ino : Nat) (hdirents : s'.db.dirents = s.db.dirents)
    (hother : ∀ j, j ≠ ino → s'.look j = s.look j) (hself : (s.look ino).Settles (s'.look ino)) :
    Unseen touched s s' := by
  have hlook : ∀ j, (s.look j).Settles (s'.look j) := by
    intro j
    by_cases heq : j = ino
    · rw [heq]
      exact hself
    · exact .of_eq (hother j heq)
  exact ⟨hdirents, fun j => (hlook j).isSome, fun j _ => hlook j⟩

end Shared

namespace OpenTable

variable {t t' : OpenTable} {held : List ArenaSlot} {slot : Slot} {ino : Nat}

theorem overlay_of_find (hf : t.inodes.find ino = some slot) :
    t.overlay ino = some (t.inodes.get slot).overlay := by
  rw [overlay, hf]
  rfl

theorem overlay_of_none (hf : t.inodes.find ino = none) : t.overlay ino = none := by
  rw [overlay, hf]
  rfl

section Shown

variable {β : Type} {g : OpenInode → β}

theorem WF.shown_update (h : t.WF held) (hf : t.inodes.find ino = some slot)
    {f : OpenInode → OpenInode} (hinodes : t'.inodes = t.inodes.update slot f) (j : Nat) :
    (t'.inodes.find j).map (fun i => g (t'.inodes.get i)) =
      if j = ino then some (g (f (t.inodes.get slot)))
      else (t.inodes.find j).map fun i => g (t.inodes.get i) := by
  have hlt := h.find_lt hf
  have hfind : ∀ i, t'.inodes.find i = t.inodes.find i := by
    intro i
    rw [hinodes]
    rfl
  have hget : ∀ i, t'.inodes.get i = if i = slot then f (t.inodes.get i) else t.inodes.get i := by
    intro i
    rw [hinodes]
    exact get_update hlt i
  split
  · next heq =>
    rw [hfind, heq, hf, Option.map_some, hget, if_pos rfl]
  · next hne =>
    rw [hfind]
    rcases hj : t.inodes.find j with _ | other
    · rfl
    · have hother : other ≠ slot := by
        rintro rfl
        exact hne (h.find_inj hj hf)
      rw [Option.map_some, Option.map_some, hget, if_neg hother]

theorem WF.shown_remove (h : t.WF held) (hf : t.inodes.find ino = some slot) (j : Nat) :
    ((t.inodes.remove slot).find j).map (fun i => g ((t.inodes.remove slot).get i)) =
      if j = ino then none else (t.inodes.find j).map fun i => g (t.inodes.get i) := by
  rw [show (t.inodes.remove slot).find j = _ from find_remove h hf]
  split
  · rfl
  · next hne =>
    rcases hj : t.inodes.find j with _ | other
    · rfl
    · have hother : other ≠ slot := by
        rintro rfl
        exact hne (h.find_inj hj hf)
      let removed : OpenTable := { t with inodes := t.inodes.remove slot }
      have hslots : removed.inodes.slots = t.inodes.slots.modify slot fun o =>
        { o with refs := 0, unlinked := false } := rfl
      have hget : (t.inodes.remove slot).get other = t.inodes.get other :=
        (get_modify hslots other).resolve_right fun hchanged => hother hchanged.1
      rw [Option.map_some, Option.map_some, hget]

end Shown

private theorem WF.overlay_update (h : t.WF held) (hf : t.inodes.find ino = some slot)
    {f : OpenInode → OpenInode} (hinodes : t'.inodes = t.inodes.update slot f) (j : Nat) :
    t'.overlay j = if j = ino then some (f (t.inodes.get slot)).overlay else t.overlay j :=
  h.shown_update hf hinodes j

private theorem WF.overlay_remove (h : t.WF held) (hf : t.inodes.find ino = some slot) (j : Nat) :
    ({ t with inodes := t.inodes.remove slot } : OpenTable).overlay j =
      if j = ino then none else t.overlay j :=
  h.shown_remove hf j

private theorem WF.overlay_insert (h : t.WF held) (hnone : t.inodes.find ino = none)
    {kind : FileKind}
    {size : Nat} {inodes : OpenInodes} (hi : t.inodes.insert ino kind size = (slot, inodes))
    {j : Nat} (hj : j ≠ ino) :
      ({ t with inodes := inodes } : OpenTable).overlay j = t.overlay j := by
  obtain ⟨hnew, hbyIno, -, hget, -⟩ := h.insert_cases hnone hi
  have hfind : inodes.find j = t.inodes.find j := by
    rw [OpenInodes.find, hbyIno, List.find?_cons_of_neg (by simpa using Ne.symm hj)]
    rfl
  rw [overlay, overlay, hfind]
  rcases hf : t.inodes.find j with _ | other
  · rfl
  · have hother : other ≠ slot := by
      rintro rfl
      exact hnew (h.find_mem hf)
    rw [Option.map_some, Option.map_some, hget, if_neg hother]

end OpenTable

namespace Fs

variable {s : Shared} {env : Env} {held : List ArenaSlot} {busy : Nat → Prop} {ino : Nat}
  {slot : Slot}

section Flushes

theorem inodes_releaseDirty (t : OpenTable) (slot : Slot) : (t.releaseDirty slot).inodes =
    t.inodes.update slot fun o => { o with dirty := .empty } := by
  unfold OpenTable.releaseDirty
  rw [DirtyIdx.releaseInto_eq]

theorem findInode_setSize {db : Db} {size : Nat} {modified : Timestamp}
    {chunks : List (Nat × Bytes)} (j : Nat) :
      ((db.upsertAll ino chunks).setSize ino size modified).findInode j =
      if j = ino then (db.findInode j).map fun r => Look.saved r size modified
      else db.findInode j := by
  have hrows : ∀ i, (db.upsertAll ino chunks).findInode i = db.findInode i := by
    intro i
    rw [Db.findInode, Db.upsertAll_rows.1]
    rfl
  rw [Db.setSize, Db.findInode_updateInode]
  · rw [hrows]
    rfl
  · exact fun _ => rfl

private theorem flush_unseen {s' : Shared} (h : s.Inv held busy)
    (hf : s.table.inodes.find ino = some slot)
    (hdirty : (s.table.inodes.get slot).dirty.isEmpty = false) {chunks : List (Nat × Bytes)}
    (hdb : s'.db = (s.db.upsertAll ino chunks).setSize ino (s.table.inodes.get slot).size
      (s.table.inodes.get slot).mtime)
    (htable : s'.table = s.table.releaseDirty slot) : Hidden s s' := by
  have hoverlay := h.table.overlay_update hf (inodes_releaseDirty s.table slot)
  have hlook : ∀ j, s'.look j = if j = ino then ⟨(s.db.findInode j).map fun r =>
      Look.saved r (s.table.inodes.get slot).size (s.table.inodes.get slot).mtime,
        some ((s.table.inodes.get slot).size, none)⟩ else s.look j := by
    intro j
    rw [Shared.look, hdb, htable, findInode_setSize, hoverlay]
    split
    · rfl
    · rfl
  obtain ⟨r, hr, -⟩ := Option.map_eq_some_iff.mp (h.kindOf (OpenTable.file_of_find hf))
  apply Unseen.of_look ino
  · rw [hdb]
    exact Db.upsertAll_rows.2.1
  · intro j hj
    rw [hlook, if_neg hj]
  · rw [hlook, if_pos rfl, Shared.look, hr, OpenTable.overlay_of_find hf, OpenInode.overlay, hdirty]
    exact .save r _ _

theorem flushSlot_unseen (mode : Unlinked) (h : s.Inv held busy)
    (hf : s.table.inodes.find ino = some slot) :
    Prog.wp (flushSlot env slot mode) (fun _ s' => Hidden s s') s := by
  rw [flushSlot, wp_table_bind]
  dsimp only
  split
  · exact .refl s
  · next hflush =>
    have hdirty : (s.table.inodes.get slot).dirty.isEmpty = false := by
      rw [Bool.or_eq_true, not_or] at hflush
      exact Bool.eq_false_iff.mpr hflush.1
    rw [h.table.find_ino hf, Prog.wp_bind_iff]
    apply wp_exec
    · intro failure _
      exact .of_eq rfl rfl
    · intro error herror
      cases herror
    · intro db hdb
      rw [wp_updateTable_bind, wp_record]
      exact flush_unseen h hf hdirty (Db.replaceChunks_eq hdb) rfl

theorem freeIfIdle_unseen (h : s.Inv held busy) (hf : s.table.inodes.find ino = some slot) :
    Prog.wp (freeIfIdle slot) (fun _ s' => Hidden s s') s := by
  rw [freeIfIdle, wp_updateTable]
  have hfile := OpenTable.file_of_find hf
  by_cases hidle : (s.table.inodes.get slot).refs = 0 ∧ (s.table.inodes.get slot).dirty.isEmpty
  · have htable : s.table.freeIfIdle slot = { s.table with inodes := s.table.inodes.remove slot } :=
      if_pos hidle
    obtain ⟨r, hr, -⟩ := Option.map_eq_some_iff.mp (h.kindOf hfile)
    have hsize : (s.table.inodes.get slot).size = r.size := by
      have hstored : (s.file ino).size = (s.file ino).stored.size := by
        apply File.size_of_clean (h.file_ok ino)
        intro o ho
        rw [Shared.file, hfile] at ho
        cases ho
        exact OpenTable.clean_iff.mpr hidle.2
      rw [Shared.file, hfile] at hstored
      exact hstored.trans (Db.storedSize_of_find hr)
    have hoverlay := h.table.overlay_remove hf
    rw [htable]
    refine .of_look ino rfl (fun j hj => ?_) ?_
    · rw [Shared.look, hoverlay, if_neg hj]
      rfl
    · rw [Shared.look, Shared.look, hoverlay, if_pos rfl, hr, OpenTable.overlay_of_find hf,
        OpenInode.overlay, hidle.2, hsize]
      exact .free r
  · have hsame : s.table.freeIfIdle slot = s.table := if_neg hidle
    rw [hsame]
    exact .refl s

theorem flushFree_unseen (mode : Unlinked) (h : s.Inv held busy)
    (hf : s.table.inodes.find ino = some slot) :
    Prog.wp (do
      flushSlot env slot mode
      freeIfIdle slot) (fun _ s' => Hidden s s') s := by
  refine Prog.wp_bind (Prog.wp_and (flushSlot_spec mode h hf) (flushSlot_unseen mode h hf))
    (fun _ s₁ hs₁ => ?_) fun e s₁ hs₁ => hs₁.2
  obtain ⟨⟨hinv, -, hfind, -⟩, hunseen⟩ := hs₁
  exact Prog.wp_mono (freeIfIdle_unseen hinv ((hfind ino).trans hf)) fun _ _ hs' =>
    hunseen.trans hs'

private theorem flushEach_unseen (slots : List Slot) (firstError : Option Errno)
    (h : s.Inv held busy)
    (hnodup : slots.Nodup) (hlive : ∀ slot ∈ slots, ∃ ino, s.table.inodes.find ino = some slot) :
    Prog.wp (flushEach env slots firstError) (fun _ s' => Hidden s s') s := by
  induction slots generalizing s firstError with
  | nil => exact .refl s
  | cons slot slots ih =>
    rw [List.nodup_cons] at hnodup
    obtain ⟨ino, hf⟩ := hlive slot List.mem_cons_self
    have hrest : ∀ slot' ∈ slots, ∃ i, s.table.inodes.find i = some slot' ∧ i ≠ ino := by
      intro slot' hin
      obtain ⟨i, hi⟩ := hlive slot' (List.mem_cons_of_mem _ hin)
      refine ⟨i, hi, ?_⟩
      rintro rfl
      rw [hf] at hi
      exact hnodup.1 (Option.some.inj hi ▸ hin)
    rw [flushEach, Prog.wp_bind_iff, Prog.wp_attempt]
    refine Prog.wp_mono (Prog.wp_and (flushSlot_spec .skip h hf) (flushSlot_unseen .skip h hf)) ?_
    rintro r s₁ ⟨⟨hinv, -, hfind, -⟩, hunseen⟩
    rcases r with errno | ⟨⟩
    · refine Prog.wp_mono (ih _ hinv hnodup.2 fun slot' hin => ?_) fun _ _ hs' => hunseen.trans hs'
      obtain ⟨i, hi, -⟩ := hrest slot' hin
      exact ⟨i, (hfind i).trans hi⟩
    · have hf₁ := (hfind ino).trans hf
      refine Prog.wp_bind (Prog.wp_and (freeIfIdle_spec hinv hf₁) (freeIfIdle_unseen hinv hf₁))
        (fun _ s₂ hs₂ => ?_) fun e s₂ hs₂ => hunseen.trans hs₂.2
      obtain ⟨⟨-, -, hinv₂, -, hfind₂, -⟩, hunseen₂⟩ := hs₂
      refine Prog.wp_mono (ih _ hinv₂ hnodup.2 fun slot' hin => ?_)
        fun _ _ hs' => (hunseen.trans hunseen₂).trans hs'
      obtain ⟨i, hi, hne⟩ := hrest slot' hin
      exact ⟨i, (hfind₂ i hne).trans ((hfind i).trans hi)⟩

private theorem syncDurable_unseen : Prog.wp (syncDurable env) (fun _ s' => Hidden s s') s := by
  apply wp_syncDurable
  · intro _ _
    exact .of_eq rfl rfl
  · intro _
    exact .of_eq rfl rfl

theorem flushAll_unseen (h : s.Inv held busy) :
    Prog.wp (flushAll env) (fun _ s' => Hidden s s') s := by
  have hperm := env.order_perm s.tick s.table.inodes.values
  have hinv : Shared.Inv held busy { s with tick := s.tick + 1 } := h.of_eq rfl rfl rfl
  have hnodup := (List.nodup_append.mp h.table.slots).1
  have hlocked : Prog.wp (flushAllLocked env) (fun _ s' => Hidden s s') s := by
    rw [flushAllLocked, wp_order_bind, wp_table_bind]
    refine Prog.wp_mono (flushEach_unseen _ none hinv
      (hperm.nodup_iff.mpr hnodup) fun slot hin => ?_) fun _ _ hs' => ?_
    · exact ⟨_, h.table.find_of_mem (hperm.mem_iff.mp hin)⟩
    · exact hs'.after_eq rfl rfl
  refine Prog.wp_bind hlocked (fun firstError s₁ hs₁ => ?_) fun e s₁ hs₁ => hs₁
  apply wp_flushAllSync
  refine Prog.wp_mono syncDurable_unseen ?_
  intro r s₂ hs₂
  exact hs₁.trans hs₂

theorem flushFile_unseen (h : s.Inv held busy) :
    Prog.wp (flushFile env ino) (fun _ s' => Hidden s s') s := by
  rw [flushFile, wp_table_bind]
  rcases hf : s.table.inodes.find ino with _ | slot
  · exact .refl s
  · exact flushFree_unseen .skip h hf

theorem flushFh_unseen {fh : Nat} (h : s.Inv held busy) :
    Prog.wp (flushFh env fh) (fun _ s' => Hidden s s') s := by
  rw [flushFh, wp_table_bind]
  rcases hfh : s.table.handles.get fh with _ | slot
  · exact .refl s
  · exact flushSlot_unseen .skip h (h.table.find_of_handle hfh)

theorem syncFh_unseen {fh : Nat} (h : s.Inv held busy) :
    Prog.wp (syncFh env fh) (fun _ s' => Hidden s s') s :=
  Prog.wp_bind (flushFh_unseen h)
    (fun _ _ hs₁ => Prog.wp_mono syncDurable_unseen fun _ _ hs₂ => hs₁.trans hs₂) fun _ _ hs₁ => hs₁

/-- The last handle of an unlinked file: its release deletes the file. -/
def Deletes (s : Shared) (fh : Nat) : Prop := ∃ slot, s.table.handles.get fh = some slot ∧
  (s.table.inodes.get slot).refs = 1 ∧ (s.table.inodes.get slot).unlinked = true

theorem releaseFh_unseen {fh : Nat} (h : s.Inv held busy) (hstays : ¬Deletes s fh) :
    Prog.wp (releaseFh env fh) (fun _ s' => Hidden s s') s := by
  rw [releaseFh, wp_table_bind]
  rcases hr : s.table.handles.release fh with _ | ⟨slot, handles⟩
  · exact .refl s
  · have hget : s.table.handles.get fh = some slot := by
      obtain ⟨slot', hget, heq⟩ := Option.map_eq_some_iff.mp hr
      cases heq
      exact hget
    have hlast : ¬((s.table.fileAt slot).refs = 1 ∧ (s.table.fileAt slot).unlinked = true) :=
      fun hlast => hstays ⟨slot, hget, hlast⟩
    obtain ⟨hf, hpos, -⟩ := h.table.closeHandle hr
    obtain ⟨hinv, -, hf', -⟩ := close_core h hr rfl hlast
    have hslot : ({ s.table with handles := handles }.updateSlot slot fun o =>
        { o with refs := o.refs - 1 }).inodes.get slot =
          { s.table.inodes.get slot with refs := (s.table.inodes.get slot).refs - 1 } :=
      (OpenTable.get_update (h.table.find_lt hf) slot).trans (if_pos rfl)
    rw [orErrno, Prog.wp_pure_bind, wp_updateTable_bind, wp_updateTable_bind, dropHandle,
      wp_table_bind]
    dsimp only
    rw [hslot]
    have hkept : ¬((s.table.inodes.get slot).refs - 1 = 0 ∧
        (s.table.inodes.get slot).unlinked = true) := by
      rintro ⟨hzero, hunlinked⟩
      exact hlast ⟨Nat.le_antisymm (Nat.sub_eq_zero_iff_le.mp hzero) hpos, hunlinked⟩
    rw [if_neg hkept]
    have hclosed : Hidden s { s with table := ({ s.table with handles := handles }.updateSlot slot
        fun o => { o with refs := o.refs - 1 }) } := by
      refine .of_overlay rfl fun j _ => (h.table.overlay_update hf rfl j).trans ?_
      split
      · next heq =>
        rw [heq, OpenTable.overlay_of_find hf]
        rfl
      · rfl
    exact Prog.wp_mono (flushFree_unseen .skip hinv hf') fun _ _ hs' => hclosed.trans hs'

end Flushes

section Writes

variable {c offset : Nat} {span : ChunkSpan} {data : Bytes} {a : ArenaSlot}

private theorem allocChunk_unseen (fuel : Nat) (h : s.Inv [] busy) :
    Prog.wp (allocChunk env slot fuel) (fun _ s' => Hidden s s') s := by
  induction fuel generalizing s with
  | zero => exact .refl s
  | succ fuel ih =>
    rw [allocChunk, wp_table_bind]
    rcases s.table.arena.alloc with _ | ⟨a, arena⟩
    · dsimp only
      rw [wp_order_bind]
      rcases hvictim : s.table.inodes.largestDirty (env.order s.tick) with _ | victim
      · exact .of_eq rfl rfl
      · have hinv : Shared.Inv [] busy { s with tick := s.tick + 1 } := h.of_eq rfl rfl rfl
        have hfv := ((h.table.largestDirty (env.order_perm s.tick)).2 victim hvictim).1
        rw [orErrno, Prog.wp_pure_bind]
        refine Prog.wp_bind (Prog.wp_and (flushSlot_spec .persist hinv hfv)
          (flushSlot_unseen .persist hinv hfv)) (fun _ s₁ hs₁ => ?_) fun e s₁ hs₁ => ?_
        · obtain ⟨⟨hinv₁, -, hfind₁, -⟩, hunseen₁⟩ := hs₁
          have hfv₁ := (hfind₁ _).trans hfv
          have hunseen : Hidden s s₁ := hunseen₁.after_eq rfl rfl
          rw [onlyIf]
          split
          · refine Prog.wp_bind (Prog.wp_and (freeIfIdle_spec hinv₁ hfv₁)
              (freeIfIdle_unseen hinv₁ hfv₁)) (fun _ s₂ hs₂ => ?_) fun e s₂ hs₂ => ?_
            · obtain ⟨⟨-, -, hinv₂, -⟩, hunseen₂⟩ := hs₂
              exact Prog.wp_mono (ih hinv₂) fun _ _ hs' => (hunseen.trans hunseen₂).trans hs'
            · exact hunseen.trans hs₂.2
          · rw [Prog.wp_pure_bind]
            exact Prog.wp_mono (ih hinv₁) fun _ _ hs' => hunseen.trans hs'
        · exact hs₁.2.after_eq rfl rfl
    · exact .of_overlay rfl fun _ _ => rfl

private theorem loadChunk_keeps : Prog.wp (loadChunk env ino c a) (fun _ s' => s'.db = s.db ∧
    s'.table.inodes = s.table.inodes) s := by
  rw [loadChunk, Prog.wp_bind_iff, Prog.wp_attempt]
  apply wp_query
  · intro failure _
    exact ⟨rfl, rfl⟩
  · intro error herror
    cases herror
  · intro bytes _
    exact ⟨rfl, rfl⟩

private theorem updateSlot_unseen {s' : Shared} (hwf : s.table.WF held)
    (hf : s.table.inodes.find ino = some slot) {f : OpenInode → OpenInode} (hdb : s'.db = s.db)
    (hinodes : s'.table.inodes = s.table.inodes.update slot f) :
    Unseen (fun j => j = ino) s s' := by
  apply Unseen.of_overlay hdb
  intro j hj
  rw [hwf.overlay_update hf hinodes, if_neg hj]

private theorem chunkSlot_unseen (piece : ChunkPiece) (h : s.Inv [] busy)
    (hf : s.table.inodes.find ino = some slot) :
    Prog.wp (chunkSlot env slot ino c piece) (fun _ s' => Unseen (fun j => j = ino) s s') s := by
  rw [chunkSlot, wp_table_bind]
  split
  · exact .refl s
  · refine Prog.wp_bind (Prog.wp_and (allocChunk_spec h hf) (allocChunk_unseen allocFuel h))
      (fun a s₁ hs₁ => ?_) fun e s₁ hs₁ => hs₁.2.unseen
    obtain ⟨⟨hinv₁, -, hf₁, -⟩, hunseen₁⟩ := hs₁
    have hloaded : Prog.wp (onlyIf (¬piece.isFullChunk) (loadChunk env ino c a)) (fun _ s' =>
        s'.db = s₁.db ∧ s'.table.inodes = s₁.table.inodes) s₁ := by
      rw [onlyIf]
      split
      · exact loadChunk_keeps
      · exact ⟨rfl, rfl⟩
    refine Prog.wp_bind hloaded (fun _ s₂ hs₂ => ?_) fun e s₂ hs₂ => ?_
    · rw [wp_updateTable_bind]
      refine hunseen₁.unseen.trans (updateSlot_unseen hinv₁.table hf₁ hs₂.1 (f := fun o =>
        { o with dirty := o.dirty.insert (unwrapErr (o.dirty.find c)) c a }) ?_)
      rw [← hs₂.2]
      rfl
    · refine hunseen₁.unseen.trans (.of_overlay hs₂.1 fun j _ => ?_)
      rw [OpenTable.overlay, hs₂.2]
      rfl

private theorem writeChunk_unseen (hlen : 0 < data.length)
    (hmax : offset + data.length ≤ maxFileSize)
    (hc : c ∈ (ChunkSpan.ofRange offset data.length).chunks) (h : s.Inv [] busy)
    (hf : s.table.inodes.find ino = some slot) (hkind : s.db.kindOf ino = some .regularFile) :
    Prog.wp (writeChunk env slot ino (ChunkSpan.ofRange offset data.length) data c)
      (fun _ s' => Unseen (fun j => j = ino) s s') s := by
  have hindex := (ChunkSpan.piece_spec hlen hmax hc).1
  rw [writeChunk]
  refine Prog.wp_bind (Prog.wp_and (chunkSlot_spec _ h hf hkind hindex) (chunkSlot_unseen _ h hf))
    (fun a s₁ hs₁ => ?_) fun e s₁ hs₁ => hs₁.2
  obtain ⟨⟨held', s₂, o, -, -, -, -, -, hwf₁, hf₁, -⟩, hunseen₁⟩ := hs₁
  rw [wp_updateTable_bind, wp_updateTable_bind, wp_record]
  exact hunseen₁.trans (updateSlot_unseen hwf₁ hf₁ rfl rfl)

private theorem writeChunks_unseen (hlen : 0 < data.length)
    (hmax : offset + data.length ≤ maxFileSize)
    (h : s.Inv [] busy) (hf : s.table.inodes.find ino = some slot)
    (hkind : s.db.kindOf ino = some .regularFile) :
    Prog.wp (Prog.each (writeChunk env slot ino (ChunkSpan.ofRange offset data.length) data)
      (ChunkSpan.ofRange offset data.length).chunks)
        (fun _ s' => Unseen (fun j => j = ino) s s') s := by
  refine Prog.wp_each (I := fun cs s₁ =>
    (∀ c ∈ cs, c ∈ (ChunkSpan.ofRange offset data.length).chunks) ∧ s₁.Inv [] busy ∧
    s₁.table.inodes.find ino = some slot ∧ s₁.db.kindOf ino = some .regularFile ∧
      Unseen (fun j => j = ino) s s₁) (fun c cs s₁ hs₁ => ?_) (fun s₁ hs₁ => ?_) _ s ?_
  · obtain ⟨hcs, hinv, hf₁, hkind₁, hunseen⟩ := hs₁
    have hc := hcs c List.mem_cons_self
    refine Prog.wp_mono (Prog.wp_and (writeChunk_spec hlen hmax hc hinv hf₁ hkind₁)
      (writeChunk_unseen hlen hmax hc hinv hf₁ hkind₁)) ?_
    rintro r s₂ ⟨⟨hinv₂, hframe₂, hf₂, -⟩, hunseen₂⟩
    rcases r with e | ⟨⟩
    · exact hunseen.trans hunseen₂
    · exact ⟨fun d hd => hcs d (List.mem_cons_of_mem c hd), hinv₂, hf₂, hframe₂.kind.trans hkind₁,
        hunseen.trans hunseen₂⟩
  · exact hs₁.2.2.2.2
  · exact ⟨fun _ hc => hc, h, hf, hkind, .refl s⟩

private theorem writeSlot_unseen (hfit : offset + data.length < u64Size) (h : s.Inv [] busy)
    (hf : s.table.inodes.find ino = some slot) :
    Prog.wp (writeSlot env slot offset data) (fun _ s' => Unseen (fun j => j = ino) s s') s := by
  rw [writeSlot, wp_table_bind]
  dsimp only
  rcases hregular : (s.table.inodes.get slot).kind.regularFileError with _ | error
  · rw [errnoOfKind, hregular, Prog.wp_pure_bind]
    have hkind : s.db.kindOf ino = some .regularFile := by
      rw [h.kindOf (OpenTable.file_of_find hf)]
      exact congrArg some (FileKind.regularFileError_eq_none.mp hregular)
    split
    · exact .refl s
    · rcases Nat.eq_zero_or_pos data.length with hzero | hpos
      · rw [hzero, ChunkSpan.new_zero]
        exact .refl s
      · rw [ChunkSpan.new_eq hpos hfit]
        dsimp only
        split
        · exact .refl s
        · next hsmall =>
          rw [wp_now_bind, wp_updateTable_bind, h.table.find_ino hf]
          obtain ⟨hinv, hquiet⟩ := touch_core h hf (s.tick + 1) (.fromSystemTime (env.clock s.tick))
          have htouched : Unseen (fun j => j = ino) s { s with
              tick := s.tick + 1
              table := s.table.updateSlot slot fun o =>
                { o with mtime := .fromSystemTime (env.clock s.tick) } } :=
            updateSlot_unseen h.table hf rfl rfl
          refine Prog.wp_bind (writeChunks_unseen hpos (Nat.le_of_not_lt hsmall) hinv hf
            (hquiet.kind.trans hkind)) (fun _ s' hs' => ?_) fun e s' hs' => ?_
          · exact htouched.trans hs'
          · exact htouched.trans hs'
  · rw [errnoOfKind, hregular]
    exact .refl s

private theorem slotFor_unseen (h : s.Inv held busy) :
    Prog.wp (slotFor env ino) (fun _ s' => Unseen (fun j => j = ino) s s') s := by
  rw [slotFor, wp_table_bind]
  rcases hf : s.table.inodes.find ino with _ | slot
  · dsimp only
    rw [Prog.wp_bind_iff]
    apply wp_query
    · intro failure _
      exact .of_eq rfl rfl
    · intro error _
      exact .of_eq rfl rfl
    · intro head _
      obtain ⟨slot, inodes, hi⟩ : ∃ slot inodes,
        s.table.inodes.insert ino head.1 head.2 = (slot, inodes) := ⟨_, _, rfl⟩
      dsimp only
      rw [hi]
      exact .of_overlay rfl fun j hj => h.table.overlay_insert hf hi hj
  · exact .refl s

theorem write_unseen (hfit : offset + data.length < u64Size) (h : s.Inv [] busy) :
    Prog.wp (write env ino offset data) (fun _ s' => Unseen (fun j => j = ino) s s') s := by
  unfold write
  split
  · exact .refl s
  · refine Prog.wp_bind (Prog.wp_and (slotFor_spec h) (slotFor_unseen h)) (fun slot s₁ hs₁ => ?_)
      fun e s₁ hs₁ => hs₁.2
    obtain ⟨⟨-, -, -, hinv₁, -, hf₁, -⟩, hunseen₁⟩ := hs₁
    rw [Prog.wp_bind_iff, Prog.wp_attempt]
    refine Prog.wp_mono (Prog.wp_and (writeSlot_spec hfit hinv₁ hf₁)
      (writeSlot_unseen hfit hinv₁ hf₁)) ?_
    rintro r s₂ ⟨⟨hinv₂, hf₂, -⟩, hunseen₂⟩
    refine Prog.wp_bind (freeIfIdle_unseen hinv₂ hf₂) (fun _ s₃ hs₃ => ?_) fun e s₃ hs₃ => ?_
    · have hunseen := (hunseen₁.trans hunseen₂).trans hs₃.unseen
      rcases r with e | n
      · exact hunseen
      · exact hunseen
    · exact (hunseen₁.trans hunseen₂).trans hs₃.unseen

theorem writeFh_unseen {fh : Nat} (hfit : offset + data.length < u64Size) (h : s.Inv [] busy) :
    Prog.wp (writeFh env fh offset data) (fun _ s' =>
      Unseen (fun j => s.table.handleIno fh = some j) s s') s := by
  rw [writeFh, wp_table_bind]
  rcases hfh : s.table.handles.get fh with _ | slot
  · exact .refl s
  · have hino : s.table.handleIno fh = some (s.table.inodes.get slot).ino := by
      rw [OpenTable.handleIno, hfh]
      rfl
    rw [hino]
    refine Prog.wp_mono (writeSlot_unseen hfit h (h.table.find_of_handle hfh)) fun _ _ hs' => ?_
    exact hs'.mono fun j hj => congrArg some hj.symm

end Writes

end Fs

end VibeDbfs
