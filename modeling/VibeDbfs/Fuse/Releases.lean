import VibeDbfs.Fuse.ChangeTimes
import VibeDbfs.Fuse.Lifetimes
import VibeDbfs.Fuse.SlotOwners

/-!
Closing a handle deletes nothing that has a name, as long as a slot that waits for its last handle
is that of an inode without a name.
-/

set_option autoImplicit false
set_option relaxedAutoImplicit false

namespace VibeDbfs

open Lib Lib.Bytes

namespace OpenTable

variable {t t' : OpenTable} {ino : Nat} {slot : Slot} {chunk : Nat × Bytes} {lost : Prop}
  {spare : Slot → Prop}

/-- The table has `chunk` buffered for `ino`. -/
def Buffers (t : OpenTable) (ino : Nat) (chunk : Nat × Bytes) : Prop :=
  ∃ slot, t.inodes.find ino = some slot ∧ chunk ∈ Fs.dirtyChunks t (t.inodes.get slot)

private theorem Buffers.of_slot (h : t.Buffers ino chunk)
    (hslot : ∀ slot, t.inodes.find ino = some slot → t'.inodes.find ino = some slot ∧
      (t'.inodes.get slot).dirty = (t.inodes.get slot).dirty)
    (harena : ∀ a, t'.arena.chunk a = t.arena.chunk a) : t'.Buffers ino chunk := by
  obtain ⟨slot, hfind, hchunk⟩ := h
  obtain ⟨hfind', hdirty⟩ := hslot slot hfind
  refine ⟨slot, hfind', ?_⟩
  rw [Fs.dirtyChunks] at hchunk ⊢
  simpa only [hdirty, harena] using hchunk

private theorem Buffers.modify {f : OpenInode → OpenInode} (h : t.Buffers ino chunk)
    (hslots : t'.inodes.slots = t.inodes.slots.modify slot f)
    (hf : ∀ o, (f o).dirty = o.dirty) (hfind : t'.inodes.find ino = t.inodes.find ino)
    (harena : t'.arena = t.arena) : t'.Buffers ino chunk := by
  refine h.of_slot (fun j hj => ⟨hfind.trans hj, ?_⟩) fun a => by rw [harena]
  rcases get_modify hslots j with hsame | ⟨-, hchanged⟩
  · rw [hsame]
  · rw [hchanged, hf]

private theorem Buffers.releaseDirty (h : t.Buffers ino chunk) (htidy : t.Tidy lost spare)
    (hne : ino ≠ (t.inodes.get slot).ino) : (t.releaseDirty slot).Buffers ino chunk := by
  rw [releaseDirty_eq]
  refine h.of_slot (fun j hj => ⟨hj, ?_⟩) fun _ => rfl
  have hget := @get_modify t { t with
    inodes := t.inodes.update slot fun o => { o with dirty := .empty } } slot _ rfl j
  rcases hget with hsame | ⟨rfl, -⟩
  · exact congrArg OpenInode.dirty hsame
  · exact (hne (htidy.ino_of_find hj).symm).elim

private theorem Buffers.remove (h : t.Buffers ino chunk) (hne : ino ≠ (t.inodes.get slot).ino) :
    ({ t with inodes := t.inodes.remove slot } : OpenTable).Buffers ino chunk :=
  h.modify rfl (fun _ => rfl) ((find_filtered t.inodes _ ino).trans (if_neg hne)) rfl

private theorem Buffers.discardSlot (h : t.Buffers ino chunk) (htidy : t.Tidy lost spare)
    (hne : ino ≠ (t.inodes.get slot).ino) : (t.discardSlot slot).Buffers ino chunk := by
  refine (h.releaseDirty htidy hne).remove ?_
  rwa [ino_releaseDirty]

private theorem Buffers.freeIfIdle (h : t.Buffers ino chunk) (htidy : t.Tidy lost spare)
    (hmapped : ¬lost) (huses : t.Uses slot) : (t.freeIfIdle slot).Buffers ino chunk := by
  unfold OpenTable.freeIfIdle
  dsimp only
  split
  · next hidle =>
    refine h.remove ?_
    rintro rfl
    obtain ⟨j, hj, hchunk⟩ := h
    obtain rfl := Option.some.inj ((htidy.mapped.resolve_left hmapped slot huses).symm.trans hj)
    rw [Fs.dirtyChunks, DirtyIdx.isEmpty_iff.mp hidle.2] at hchunk
    cases hchunk
  · exact h

end OpenTable

namespace Fs

variable {env : Env} {s s' : Shared} {slot : Slot} {spare : Slot → Prop} {fh ino : Nat}
  {chunk : Nat × Bytes}

/-- A chunk that was buffered for `ino` still is, or went to the store with others. -/
def StaysBuffered (s s' : Shared) (ino : Nat) (chunk : Nat × Bytes) : Prop :=
  s'.table.Buffers ino chunk ∨ ∃ size chunks modified,
    s.db.replaceChunks ino size chunks modified = .ok s'.db ∧ chunk ∈ chunks

private theorem flushSlot_buffers (unlinked : Unlinked) (h : s.table.Tidy False spare)
    (huses : s.table.Uses slot) (hbuffered : s.table.Buffers ino chunk) :
    Prog.wp (flushSlot env slot unlinked) (fun _ s' => StaysBuffered s s' ino chunk) s := by
  rw [flushSlot, wp_table_bind]
  dsimp only
  split
  · exact .inl hbuffered
  · refine Prog.wp_bind (exec_outcome env _ s) (fun _ s₁ hs₁ => ?_) fun e s₁ hs₁ => ?_
    · obtain ⟨-, htable, -, hdb⟩ := hs₁
      by_cases hino : ino = (s.table.inodes.get slot).ino
      · subst hino
        obtain ⟨j, hj, hchunk⟩ := hbuffered
        obtain rfl := Option.some.inj ((h.mapped.resolve_left id slot huses).symm.trans hj)
        exact .inr ⟨_, _, _, hdb, hchunk⟩
      · left
        change (s₁.table.releaseDirty slot).Buffers ino chunk
        rw [htable]
        exact hbuffered.releaseDirty h hino
    · left
      rw [hs₁.2.1]
      exact hbuffered

private theorem flushFree_buffers (unlinked : Unlinked)
    (h : s.Tidy False (besides spare slot)) (huses : s.table.Uses slot)
    (hbuffered : s.table.Buffers ino chunk) :
    Prog.wp (flushSlot env slot unlinked >>= fun _ => freeIfIdle slot)
      (fun _ s' => StaysBuffered s s' ino chunk) s := by
  refine Prog.wp_bind (Prog.wp_and (flushSlot_tidy unlinked h)
    (flushSlot_buffers unlinked h.table huses hbuffered)) (fun _ s₁ hs₁ => ?_) fun e s₁ hs₁ => hs₁.2
  obtain ⟨⟨-, htidy, huses₁, -⟩, hstays⟩ := hs₁
  rcases hstays with hstays | hstored
  · exact .inl (hstays.freeIfIdle htidy id ((huses₁ slot).mpr huses))
  · exact .inr hstored

/-- What a release buffers no longer it has stored, unless the inode waited for its last handle. -/
private theorem releaseFh_buffers (h : s.Tidy False spare) (hbuffered : s.table.Buffers ino chunk)
    (hmarked : ¬s.table.Marked ino) :
    Prog.wp (releaseFh env fh) (fun _ s' => StaysBuffered s s' ino chunk) s := by
  rw [releaseFh, wp_table_bind]
  rcases hrelease : s.table.handles.release fh with _ | ⟨slot, handles⟩
  · exact .inl hbuffered
  rw [orErrno, Prog.wp_pure_bind, wp_updateTable_bind, wp_updateTable_bind]
  obtain ⟨huses, htidy⟩ := h.table.closeHandle hrelease
  set t : OpenTable := ({ s.table with handles := handles } : OpenTable).updateSlot slot fun o =>
    { o with refs := o.refs - 1 } with ht
  have hget : t.inodes.get slot = { s.table.inodes.get slot with
      refs := (s.table.inodes.get slot).refs - 1 } :=
    (OpenTable.get_update huses.1 slot).trans (if_pos rfl)
  have hclosed : t.Buffers ino chunk := hbuffered.modify rfl (fun _ => rfl) rfl rfl
  have huses' : t.Uses slot := (OpenTable.uses_update (t := s.table) rfl slot).mpr huses
  rw [dropHandle, wp_table_bind]
  dsimp only
  split
  · next hlast =>
    rw [wp_updateTable_bind]
    refine Prog.wp_mono (exec_outcome env _ _) ?_
    rintro r s' ⟨-, htable, -⟩
    left
    rw [htable]
    refine hclosed.discardSlot htidy ?_
    -- the slot that goes is marked
    rintro rfl
    refine hmarked ⟨slot, ?_, ?_⟩
    · rw [hget]
      exact h.table.mapped.resolve_left id slot huses
    · have hunlinked : (t.inodes.get slot).unlinked = true := hlast.2
      rwa [hget] at hunlinked
  · exact flushFree_buffers (s := { s with table := t }) .skip ⟨htidy, h.limits⟩ huses' hclosed

end Fs

namespace Db

variable {db db' : Db} {d : Dirent} {r : InodeRow} {isOpen : Bool} {now : Timestamp}

private theorem KeepsNameless.nameless (h : KeepsNameless db db') {i : Nat}
    (hkind : db'.kindOf i = db.kindOf i) (hi : db.Nameless i) : db'.Nameless i :=
  ⟨hkind ▸ hi.1, h i hi.1 hi.2⟩

end Db

namespace Shared

variable {s s' : Shared}

/-- A slot that waits for its last handle is that of an inode without a name. -/
def MarksNameless (s : Shared) : Prop := ∀ ino, s.table.Marked ino → s.db.Nameless ino

private theorem MarksNameless.of_kept (h : s.MarksNameless)
    (hmarked : ∀ i, s'.table.Marked i → s.table.Marked i)
    (hkept : s.db.KeepsNameless s'.db)
      (hkind : ∀ i, s.db.Nameless i → s'.db.kindOf i = s.db.kindOf i) :
    s'.MarksNameless :=
  fun i hi => hkept.nameless (hkind i (h i (hmarked i hi))) (h i (hmarked i hi))

private theorem MarksNameless.removed {lost : Prop} {spare : Slot → Prop} {d : Dirent}
    {r : InodeRow}
    {isOpen : Bool} {now : Timestamp} (h : s.MarksNameless) (htidy : s.table.Tidy lost spare)
    (hs : s.db.Linked) (hs' : s'.db.Linked) (hd : d ∈ s.db.dirents)
    (hr : s.db.findInode d.childIno = some r)
    (hempty : r.kind = .directory → ∀ e ∈ s.db.dirents, e.parentIno ≠ r.ino)
    (hopen : r.kind ≠ .directory → isOpen = s.table.isOpen d.childIno)
    (hsame : Db.SameData (s.db.dropEntry d r isOpen now) s'.db)
    (hchildren : ∀ e' ∈ s'.db.dirents, ∃ e ∈ (s.db.dropEntry d r isOpen now).dirents,
      e.childIno = e'.childIno)
    (htable : s'.table = s.table.entryRemoved r.inode) : s'.MarksNameless := by
  obtain ⟨hkept, hother, -, hstays⟩ :=
    Db.keepsNameless_dropEntry hs hs' hd hr hempty hsame hchildren
  have hino : r.inode.ino = d.childIno := Db.findInode_ino hr
  obtain ⟨-, -, hmarked⟩ := htidy.entryRemoved_cases r.inode
  rw [← htable, hino] at hmarked
  intro i hi
  rcases hmarked i hi with hold | ⟨rfl, hfile, hone, hisOpen⟩
  · have hnameless := h i hold
    refine hkept.nameless (hother i ?_) hnameless
    rintro rfl
    exact hs.unnamed hnameless.2 d hd rfl
  · have hmore : ¬Db.LastName r isOpen := by
      rintro (hdir | ⟨-, hclosed⟩)
      · exact hfile hdir
      · rw [hopen hfile, hisOpen] at hclosed
        cases hclosed
    obtain ⟨hkind, hnlink⟩ := hstays hmore
    refine ⟨?_, hnlink hone⟩
    rw [hkind, Db.kindOf_of_find hr]
    rfl

end Shared

namespace Dbfs

open Shared (MarksNameless)

variable {env : Env} {s s' : Shared} {c : Call}

/-- No `link` that goes through is of an inode without a name, and no call removes a directory that
has a slot. -/
def SparesNameless (env : Env) (s : Shared) (c : Call) : Prop :=
  SparesSlots env s c ∧ match c with
    | .link ino newParent newName => Links env s ino newParent newName → 0 < s.db.nlinkOf ino
    | _ => True

section Step

private theorem NameStep.linked (h : NameStep env s s' c) (hs : s.db.Linked)
    (hm : s.MarksNameless) :
    s'.db.Linked := by
  cases h with
  | keeps h => exact ⟨h.keys hs.keys, h.names ▸ hs.tree, h.names ▸ hs.exact⟩
  | creates hdb _ => exact hs.createNode hdb
  | links _ hdb _ => exact hs.link hdb
  | unlinks hlookup hdb _ => exact hs.unlinkEntry hlookup hdb
  | removes _ hdb _ => exact hs.removeDir hdb
  | renames _ _ hdb _ => exact hs.renameEntry hdb
  | deletes hmarked hdb _ _ =>
    rw [hdb]
    exact hs.deleteInodeRows (hm _ hmarked).1 (hm _ hmarked).2

private theorem NameStep.marksNameless {lost : Prop} {spare : Slot → Prop} (h : NameStep env s s' c)
    (htidy : s.table.Tidy lost spare) (hs : s.db.Linked) (hm : s.MarksNameless)
    (hc : SparesNameless env s c) : s'.MarksNameless := by
  have hs' := h.linked hs hm
  cases h with
  | keeps h =>
    refine hm.of_kept h.adds.marked (fun i _ hnlink => ?_) fun i _ => h.kind i
    exact (congrFun (congrArg Names.nlink h.names) i).trans hnlink
  | creates hdb hadds =>
    refine hm.of_kept hadds.marked (Db.keepsNameless_createNode hs hdb) fun i hi => ?_
    rw [(Db.createNode_rows hdb).2.1, if_neg]
    rintro rfl
    have hsome := hi.1
    rw [Db.nextIno_new] at hsome
    cases hsome
  | links hfault hdb htable =>
    have hnamed := hc.2 ⟨hfault, show (s.db.link _ _ _ (firstTime env s)).isOk =
        true by rw [hdb]; rfl⟩
    exact hm.of_kept (fun i hi => htable ▸ hi) (Db.keepsNameless_link hs hnamed hdb)
      fun i _ => (Db.sameData_link hdb).kind i
  | unlinks hlookup hdb htable =>
    obtain ⟨d, r, hd, -, -, hr, rfl, hfile, heq⟩ := Db.unlinkEntry_eq hlookup hdb
    refine hm.removed htidy hs hs' hd hr (fun hdir => (hfile hdir).elim)
      (fun _ => congrArg s.table.isOpen (Db.findInode_ino hr)) (heq ▸ Db.sameData_touchDir)
      (fun e he => ⟨e, ?_, rfl⟩) htable
    rwa [heq] at he
  | removes hfault hdb htable =>
    obtain ⟨d, r, hd, -, -, hr, hdir, hempty, heq⟩ := Db.removeDir_eq hdb
    refine hm.removed htidy hs hs' hd hr (fun _ => hempty) (fun hfile => (hfile hdir).elim)
      (heq ▸ Db.sameData_touchDir.trans (Db.sameData_addDirectoryNlink _))
        (fun e he => ⟨e, ?_, rfl⟩)
      (htable.trans (if_pos (.inl hdir)).symm)
    rwa [heq] at he
  | renames hflags hfault hdb htable =>
    obtain ⟨d, r, hd, -, -, hr, -, -, hcase⟩ := Db.renameEntry_eq hs.tree hdb
    rcases hcase with ⟨-, -, rfl, heq⟩ | ⟨rfl, -, heq⟩ | ⟨f, q, hf, -, -, -, hq, rfl,
      -, hempty, heq⟩
    · refine hm.of_kept (fun i hi => ?_) (fun i _ hnlink => heq ▸ hnlink) fun i _ => by rw [heq]
      rwa [show s'.table = s.table from htable] at hi
    · refine hm.of_kept (fun i hi => ?_) ?_ fun i _ => ?_
      · rwa [show s'.table = s.table from htable] at hi
      · rw [heq] at hs' ⊢
        exact Db.keepsNameless_moveEntry hs _ _ hs'
      · rw [heq]
        exact Db.kindOf_moveEntry _ _ _ i
    · refine hm.removed htidy hs hs' hf hq hempty
        (fun _ => congrArg s.table.isOpen (Db.findInode_ino hq)) (heq ▸ Db.sameData_moveEntry _ _)
        (fun e he => ?_) htable
      rw [heq] at he
      exact Db.children_moveEntry _ _ e he
  | @deletes _ ino hmarked hdb hadds hgone =>
    intro i hi
    have hnameless := hm i (hadds.marked i hi)
    have hne : i ≠ ino := by
      rintro rfl
      obtain ⟨j, hj, -⟩ := hi
      rw [hgone] at hj
      cases hj
    rw [hdb]
    refine ⟨?_, ?_⟩
    · rw [Db.kindOf_deleteInodeRows, if_neg hne]
      exact hnameless.1
    · rw [Db.nlinkOf_deleteInodeRows hne]
      exact hnameless.2

/-- The invariant of runs that only ever mark slots of inodes without a name. -/
structure Waiting (s : Shared) : Prop extends Housed s where
  linked : s.db.Linked
  marks : s.MarksNameless

private theorem Waiting.start (hdb : s.db.Sound) (writeBuffer : Nat)
    (htable : s.table = .new writeBuffer) :
    Waiting s := by
  refine ⟨.start hdb writeBuffer htable, hdb.toLinked, fun i hi => ?_⟩
  obtain ⟨slot, hslot, -⟩ := hi
  rw [htable] at hslot
  cases hslot

private theorem Waiting.step (h : Waiting s) (hc : SparesNameless env s c) :
    Waiting (step env s c) := by
  have hnames : NameStep env s (call env c s).2 c := call_nameStep h.tidy.table c
  have hlinked : (call env c s).2.db.Linked := hnames.linked h.linked h.marks
  have hmarks : (call env c s).2.MarksNameless :=
    hnames.marksNameless h.tidy.table h.linked h.marks hc
  exact ⟨h.toHoused.step hc.1, hlinked, hmarks⟩

end Step

section Fits

variable {busy : Nat → Prop}

def FitsEnd : Call → Prop
  | .write _ offset data => offset + data.length < u64Size
  | .writeFh _ offset data => offset + data.length < u64Size
  | _ => True

instance : ∀ c, Decidable (FitsEnd c)
  | .write _ offset data => inferInstanceAs (Decidable (offset + data.length < u64Size))
  | .writeFh _ offset data => inferInstanceAs (Decidable (offset + data.length < u64Size))
  | .getattr .. | .lookup .. | .mkdir .. | .create .. | .symlink .. | .link .. | .setattr ..
  | .openFile .. | .read .. | .readFh .. | .fallocate .. | .flushFile .. | .flushFh .. | .syncFh ..
  | .flushAll | .releaseFile .. | .unlink .. | .rmdir .. | .rename .. | .createOpen .. =>
    inferInstanceAs (Decidable True)

/-- The call is refused, with the store and the table as they were. -/
private def Refused (s : Shared) {α : Type} (r : Except Errno α) (s' : Shared) : Prop :=
  r.isOk = false ∧ s'.db = s.db ∧ s'.table = s.table ∧ s'.moments = s.moments

private theorem access_refused {α : Type} {f : Db → Except DbError (α × Db)}
    (h : env.fault s.tick = none → (f s.db).isOk ≠ true) :
    Prog.wp (Fs.access env f) (Refused s) s := by
  unfold Prog.wp Fs.access
  dsimp only
  rcases hfault : env.fault s.tick with _ | failure
  · rcases hf : f s.db with error | ⟨a, db⟩
    · exact ⟨rfl, rfl, rfl, rfl⟩
    · refine (h hfault ?_).elim
      rw [hf]
      rfl
  · exact ⟨rfl, rfl, rfl, rfl⟩

private theorem inv_of_refused (h : s.Inv [] busy) (hrefused : Prog.wp (call env c) (Refused s) s) :
    (step env s c).Inv [] busy := by
  obtain ⟨hok, hdb, htable, hmoments⟩ := hrefused
  have hinv : (call env c s).2.Inv [] busy := h.of_eq hdb htable hmoments
  refine hinv.record _ fun ino _ hsaves => ?_
  rw [Bool.and_eq_true] at hsaves
  cases hok.symm.trans hsaves.1

private theorem inv_link {ino newParent : Nat} {newName : Name} (h : s.Inv [] busy)
    (hc : SparesNameless env s (.link ino newParent newName)) :
    (step env s (.link ino newParent newName)).Inv [] busy := by
  by_cases hlinks : Links env s ino newParent newName
  · have hadm : Admissible busy s (.link ino newParent newName) :=
      fun r hr => Db.nlinkOf_of_find hr ▸ hc.2 hlinks
    exact (step_keeps env h hadm).inv
  · refine inv_of_refused h ?_
    rw [call, Prog.wp_map, Fs.link, Fs.wp_now_bind, Prog.wp_bind_iff]
    refine Prog.wp_mono (access_refused (s := { s with tick := s.tick + 1 })
      fun hfault hok => hlinks ⟨hfault, hok⟩) ?_
    rintro (e | inode) s' hrefused
    · exact hrefused
    · exact hrefused

private theorem inv_rmdir {parent : Nat} {name : Name} (h : s.Inv [] busy)
    (hc : SparesSlots env s (.rmdir parent name)) :
    (step env s (.rmdir parent name)).Inv [] busy := by
  by_cases hremoves : env.fault (s.tick + 1) = none ∧
      (s.db.removeDir parent name (firstTime env s)).isOk = true
  · have hadm : Admissible busy s (.rmdir parent name) := by
      intro now db _ target hlookup
      obtain ⟨-, d, r, hd, hparent, hname, hr, rfl⟩ := Db.lookup_cases hlookup
      exact OpenTable.file_eq_none.mpr (hc _ ⟨hremoves.1, hremoves.2, d, hd, hparent, hname,
        (Db.findInode_ino hr).symm⟩)
    exact (step_keeps env h hadm).inv
  · refine inv_of_refused h ?_
    rw [call, Prog.wp_map, Fs.rmdir, Fs.wp_now_bind]
    refine Prog.wp_mono (access_refused (s := { s with tick := s.tick + 1 }) fun hfault hok =>
      hremoves ⟨hfault, ?_⟩) fun r s' hrefused => ?_
    · change ((s.db.removeDir parent name (firstTime env s)).map _).isOk = true at hok
      rcases hremove : s.db.removeDir parent name (firstTime env s) with e | db
      · rw [hremove] at hok
        cases hok
      · rfl
    · rcases r with e | ⟨⟩
      · exact hrefused
      · exact hrefused

private theorem inv_rename {parent newParent : Nat} {name newName : Name} {flags : UInt32}
    (h : s.Inv [] busy) (hc : SparesSlots env s (.rename parent name newParent newName flags)) :
    (step env s (.rename parent name newParent newName flags)).Inv [] busy := by
  by_cases hrenames : env.fault (s.tick + 1) = none ∧
      (s.db.renameEntry parent name newParent newName (flags &&& Fs.renameNoreplace ≠ 0)
        s.table.isOpen (firstTime env s)).isOk = true
  · have hadm : Admissible busy s (.rename parent name newParent newName flags) := by
      intro hflags isOpen now target db hdb hdir
      rcases hactual : s.db.renameEntry parent name newParent newName
        (flags &&& Fs.renameNoreplace ≠ 0) s.table.isOpen (firstTime env s) with e | ⟨replaced, db'⟩
      · have hok := hrenames.2
        rw [hactual] at hok
        cases hok
      · -- the target depends neither on the clock nor on the open files
        obtain ⟨-, -, -, -, ⟨-, hnone, -⟩ | ⟨hdiff, -, hexisting, -⟩⟩ := Db.renameEntry_ok hdb
        · cases hnone
        obtain ⟨-, -, -, -, ⟨hsame, -⟩ | ⟨-, -, hexisting', -⟩⟩ := Db.renameEntry_ok hactual
        · exact (hdiff hsame).elim
        obtain rfl := Except.ok.inj (hexisting.symm.trans hexisting')
        exact OpenTable.file_eq_none.mpr (hc _
          ⟨hflags, hrenames.1, target, db', hactual, hdir, rfl⟩)
    exact (step_keeps env h hadm).inv
  · refine inv_of_refused h ?_
    rw [call, Prog.wp_map]
    unfold Fs.rename
    split
    · exact ⟨rfl, rfl, rfl, rfl⟩
    · rw [Fs.wp_table_bind, Fs.wp_now_bind, Prog.wp_bind_iff]
      refine Prog.wp_mono (access_refused (s := { s with tick := s.tick + 1 })
        fun hfault hok => hrenames ⟨hfault, hok⟩) ?_
      rintro (e | replaced) s' hrefused
      · exact hrefused
      · cases hrefused.1

private theorem inv_step (h : s.Inv [] fun _ => True) (hc : SparesNameless env s c)
    (hfits : FitsEnd c) :
    (step env s c).Inv [] fun _ => True := by
  cases c with
  | link ino newParent newName => exact inv_link h hc
  | rmdir parent name => exact inv_rmdir h hc.1
  | rename parent name newParent newName flags => exact inv_rename h hc.1
  | openFile ino => exact (step_keeps env (c := .openFile ino) h fun _ => .inr trivial).inv
  | write ino offset data => exact (step_keeps env (c := .write ino offset data) h hfits).inv
  | writeFh fh offset data => exact (step_keeps env (c := .writeFh fh offset data) h hfits).inv
  | _ =>
    refine (step_keeps env h ?_).inv
    exact trivial

private theorem inv_of_fits {calls : List Call} (h : s.Inv [] fun _ => True)
    (hcalls : LegalRun (step env) (SparesNameless env) s calls) (hfits : ∀ c ∈ calls, FitsEnd c) :
    (run env s calls).Inv [] fun _ => True := by
  induction calls generalizing s with
  | nil => exact h
  | cons c calls ih =>
    exact ih (inv_step h hcalls.1 (hfits c List.mem_cons_self)) hcalls.2
      fun c' hc' => hfits c' (List.mem_cons_of_mem c hc')

end Fits

section Release

/-- Releasing a handle removes no entry and no named inode, and what was buffered for a named inode
still is or went to the store. -/
structure ReleaseSafe (s s' : Shared) : Prop where
  entries : s'.db.dirents = s.db.dirents
  inodes : ∀ d ∈ s.db.dirents, s'.db.kindOf d.childIno = s.db.kindOf d.childIno
  buffered : ∀ d ∈ s.db.dirents, ∀ chunk, s.table.Buffers d.childIno chunk →
    Fs.StaysBuffered s s' d.childIno chunk

def KeepsBytes (s s' : Shared) : Prop :=
  ∀ d ∈ s.db.dirents, (s'.file d.childIno).bytes = (s.file d.childIno).bytes

private theorem releaseSafe_call {fh : Nat} (h : Waiting s) :
    Prog.wp (Fs.releaseFh env fh) (fun _ s' => ReleaseSafe s s') s := by
  have hunmarked : ∀ d ∈ s.db.dirents, ¬s.table.Marked d.childIno := fun d hd hmarked =>
    h.linked.unnamed (h.marks _ hmarked).2 d hd rfl
  have hbuffered : Prog.wp (Fs.releaseFh env fh) (fun _ s' => ∀ d ∈ s.db.dirents, ∀ chunk,
      s.table.Buffers d.childIno chunk → Fs.StaysBuffered s s' d.childIno chunk) s :=
    fun d hd chunk hchunk => Fs.releaseFh_buffers h.tidy hchunk (hunmarked d hd)
  refine Prog.wp_mono (Prog.wp_and (Fs.releaseFh_step h.tidy.table id) hbuffered) ?_
  rintro r s' ⟨hkeeps | ⟨ino, hmarked, hdb, -⟩, hbuffered⟩
  · exact ⟨congrArg Names.entries hkeeps.names, fun d _ => hkeeps.kind d.childIno, hbuffered⟩
  · -- no entry names the inode that goes, and it is no directory that could hold one
    obtain ⟨hsome, hnlink⟩ := h.marks ino hmarked
    have hunnamed := h.linked.unnamed hnlink
    have hfile := h.linked.not_directory hsome hnlink
    refine ⟨?_, fun d hd => ?_, hbuffered⟩
    · rw [hdb]
      refine Db.dirents_deleteInodeRows fun d hd => ⟨fun heq => hfile ?_, hunnamed d hd⟩
      exact heq ▸ h.linked.tree.parent d hd
    · rw [hdb, Db.kindOf_deleteInodeRows, if_neg (hunnamed d hd)]

private theorem keepsBytes_call {busy : Nat → Prop} {fh : Nat} (h : s.Inv [] busy) :
    Prog.wp (Fs.releaseFh env fh) (fun _ s' => KeepsBytes s s') s := by
  refine Prog.wp_mono (Fs.releaseFh_spec h) ?_
  rintro r s' ⟨-, hresult⟩
  rcases hfh : s.table.handleIno fh with _ | ino
  · rw [hfh] at hresult
    obtain ⟨-, rfl⟩ := hresult
    exact fun _ _ => rfl
  · rw [hfh] at hresult
    obtain ⟨-, -, hclosed | hdeleted⟩ := hresult
    · exact fun d _ => hclosed.bytes d.childIno
    · intro d hd
      rw [hdeleted.other _ (h.sound.toLinked.unnamed hdeleted.nlink d hd)]

variable {db : Db}

/-- As long as no inode without a name is linked, and no directory with a slot is removed, closing a
handle deletes nothing that has a name. Where all writes end within 64 bits it also changes no byte
of a file with a name. -/
theorem releaseSafe_of_run (hdb : db.Reached) (writeBuffer : Nat) (env : Env) (calls : List Call)
    (fh : Nat) (h : LegalRun (step env) (SparesNameless env)
      (.withWriteBuffer db writeBuffer) calls) :
    let s := run env (.withWriteBuffer db writeBuffer) calls
    ReleaseSafe s (step env s (.releaseFile fh)) ∧
      ((∀ c ∈ calls, FitsEnd c) → KeepsBytes s (step env s (.releaseFile fh))) := by
  intro s
  have hstart : Waiting (.withWriteBuffer db writeBuffer) := .start hdb.sound writeBuffer rfl
  have hwaiting : Waiting s := runFrom_induction (fun _ _ hc hs => hs.step hc) hstart h
  have hsafe : Prog.wp (call env (.releaseFile fh)) (fun _ s' => ReleaseSafe s s') s :=
    (Prog.wp_map ..).mpr (releaseSafe_call hwaiting)
  refine ⟨⟨hsafe.entries, hsafe.inodes, hsafe.buffered⟩, fun hfits => ?_⟩
  have hinv : s.Inv [] fun _ => True := inv_of_fits (.withWriteBuffer hdb.sound writeBuffer) h hfits
  have hbytes : Prog.wp (call env (.releaseFile fh)) (fun _ s' => KeepsBytes s s') s :=
    (Prog.wp_map ..).mpr (keepsBytes_call hinv)
  exact hbytes

def unlinkedFile : List Call := [
  .createOpen 1 [97] 0o644 0 0 0,
  .createOpen 1 [98] 0o644 0 0 0,
  .writeFh 1 0 [1, 2, 3],
  .unlink 1 [97]]

theorem releaseSafe_of_unlinked :
    let s := run calm (.withWriteBuffer (.fresh 0 0 ⟨0, 0⟩) 65536) unlinkedFile
    ReleaseSafe s (step calm s (.releaseFile 0)) ∧ KeepsBytes s (step calm s (.releaseFile 0)) := by
  have hspares : LegalRun (step calm) (SparesNameless calm)
      (.withWriteBuffer (.fresh 0 0 ⟨0, 0⟩) 65536) unlinkedFile :=
    ⟨⟨nofun, trivial⟩, ⟨nofun, trivial⟩, ⟨nofun, trivial⟩, ⟨nofun, trivial⟩, trivial⟩
  obtain ⟨hsafe, hbytes⟩ := releaseSafe_of_run (.fresh 0 0 ⟨0, 0⟩) 65536 calm unlinkedFile 0 hspares
  exact ⟨hsafe, hbytes (by decide)⟩

/-- Why directories matter: the slot of one that a rename replaced takes the map entry of the file
that got its number. -/
example :
    let s := run calm (.withWriteBuffer (.fresh 0 0 ⟨0, 0⟩) 65536) [.mkdir 1 [97] 0 0 0 0,
      .mkdir 1 [98] 0 0 0 0, .openFile 3, .rename 1 [97] 1 [98] 0, .createOpen 1 [99] 0 0 0 0,
      .writeFh 1 0 [1]]
    s.table.inodes.find 3 = some 1 ∧
      (step calm s (.releaseFile 0)).table.inodes.find 3 = none := by
  decide

/-- A file that lost its last name while open and got a new one goes with its handle. -/
theorem releaseSafe_false : ¬∀ (calls : List Call) (fh : Nat),
    let s := run calm (.withWriteBuffer (.fresh 0 0 ⟨0, 0⟩) 65536) calls
    ReleaseSafe s (step calm s (.releaseFile fh)) := by
  intro h
  have hentries := (h [.createOpen 1 [97] 0o644 0 0 0, .unlink 1 [97], .link 2 1 [98]] 0).entries
  exact absurd hentries (by decide)

end Release

end Dbfs

end VibeDbfs
