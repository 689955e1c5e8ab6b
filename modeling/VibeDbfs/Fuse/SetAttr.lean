import VibeDbfs.Fuse.Invisible

/-!
What `setattr` leaves behind at each of its exits. Its flush, its truncation and its update are
committed one after the other, so a failure of a later one finds the earlier ones done.
-/

set_option autoImplicit false
set_option relaxedAutoImplicit false

namespace VibeDbfs

open Lib Lib.Bytes Shared

namespace Look

def written (l : Look) : Option InodeRow :=
  match l.overlay with
  | some (size, some modified) => l.row.map fun r => saved r size modified
  | _ => l.row

variable {l l' : Look}

private theorem Settles.written (h : l.Settles l') : l'.written = l.written := by
  induction h with
  | refl l => rfl
  | save r size modified => rfl
  | free r => rfl
  | trans _ _ ih ih' => exact ih'.trans ih

def Unsaved (l : Look) : Prop := ∃ size modified, l.overlay = some (size, some modified)

instance (l : Look) : Decidable l.Unsaved :=
  match h : l.overlay with
  | some (size, some modified) => .isTrue ⟨size, modified, h⟩
  | some (_, none) => .isFalse fun ⟨_, _, h'⟩ => by cases h.symm.trans h'
  | none => .isFalse fun ⟨_, _, h'⟩ => by cases h.symm.trans h'

theorem written_of_saved (h : ¬l.Unsaved) : l.written = l.row := by
  unfold written
  split
  · next size modified hoverlay => exact (h ⟨size, modified, hoverlay⟩).elim
  · rfl

end Look

namespace Fs

variable {env : Env} {s s' : Shared} {held : List ArenaSlot} {busy : Nat → Prop} {ino size : Nat}
  {slot : Slot}

section Clean

private theorem unsaved_iff (hf : s.table.inodes.find ino = some slot) :
    (s.look ino).Unsaved ↔ (s.table.inodes.get slot).dirty.isEmpty = false := by
  unfold Look.Unsaved Shared.look
  rw [OpenTable.overlay_of_find hf, OpenInode.overlay]
  rcases (s.table.inodes.get slot).dirty.isEmpty
  · exact ⟨fun _ => rfl, fun _ => ⟨_, _, rfl⟩⟩
  · constructor
    · rintro ⟨size, modified, h⟩
      cases h
    · intro h
      cases h

private theorem not_unsaved_of_none (hf : s.table.inodes.find ino = none) :
    ¬(s.look ino).Unsaved := by
  rintro ⟨size, modified, h⟩
  rw [Shared.look, OpenTable.overlay_of_none hf] at h
  cases h

theorem clean_iff_saved : (s.file ino).Clean ↔ ¬(s.look ino).Unsaved := by
  rcases hf : s.table.inodes.find ino with _ | slot
  · refine ⟨fun _ => not_unsaved_of_none hf, fun _ o ho => ?_⟩
    cases (OpenTable.file_eq_none.mpr hf).symm.trans ho
  · rw [unsaved_iff hf, Bool.not_eq_false, ← OpenTable.clean_iff, Shared.file,
      OpenTable.file_of_find hf]
    constructor
    · intro hclean
      exact hclean _ rfl
    · intro hclean o ho
      cases ho
      exact hclean

theorem attr_of_clean (h : s.Core held busy) (hclean : (s.file ino).Clean) {r : InodeRow}
    (hr : s.db.findInode ino = some r) :
    (s.look ino).attr = some (fileAttrFromInode r.inode) := by
  rw [Look.attr, Shared.look, hr]
  rcases hf : s.table.inodes.find ino with _ | slot
  · rw [OpenTable.overlay_of_none hf]
    rfl
  · have hempty : (s.table.inodes.get slot).dirty.isEmpty = true := by
      rw [clean_iff_saved, unsaved_iff hf, Bool.not_eq_false] at hclean
      exact hclean
    have hsize : (s.table.inodes.get slot).size = r.size := by
      have hstored := File.size_of_clean (h.file_ok ino) hclean
      rw [Shared.file, OpenTable.file_of_find hf] at hstored
      exact hstored.trans (Db.storedSize_of_find hr)
    rw [OpenTable.overlay_of_find hf, OpenInode.overlay, hempty, hsize]
    rfl

end Clean

end Fs

/-- The attributes that a `setattr` is given. -/
structure NewAttrs where
  mode : Option UInt32
  uid : Option UInt32
  gid : Option UInt32
  size : Option Nat
  atime : Option SystemTime
  mtime : Option SystemTime
  deriving DecidableEq, Repr

namespace NewAttrs

variable {given : NewAttrs} {r : InodeRow} {cut changed : Timestamp}

def call (given : NewAttrs) (ino : Nat) : Call :=
  .setattr ino given.mode given.uid given.gid given.size given.atime given.mtime

def update (given : NewAttrs) : MetadataUpdate :=
  ⟨given.mode, given.uid, given.gid, given.atime.map .fromSystemTime,
    given.mtime.map .fromSystemTime⟩

def kept (time : SystemTime) : SystemTime := Timestamp.load (Timestamp.store time)

def appliedTo (given : NewAttrs) (attr : FileAttr) : FileAttr :=
  { attr with
    size := given.size.getD attr.size
    blocks := given.size.elim attr.blocks fun n => (n + 511) / 512
    perm := given.mode.elim attr.perm UInt32.toUInt16
    uid := given.uid.getD attr.uid
    gid := given.gid.getD attr.gid
    atime := given.atime.elim attr.atime kept
    mtime := given.mtime.elim attr.mtime kept }

def cutRow (given : NewAttrs) (cut : Timestamp) (r : InodeRow) : InodeRow :=
  { r with
    size := given.size.getD r.size
    mtimeNs := given.size.elim r.mtimeNs fun _ => cut.toNs
    ctimeNs := given.size.elim r.ctimeNs fun _ => cut.toNs }

def updatedRow (given : NewAttrs) (changed : Timestamp) (r : InodeRow) : InodeRow :=
  { r with
    mode := given.mode.getD r.mode
    uid := given.uid.getD r.uid
    gid := given.gid.getD r.gid
    atimeNs := (given.update.atime.getD (.fromNs r.atimeNs)).toNs
    mtimeNs := (given.update.mtime.getD (.fromNs r.mtimeNs)).toNs
    ctimeNs := changed.toNs }

private theorem load_given {n : Int} (h : Timestamp.InColumn n) (time : Option SystemTime) :
    Timestamp.load ((time.map Timestamp.fromSystemTime).getD (Timestamp.fromNs n)).toNs =
      time.elim (Timestamp.load n) kept := by
  rcases time with _ | time
  · exact Timestamp.load_restored h
  · rfl

theorem cutRow_of_none (h : given.size = none) : given.cutRow cut r = r := by
  rw [cutRow, h]
  rfl

private theorem cutRow_of_some {size : Nat} (h : given.size = some size) :
    given.cutRow cut r = Look.saved r size cut := by
  rw [cutRow, h]
  rfl

private theorem cutRow_timed (given : NewAttrs) (cut : Timestamp) (h : r.Timed) :
    (given.cutRow cut r).Timed := by
  rcases hsize : given.size with _ | size
  · rw [cutRow_of_none hsize]
    exact h
  · rw [cutRow_of_some hsize]
    exact ⟨h.atime, Timestamp.inColumn_toNs _, Timestamp.inColumn_toNs _⟩

theorem attr_appliedTo (h : r.Timed) :
    fileAttrFromInode (InodeRow.inode (given.updatedRow changed (given.cutRow cut r))) =
      { given.appliedTo (fileAttrFromInode r.inode) with
        mtime := given.mtime.elim (Timestamp.load (given.cutRow cut r).mtimeNs) kept
        ctime := Timestamp.load changed.toNs } := by
  have hatime : given.atime.elim (Timestamp.fromNs r.atimeNs).toSystemTime kept = _ :=
    (load_given h.atime given.atime).symm
  have hmtime := load_given (cutRow_timed given cut h).mtime given.mtime
  have hblocks : (given.size.getD r.size + 511) / 512 =
      given.size.elim ((r.size + 511) / 512) fun n => (n + 511) / 512 := by
    rcases given.size with _ | size
    · rfl
    · rfl
  have hperm : (given.mode.getD r.mode).toUInt16 =
      given.mode.elim r.mode.toUInt16 UInt32.toUInt16 := by
    rcases given.mode with _ | mode
    · rfl
    · rfl
  simp only [appliedTo, fileAttrFromInode, InodeRow.inode]
  rw [← hblocks, ← hperm, ← hmtime, hatime]
  rfl

end NewAttrs

namespace Fs

variable {env : Env} {s s' : Shared} {held : List ArenaSlot} {busy : Nat → Prop} {ino size : Nat}
  {slot : Slot} {given : NewAttrs}

section Steps

/-- The clock after the flush at the start of `setattr`. -/
def flushedTick (s : Shared) (ino : Nat) : Nat :=
  if (s.look ino).Unsaved then s.tick + 1 else s.tick

private theorem flushSlot_tick (hf : s.table.inodes.find ino = some slot) :
    Prog.wp (flushSlot env slot .persist) (fun r s' =>
      match r with
      | .ok _ => s'.tick = flushedTick s ino ∧ ((s.look ino).Unsaved → env.fault s.tick = none)
      | .error _ => (s.look ino).Unsaved ∧ env.fault s.tick ≠ none) s := by
  rw [flushSlot, wp_table_bind, flushedTick]
  dsimp only
  rcases hempty : (s.table.inodes.get slot).dirty.isEmpty
  · have hunsaved : (s.look ino).Unsaved := (unsaved_iff hf).mpr hempty
    have hpersist : ¬((false || ((s.table.inodes.get slot).unlinked && Unlinked.persist == .skip)) =
        true) := by
      rw [Bool.false_or, Bool.and_eq_true, not_and]
      intro _ hskip
      cases hskip
    rw [if_neg hpersist, if_pos hunsaved, Prog.wp_bind_iff]
    refine Prog.wp_mono (exec_outcome env _ s) fun r s₁ hs₁ => ?_
    obtain ⟨htick, -, hresult⟩ := hs₁
    rcases r with e | ⟨⟩
    · refine ⟨hunsaved, hresult.2.resolve_right ?_⟩
      rintro ⟨error, herror⟩
      cases herror
    · rw [wp_updateTable_bind, wp_record]
      exact ⟨htick, fun _ => hresult.1⟩
  · have hsaved : ¬(s.look ino).Unsaved := by
      rw [unsaved_iff hf, hempty]
      intro h
      cases h
    rw [Bool.true_or, if_pos rfl, if_neg hsaved, Prog.wp_pure]
    exact ⟨rfl, fun h => (hsaved h).elim⟩

private theorem persist_look (h : s.Inv held busy) :
    Prog.wp (ifSome (s.table.inodes.find ino) fun slot => do
      flushSlot env slot .persist
      freeIfIdle slot) (fun r s' => Hidden s s' ∧
        match r with
        | .ok _ => s'.tick = flushedTick s ino ∧ ((s.look ino).Unsaved → env.fault s.tick = none)
        | .error _ => (s.look ino).Unsaved ∧ env.fault s.tick ≠ none) s := by
  rcases hf : s.table.inodes.find ino with _ | slot
  · have hsaved := not_unsaved_of_none hf
    refine ⟨.refl s, ?_, fun hunsaved => (hsaved hunsaved).elim⟩
    exact (if_neg hsaved).symm
  · refine Prog.wp_and (flushFree_unseen .persist h hf) ?_
    apply Prog.wp_bind (flushSlot_tick hf)
    · intro _ s₁ hs₁
      exact hs₁
    · intro _ s₁ hs₁
      exact hs₁

private theorem flushIfOpen_clean (hclean : (s.file ino).Clean) :
    (ifSome (s.table.inodes.find ino) fun slot => flushSlot env slot .persist) s = (.ok (), s) := by
  rcases hf : s.table.inodes.find ino with _ | slot
  · rfl
  · have hempty : (s.table.inodes.get slot).dirty.isEmpty = true := by
      rw [clean_iff_saved, unsaved_iff hf, Bool.not_eq_false] at hclean
      exact hclean
    change flushSlot env slot .persist s = _
    rw [flushSlot, Prog.bind_ok (show table s = (.ok s.table, s) from rfl), hempty, Bool.true_or,
      if_pos rfl]
    rfl

private theorem truncateLocked_look (hk : s.db.Keys) (hclean : (s.file ino).Clean) :
    Prog.wp (truncateLocked env ino size) (fun r s' =>
      match r with
      | .ok _ => s.db.sizeErrno ino size = none ∧ env.fault (s.tick + 1) = none ∧
          s'.tick = s.tick + 2 ∧ s'.db.findInode ino = (s.db.findInode ino).map fun r =>
            Look.saved r size (.fromSystemTime (env.clock s.tick))
      | .error _ => Hidden s s' ∧
          ¬(s.db.sizeErrno ino size = none ∧ env.fault (s.tick + 1) = none)) s := by
  rw [truncateLocked, wp_table_bind, Prog.wp_bind_ok (flushIfOpen_clean hclean), wp_now_bind]
  apply Prog.wp_bind (exec_outcome env _ _)
  · intro _ s₁ hs₁
    obtain ⟨htick, -, hfault, hok⟩ := hs₁
    obtain ⟨hkind, hmax, hdb⟩ := Db.truncateFile_cases hok
    have hnone : s.db.sizeErrno ino size = none := Db.sizeErrno_eq_none.mpr ⟨hkind, hmax⟩
    have hrow : s₁.db.findInode ino = (s.db.findInode ino).map fun r =>
        Look.saved r size (.fromSystemTime (env.clock s.tick)) := by
      have hcut : (s.db.cutAt ino size).findInode ino = s.db.findInode ino := by
        rw [Db.findInode, (Db.cutAt_rows s.db ino size).1]
        rfl
      rw [hdb, Db.setSize, Db.findInode_updateInode, if_pos rfl]
      · exact congrArg _ hcut
      · exact fun _ => rfl
    rcases s.table.inodes.find ino with _ | slot
    · exact ⟨hnone, hfault, htick, hrow⟩
    · exact ⟨hnone, hfault, htick, hrow⟩
  · intro e s₁ hs₁
    obtain ⟨-, htable, hdb, hfailed⟩ := hs₁
    refine ⟨.of_eq hdb htable, ?_⟩
    rintro ⟨hnone, hfault⟩
    rcases hfailed with hfailed | ⟨error, herror⟩
    · exact hfailed hfault
    · have herrno := Db.truncateFile_error hk herror
      cases hnone.symm.trans herrno

private theorem updateMetadata_look (hk : s.db.Keys) {row : InodeRow}
    (hrow : s.db.findInode ino = some row) :
    Prog.wp (updateMetadata env ino given.update) (fun r s' =>
      (env.fault (s.tick + 1) ≠ none ∧ (∃ e, r = .error e) ∧ s'.db.findInode ino = some row) ∨
      env.fault (s.tick + 1) = none ∧
        s'.db.findInode ino = some (given.updatedRow (.fromSystemTime (env.clock s.tick)) row) ∧
        (env.fault (s.tick + 2) ≠ none ∧ (∃ e, r = .error e) ∨
          env.fault (s.tick + 2) = none ∧ ∃ inode, r = .ok inode)) s := by
  have hget : s.db.getInode ino = .ok row.inode := hk.getInode hrow
  rw [updateMetadata, wp_now_bind]
  apply Prog.wp_bind (exec_outcome env _ _)
  · intro _ s₁ hs₁
    obtain ⟨htick, -, hfault, hok⟩ := hs₁
    have hrow₁ : s₁.db.findInode ino =
        some (given.updatedRow (.fromSystemTime (env.clock s.tick)) row) := by
      rw [Db.updateMetadata, hget] at hok
      rw [← Except.ok.inj hok, Db.findInode_updateInode, if_pos rfl, hrow]
      · rfl
      · exact fun _ => rfl
    refine Prog.wp_mono (query_outcome env _ s₁) fun r s' hs' => ?_
    obtain ⟨-, -, hdb, hresult⟩ := hs'
    refine .inr ⟨hfault, hdb ▸ hrow₁, ?_⟩
    rw [← show s₁.tick = s.tick + 2 from htick]
    rcases r with e | inode
    · refine .inl ⟨hresult.resolve_right ?_, e, rfl⟩
      rintro ⟨error, herror⟩
      have hintact : (given.updatedRow (.fromSystemTime (env.clock s.tick)) row).damaged =
          false := by
        rw [← hk.undamaged hrow]
        rfl
      rw [Db.getInode, hrow₁] at herror
      dsimp only at herror
      rw [inodeFromRow, hintact] at herror
      cases herror
    · exact .inr ⟨hresult.1, inode, rfl⟩
  · intro e s₁ hs₁
    obtain ⟨-, -, hdb, hfailed⟩ := hs₁
    refine .inl ⟨hfailed.resolve_right ?_, ⟨e, rfl⟩, hdb ▸ hrow⟩
    rintro ⟨error, herror⟩
    rw [Db.updateMetadata, hget] at herror
    cases herror

private theorem updateMetadata_missing (hrow : s.db.findInode ino = none) :
    Prog.wp (updateMetadata env ino given.update) (fun r s' => (∃ e, r = .error e) ∧ Hidden s s')
      s := by
  rw [updateMetadata, wp_now_bind]
  apply Prog.wp_bind (exec_outcome env _ _)
  · intro _ s₁ hs₁
    have hok := hs₁.2.2.2
    rw [Db.updateMetadata, Db.getInode, show Db.findInode s.db ino = none from hrow] at hok
    cases hok
  · intro e s₁ hs₁
    exact ⟨⟨e, rfl⟩, .of_eq hs₁.2.2.1 hs₁.2.1⟩

end Steps

section Exits

/-- What `setattr` asks of the size can be done. -/
def Fits (env : Env) (s : Shared) (ino : Nat) (given : NewAttrs) (tick : Nat) : Prop :=
  ∀ size ∈ given.size, s.db.sizeErrno ino size = none ∧ env.fault (tick + 1) = none

private theorem resize_look (hk : s.db.Keys) (hclean : (s.file ino).Clean) :
    Prog.wp (ifSome given.size fun size => truncateLocked env ino size) (fun r s' =>
      match r with
      | .ok _ => Fits env s ino given s.tick ∧ s'.tick = s.tick + given.size.elim 0 (fun _ => 2) ∧
          (given.size = none → s' = s) ∧ s'.db.findInode ino = (s.db.findInode ino).map
            (given.cutRow (.fromSystemTime (env.clock s.tick)))
      | .error _ => Hidden s s' ∧ ¬Fits env s ino given s.tick) s := by
  rcases hsize : given.size with _ | size
  · refine ⟨?_, rfl, fun _ => rfl, ?_⟩
    · intro size hgiven
      rw [hsize] at hgiven
      cases hgiven
    · change s.db.findInode ino = _
      rcases s.db.findInode ino with _ | r
      · rfl
      · rw [Option.map_some, NewAttrs.cutRow_of_none hsize]
  · refine Prog.wp_mono (truncateLocked_look hk hclean) fun r s' hs' => ?_
    rcases r with e | ⟨⟩
    · refine ⟨hs'.1, fun hfits => hs'.2 ?_⟩
      apply hfits
      rw [hsize]
      rfl
    · obtain ⟨hnone, hfault, htick, hrow⟩ := hs'
      refine ⟨?_, htick, ?_, ?_⟩
      · intro size' hgiven
        rw [hsize] at hgiven
        cases hgiven
        exact ⟨hnone, hfault⟩
      · intro h
        cases h
      · rw [hrow]
        exact congrArg (fun f => (s.db.findInode ino).map f)
          (funext fun r => (NewAttrs.cutRow_of_some hsize).symm)

/-- The flush and the truncation of `setattr` succeed. -/
structure Cuts (env : Env) (s : Shared) (ino : Nat) (given : NewAttrs) : Prop where
  flush : (s.look ino).Unsaved → env.fault s.tick = none
  fits : Fits env s ino given (flushedTick s ino)

/-- The clock when `setattr` begins its update. -/
def cutTick (s : Shared) (ino : Nat) (given : NewAttrs) : Nat :=
  flushedTick s ino + given.size.elim 0 fun _ => 2

/-- From `s` to `s'` the file got its new size, and everything of it is in `row`. -/
structure Attains (s s' : Shared) (ino : Nat) (given : NewAttrs) (row : InodeRow) : Prop where
  clean : (s'.file ino).Clean
  bytes : (s'.file ino).bytes = resized given.size (s.file ino).bytes
  kind : s'.db.kindOf ino = s.db.kindOf ino
  row : s'.db.findInode ino = some row

/-- How `setattr` ends. -/
inductive Exit (env : Env) (s : Shared) (ino : Nat) (given : NewAttrs) :
    Except Errno FileAttr → Shared → Prop
  | refused {e : Errno} {s' : Shared} (hrefused : ¬Cuts env s ino given ∨ (s.look ino).row = none)
      (hhidden : Hidden s s') (hquiet : Quiet s s') : Exit env s ino given (.error e) s'
  | cut {e : Errno} {s' : Shared} {row : InodeRow} {cut : Timestamp} (hcuts : Cuts env s ino given)
      (hwritten : (s.look ino).written = some row)
      (hfault : env.fault (cutTick s ino given + 1) ≠ none)
      (hattains : Attains s s' ino given (given.cutRow cut row)) :
      Exit env s ino given (.error e) s'
  | updated {e : Errno} {s' : Shared} {row : InodeRow} {cut changed : Timestamp}
      (hcuts : Cuts env s ino given) (hwritten : (s.look ino).written = some row)
      (hupdate : env.fault (cutTick s ino given + 1) = none)
      (hfault : env.fault (cutTick s ino given + 2) ≠ none)
      (hattains : Attains s s' ino given (given.updatedRow changed (given.cutRow cut row))) :
      Exit env s ino given (.error e) s'
  | done {attr : FileAttr} {s' : Shared} {row : InodeRow} {cut changed : Timestamp}
      (hcuts : Cuts env s ino given) (hwritten : (s.look ino).written = some row)
      (hupdate : env.fault (cutTick s ino given + 1) = none)
      (hquery : env.fault (cutTick s ino given + 2) = none)
      (hattains : Attains s s' ino given (given.updatedRow changed (given.cutRow cut row))) :
      Exit env s ino given (.ok attr) s'

theorem Exit.record {r : Except Errno FileAttr} (h : Exit env s ino given r s')
    (saves : Nat → Bool) : Exit env s ino given r (s'.record saves) := by
  cases h with
  | refused hrefused hhidden hquiet =>
    exact .refused hrefused (hhidden.trans (.of_eq rfl rfl)) (hquiet.trans (Frame.of_eq rfl rfl))
  | cut hcuts hwritten hfault h =>
    exact .cut hcuts hwritten hfault ⟨h.clean, h.bytes, h.kind, h.row⟩
  | updated hcuts hwritten hupdate hfault h =>
    exact .updated hcuts hwritten hupdate hfault ⟨h.clean, h.bytes, h.kind, h.row⟩
  | done hcuts hwritten hupdate hquery h =>
    exact .done hcuts hwritten hupdate hquery ⟨h.clean, h.bytes, h.kind, h.row⟩

private theorem written_eq_none (h : (s.look ino).written = none) : (s.look ino).row = none := by
  unfold Look.written at h
  split at h
  · exact Option.map_eq_none_iff.mp h
  · exact h

theorem setattr_exit (given : NewAttrs) (h : s.Inv held busy) :
    Prog.wp (setattr env ino given.mode given.uid given.gid given.size given.atime given.mtime)
      (fun r s' => s'.Inv held busy ∧ Exit env s ino given r s') s := by
  rw [setattr, wp_table_bind]
  apply Prog.wp_bind (Prog.wp_and (persist_spec h) (persist_look h))
  · intro _ s₁ hs₁
    obtain ⟨⟨hinv₁, hquiet₁, -, hclean₁⟩, hhidden₁, htick₁, hflush⟩ := hs₁
    have hrow₁ : s₁.db.findInode ino = (s.look ino).written := by
      rw [← (hhidden₁.look ino not_false).written]
      exact (Look.written_of_saved (clean_iff_saved.mp hclean₁)).symm
    have hfits : Fits env s₁ ino given s₁.tick ↔ Fits env s ino given (flushedTick s ino) := by
      unfold Fits
      rw [htick₁]
      simp only [Db.sizeErrno_congr hquiet₁.kind]
    apply Prog.wp_bind (Prog.wp_and (resize_spec given.size hinv₁ hclean₁)
      (resize_look hinv₁.sound.keys hclean₁))
    · intro _ s₂ hs₂
      obtain ⟨⟨hinv₂, -, hnone, hframe, hclean₂, hbytes⟩, hfits₁, htick₂, hsame, hrow₂⟩ := hs₂
      have hcuts : Cuts env s ino given := ⟨hflush, hfits.mp hfits₁⟩
      have htick : s₂.tick = cutTick s ino given := by
        rw [htick₂, htick₁, cutTick]
      rw [hrow₁] at hrow₂
      rcases hwritten : (s.look ino).written with _ | row
      · rw [hwritten] at hrow₂
        -- a missing inode has no size that could have been set
        have hsize : given.size = none := by
          rcases hgiven : given.size with _ | size
          · rfl
          · have hregular := (Db.sizeErrno_eq_none.mp (hcuts.fits size hgiven).1).1
            rw [Db.kindOf, show s.db.findInode ino = none from written_eq_none hwritten] at hregular
            cases hregular
        rw [hsame hsize] at hinv₂ hclean₂ hrow₂ ⊢
        apply Prog.wp_bind (Prog.wp_and (updateMetadata_spec given.update hinv₂ hclean₂)
          (updateMetadata_missing hrow₂))
        · rintro _ _ ⟨-, ⟨e, he⟩, -⟩
          cases he
        · rintro e s' ⟨⟨hinv', hquiet', -⟩, -, hhidden'⟩
          exact ⟨hinv', .refused (.inr (written_eq_none hwritten)) (hhidden₁.trans hhidden')
            (hquiet₁.trans hquiet')⟩
      · rw [hwritten] at hrow₂
        have hattains : ∀ {s' : Shared} {row' : InodeRow}, Quiet s₂ s' → (s'.file ino).Clean →
            s'.db.findInode ino = some row' → Attains s s' ino given row' := by
          intro s' row' hquiet' hclean' hrow'
          refine ⟨hclean', (hquiet'.bytes ino not_false).trans (hbytes.trans ?_), ?_, hrow'⟩
          · rw [hquiet₁.bytes ino not_false]
          · rw [hquiet'.kind, hframe.kind, hquiet₁.kind]
        apply Prog.wp_bind (Prog.wp_and (updateMetadata_spec given.update hinv₂ hclean₂)
          (updateMetadata_look hinv₂.sound.keys hrow₂))
        · intro inode s' hs'
          obtain ⟨⟨hinv', hquiet', hclean', -⟩, hlook⟩ := hs'
          rcases hlook with ⟨-, ⟨e, he⟩, -⟩ | ⟨hupdate, hrow', ⟨-, e, he⟩ | ⟨hquery, -⟩⟩
          · cases he
          · cases he
          · exact ⟨hinv', .done hcuts hwritten (htick ▸ hupdate) (htick ▸ hquery)
              (hattains hquiet' hclean' hrow')⟩
        · intro e s' hs'
          obtain ⟨⟨hinv', hquiet', hclean', -⟩, hlook⟩ := hs'
          refine ⟨hinv', ?_⟩
          rcases hlook with ⟨hfault, -, hrow'⟩ | ⟨hupdate, hrow', ⟨hfault, -⟩ | ⟨-, inode, he⟩⟩
          · exact .cut hcuts hwritten (htick ▸ hfault) (hattains hquiet' hclean' hrow')
          · exact .updated hcuts hwritten (htick ▸ hupdate) (htick ▸ hfault)
              (hattains hquiet' hclean' hrow')
          · cases he
    · intro e s₂ hs₂
      obtain ⟨⟨hinv₂, hquiet₂, -⟩, hhidden₂, hfits₂⟩ := hs₂
      refine ⟨hinv₂, .refused (.inl ?_) (hhidden₁.trans hhidden₂) (hquiet₁.trans hquiet₂)⟩
      intro hcuts
      exact hfits₂ (hfits.mpr hcuts.fits)
  · intro e s₁ hs₁
    obtain ⟨⟨hinv₁, hquiet₁, -⟩, hhidden₁, hunsaved, hfault⟩ := hs₁
    refine ⟨hinv₁, .refused (.inl ?_) hhidden₁ hquiet₁⟩
    intro hcuts
    exact hfault (hcuts.flush hunsaved)

end Exits

end Fs

end VibeDbfs
