import VibeDbfs.Fuse.SetAttr

/-!
A `setattr` that fails after it has cut the file or updated the row leaves what it did. What is
shown then decides whether it can be seen.
-/

set_option autoImplicit false
set_option relaxedAutoImplicit false

namespace VibeDbfs

open Lib Lib.Bytes Shared Fs

/-- The attributes that a `setattr` that fails has to leave as they are. -/
def FileAttr.settings (attr : FileAttr) : Nat × UInt16 × UInt32 × UInt32 × SystemTime :=
  (attr.size, attr.perm, attr.uid, attr.gid, attr.atime)

def Reply.settings : Reply → Option (Nat × UInt16 × UInt32 × UInt32 × SystemTime)
  | .attr shown => some shown.settings
  | _ => none

private theorem Look.Settles.settings {l l' : Look} (h : l.Settles l') :
    l'.attr.map FileAttr.settings = l.attr.map FileAttr.settings := by
  induction h with
  | refl l => rfl
  | save r size modified =>
    simp only [Look.attr, Option.map_some, FileAttr.settings, FileAttr.under, fileAttrFromInode,
      InodeRow.inode, Look.saved]
  | free r =>
    simp only [Look.attr, Option.map_some, FileAttr.settings, FileAttr.under, fileAttrFromInode,
      InodeRow.inode]
  | trans _ _ ih ih' => exact ih'.trans ih

namespace Dbfs

variable {env probe : Env} {s s' : Shared} {held : List ArenaSlot} {busy : Nat → Prop} {ino : Nat}
  {given : NewAttrs} {row : InodeRow}

section Reports

private theorem reply_getattr_look (hk : s.db.Keys) (hhealthy : probe.Healthy) :
    reply probe s (.getattr ino) =
      ((s.look ino).attr.map fun attr => .ok (.attr attr)).getD (.error .ENOENT) := by
  rw [reply_getattr, rowReply_look probe hk, hhealthy]

private theorem reply_read (h : s.Core held busy) (hhealthy : probe.Healthy) (offset size : Nat) :
    reply probe s (.read ino offset size) =
      match s.db.fileErrno ino with
      | some errno => .error errno
      | none => .ok (.data (slice offset size (s.file ino).bytes)) := by
  have hread : Prog.wp (call probe (.read ino offset size)) (fun r _ => r =
      match s.db.fileErrno ino with
      | some errno => .error errno
      | none => .ok (.data (slice offset size (s.file ino).bytes))) s := by
    refine (Prog.wp_map _ _ _ _).mpr (Prog.wp_mono (read_spec h) fun r s' hresult => ?_)
    rcases r with e | data
    · rcases hresult.2 with hfailed | ⟨-, herrno⟩
      · exact (hfailed.2 hhealthy).elim
      · rw [herrno]
        rfl
    · obtain ⟨-, hregular, rfl⟩ := hresult.2
      rw [hregular]
      rfl
  exact hread

private theorem size_of_overlay {size : Nat} {modified : Option Timestamp}
    (h : (s.look ino).overlay = some (size, modified)) : (s.file ino).size = size := by
  rcases hf : s.table.inodes.find ino with _ | slot
  · rw [Shared.look, OpenTable.overlay_of_none hf] at h
    cases h
  · rw [Shared.look, OpenTable.overlay_of_find hf, OpenInode.overlay] at h
    rw [Shared.file, OpenTable.file_of_find hf]
    exact (Prod.mk.inj (Option.some.inj h)).1

private theorem written_timed (htimed : s.db.Timed) (hwritten : (s.look ino).written = some row) :
    row.Timed := by
  unfold Look.written at hwritten
  split at hwritten
  · obtain ⟨r, hr, rfl⟩ := Option.map_eq_some_iff.mp hwritten
    have hr' := htimed r (List.mem_of_find?_eq_some hr)
    exact ⟨hr'.atime, Timestamp.inColumn_toNs _, Timestamp.inColumn_toNs _⟩
  · exact htimed row (List.mem_of_find?_eq_some hwritten)

private theorem attr_written (h : s.Core held busy) (hwritten : (s.look ino).written = some row) :
    ∃ mtime ctime, (s.look ino).attr =
        some { fileAttrFromInode row.inode with mtime := mtime, ctime := ctime } ∧
      (mtime = Timestamp.load row.mtimeNs ↔ (s.look ino).Punctual) ∧
      (s.file ino).size = row.size := by
  by_cases hunsaved : (s.look ino).Unsaved
  · obtain ⟨size, modified, hoverlay⟩ := hunsaved
    rw [Look.written, hoverlay] at hwritten
    obtain ⟨r, hr, rfl⟩ := Option.map_eq_some_iff.mp hwritten
    refine ⟨modified.toSystemTime, modified.toSystemTime, ?_, ⟨?_, ?_⟩, size_of_overlay hoverlay⟩
    · rw [Look.attr, hr, hoverlay]
      simp only [Option.map_some, FileAttr.under, fileAttrFromInode, InodeRow.inode, Look.saved]
    · intro hexact size' modified' hoverlay'
      cases hoverlay.symm.trans hoverlay'
      exact hexact.symm
    · intro hpunctual
      exact (hpunctual size modified hoverlay).symm
  · have hclean := clean_iff_saved.mpr hunsaved
    rw [Look.written_of_saved hunsaved] at hwritten
    refine ⟨_, _, attr_of_clean h hclean hwritten, ⟨?_, fun _ => rfl⟩, ?_⟩
    · intro _ size modified hoverlay
      exact (hunsaved ⟨size, modified, hoverlay⟩).elim
    · exact (File.size_of_clean (h.file_ok ino) hclean).trans (Db.storedSize_of_find hwritten)

end Reports

/-- What is reported of the inode is the same in `s'` as in `s`. -/
structure Unchanged (probe : Env) (s s' : Shared) (ino : Nat) : Prop where
  attr : (reply probe s' (.getattr ino)).map Reply.settings =
    (reply probe s (.getattr ino)).map Reply.settings
  read : ∀ offset size,
    reply probe s' (.read ino offset size) = reply probe s (.read ino offset size)

/-- In `s'` the inode has what was given, and the rest as in `s`. -/
structure TakesEffect (probe : Env) (s s' : Shared) (ino : Nat) (given : NewAttrs) : Prop where
  attr : ∃ before mtime ctime, reply probe s (.getattr ino) = .ok (.attr before) ∧
    reply probe s' (.getattr ino) =
      .ok (.attr { given.appliedTo before with mtime := mtime, ctime := ctime }) ∧
    (given.size = none ∨ given.mtime.isSome → mtime = (given.appliedTo before).mtime)
  read : ∀ offset size, reply probe s' (.read ino offset size) =
    given.size.elim (reply probe s (.read ino offset size)) fun n =>
      .ok (.data (slice offset size (resize n (s.file ino).bytes)))

/-- A `setattr` in `s` does everything it is asked, or nothing. -/
def AllOrNothing (env : Env) (s : Shared) (ino : Nat) (given : NewAttrs) : Prop :=
  ∀ probe : Env, probe.Healthy →
    match reply env s (given.call ino) with
    | .error _ => Unchanged probe s (step env s (given.call ino)) ino
    | .ok _ => TakesEffect probe s (step env s (given.call ino)) ino given

/-- What the update leaves can be seen, where the flush and the truncation succeed: one of its
statements fails after something has changed, or the flush has rounded the time of the data. -/
def Shows (env : Env) (s : Shared) (ino : Nat) (given : NewAttrs) (before : FileAttr) : Prop :=
  match env.fault (cutTick s ino given + 1), env.fault (cutTick s ino given + 2) with
  | some _, _ => given.size.getD before.size ≠ before.size
  | none, some _ => (given.appliedTo before).settings ≠ before.settings
  | none, none => given.size = none ∧ given.mtime = none ∧ ¬(s.look ino).Punctual

/-- The `setattr` leaves a part of what it is asked. -/
def Breaks (env : Env) (s : Shared) (ino : Nat) (given : NewAttrs) : Prop :=
  ∃ before, (s.look ino).attr = some before ∧ Cuts env s ino given ∧ Shows env s ino given before

section Exits

private theorem setattr_call (env : Env) (ino : Nat) (given : NewAttrs)
    (h : s.Inv [] fun _ => False) :
    ∃ r, reply env s (given.call ino) = r.map Reply.attr ∧
      (step env s (given.call ino)).Inv [] (fun _ => False) ∧
      Exit env s ino given r (step env s (given.call ino)) := by
  have hcall : Prog.wp (call env (given.call ino)) (fun r s' =>
      ∃ r', r = r'.map Reply.attr ∧ Exit env s ino given r' s') s :=
    (Prog.wp_map _ _ _ _).mpr (Prog.wp_mono (setattr_exit given h) fun r s' hs' => ⟨r, rfl, hs'.2⟩)
  obtain ⟨r, hreply, hexit⟩ := hcall
  have hadmissible : Admissible (fun _ => False) s (given.call ino) := trivial
  exact ⟨r, hreply, (step_keeps env h hadmissible).inv, hexit.record _⟩

private theorem reply_attains (h : s'.Core held busy) (hhealthy : probe.Healthy) {row' : InodeRow}
    (hattains : Attains s s' ino given row') :
    reply probe s' (.getattr ino) = .ok (.attr (fileAttrFromInode row'.inode)) := by
  rw [reply_getattr_look h.sound.keys hhealthy, attr_of_clean h hattains.clean hattains.row]
  rfl

private theorem read_attains (h : s.Core held busy) (h' : s'.Core held busy)
    (hhealthy : probe.Healthy)
    {row' : InodeRow} (hattains : Attains s s' ino given row') (hcuts : Cuts env s ino given)
    (offset size : Nat) : reply probe s' (.read ino offset size) =
      given.size.elim (reply probe s (.read ino offset size)) fun n =>
        .ok (.data (slice offset size (resize n (s.file ino).bytes))) := by
  rw [reply_read h' hhealthy, reply_read h hhealthy, Db.fileErrno_congr hattains.kind,
    hattains.bytes]
  rcases hgiven : given.size with _ | n
  · rfl
  · have hregular := (Db.sizeErrno_eq_none.mp (hcuts.fits n hgiven).1).1
    rw [Db.fileErrno_eq_none.mpr hregular]
    rfl

private theorem read_same_size (h : s.Core held busy) (hhealthy : probe.Healthy)
    (hcuts : Cuts env s ino given) (hsize : given.size.getD (s.file ino).size = (s.file ino).size)
    (offset size : Nat) : given.size.elim (reply probe s (.read ino offset size)) (fun n =>
      .ok (.data (slice offset size (resize n (s.file ino).bytes)))) =
        reply probe s (.read ino offset size) := by
  rcases hgiven : given.size with _ | n
  · rfl
  · have hregular := (Db.sizeErrno_eq_none.mp (hcuts.fits n hgiven).1).1
    rw [hgiven] at hsize
    obtain rfl : n = (s.file ino).size := hsize
    rw [reply_read h hhealthy, Db.fileErrno_eq_none.mpr hregular, ← File.length_bytes]
    change Except.ok (Reply.data (slice offset size (resize _ (s.file ino).bytes))) = _
    rw [resize_length]

private theorem unchanged_of_hidden (h : s.Core held busy) (h' : s'.Core held busy)
    (hhealthy : probe.Healthy) (hhidden : Hidden s s') (hquiet : Quiet s s') :
    Unchanged probe s s' ino := by
  have hsettings := (hhidden.look ino not_false).settings
  constructor
  · rw [reply_getattr_look h'.sound.keys hhealthy, reply_getattr_look h.sound.keys hhealthy]
    rcases hbefore : (s.look ino).attr with _ | before
    · rw [hbefore] at hsettings
      rw [Option.map_eq_none_iff.mp hsettings]
    · rw [hbefore] at hsettings
      obtain ⟨after, hafter, heq⟩ := Option.map_eq_some_iff.mp hsettings
      rw [hafter]
      exact congrArg (fun settings => Except.ok (some settings)) heq
  · intro offset size
    rw [reply_read h' hhealthy, reply_read h hhealthy, Db.fileErrno_congr hquiet.kind,
      hquiet.bytes ino not_false]

private theorem unchanged_iff (h : s.Core held busy) (h' : s'.Core held busy)
    (hhealthy : probe.Healthy)
    (hcuts : Cuts env s ino given) {row' : InodeRow} (hattains : Attains s s' ino given row')
    {before : FileAttr} (hbefore : (s.look ino).attr = some before)
    (hsize : before.size = (s.file ino).size) (hsize' : row'.size = given.size.getD before.size) :
    Unchanged probe s s' ino ↔
      (fileAttrFromInode row'.inode).settings = before.settings := by
  have hattr : (reply probe s (.getattr ino)).map Reply.settings = .ok (some before.settings) := by
    rw [reply_getattr_look h.sound.keys hhealthy, hbefore]
    rfl
  constructor
  · intro hunchanged
    have hsettings := hunchanged.attr
    rw [hattr, reply_attains h' hhealthy hattains] at hsettings
    exact Option.some.inj (Except.ok.inj hsettings)
  · intro hsettings
    constructor
    · rw [hattr, reply_attains h' hhealthy hattains]
      exact congrArg (fun settings => Except.ok (some settings)) hsettings
    · intro offset size
      have hsame : given.size.getD (s.file ino).size = (s.file ino).size := by
        rw [← hsize, ← hsize']
        exact congrArg Prod.fst hsettings
      rw [read_attains h h' hhealthy hattains hcuts, read_same_size h hhealthy hcuts hsame]

private theorem takesEffect_iff (h : s.Core held busy) (h' : s'.Core held busy)
    (hhealthy : probe.Healthy)
    (hcuts : Cuts env s ino given) {row' : InodeRow} (hattains : Attains s s' ino given row')
    {before : FileAttr} (hbefore : (s.look ino).attr = some before) {mtime ctime : SystemTime}
    (hafter : fileAttrFromInode row'.inode =
      { given.appliedTo before with mtime := mtime, ctime := ctime }) :
    TakesEffect probe s s' ino given ↔
      (given.size = none ∨ given.mtime.isSome → mtime = (given.appliedTo before).mtime) := by
  have hattr : reply probe s (.getattr ino) = .ok (.attr before) := by
    rw [reply_getattr_look h.sound.keys hhealthy, hbefore]
    rfl
  have hattr' := reply_attains h' hhealthy hattains
  rw [hafter] at hattr'
  constructor
  · rintro ⟨⟨before', mtime', ctime', hshown, hshown', hkept⟩, -⟩
    cases hattr.symm.trans hshown
    have hsame := Reply.attr.inj (Except.ok.inj (hattr'.symm.trans hshown'))
    have hmtime : mtime = mtime' := congrArg FileAttr.mtime hsame
    rw [hmtime]
    exact hkept
  · intro hkept
    exact ⟨⟨before, mtime, ctime, hattr, hattr', hkept⟩, read_attains h h' hhealthy hattains hcuts⟩

private theorem breaks_iff (hcuts : Cuts env s ino given) {before : FileAttr}
    (hbefore : (s.look ino).attr = some before) :
    Breaks env s ino given ↔ Shows env s ino given before := by
  constructor
  · rintro ⟨before', hbefore', -, hshows⟩
    cases hbefore.symm.trans hbefore'
    exact hshows
  · intro hshows
    exact ⟨before, hbefore, hcuts, hshows⟩

private theorem forall_healthy {P : Env → Prop} {Q : Prop}
    (h : ∀ probe : Env, probe.Healthy → (P probe ↔ Q)) :
    (∀ probe : Env, probe.Healthy → P probe) ↔ Q := by
  have hcalm : calm.Healthy := fun _ => rfl
  constructor
  · intro hall
    exact (h calm hcalm).mp (hall calm hcalm)
  · intro hq probe hhealthy
    exact (h probe hhealthy).mpr hq

private theorem allOrNothing_iff (h : s.Inv [] fun _ => False) (htimed : s.db.Timed) :
    AllOrNothing env s ino given ↔ ¬Breaks env s ino given := by
  obtain ⟨r, hreply, hinv', hexit⟩ := setattr_call env ino given h
  unfold AllOrNothing
  rw [hreply]
  generalize step env s (given.call ino) = s' at hinv' hexit ⊢
  cases hexit with
  | refused hrefused hhidden hquiet =>
    constructor
    · rintro - ⟨before, hshown, hcuts, -⟩
      rcases hrefused with hcut | hrow
      · exact hcut hcuts
      · rw [Look.attr, hrow] at hshown
        cases hshown
    · intro _ probe hhealthy
      exact unchanged_of_hidden h.toCore hinv'.toCore hhealthy hhidden hquiet
  | @cut _ _ row _ hcuts hwritten hfault hattains =>
    obtain ⟨mtime, ctime, hbefore, -, hsize⟩ := attr_written h.toCore hwritten
    obtain ⟨failure, hfailure⟩ := Option.ne_none_iff_exists'.mp hfault
    rw [breaks_iff hcuts hbefore, Shows, hfailure]
    apply forall_healthy
    intro probe hhealthy
    refine (unchanged_iff h.toCore hinv'.toCore hhealthy hcuts hattains hbefore hsize.symm
      rfl).trans ?_
    rw [not_not]
    constructor
    · intro hsettings
      exact congrArg Prod.fst hsettings
    · intro hsame
      exact Prod.ext hsame rfl
  | @updated _ _ row _ _ hcuts hwritten hupdate hfault hattains =>
    obtain ⟨mtime, ctime, hbefore, -, hsize⟩ := attr_written h.toCore hwritten
    obtain ⟨failure, hfailure⟩ := Option.ne_none_iff_exists'.mp hfault
    rw [breaks_iff hcuts hbefore, Shows, hupdate, hfailure]
    apply forall_healthy
    intro probe hhealthy
    refine (unchanged_iff h.toCore hinv'.toCore hhealthy hcuts hattains hbefore hsize.symm
      rfl).trans ?_
    rw [not_not, NewAttrs.attr_appliedTo (written_timed htimed hwritten)]
    exact Iff.rfl
  | @done _ _ row cut changed hcuts hwritten hupdate hquery hattains =>
    obtain ⟨mtime, ctime, hbefore, hpunctual, hsize⟩ := attr_written h.toCore hwritten
    rw [breaks_iff hcuts hbefore, Shows, hupdate, hquery]
    apply forall_healthy
    intro probe hhealthy
    refine (takesEffect_iff h.toCore hinv'.toCore hhealthy hcuts hattains hbefore
      (NewAttrs.attr_appliedTo (written_timed htimed hwritten))).trans ?_
    -- a time that is not given is the one that the flush has left, if the file was not cut
    change (_ → _ = given.mtime.elim mtime NewAttrs.kept) ↔ _
    rw [← hpunctual]
    rcases hmtime : given.mtime with _ | time
    · rcases hgiven : given.size with _ | size
      · rw [NewAttrs.cutRow_of_none hgiven]
        constructor
        · rintro hkept ⟨-, -, hrounded⟩
          exact hrounded (hkept (.inl rfl)).symm
        · intro hexact _
          by_contra hrounded
          exact hexact ⟨rfl, rfl, fun h => hrounded h.symm⟩
      · constructor
        · rintro - ⟨hnone, -⟩
          cases hnone
        · rintro - (hnone | hsome)
          · cases hnone
          · cases hsome
    · constructor
      · rintro - ⟨-, hnone, -⟩
        cases hnone
      · intro _ _
        rfl

end Exits

/-- In any state that a legal run reaches, `setattr` does all or nothing exactly if no statement of
its update fails after something that is shown has changed, and no time is rounded. -/
theorem allOrNothing_of_run {db : Db} (hdb : db.Reached) (writeBuffer : Nat) (env : Env)
    (calls : List Call) (hcalls : LegalCalls env (.withWriteBuffer db writeBuffer) calls)
    (ino : Nat) (given : NewAttrs) :
    AllOrNothing env (run env (.withWriteBuffer db writeBuffer) calls) ino given ↔
      ¬Breaks env (run env (.withWriteBuffer db writeBuffer) calls) ino given :=
  allOrNothing_iff (inv_of_run hdb writeBuffer hcalls).1
    (timed_run (.withWriteBuffer hdb.timed writeBuffer) calls).1

def writtenFile : List Call := [.createOpen 1 [97] 0o644 0 0 0, .writeFh 0 0 [1, 2, 3]]

def emptied : NewAttrs := ⟨none, none, none, some 0, none, none⟩

theorem allOrNothing_of_writtenFile :
    AllOrNothing calm (run calm (.withWriteBuffer (.fresh 0 0 ⟨0, 0⟩) 65536) writtenFile) 2
      emptied := by
  refine (allOrNothing_of_run (.fresh 0 0 ⟨0, 0⟩) 65536 calm writtenFile (by decide) 2
    emptied).mpr ?_
  rintro ⟨before, -, -, hnone, -⟩
  cases hnone

def failsAtUpdate : Env := { calm with fault := fun n => if n = 8 then some .full else none }

/-- The call fails, and the file is empty. -/
theorem allOrNothing_false :
    LegalCalls failsAtUpdate (.withWriteBuffer (.fresh 0 0 ⟨0, 0⟩) 65536) writtenFile ∧
      ¬AllOrNothing failsAtUpdate
        (run failsAtUpdate (.withWriteBuffer (.fresh 0 0 ⟨0, 0⟩) 65536) writtenFile) 2 emptied := by
  refine ⟨by decide, fun hall => ?_⟩
  have hcalm : calm.Healthy := fun _ => rfl
  have hunchanged := hall calm hcalm
  rw [show reply failsAtUpdate (run failsAtUpdate (.withWriteBuffer (.fresh 0 0 ⟨0, 0⟩) 65536)
    writtenFile) (emptied.call 2) = .error .ENOSPC from by decide] at hunchanged
  have hattr := hunchanged.attr
  revert hattr
  decide

end Dbfs

end VibeDbfs
