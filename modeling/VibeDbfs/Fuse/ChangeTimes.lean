import VibeDbfs.Fuse.AllOrNothing
import VibeDbfs.Fuse.Dated

/-!
The `ctime` values that the calls of a run report for an inode.
-/

set_option autoImplicit false
set_option relaxedAutoImplicit false

namespace VibeDbfs

open Lib Lib.Bytes Shared

private theorem Db.ctime_of_link {db db' : Db} {ino newParent : Nat} {newName : Name}
    {now : Timestamp} {inode : Inode} (h : db.link ino newParent newName now = .ok (inode, db')) :
    inode.ino = ino ∧ inode.ctime = now ∧
      ∀ r ∈ db'.inodes, r.ino = ino → r.ctimeNs = now.toNs := by
  obtain ⟨-, r, hr, -, -, -, rfl, rfl⟩ := link_cases h
  refine ⟨findInode_ino hr, rfl, fun r' hr' hino => ?_⟩
  obtain ⟨r₂, hr₂, rfl⟩ := List.mem_map.mp hr'
  split
  · rfl
  · next hother =>
    rw [if_neg hother] at hino
    obtain ⟨r₁, -, rfl⟩ := List.mem_map.mp hr₂
    split
    · rfl
    · next hne =>
      rw [if_neg hne] at hino
      exact (hne hino).elim

namespace OpenTable

private theorem WF.find_of_dirty {t : OpenTable} {held : List ArenaSlot} {j : Slot} (h : t.WF held)
    (hdirty : (t.inodes.get j).dirty.isEmpty = false) :
    t.inodes.find (t.inodes.get j).ino = some j := by
  by_cases hlive : j ∈ t.inodes.values
  · exact h.find_of_mem hlive
  · rw [(h.unused j hlive).2] at hdirty
    cases hdirty

end OpenTable

namespace Shared

variable {s : Shared} {held : List ArenaSlot} {busy : Nat → Prop} {ino : Nat}
  {lo hi : SystemTime} {attr : FileAttr}

private theorem stamp_cases (h : s.table.WF held) (ino : Nat) :
    (s.look ino).stamp = none ∧ s.table.Saved ino ∨ ∃ slot,
      (∀ j, (s.table.inodes.get j).ino = ino → (s.table.inodes.get j).dirty.isEmpty = false →
        j = slot) ∧ (s.table.inodes.get slot).ino = ino ∧
      (s.table.inodes.get slot).dirty.isEmpty = false ∧
      (s.look ino).stamp = some (s.table.inodes.get slot).mtime := by
  by_cases hsaved : s.table.Saved ino
  · left
    refine ⟨?_, hsaved⟩
    rcases hf : s.table.inodes.find ino with _ | slot
    · rw [Look.stamp, look, OpenTable.overlay_of_none hf]
      rfl
    · rw [Look.stamp, look, OpenTable.overlay_of_find hf, OpenInode.overlay,
        hsaved slot (h.find_ino hf)]
      rfl
  · right
    rw [OpenTable.Saved, not_forall] at hsaved
    obtain ⟨slot, hslot⟩ := hsaved
    rw [Classical.not_imp, Bool.not_eq_true] at hslot
    obtain ⟨hino, hdirty⟩ := hslot
    have hf : s.table.inodes.find ino = some slot := hino ▸ h.find_of_dirty hdirty
    refine ⟨slot, fun j hj hdirty' => ?_, hino, hdirty, stamp_of_dirty hf hdirty⟩
    have hf' : s.table.inodes.find ino = some j := hj ▸ h.find_of_dirty hdirty'
    exact Option.some.inj (hf'.symm.trans hf)

private theorem ctime_of_look (hattr : (s.look ino).attr = some attr) : ∃ r,
    s.db.findInode ino = some r ∧
      attr.ctime = (s.look ino).stamp.elim (Timestamp.load r.ctimeNs) Timestamp.toSystemTime := by
  obtain ⟨r, hr, rfl⟩ := Option.map_eq_some_iff.mp hattr
  refine ⟨r, hr, ?_⟩
  rw [Look.stamp]
  rcases (s.look ino).overlay with _ | ⟨size, _ | m⟩
  · rfl
  · rfl
  · rfl

private theorem Dated.shown (h : s.Core held busy) (hdated : s.Dated none lo hi ino)
    (hattr : (s.look ino).attr = some attr) : lo ≤ attr.ctime ∧ attr.ctime ≤ hi := by
  obtain ⟨r, hr, hctime⟩ := ctime_of_look hattr
  obtain ⟨hmem, hino⟩ := h.sound.keys.mem_iff.mp hr
  rw [hctime]
  rcases stamp_cases h.table ino with ⟨hnone, hsaved⟩ | ⟨slot, -, hslot, hdirty, hstamp⟩
  · rw [hnone]
    exact ⟨hdated.early hsaved r hmem hino, hdated.late r hmem hino⟩
  · rw [hstamp]
    exact (hdated.slots slot hslot (.inl hdirty)).shown

private theorem Dated.from_shown (h : s.Core held busy) (hexact : Dbfs.Exact s)
    (hdated : s.Dated none lo hi ino) (hattr : (s.look ino).attr = some attr) :
    s.Dated none attr.ctime hi ino := by
  obtain ⟨r, hr, hctime⟩ := ctime_of_look hattr
  rcases stamp_cases h.table ino with ⟨hnone, hsaved⟩ | ⟨slot, hall, hslot, hdirty, hstamp⟩
  · rw [hnone] at hctime
    refine ⟨fun j hino hj => ?_, hdated.late, fun _ r' hr' hino => ?_⟩
    · rw [hsaved j hino] at hj
      rcases hj with hj | hj
      · cases hj
      · cases hj
    · have hsame := hr.symm.trans (h.sound.keys.mem_iff.mpr ⟨hr', hino⟩)
      cases hsame
      exact le_of_eq hctime
  · rw [hstamp] at hctime
    refine ⟨fun j hino hj => ?_, hdated.late, fun hsaved => ?_⟩
    · obtain rfl := hall j hino (hj.resolve_right fun hnone => by cases hnone)
      obtain ⟨hshown, hstored⟩ := hdated.slots j hino hj
      refine ⟨⟨le_of_eq hctime, hshown.2⟩, le_of_eq ?_, hstored.2⟩
      exact hctime.trans (hexact j).symm
    · rw [hsaved slot hslot] at hdirty
      cases hdirty

end Shared

namespace Dbfs

/-- This `link` gives the row of `ino` the time of the clock. -/
def Links (env : Env) (s : Shared) (ino newParent : Nat) (newName : Name) : Prop :=
  env.fault (s.tick + 1) = none ∧
    (s.db.link ino newParent newName (.fromSystemTime (env.clock s.tick))).isOk = true

/-- A `link` that goes through finds no unflushed data older than the clock. A release that has to
delete an inode can do so, or the row is no older than the unflushed data. -/
def Orderly (env : Env) (s : Shared) : Call → Prop
  | .link ino newParent newName => Links env s ino newParent newName →
      ∀ m ∈ (s.look ino).stamp, env.clock s.tick ≤ m.toSystemTime
  | .releaseFile fh => Fs.Deletes s fh → ∀ ino ∈ s.table.handleIno fh, env.fault s.tick = none ∨
      ∀ m ∈ (s.look ino).stamp, ∀ r ∈ (s.look ino).row,
        m.toSystemTime ≤ Timestamp.load r.ctimeNs
  | _ => True

instance (s : Shared) (fh : Nat) : Decidable (Fs.Deletes s fh) :=
  inferInstanceAs (Decidable (∃ slot ∈ s.table.handles.get fh,
    (s.table.inodes.get slot).refs = 1 ∧ (s.table.inodes.get slot).unlinked = true))

instance (env : Env) (s : Shared) (ino newParent : Nat) (newName : Name) :
    Decidable (Links env s ino newParent newName) :=
  inferInstanceAs (Decidable (_ ∧ _))

instance (env : Env) (s : Shared) : ∀ c, Decidable (Orderly env s c)
  | .link ino newParent newName => inferInstanceAs (Decidable (Links env s ino newParent newName →
      ∀ m ∈ (s.look ino).stamp, env.clock s.tick ≤ m.toSystemTime))
  | .releaseFile fh => inferInstanceAs (Decidable (Fs.Deletes s fh →
      ∀ ino ∈ s.table.handleIno fh, env.fault s.tick = none ∨
        ∀ m ∈ (s.look ino).stamp, ∀ r ∈ (s.look ino).row,
          m.toSystemTime ≤ Timestamp.load r.ctimeNs))
  | .getattr .. | .lookup .. | .mkdir .. | .create .. | .symlink .. | .setattr .. | .openFile ..
  | .read .. | .readFh .. | .write .. | .writeFh .. | .fallocate .. | .flushFile .. | .flushFh ..
  | .syncFh .. | .flushAll | .unlink .. | .rmdir .. | .rename .. | .createOpen .. =>
    inferInstanceAs (Decidable True)

/-- The calls whose replies tell the `ctime` of an inode that was there before. -/
def Reports : Call → Bool
  | .getattr .. | .lookup .. | .setattr .. | .link .. => true
  | _ => false

/-- The `ctime` that a reply reports for `ino`. -/
def reportedCtime (ino : Nat) (c : Call) : Except Errno Reply → Option SystemTime
  | .ok (.attr attr) => if Reports c = true ∧ attr.ino = ino then some attr.ctime else none
  | _ => none

/-- The `ctime` values that a run reports for `ino`, in order. -/
def ctimes (env : Env) (ino : Nat) : Shared → List Call → List SystemTime
  | _, [] => []
  | s, c :: calls =>
    (reportedCtime ino c (reply env s c)).toList ++ ctimes env ino (step env s c) calls

variable {env : Env} {s s' : Shared} {held : List ArenaSlot} {busy : Nat → Prop} {ino : Nat}
  {lo hi : SystemTime} {c : Call}

private theorem redates_call (h : s.Inv [] busy) (horderly : Orderly env s c) :
    Prog.wp (call env c) (fun _ s' => Redates env none none s s') s := by
  have hroutine := Fs.redates_routine env none none
  cases c with
  | getattr ino =>
    exact Prog.Within.map _ (.bind (hroutine.getattrRow ino) fun _ => Fs.within_overlayAttr _) s
  | lookup parent name =>
    exact Prog.Within.map _ (.bind (hroutine.lookupRow parent name) fun _ =>
      Fs.within_overlayAttr _) s
  | mkdir parent name mode umask uid gid =>
    exact Prog.Within.map _ (hroutine.createNode parent name _ uid gid) s
  | create parent name mode umask uid gid =>
    exact Prog.Within.map _ (hroutine.createNode parent name _ uid gid) s
  | symlink parent name target uid gid =>
    exact Prog.Within.map _ (hroutine.createNode parent name _ uid gid) s
  | link ino newParent newName => exact Prog.Within.map _ (hroutine.link ino newParent newName) s
  | setattr ino mode uid gid size atime mtime =>
    exact Prog.Within.map _ (hroutine.setattr ino mode uid gid size atime mtime) s
  | openFile ino => exact (Prog.wp_map _ _ _ _).mpr (Fs.redates_openFile h)
  | read ino offset size => exact Prog.Within.map _ (hroutine.read ino offset size) s
  | readFh fh offset size => exact Prog.Within.map _ (hroutine.readFh fh offset size) s
  | write ino offset data => exact (Prog.wp_map _ _ _ _).mpr (Fs.redates_write h)
  | writeFh fh offset data => exact (Prog.wp_map _ _ _ _).mpr (Fs.redates_writeFh h)
  | fallocate ino offset length mode =>
    exact Prog.Within.map _ (hroutine.fallocate ino offset length mode) s
  | flushFile ino => exact Prog.Within.map _ (hroutine.flushFile ino) s
  | flushFh fh => exact Prog.Within.map _ (hroutine.flushFh fh) s
  | syncFh fh => exact Prog.Within.map _ (hroutine.syncFh fh) s
  | flushAll => exact Prog.Within.map _ hroutine.flushAll s
  | releaseFile fh => exact (Prog.wp_map _ _ _ _).mpr (Fs.redates_releaseFh h horderly)
  | unlink parent name => exact (Prog.wp_map _ _ _ _).mpr (Fs.redates_unlink h)
  | rmdir parent name => exact Prog.Within.map _ (hroutine.rmdir parent name) s
  | rename parent name newParent newName flags =>
    exact (Prog.wp_map _ _ _ _).mpr (Fs.redates_rename h)
  | createOpen parent name mode umask uid gid =>
    exact (Prog.wp_map _ _ _ _).mpr (Fs.redates_createOpen h)

private theorem redates_step (h : s.Inv [] busy) (horderly : Orderly env s c) :
    Redates env none none s (step env s c) :=
  Redates.trans (redates_call h horderly) (.of_eq (Nat.le_refl _) rfl rfl)

section Reports

variable {attr : FileAttr} {t : SystemTime}

private theorem attr_of_map {r : Except Errno FileAttr} (h : r.map Reply.attr = .ok (.attr attr)) :
    r = .ok attr := by
  cases r with
  | error e => cases h
  | ok attr' =>
    cases h
    rfl

private theorem look_of_rowReply {row : Except DbError Inode}
    (hrow : ∀ inode, row = .ok inode → ∃ r, s.db.findInode r.ino = some r ∧ r.inode = inode)
    (h : Fs.rowReply env s row = .ok (.attr attr)) : (s.look attr.ino).attr = some attr := by
  unfold Fs.rowReply at h
  split at h
  · cases h
  · split at h
    · cases h
    · next inode =>
      obtain ⟨r, hr, rfl⟩ := hrow inode rfl
      have hattr : (fileAttrFromInode r.inode).under (s.table.overlay r.ino) = attr := by
        cases h
        rfl
      have hino : attr.ino = r.ino := by
        rw [← hattr]
        rcases s.table.overlay r.ino with _ | ⟨size, _ | m⟩
        · rfl
        · rfl
        · rfl
      rw [hino, Look.attr, look, hr]
      exact congrArg some hattr

private theorem look_of_getattr (h : reply env s (.getattr ino) = .ok (.attr attr)) :
    (s.look attr.ino).attr = some attr := by
  rw [reply_getattr] at h
  apply look_of_rowReply _ h
  intro inode hget
  obtain ⟨r, hr, rfl⟩ := Db.find_of_getInode hget
  exact ⟨r, Db.findInode_ino hr ▸ hr, rfl⟩

private theorem look_of_lookup {parent : Nat} {name : Name}
    (h : reply env s (.lookup parent name) = .ok (.attr attr)) :
    (s.look attr.ino).attr = some attr := by
  rw [reply_lookup] at h
  apply look_of_rowReply _ h
  intro inode hlookup
  obtain ⟨-, d, r, -, -, -, hr, rfl⟩ := Db.lookup_cases hlookup
  exact ⟨r, Db.findInode_ino hr ▸ hr, rfl⟩

private theorem updateMetadata_reads (update : MetadataUpdate) (s : Shared) :
    Prog.wp (Fs.updateMetadata env ino update) (fun r s' => ∀ inode, r = .ok inode →
      s'.db.getInode ino = .ok inode) s := by
  rw [Fs.updateMetadata, Fs.wp_now_bind]
  apply Prog.wp_bind (R := fun _ _ => True) trivial
  · intro _ s₁ _
    apply Prog.wp_mono (Fs.query_outcome env _ s₁)
    rintro _ s' ⟨-, -, hdb, hresult⟩ inode rfl
    rw [hdb]
    exact hresult.2
  · rintro e s₁ - inode ⟨⟩

private theorem setattr_shows (given : NewAttrs) (h : s.Inv held busy) :
    Prog.wp (Fs.setattr env ino given.mode given.uid given.gid given.size given.atime given.mtime)
      (fun r s' => ∀ attr, r = .ok attr → (s'.look attr.ino).attr = some attr) s := by
  have hread : Prog.wp
      (Fs.setattr env ino given.mode given.uid given.gid given.size given.atime given.mtime)
      (fun r s' => ∀ attr, r = .ok attr → ∃ inode,
        s'.db.getInode ino = .ok inode ∧ fileAttrFromInode inode = attr) s := by
    rw [Fs.setattr, Fs.wp_table_bind]
    apply Prog.wp_bind (R := fun _ _ => True) trivial
    · intro _ s₁ _
      apply Prog.wp_bind (R := fun _ _ => True) trivial
      · intro _ s₂ _
        apply Prog.wp_bind (updateMetadata_reads _ s₂)
        · rintro inode s' hs' attr ⟨⟩
          exact ⟨inode, hs' inode rfl, rfl⟩
        · rintro e s' - attr ⟨⟩
      · rintro e s₂ - attr ⟨⟩
    · rintro e s₁ - attr ⟨⟩
  apply Prog.wp_mono (Prog.wp_and (Fs.setattr_exit given h) hread)
  rintro r s' ⟨⟨hinv, hexit⟩, hread⟩ attr rfl
  obtain ⟨inode, hget, rfl⟩ := hread attr rfl
  obtain ⟨r, hr, rfl⟩ := Db.find_of_getInode hget
  cases hexit with
  | done hcuts hwritten hupdate hquery hattains =>
    rw [show (fileAttrFromInode r.inode).ino = ino from Db.findInode_ino hr]
    exact Fs.attr_of_clean hinv.toCore hattains.clean hr

private theorem link_reply {newParent : Nat} {newName : Name}
    (h : reply env s (.link ino newParent newName) = .ok (.attr attr)) :
    (step env s (.link ino newParent newName)).table = s.table ∧ env.fault (s.tick + 1) = none ∧
      ∃ inode, s.db.link ino newParent newName (.fromSystemTime (env.clock s.tick)) =
        .ok (inode, (step env s (.link ino newParent newName)).db) ∧
          fileAttrFromInode inode = attr := by
  have hcall : Prog.wp (call env (.link ino newParent newName)) (fun r s' =>
      r = .ok (.attr attr) → s'.table = s.table ∧ env.fault (s.tick + 1) = none ∧
        ∃ inode, s.db.link ino newParent newName (.fromSystemTime (env.clock s.tick)) =
          .ok (inode, s'.db) ∧ fileAttrFromInode inode = attr) s := by
    apply (Prog.wp_map _ _ _ _).mpr
    rw [Fs.link, Fs.wp_now_bind]
    apply Prog.wp_bind (Fs.access_outcome env _ _)
    · rintro inode s' ⟨-, htable, hfault, hlink⟩ hok
      exact ⟨htable, hfault, inode, hlink, Except.ok.inj (attr_of_map hok)⟩
    · rintro e s' - hok
      cases attr_of_map hok
  exact hcall h

end Reports

section Runs

variable {t : SystemTime}

/-- The clock never goes back, and what it shows fits a column. -/
structure Steady (env : Env) : Prop where
  mono : ∀ {m n : Nat}, m ≤ n → env.clock m ≤ env.clock n
  range : ∀ n, 0 ≤ env.clock n ∧ env.clock n ≤ i64Max

private theorem Steady.shown (h : Steady env) (n : Nat) :
    (Timestamp.fromSystemTime (env.clock n)).toSystemTime = env.clock n := by
  rw [Timestamp.fromSystemTime_eq, Timestamp.toSystemTime_eq, Timestamp.signed_fromNs,
    Timestamp.stripped_of_nonneg (h.range n).1]

private theorem Steady.stored (h : Steady env) (n : Nat) :
    Timestamp.load (Timestamp.fromSystemTime (env.clock n)).toNs = env.clock n :=
  (Timestamp.exact_fromSystemTime (h.range n).1 (h.range n).2).trans (h.shown n)

private theorem Steady.between (h : Steady env) {first last : Nat} (hlo : lo ≤ env.clock first) :
    env.Between lo (env.clock last) first last := by
  intro n hfirst hlast
  have hlow := hlo.trans (h.mono hfirst)
  have hhigh := h.mono hlast.le
  constructor
  · rw [h.shown]
    exact ⟨hlow, hhigh⟩
  · rw [h.stored]
    exact ⟨hlow, hhigh⟩

private theorem Steady.exact (h : Steady env) (hexact : Exact s) (c : Call) :
    Exact (step env s c) :=
  hexact.step fun _ n _ _ => h.range n

private theorem Steady.dated (h : Steady env) (hinv : s.Inv [] busy) (horderly : Orderly env s c)
    (hlo : lo ≤ env.clock s.tick) (hdated : s.Dated none lo (env.clock s.tick) ino) :
    (step env s c).Dated none lo (env.clock (step env s c).tick) ino := by
  have hredates := redates_step hinv horderly
  apply hredates.dated lo _ ino
  · intro m hm
    cases hm
  · exact h.between hlo
  · exact hdated.mono (h.mono hredates.tick)

/-- Between two calls: what `ino` shows is not before `lo`, and not after the clock. -/
structure NotBefore (env : Env) (lo : SystemTime) (ino : Nat) (s : Shared) : Prop where
  inv : s.Inv [] fun _ => False
  exact : Exact s
  past : lo ≤ env.clock s.tick
  dated : s.Dated none lo (env.clock s.tick) ino

private theorem NotBefore.next (h : NotBefore env lo ino s) (hsteady : Steady env) (hc : Legal s c)
    (horderly : Orderly env s c) : NotBefore env lo ino (step env s c) where
  inv := (step_keeps env h.inv (Legal.admissible h.inv hc)).inv
  exact := hsteady.exact h.exact c
  past := h.past.trans (hsteady.mono (redates_step h.inv horderly).tick)
  dated := hsteady.dated h.inv horderly h.past h.dated

/-- What an inode shows now is not before what it showed, and it stays so. -/
private theorem NotBefore.shown {attr : FileAttr} (h : NotBefore env lo ino s)
    (hattr : (s.look ino).attr = some attr) : lo ≤ attr.ctime ∧ NotBefore env attr.ctime ino s := by
  obtain ⟨hlo, hhi⟩ := h.dated.shown h.inv.toCore hattr
  exact ⟨hlo, h.inv, h.exact, hhi, h.dated.from_shown h.inv.toCore h.exact hattr⟩

private theorem NotBefore.linked {newParent : Nat} {newName : Name} {attr : FileAttr}
    (h : NotBefore env lo ino s) (hsteady : Steady env) (hc : Legal s (.link ino newParent newName))
    (horderly : Orderly env s (.link ino newParent newName))
    (hreply : reply env s (.link ino newParent newName) = .ok (.attr attr)) :
    lo ≤ attr.ctime ∧ NotBefore env attr.ctime ino (step env s (.link ino newParent newName)) := by
  have hnext := h.next hsteady hc horderly
  obtain ⟨htable, hfault, inode, hlink, rfl⟩ := link_reply hreply
  obtain ⟨-, hctime, hrows⟩ := Db.ctime_of_link hlink
  have hlinks : Links env s ino newParent newName := by
    refine ⟨hfault, ?_⟩
    rw [hlink]
    rfl
  have hshown : (fileAttrFromInode inode).ctime = env.clock s.tick := by
    rw [← hsteady.shown, ← hctime]
    rfl
  rw [hshown]
  refine ⟨h.past, hnext.inv, hnext.exact, hsteady.mono (redates_step h.inv horderly).tick, ?_⟩
  constructor
  · intro j hino hj
    obtain ⟨hupper, hupper'⟩ := hnext.dated.slots j hino hj
    have hexact : Timestamp.load _ = _ := hnext.exact j
    rw [htable] at hino hj hexact hupper hupper' ⊢
    have hdirty := hj.resolve_right fun hnone => by cases hnone
    have hf : s.table.inodes.find ino = some j := hino ▸ h.inv.table.find_of_dirty hdirty
    have holder := horderly hlinks _ (stamp_of_dirty hf hdirty)
    exact ⟨⟨holder, hupper.2⟩, holder.trans_eq hexact.symm, hupper'.2⟩
  · exact hnext.dated.late
  · intro _ r hr hino
    rw [hrows r hr hino, hsteady.stored]

private theorem NotBefore.reports (h : NotBefore env lo ino s) (hsteady : Steady env)
    (hc : Legal s c)
    (horderly : Orderly env s c) (hreport : reportedCtime ino c (reply env s c) = some t) :
    lo ≤ t ∧ NotBefore env t ino (step env s c) := by
  obtain ⟨attr, hreply, hreports, rfl, rfl⟩ : ∃ attr, reply env s c = .ok (.attr attr) ∧
      Reports c = true ∧ attr.ino = ino ∧ attr.ctime = t := by
    unfold reportedCtime at hreport
    split at hreport
    · next attr hreply =>
      split at hreport
      · next hmatch => exact ⟨attr, hreply, hmatch.1, hmatch.2, Option.some.inj hreport⟩
      · cases hreport
    · cases hreport
  cases c with
  | getattr i =>
    obtain ⟨hlo, hshown⟩ := h.shown (look_of_getattr hreply)
    exact ⟨hlo, hshown.next hsteady hc horderly⟩
  | lookup parent name =>
    obtain ⟨hlo, hshown⟩ := h.shown (look_of_lookup hreply)
    exact ⟨hlo, hshown.next hsteady hc horderly⟩
  | setattr i mode uid gid size atime mtime =>
    have hcall : Prog.wp (call env (.setattr i mode uid gid size atime mtime)) (fun r s' =>
        r = .ok (.attr attr) → (s'.look attr.ino).attr = some attr) s := by
      apply (Prog.wp_map _ _ _ _).mpr
      apply Prog.wp_mono (setattr_shows ⟨mode, uid, gid, size, atime, mtime⟩ h.inv)
      intro r s' hr hok
      exact hr attr (attr_of_map hok)
    exact (h.next hsteady hc horderly).shown (hcall hreply)
  | link i newParent newName =>
    obtain ⟨-, -, inode, hlink, rfl⟩ := link_reply hreply
    obtain rfl : inode.ino = i := (Db.ctime_of_link hlink).1
    exact h.linked hsteady hc horderly hreply
  | _ => cases hreports

/-- A run whose calls keep the times in order. -/
def OrderlyCalls (env : Env) (s : Shared) (calls : List Call) : Prop :=
  LegalRun (step env) (Orderly env) s calls

instance (env : Env) (s : Shared) (calls : List Call) : Decidable (OrderlyCalls env s calls) :=
  decidableLegalRun (step env) (Orderly env) s calls

private theorem NotBefore.ctimes (h : NotBefore env lo ino s) (hsteady : Steady env)
    {calls : List Call} (hcalls : LegalCalls env s calls) (horderly : OrderlyCalls env s calls) :
    (lo :: ctimes env ino s calls).Pairwise (· ≤ ·) := by
  induction calls generalizing lo s with
  | nil => exact List.pairwise_singleton _ lo
  | cons c calls ih =>
    obtain ⟨hc, hcalls⟩ := hcalls
    obtain ⟨hfirst, horderly⟩ := horderly
    rw [Dbfs.ctimes]
    rcases hreport : reportedCtime ino c (reply env s c) with _ | t
    · exact ih (h.next hsteady hc hfirst) hcalls horderly
    · obtain ⟨hlo, hnext⟩ := h.reports hsteady hc hfirst hreport
      have hlater := ih hnext hcalls horderly
      refine List.pairwise_cons.mpr ⟨fun t' ht' => ?_, hlater⟩
      rcases List.mem_cons.mp ht' with rfl | hin
      · exact hlo
      · exact hlo.trans ((List.pairwise_cons.mp hlater).1 t' hin)

/-- What the store says of an inode is an earlier reading of the clock. -/
def Earlier (env : Env) (db : Db) (ino : Nat) : Prop :=
  ∀ r ∈ db.findInode ino, Timestamp.load r.ctimeNs ≤ env.clock 0

instance (env : Env) (db : Db) (ino : Nat) : Decidable (Earlier env db ino) :=
  inferInstanceAs (Decidable (∀ r ∈ db.findInode ino, _))

private theorem NotBefore.start {db : Db} (hdb : db.Reached) (writeBuffer : Nat)
    (hearlier : Earlier env db ino) : ∃ lo,
      NotBefore env lo ino (.withWriteBuffer db writeBuffer) := by
  have hrows : ∀ r ∈ db.inodes, r.ino = ino → db.findInode ino = some r := by
    intro r hr hino
    exact hdb.sound.keys.mem_iff.mpr ⟨hr, hino⟩
  have hinv : Shared.Inv [] (fun _ => False) (.withWriteBuffer db writeBuffer) :=
    .withWriteBuffer hdb.sound writeBuffer
  have hslots : ∀ lo, ∀ j, ((Shared.withWriteBuffer db writeBuffer).table.inodes.get j).ino = ino →
      ((Shared.withWriteBuffer db writeBuffer).table.inodes.get j).dirty.isEmpty = false ∨
        (none : Option Slot) = some j →
      Timestamp.Between lo (env.clock 0)
        ((Shared.withWriteBuffer db writeBuffer).table.inodes.get j).mtime := by
    rintro lo j - (hdirty | hwriting)
    · cases hdirty
    · cases hwriting
  rcases hr : db.findInode ino with _ | r
  · refine ⟨env.clock 0, hinv, exact_withWriteBuffer db writeBuffer, le_refl _, hslots _, ?_, ?_⟩
    · intro r hin hino
      cases hr.symm.trans (hrows r hin hino)
    · intro _ r hin hino
      cases hr.symm.trans (hrows r hin hino)
  · refine ⟨Timestamp.load r.ctimeNs, hinv, exact_withWriteBuffer db writeBuffer, hearlier r hr,
      hslots _, ?_, ?_⟩
    · intro r' hin hino
      exact hearlier r' (hrows r' hin hino)
    · intro _ r' hin hino
      cases hr.symm.trans (hrows r' hin hino)
      exact le_refl _

/-- In every run whose calls keep the times in order, the `ctime` values that the calls report for
an inode never go back. -/
theorem ctimes_of_run {db : Db} (hdb : db.Reached) (writeBuffer : Nat) {env : Env}
    (hsteady : Steady env) {ino : Nat} (hearlier : Earlier env db ino) {calls : List Call}
    (hcalls : LegalCalls env (.withWriteBuffer db writeBuffer) calls)
    (horderly : OrderlyCalls env (.withWriteBuffer db writeBuffer) calls) :
    (ctimes env ino (.withWriteBuffer db writeBuffer) calls).Pairwise (· ≤ ·) := by
  obtain ⟨lo, hstart⟩ := NotBefore.start hdb writeBuffer hearlier
  exact (List.pairwise_cons.mp (hstart.ctimes hsteady hcalls horderly)).2

/-- No statement fails, and the clock stands still after a hundred readings. -/
def briefly : Env where
  fault _ := none
  clock n := min n 100 * 1000000000
  order _ slots := slots
  order_perm _ _ := .refl _

private theorem steady_briefly : Steady briefly where
  mono {m n} h := by
    change (min m 100 : Nat) * (1000000000 : Int) ≤ (min n 100 : Nat) * 1000000000
    omega
  range n := by
    change (0 : Int) ≤ (min n 100 : Nat) * 1000000000 ∧
      ((min n 100 : Nat) : Int) * 1000000000 ≤ 9223372036854775807
    omega

def flushedLink : List Call := [
  .createOpen 1 [97] 0o644 0 0 0,
  .writeFh 0 0 [1, 2, 3],
  .getattr 2,
  .flushFh 0,
  .link 2 1 [98],
  .getattr 2,
  .writeFh 0 3 [4],
  .unlink 1 [97],
  .lookup 1 [98],
  .setattr 2 none none none (some 2) none none]

theorem ctimes_of_flushedLink :
    (ctimes briefly 2 (.withWriteBuffer (.fresh 0 0 ⟨0, 0⟩) 65536) flushedLink).Pairwise (· ≤ ·) ∧
      (ctimes briefly 2 (.withWriteBuffer (.fresh 0 0 ⟨0, 0⟩) 65536) flushedLink).length = 5 :=
  ⟨ctimes_of_run (.fresh 0 0 ⟨0, 0⟩) 65536 steady_briefly (by decide) (by decide) (by decide),
    by decide⟩

def bufferedLink : List Call := [
  .createOpen 1 [97] 0o644 0 0 0,
  .writeFh 0 0 [1, 2, 3],
  .link 2 1 [98],
  .getattr 2]

theorem ctimes_of_bufferedLink : ¬∀ (db : Db) (writeBuffer : Nat) (env : Env) (ino : Nat)
    (calls : List Call), db.Reached → Steady env → Earlier env db ino →
      LegalCalls env (.withWriteBuffer db writeBuffer) calls →
        (ctimes env ino (.withWriteBuffer db writeBuffer) calls).Pairwise (· ≤ ·) := by
  intro hclaim
  have hsorted := hclaim (.fresh 0 0 ⟨0, 0⟩) 65536 briefly 2 bufferedLink (.fresh 0 0 ⟨0, 0⟩)
    steady_briefly (by decide) (by decide)
  exact absurd hsorted (by decide)

end Runs

end Dbfs

end VibeDbfs
