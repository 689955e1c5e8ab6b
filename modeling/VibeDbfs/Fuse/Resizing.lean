import VibeDbfs.Fuse.Calls
import VibeDbfs.Fuse.Flushing

/-!
Truncation, `setattr` and `fallocate`: the content of one file is cut or extended with zeros.
-/

set_option autoImplicit false
set_option relaxedAutoImplicit false

namespace VibeDbfs

open Lib Lib.Bytes Shared

variable {s s' : Shared} {env : Env} {held : List ArenaSlot} {busy touched : Nat → Prop}
  {ino size : Nat} {slot : Slot}

namespace Db

variable {db db' : Db} {now : Timestamp}

/-- Why `ino` is not a file with bytes. -/
def fileErrno (db : Db) (ino : Nat) : Option Errno :=
  match db.kindOf ino with
  | none => some .ENOENT
  | some kind => kind.regularFileError.map errnoFromDbError

/-- Why the file `ino` cannot have `size` bytes. -/
def sizeErrno (db : Db) (ino size : Nat) : Option Errno :=
  (db.fileErrno ino).orElse fun _ => if maxFileSize < size then some .EFBIG else none

theorem fileErrno_eq_none : db.fileErrno ino = none ↔ db.kindOf ino = some .regularFile := by
  unfold fileErrno
  rcases db.kindOf ino with _ | k
  · simp
  · simp

theorem sizeErrno_eq_none : db.sizeErrno ino size = none ↔
    db.kindOf ino = some .regularFile ∧ size ≤ maxFileSize := by
  rw [← fileErrno_eq_none, sizeErrno]
  rcases db.fileErrno ino with _ | e
  · simp
  · simp

theorem fileErrno_congr (h : db'.kindOf ino = db.kindOf ino) :
    db'.fileErrno ino = db.fileErrno ino := by
  rw [fileErrno, fileErrno, h]

theorem sizeErrno_congr (h : db'.kindOf ino = db.kindOf ino) :
    db'.sizeErrno ino size = db.sizeErrno ino size := by
  rw [sizeErrno, sizeErrno, fileErrno_congr h]

theorem truncateFile_error (hkeys : db.Keys) {error : DbError}
    (h : db.truncateFile ino size now = .error error) :
    db.sizeErrno ino size = some (errnoFromDbError error) := by
  rw [truncateFile] at h
  rcases hk : db.inodeKindOf ino with e | k
  · obtain ⟨hnone, rfl⟩ := hkeys.inodeKindOf_error hk
    rw [hk] at h
    obtain rfl := Except.error.inj h
    rw [sizeErrno, fileErrno, hnone]
    rfl
  · rw [hk] at h
    rw [sizeErrno, fileErrno, kindOf_of_read hk]
    cases k with
    | regularFile =>
      change (if size > maxFileSize then _ else _) = _ at h
      split at h
      · next hmax =>
        obtain rfl := Except.error.inj h
        exact if_pos hmax
      · cases h
    | directory =>
      obtain rfl := Except.error.inj h
      rfl
    | symlink =>
      obtain rfl := Except.error.inj h
      rfl

theorem file_of_same (h : SameData db db') (hnames : db'.names = db.names) (j : Nat) :
    db'.file j = db.file j :=
  file_congr (h.kind j) (congrFun (congrArg Names.nlink hnames) j) (h.size j) h.chunks

end Db

namespace Shared

private theorem Inv.of_same (h : s.Inv held busy) (hsound : s'.db.Sound)
    (hfile : ∀ j, s'.db.file j = s.db.file j) (htable : s'.table = s.table)
    (hmoments : s'.moments = s.moments) : s'.Inv held busy := by
  refine h.of_core ⟨hsound, htable ▸ h.table, fun j o ho => ?_, htable ▸ h.directory,
    hmoments ▸ h.chronicle⟩ hmoments fun j hnamed => ⟨?_, by rw [hfile]⟩
  · rw [hfile]
    exact h.live j o (htable ▸ ho)
  · have hkind : s'.db.kindOf j = s.db.kindOf j := congrArg StoredFile.kind (hfile j)
    have hnlink : s'.db.nlinkOf j = s.db.nlinkOf j := congrArg StoredFile.nlink (hfile j)
    rw [Db.Named, hkind, hnlink] at hnamed
    exact hnamed

private theorem Frame.of_same (hnames : s'.db.names = s.db.names)
    (hsymlinks : s'.db.symlinkTargets = s.db.symlinkTargets)
    (hfile : ∀ j, s'.db.file j = s.db.file j) (htable : s'.table = s.table) :
    Frame touched s s' := by
  have hfiles : ∀ j, s'.file j = s.file j := fun j => by rw [file, file, hfile, htable]
  refine ⟨hnames, hsymlinks, fun j _ => by rw [hfiles], fun j _ => ?_, fun j => by rw [hfiles],
    fun j => by rw [hfiles], fun fh => by rw [htable], by rw [htable], by rw [htable]⟩
  rw [hfiles]
  exact fun hc => hc

theorem Frame.kind (h : Frame touched s s') : s'.db.kindOf ino = s.db.kindOf ino :=
  congrFun (congrArg Names.kind h.names) ino

theorem Frame.nlink (h : Frame touched s s') : s'.db.nlinkOf ino = s.db.nlinkOf ino :=
  congrFun (congrArg Names.nlink h.names) ino

end Shared

namespace Fs

theorem flushIfOpen_spec (h : s.Inv held busy) :
    Prog.wp (ifSome (s.table.inodes.find ino) fun slot => flushSlot env slot .persist) (fun r s' =>
      s'.Inv held busy ∧ Quiet s s' ∧
        (∀ i, s'.table.inodes.find i = s.table.inodes.find i) ∧
        match r with
        | .ok _ => s'.failures = s.failures ∧ (s'.file ino).Clean
        | .error _ => env.Failed s s') s := by
  rcases hf : s.table.inodes.find ino with _ | slot
  · refine ⟨h, Frame.refl s, fun _ => rfl, rfl, fun o ho => ?_⟩
    exact nomatch (OpenTable.file_eq_none.mpr hf).symm.trans ho
  · refine Prog.wp_mono (flushSlot_spec .persist h hf) ?_
    rintro r s' ⟨hinv, hquiet, hfind, -, hresult⟩
    refine ⟨hinv, hquiet, hfind, ?_⟩
    rcases r with e | ⟨⟩
    · exact ⟨hresult.1, hresult.2.1⟩
    · exact ⟨hresult.1, hresult.2.resolve_right fun hskip => nomatch hskip.2⟩

private theorem cut_core (h : s.Core held busy) (hc : (s.file ino).Clean)
    (hkind : s.db.kindOf ino = some .regularFile) (hmax : size ≤ maxFileSize) {t : OpenTable}
    (hwf : t.WF held) (hhandles : ∀ fh, t.handleIno fh = s.table.handleIno fh)
    (hclosing : t.closing = s.table.closing)
    (hslots : t.arena.maxSlots = s.table.arena.maxSlots)
    (hfiles : ∀ j, t.file j =
      if j = ino then (s.table.file ino).map fun o => { o with size := size } else s.table.file j)
    (tick : Nat) (modified : Timestamp) :
    let s' := { s with
      tick := tick, db := (s.db.cutAt ino size).setSize ino size modified, table := t }
    s'.Core held busy ∧ (s'.file ino).Clean ∧ Frame (fun i => i = ino) s s' ∧
      (s'.file ino).bytes = resize size (s.file ino).bytes ∧ ∀ j, j ≠ ino → s'.file j =
        s.file j := by
  intro s'
  have hstored : ∀ j, s'.db.file j = if j = ino then (s.db.file ino).cut size else s.db.file j :=
    Db.file_cutAt h.sound hkind hmax
  have hother : ∀ j, j ≠ ino → s'.file j = s.file j := fun j hj => by
    rw [Shared.file, hstored, if_neg hj, (hfiles j).trans (if_neg hj)]
    rfl
  have hself : s'.file ino =
      ⟨(s.db.file ino).cut size, (s.table.file ino).map fun o => { o with size := size }⟩ := by
    rw [Shared.file, hstored, if_pos rfl, (hfiles ino).trans (if_pos rfl)]
  have hclean : (s'.file ino).Clean := by
    rw [hself]
    intro o ho
    obtain ⟨o', ho', rfl⟩ := Option.map_eq_some_iff.mp ho
    exact hc o' ho'
  obtain ⟨hok, hcut⟩ := File.cut_spec (h.sound.file_ok ino) hmax
  have hlive : ∀ j o, s'.table.file j = some o → o.Agrees (s'.db.file j) := by
    intro j o ho
    rw [hstored]
    rw [show s'.table.file j = _ from hfiles j] at ho
    split at ho
    · next heq =>
      obtain ⟨o', ho', rfl⟩ := Option.map_eq_some_iff.mp ho
      rw [if_pos heq]
      exact File.agrees_cut (h.live ino o' ho') (hc o' ho') hmax
    · next hne =>
      rw [if_neg hne]
      exact h.live j o ho
  have hsound : s'.db.Sound := h.sound.of_owned (h.sound.keys.cutAt.setSize size modified)
    (Db.names_setSize.trans Db.names_cutAt) (h.sound.owned.cutAt h.sound.keys hkind hmax)
    (Db.cutAt_rows s.db ino size).2.2
  have hcore : s'.Core held busy := by
    refine ⟨hsound, hwf, hlive, fun j o ho hd => ?_, h.chronicle⟩
    rw [show s'.table.file j = _ from hfiles j] at ho
    split at ho
    · next heq =>
      obtain ⟨o', ho', rfl⟩ := Option.map_eq_some_iff.mp ho
      exact heq ▸ h.directory ino o' ho' hd
    · exact h.directory j o ho hd
  refine ⟨hcore, hclean, Frame.of_file (Db.names_setSize.trans Db.names_cutAt)
    (Db.cutAt_rows s.db ino size).2.2 hother (fun hne => (hne rfl).elim) ?_ ?_ hhandles hclosing
    hslots, ?_,
    hother⟩
  · rw [hself, Shared.file]
    rcases s.table.file ino with _ | o <;> rfl
  · rw [hself, Shared.file]
    rcases s.table.file ino with _ | o <;> rfl
  · rw [hcore.bytes_of_clean hclean, h.bytes_of_clean hc, hstored, if_pos rfl]
    exact hcut

private theorem cut_record (h : s.Inv held busy) (hcore : s'.Core held busy)
    (hclean : (s'.file ino).Clean)
    (hnames : s'.db.names = s.db.names) (hother : ∀ j, j ≠ ino → s'.file j = s.file j)
    (hmoments : s'.moments = s.moments) : (s'.record fun _ => false).Inv held busy := by
  refine hcore.record _ fun j hnamed => ?_
  by_cases heq : j = ino
  · subst heq
    exact .inl (hcore.bytes_of_clean hclean)
  · have hstored : s'.db.file j = s.db.file j := congrArg File.stored (hother j heq)
    refine .inr ⟨rfl, ?_⟩
    rw [hstored, hmoments]
    exact h.since j ((Db.named_congr hnames).mp hnamed)

theorem truncateLocked_spec (h : s.Inv held busy) :
    Prog.wp (truncateLocked env ino size) (fun r s' => s'.Inv held busy ∧
      match r with
      | .ok _ => s'.failures = s.failures ∧ s.db.sizeErrno ino size = none ∧
          Frame (fun i => i = ino) s s' ∧ (s'.file ino).Clean ∧
          (s'.file ino).bytes = resize size (s.file ino).bytes
      | .error e => Quiet s s' ∧ (env.Failed s s' ∨
          s'.failures = s.failures ∧ s.db.sizeErrno ino size = some e)) s := by
  rw [truncateLocked, wp_table_bind]
  refine Prog.wp_bind (flushIfOpen_spec h) (fun ⟨⟩ s₁ hs₁ => ?_) fun e s₁ hs₁ => ?_
  · obtain ⟨hinv, hquiet, hfind, hfailures, hclean⟩ := hs₁
    rw [wp_now_bind, Prog.wp_bind_iff]
    refine wp_exec (fun failure hfault => ?_) (fun error herror => ?_) fun db hdb => ?_
    · refine ⟨hinv.of_eq rfl rfl rfl, hquiet.trans (Frame.of_eq rfl rfl), .inl ⟨?_, ?_⟩⟩
      · exact Nat.lt_succ_of_le hfailures.ge
      · exact env.not_healthy hfault
    · refine ⟨hinv.of_eq rfl rfl rfl, hquiet.trans (Frame.of_eq rfl rfl), .inr ⟨hfailures, ?_⟩⟩
      rw [← Db.sizeErrno_congr hquiet.kind]
      exact Db.truncateFile_error hinv.sound.keys herror
    · obtain ⟨hkind, hmax, rfl⟩ := Db.truncateFile_cases hdb
      have hnone : s.db.sizeErrno ino size = none :=
        Db.sizeErrno_eq_none.mpr ⟨hquiet.kind.symm.trans hkind, hmax⟩
      rw [← hfind ino]
      rcases hf : s₁.table.inodes.find ino with _ | slot
      · obtain ⟨hcore, hclean', hframe, hbytes, hother⟩ := cut_core hinv.toCore hclean hkind hmax
          hinv.table (fun _ => rfl) rfl rfl (fun j => by
            split
            · next heq => rw [heq, OpenTable.file_eq_none.mpr hf]; rfl
            · rfl) (s₁.tick + 1 + 1) (.fromSystemTime (env.clock s₁.tick))
        exact ⟨cut_record hinv hcore hclean' hframe.names hother rfl, hfailures, hnone,
          hquiet.frame.trans (hframe.trans (Frame.of_eq rfl rfl)), hclean',
          hbytes.trans (congrArg _ (hquiet.bytes ino not_false))⟩
      · obtain ⟨hcore, hclean', hframe, hbytes, hother⟩ := cut_core hinv.toCore hclean hkind hmax
          (hinv.table.updateSlot (f := fun o => { o with size := size }) hf (fun _ => rfl)
            (fun _ => rfl) fun _ => rfl)
          (hinv.table.handleIno_updateSlot hf fun _ => rfl) rfl rfl
          (fun j => (hinv.table.file_updateSlot hf j).trans (by
            rw [OpenTable.file_of_find hf]; rfl))
          (s₁.tick + 1 + 1) (.fromSystemTime (env.clock s₁.tick))
        obtain ⟨hcore₂, hquiet₂, -, hother₂, -⟩ := freeIfIdle_core hcore hf
        have hframe₂ := hframe.trans hquiet₂.frame
        have hclean₂ := hquiet₂.clean ino not_false hclean'
        exact ⟨cut_record hinv hcore₂ hclean₂ hframe₂.names
            (fun j hj => (hother₂ j hj).trans (hother j hj)) rfl, hfailures, hnone,
          hquiet.frame.trans (hframe₂.trans (Frame.of_eq rfl rfl)), hclean₂,
          (hquiet₂.bytes ino not_false).trans (hbytes.trans
            (congrArg _ (hquiet.bytes ino not_false)))⟩
  · obtain ⟨hinv, hquiet, -, hfailed⟩ := hs₁
    exact ⟨hinv, hquiet, .inl hfailed⟩

/-- The reply shows the size of the file, buffered data included. -/
def ShowsSize (s : Shared) (attr : FileAttr) : Prop := attr.size = (s.file attr.ino).size

theorem showsSize_of_row (h : s.Core held busy) (hc : (s.file ino).Clean) {r : InodeRow}
    (hr : s.db.findInode ino = some r) : ShowsSize s (fileAttrFromInode r.inode) := by
  obtain rfl := Db.findInode_ino hr
  exact (Db.storedSize_of_find hr).symm.trans (File.size_of_clean (h.file_ok r.ino) hc).symm

/-- What `setattr` leaves of the content. -/
def resized : Option Nat → Bytes → Bytes
  | some size, bytes => resize size bytes
  | none, bytes => bytes

theorem persist_spec (h : s.Inv held busy) :
    Prog.wp (ifSome (s.table.inodes.find ino) fun slot => do
      flushSlot env slot .persist
      freeIfIdle slot) (fun r s' =>
      s'.Inv held busy ∧ Quiet s s' ∧
        match r with
        | .ok _ => s'.failures = s.failures ∧ (s'.file ino).Clean
        | .error _ => env.Failed s s') s := by
  rcases hf : s.table.inodes.find ino with _ | slot
  · refine ⟨h, Frame.refl s, rfl, fun o ho => ?_⟩
    exact nomatch (OpenTable.file_eq_none.mpr hf).symm.trans ho
  · refine Prog.wp_mono (flushFree_spec .persist h hf) ?_
    rintro r s' ⟨hinv, hquiet, -, -, hresult⟩
    refine ⟨hinv, hquiet, ?_⟩
    rcases r with e | ⟨⟩
    · exact ⟨hresult.1, hresult.2.1⟩
    · exact ⟨hresult.1, hresult.2.resolve_right fun hskip => nomatch hskip.2⟩

theorem resize_spec (size : Option Nat) (h : s.Inv held busy) (hc : (s.file ino).Clean) :
    Prog.wp (ifSome size fun size => truncateLocked env ino size) (fun r s' =>
      s'.Inv held busy ∧
        match r with
        | .ok _ => s'.failures = s.failures ∧ (∀ n ∈ size, s.db.sizeErrno ino n = none) ∧
            Frame (fun i => i = ino ∧ size.isSome) s s' ∧ (s'.file ino).Clean ∧
            (s'.file ino).bytes = resized size (s.file ino).bytes
        | .error e => Quiet s s' ∧ (env.Failed s s' ∨
            s'.failures = s.failures ∧ ∃ n ∈ size, s.db.sizeErrno ino n = some e)) s := by
  rcases size with _ | size
  · exact ⟨h, rfl, nofun, Frame.refl s, hc, rfl⟩
  · refine Prog.wp_mono (truncateLocked_spec h) ?_
    rintro r s' ⟨hinv, hresult⟩
    refine ⟨hinv, ?_⟩
    rcases r with e | ⟨⟩
    · exact ⟨hresult.1, hresult.2.imp_right fun he => ⟨he.1, size, rfl, he.2⟩⟩
    · obtain ⟨hfailures, hnone, hframe, hclean, hbytes⟩ := hresult
      exact ⟨hfailures, fun n hn => Option.some.inj hn ▸ hnone, hframe.mono fun i hi => ⟨hi, rfl⟩,
        hclean, hbytes⟩

private theorem updateMetadata_error {db : Db} (hk : db.Keys) {update : MetadataUpdate}
    {modified : Timestamp}
    {error : DbError} (h : db.updateMetadata ino update modified = .error error) :
    db.kindOf ino = none ∧ error = .notFound := by
  rw [Db.updateMetadata] at h
  rcases hget : db.getInode ino with e | inode
  · rw [hget] at h
    obtain rfl := Except.error.inj h
    exact hk.getInode_error hget
  · rw [hget] at h
    cases h

theorem updateMetadata_spec (update : MetadataUpdate) (h : s.Inv held busy)
    (hc : (s.file ino).Clean) :
    Prog.wp (updateMetadata env ino update) (fun r s' =>
      s'.Inv held busy ∧ Quiet s s' ∧ (s'.file ino).Clean ∧
        match r with
        | .ok inode => s'.failures = s.failures ∧ inode.ino = ino ∧
            s'.db.kindOf ino = some inode.kind ∧ ShowsSize s' (fileAttrFromInode inode)
        | .error e => env.Failed s s' ∨
            s'.failures = s.failures ∧ s.db.kindOf ino = none ∧ e = .ENOENT) s := by
  rw [updateMetadata, wp_now_bind, Prog.wp_bind_iff]
  refine wp_exec (fun failure hfault => ?_) (fun error herror => ?_) fun db hdb => ?_
  · exact ⟨h.of_eq rfl rfl rfl, Frame.of_eq rfl rfl, hc, .inl ⟨Nat.lt_succ_self _,
      env.not_healthy hfault⟩⟩
  · obtain ⟨hnone, rfl⟩ := updateMetadata_error h.sound.keys herror
    exact ⟨h.of_eq rfl rfl rfl, Frame.of_eq rfl rfl, hc, .inr ⟨rfl, hnone, rfl⟩⟩
  · obtain ⟨hsame, hnames⟩ := Db.sameData_updateMetadata hdb
    have hfile := Db.file_of_same hsame hnames
    have hinv : ∀ tick failures, Shared.Inv held busy
        { s with tick := tick, failures := failures, db := db } := fun tick failures =>
      h.of_same (h.sound.updateMetadata hdb) hfile rfl rfl
    have hquiet : ∀ tick failures, Quiet s
        { s with tick := tick, failures := failures, db := db } := fun tick failures =>
      Frame.of_same hnames hsame.symlinks hfile rfl
    have hclean := (hquiet s.tick s.failures).clean ino not_false hc
    refine wp_query (fun failure hfault => ?_) (fun error herror => ?_) fun inode hget => ?_
    · exact ⟨hinv _ _, hquiet _ _, hclean, .inl ⟨Nat.lt_succ_self _, env.not_healthy hfault⟩⟩
    · obtain ⟨hnone, -⟩ := (hinv 0 0).sound.keys.getInode_error herror
      have hsome := (Db.updateMetadata_cases hdb).1
      rw [← hsame.kind ino, hnone] at hsome
      cases hsome
    · obtain ⟨r, hr, rfl⟩ := Db.find_of_getInode hget
      exact ⟨hinv _ _, hquiet _ _, hclean, rfl, Db.findInode_ino hr, Db.kindOf_of_find hr,
        showsSize_of_row (hinv _ _).toCore hclean hr⟩

theorem setattr_spec (mode uid gid : Option UInt32) (size : Option Nat)
    (atime mtime : Option SystemTime) (h : s.Inv held busy) :
    Prog.wp (setattr env ino mode uid gid size atime mtime) (fun r s' =>
      s'.Inv held busy ∧ Frame (fun i => i = ino ∧ size.isSome) s s' ∧ Steady s s' ∧
        match r with
        | .ok attr => s'.failures = s.failures ∧ (∀ n ∈ size, s.db.sizeErrno ino n = none) ∧
            attr.ino = ino ∧ s'.db.kindOf ino = some attr.kind ∧ ShowsSize s' attr ∧
            (s'.file ino).Clean ∧ (s'.file ino).bytes = resized size (s.file ino).bytes
        | .error e => env.Failed s s' ∨ s'.failures = s.failures ∧ Quiet s s' ∧
            ((∃ n ∈ size, s.db.sizeErrno ino n = some e) ∨ s.db.kindOf ino = none ∧ e = .ENOENT))
              s := by
  rw [setattr, wp_table_bind]
  refine Prog.wp_bind (persist_spec h) (fun ⟨⟩ s₁ hs₁ => ?_) fun e s₁ hs₁ => ?_
  · obtain ⟨hinv, hquiet, hfailures, hclean⟩ := hs₁
    have hsizes : ∀ n, s₁.db.sizeErrno ino n = s.db.sizeErrno ino n := fun n =>
      Db.sizeErrno_congr hquiet.kind
    refine Prog.wp_bind (resize_spec size hinv hclean) (fun ⟨⟩ s₂ hs₂ => ?_) fun e s₂ hs₂ => ?_
    · obtain ⟨hinv₂, hfailures₂, hnone, hframe, hclean₂, hbytes⟩ := hs₂
      refine Prog.wp_bind (updateMetadata_spec _ hinv₂ hclean₂) (fun inode s' hs' => ?_)
        fun e s' hs' => ?_
      · obtain ⟨hinv', hquiet', hclean', hfailures', hino, hkind, hsize⟩ := hs'
        have hframe' := hquiet.frame.trans (hframe.trans hquiet'.frame)
        refine ⟨hinv', hframe', steady_of_frame hframe' fun i hi => hi.1 ▸ hclean',
          hfailures'.trans (hfailures₂.trans hfailures), fun n hn => hsizes n ▸ hnone n hn, hino,
          hkind, hsize, hclean', (hquiet'.bytes ino not_false).trans ?_⟩
        rw [hbytes, hquiet.bytes ino not_false]
      · obtain ⟨hinv', hquiet', hclean', herror⟩ := hs'
        have hframe' := hquiet.frame.trans (hframe.trans hquiet'.frame)
        refine ⟨hinv', hframe', steady_of_frame hframe' fun i hi => hi.1 ▸ hclean', ?_⟩
        rcases herror with hfailed | ⟨hfailures', hmissing, rfl⟩
        · exact .inl ⟨(hfailures₂.trans hfailures) ▸ hfailed.1, hfailed.2⟩
        · right
          -- an inode that is missing was not resized
          have hmissing' : s.db.kindOf ino = none := by
            rw [← hquiet.kind, ← hframe.kind, hmissing]
          rcases size with _ | n
          · exact ⟨hfailures'.trans (hfailures₂.trans hfailures),
              hquiet.trans ((hframe.mono fun i hi => nomatch hi.2).trans hquiet'),
              .inr ⟨hmissing', rfl⟩⟩
          · have hregular := (Db.sizeErrno_eq_none.mp (hsizes n ▸ hnone n rfl)).1
            rw [hmissing'] at hregular
            cases hregular
    · obtain ⟨hinv₂, hquiet₂, herror⟩ := hs₂
      have hquiet' : Quiet s s₂ := hquiet.trans hquiet₂
      refine ⟨hinv₂, hquiet'.frame, steady_of_quiet hquiet', ?_⟩
      rcases herror with hfailed | ⟨hfailures₂, n, hn, he⟩
      · exact .inl ⟨hfailures ▸ hfailed.1, hfailed.2⟩
      · exact .inr ⟨hfailures₂.trans hfailures, hquiet', .inl ⟨n, hn, hsizes n ▸ he⟩⟩
  · obtain ⟨hinv, hquiet, hfailed⟩ := hs₁
    exact ⟨hinv, hquiet.frame, steady_of_quiet hquiet, .inl hfailed⟩

section Fallocate

variable {offset length : Int} {mode : UInt32}

/-- The end of the file that `fallocate` asks for, if its arguments ask for one. -/
def fallocateStop (offset length : Int) (mode : UInt32) : Option Nat :=
  if mode &&& fallocFlKeepSize ≠ 0 then none else some (offset + length).toNat

theorem eq_zero_of_masks {flags mask : UInt32} (h : flags &&& ~~~mask = 0)
    (h' : ¬flags &&& mask ≠ 0) : flags = 0 := by
  rw [not_not] at h'
  have hall : flags &&& mask ||| flags &&& ~~~mask = flags := by
    refine UInt32.toBitVec_inj.mp ?_
    rw [UInt32.toBitVec_or, UInt32.toBitVec_and, UInt32.toBitVec_and, UInt32.toBitVec_not,
      ← BitVec.and_or_distrib_left, BitVec.or_not_self, BitVec.and_allOnes]
  rw [← hall, h, h', UInt32.or_zero]

/-- The arguments that `fallocate` accepts. -/
structure Fallocates (db : Db) (ino : Nat) (offset length : Int) (mode : UInt32) : Prop where
  nonneg : 0 ≤ offset
  pos : 0 < length
  flags : mode &&& ~~~fallocFlKeepSize = 0
  kind : db.kindOf ino = some .regularFile
  max : offset + length ≤ maxFileSize

theorem fallocateCheck_spec
    (hread : s.db.kindOf ino = some .regularFile → s.db.inodeKindOf ino = .ok .regularFile) :
    Prog.wp (fallocateCheck env ino offset length mode) (fun r s' =>
      s'.db = s.db ∧ s'.table = s.table ∧ s'.moments = s.moments ∧
        match r with
        | .ok stop => s'.failures = s.failures ∧ Fallocates s.db ino offset length mode ∧
            stop = fallocateStop offset length mode
        | .error _ => env.Failed s s' ∨
            s'.failures = s.failures ∧ ¬Fallocates s.db ino offset length mode) s := by
  unfold fallocateCheck
  split
  · next hrange =>
    refine ⟨rfl, rfl, rfl, .inr ⟨rfl, fun hfits => ?_⟩⟩
    have hoffset := hfits.nonneg
    have hlength := hfits.pos
    omega
  · next hrange =>
    rw [not_or, Int.not_lt, Int.not_le] at hrange
    split
    · next hmode => exact ⟨rfl, rfl, rfl, .inr ⟨rfl, fun hfits => hmode hfits.flags⟩⟩
    · next hmode =>
      refine (Prog.wp_bind_iff _ _ _ _).mpr ?_
      refine wp_query (fun failure hfault => ?_) (fun error herror => ?_) fun kind hkind => ?_
      · exact ⟨rfl, rfl, rfl, .inl ⟨Nat.lt_succ_self _, env.not_healthy hfault⟩⟩
      · refine ⟨rfl, rfl, rfl, .inr ⟨rfl, fun hfits => ?_⟩⟩
        cases herror.symm.trans (hread hfits.kind)
      · dsimp only
        replace hkind := Db.kindOf_of_read hkind
        split
        · next hregular =>
          refine ⟨rfl, rfl, rfl, .inr ⟨rfl, fun hfits => hregular ?_⟩⟩
          exact Option.some.inj (hkind.symm.trans hfits.kind)
        · next hregular =>
          rw [not_not] at hregular
          have hfile : s.db.kindOf ino = some .regularFile := hregular ▸ hkind
          split
          · next hbig =>
            refine ⟨rfl, rfl, rfl, .inr ⟨rfl, fun hfits => ?_⟩⟩
            have hmax := hfits.max
            simp only [maxFileSize, i64Max] at hmax hbig
            omega
          · split
            · next hbig =>
              refine ⟨rfl, rfl, rfl, .inr ⟨rfl, fun hfits => ?_⟩⟩
              have hmax := hfits.max
              omega
            · next hmax =>
              have hfits : Fallocates s.db ino offset length mode :=
                ⟨hrange.1, hrange.2, not_not.mp hmode, hfile, by omega⟩
              split
              · next hkeep => exact ⟨rfl, rfl, rfl, rfl, hfits, (if_pos hkeep).symm⟩
              · next hkeep => exact ⟨rfl, rfl, rfl, rfl, hfits, (if_neg hkeep).symm⟩

theorem inodeHead_eq_ok {db : Db} {head : FileKind × Nat} (h : db.inodeHead ino = .ok head) :
    db.kindOf ino = some head.1 ∧ head.2 = db.storedSize ino := by
  rcases head with ⟨kind, size⟩
  obtain ⟨r, hr, rfl, rfl⟩ := Db.head_of_read h
  exact ⟨Db.kindOf_of_find hr, (Db.storedSize_of_find hr).symm⟩

theorem currentSize_spec (hk : s.db.Keys) :
    Prog.wp (currentSize env ino) (fun r s' =>
      s'.db = s.db ∧ s'.table = s.table ∧ s'.moments = s.moments ∧
        match r with
        | .ok size => s'.failures = s.failures ∧ size = (s.file ino).size
        | .error _ => env.Failed s s' ∨ s'.failures = s.failures ∧ s.db.kindOf ino = none) s := by
  rw [currentSize, wp_table_bind]
  rcases hf : s.table.inodes.find ino with _ | slot
  · refine (Prog.wp_bind_iff _ _ _ _).mpr ?_
    refine wp_query (fun failure hfault => ?_) (fun error herror => ?_) fun head hhead => ?_
    · exact ⟨rfl, rfl, rfl, .inl ⟨Nat.lt_succ_self _, env.not_healthy hfault⟩⟩
    · exact ⟨rfl, rfl, rfl, .inr ⟨rfl, (hk.inodeHead_error herror).1⟩⟩
    · refine ⟨rfl, rfl, rfl, rfl, (inodeHead_eq_ok hhead).2.trans ?_⟩
      rw [Shared.file, OpenTable.file_eq_none.mpr hf]
      rfl
  · refine ⟨rfl, rfl, rfl, rfl, ?_⟩
    rw [Shared.file, OpenTable.file_of_find hf]
    rfl

theorem fallocateLocked_spec (stop : Option Nat) (h : s.Inv held busy) :
    Prog.wp (fallocateLocked env ino stop) (fun r s' =>
      s'.Inv held busy ∧ Frame (fun i => i = ino) s s' ∧ Steady s s' ∧
        match r with
        | .ok _ => s'.failures = s.failures ∧ (s'.file ino).bytes =
            resized (stop.map (max (s.file ino).size)) (s.file ino).bytes
        | .error _ => Quiet s s' ∧ (env.Failed s s' ∨ s'.failures = s.failures ∧
            (s.db.kindOf ino ≠ some .regularFile ∨ ∃ n ∈ stop, maxFileSize < n))) s := by
  rcases stop with _ | stop
  · exact ⟨h, Frame.refl s, fun _ hs => hs, rfl, rfl⟩
  · rw [fallocateLocked]
    refine Prog.wp_bind (currentSize_spec h.sound.keys) (fun size s₁ hs₁ => ?_) fun e s₁ hs₁ => ?_
    · obtain ⟨hdb, htable, hmoments, hfailures, rfl⟩ := hs₁
      have hinv := h.of_eq hdb htable hmoments
      have hquiet : Quiet s s₁ := Frame.of_eq hdb htable
      split
      · next hle =>
        refine ⟨hinv, hquiet.frame, steady_of_quiet hquiet, hfailures, ?_⟩
        change _ = resize (max (s.file ino).size stop) (s.file ino).bytes
        rw [Nat.max_eq_left hle, ← File.length_bytes, resize_length]
        exact hquiet.bytes ino not_false
      · next hgt =>
        refine Prog.wp_mono (truncateLocked_spec hinv) ?_
        rintro r s' ⟨hinv', hresult⟩
        rcases r with e | ⟨⟩
        · have hquiet' : Quiet s s' := hquiet.trans hresult.1
          refine ⟨hinv', hquiet'.frame, steady_of_quiet hquiet', hquiet', ?_⟩
          rcases hresult.2 with hfailed | ⟨hfailures', herrno⟩
          · exact .inl ⟨hfailures ▸ hfailed.1, hfailed.2⟩
          · refine .inr ⟨hfailures'.trans hfailures, Classical.byContradiction fun hnot => ?_⟩
            rw [not_or, not_not] at hnot
            rw [Db.sizeErrno_congr hquiet.kind, Db.sizeErrno_eq_none.mpr ⟨hnot.1,
              Nat.le_of_not_lt fun hlt => hnot.2 ⟨stop, rfl, hlt⟩⟩] at herrno
            cases herrno
        · obtain ⟨hfailures', -, hframe, hclean, hbytes⟩ := hresult
          have hframe' := hquiet.frame.trans hframe
          refine ⟨hinv', hframe', steady_of_frame hframe' fun i hi => hi ▸ hclean,
            hfailures'.trans hfailures, ?_⟩
          change _ = resize (max (s.file ino).size stop) (s.file ino).bytes
          rw [Nat.max_eq_right (Nat.le_of_not_le hgt), hbytes, hquiet.bytes ino not_false]
    · obtain ⟨hdb, htable, hmoments, herror⟩ := hs₁
      have hquiet : Quiet s s₁ := Frame.of_eq hdb htable
      exact ⟨h.of_eq hdb htable hmoments, hquiet.frame, steady_of_quiet hquiet, hquiet,
        herror.imp_right fun he => ⟨he.1, .inl (by rw [he.2]; nofun)⟩⟩

theorem fallocate_spec (h : s.Inv held busy) :
    Prog.wp (fallocate env ino offset length mode) (fun r s' =>
      s'.Inv held busy ∧ Frame (fun i => i = ino) s s' ∧ Steady s s' ∧
        match r with
        | .ok _ => s'.failures = s.failures ∧ Fallocates s.db ino offset length mode ∧
            (s'.file ino).bytes =
              resized ((fallocateStop offset length mode).map (max (s.file ino).size))
                (s.file ino).bytes
        | .error _ => Quiet s s' ∧ (env.Failed s s' ∨
            s'.failures = s.failures ∧ ¬Fallocates s.db ino offset length mode)) s := by
  rw [fallocate]
  refine Prog.wp_bind (fallocateCheck_spec h.sound.keys.inodeKindOf_eq_ok.mpr)
    (fun stop s₁ hs₁ => ?_) fun e s₁ hs₁ => ?_
  · obtain ⟨hdb, htable, hmoments, hfailures, hfits, rfl⟩ := hs₁
    have hquiet : Quiet s s₁ := Frame.of_eq hdb htable
    have hfile : s₁.file ino = s.file ino := by rw [Shared.file, hdb, htable]; rfl
    refine Prog.wp_mono (fallocateLocked_spec _ (h.of_eq hdb htable hmoments)) ?_
    rintro r s' ⟨hinv, hframe, hsteady, hresult⟩
    refine ⟨hinv, hquiet.frame.trans hframe, (steady_of_quiet hquiet).trans hsteady, ?_⟩
    rcases r with e | ⟨⟩
    · refine ⟨hquiet.trans hresult.1, hresult.2.imp (fun hf => ⟨hfailures ▸ hf.1, hf.2⟩)
        fun he => ?_⟩
      -- what the check accepted cannot fail
      rcases he.2 with hkind | ⟨n, hn, hbig⟩
      · exact (hkind (hdb ▸ hfits.kind)).elim
      · have hmax := hfits.max
        rw [fallocateStop] at hn
        split at hn
        · cases hn
        · obtain rfl := Option.some.inj hn
          omega
    · exact ⟨hresult.1.trans hfailures, hfits, hfile ▸ hresult.2⟩
  · obtain ⟨hdb, htable, hmoments, herror⟩ := hs₁
    have hquiet : Quiet s s₁ := Frame.of_eq hdb htable
    exact ⟨h.of_eq hdb htable hmoments, hquiet.frame, steady_of_quiet hquiet, hquiet, herror⟩

end Fallocate

end Fs

end VibeDbfs
