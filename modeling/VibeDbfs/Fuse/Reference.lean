import VibeDbfs.Fuse.Lifetimes

/-!
The reference model of the file data: each inode is one byte sequence. Every read of a run from a
new database returns the slice that the model returns.
-/

set_option autoImplicit false
set_option relaxedAutoImplicit false

namespace VibeDbfs

open Lib Lib.Bytes Shared

/-- The bytes of each inode, and the inode behind each name and each handle. -/
structure Reference where
  bytes : Nat → Bytes
  names : Nat → Name → Option Nat
  handles : Nat → Option Nat

namespace Reference

def empty : Reference := ⟨fun _ => [], fun _ _ => none, fun _ => none⟩

def Alive (m : Reference) (ino : Nat) : Prop :=
  (∃ parent name, m.names parent name = some ino) ∨ ∃ fh, m.handles fh = some ino

def setBytes (m : Reference) (ino : Nat) (bytes : Bytes) : Reference :=
  { m with bytes := fun i => if i = ino then bytes else m.bytes i }

private theorem setBytes_self (m : Reference) (ino : Nat) : m.setBytes ino (m.bytes ino) = m := by
  have hbytes : (m.setBytes ino (m.bytes ino)).bytes = m.bytes := by
    funext i
    change (if i = ino then m.bytes ino else m.bytes i) = m.bytes i
    split
    · next heq => rw [heq]
    · rfl
  exact congrArg (fun bytes => { m with bytes := bytes }) hbytes

def setName (m : Reference) (parent : Nat) (name : Name) (child : Option Nat) : Reference :=
  { m with names := fun p n => if p = parent ∧ n = name then child else m.names p n }

def setHandle (m : Reference) (fh : Nat) (ino : Option Nat) : Reference :=
  { m with handles := fun k => if k = fh then ino else m.handles k }

def write (m : Reference) (ino offset : Nat) (data : Bytes) : Reference :=
  if offset + data.length ≤ maxFileSize then m.setBytes ino (written offset data (m.bytes ino))
  else m

/-- `fallocate` extends the file, with the size kept or for unusable arguments not. -/
def fallocate (m : Reference) (ino : Nat) (offset length : Int) (mode : UInt32) : Reference :=
  if mode = 0 ∧ 0 ≤ offset ∧ 0 < length ∧ offset + length ≤ maxFileSize then
    m.setBytes ino (resize (max (m.bytes ino).length (offset + length).toNat) (m.bytes ino))
  else m

/-- The model after a call. Of the reply it takes only the new numbers, and whether a change of the
names took place. -/
def step (m : Reference) : Call → Except Errno Reply → Reference
  | .write ino offset data, _ => m.write ino offset data
  | .writeFh fh offset data, _ =>
    match m.handles fh with
    | some ino => m.write ino offset data
    | none => m
  | .setattr ino _ _ _ (some size) _ _, _ =>
    if size ≤ maxFileSize then m.setBytes ino (resize size (m.bytes ino)) else m
  | .fallocate ino offset length mode, _ => m.fallocate ino offset length mode
  | .openFile ino, .ok (.opened fh) => m.setHandle fh (some ino)
  | .createOpen parent name _ _ _ _, .ok (.created attr fh) =>
    ((m.setBytes attr.ino []).setName parent name (some attr.ino)).setHandle fh (some attr.ino)
  | .releaseFile fh, _ => m.setHandle fh none
  | .link ino newParent newName, .ok _ => m.setName newParent newName (some ino)
  | .unlink parent name, .ok _ => m.setName parent name none
  | .rename parent name newParent newName _, .ok _ =>
    if parent = newParent ∧ name = newName then m
    else (m.setName parent name none).setName newParent newName (m.names parent name)
  | _, _ => m

def writeReply (offset : Nat) (data : Bytes) : Except Errno Reply :=
  if data ≠ [] ∧ maxFileSize < offset + data.length then .error .EFBIG
  else .ok (.written (data.length % 4294967296))

def Expects (m : Reference) : Call → Except Errno Reply → Prop
  | .read ino offset size, r =>
    (m.Alive ino → r = .ok (.data (slice offset size (m.bytes ino)))) ∧
      (¬m.Alive ino → r.isOk = false)
  | .readFh fh offset size, r => r =
    match m.handles fh with
    | some ino => .ok (.data (slice offset size (m.bytes ino)))
    | none => .error .EBADF
  | .write ino offset data, r => m.Alive ino → r = writeReply offset data
  | .writeFh fh offset data, r => r =
    match m.handles fh with
    | some _ => writeReply offset data
    | none => .error .EBADF
  | .setattr ino _ _ _ (some size) _ _, r =>
    m.Alive ino → (r.isOk = true ↔ size ≤ maxFileSize)
  | _, _ => True

end Reference

namespace Db

/-- An entry `name` of directory `parent` names `ino`. -/
def Entry (db : Db) (parent : Nat) (name : Name) (ino : Nat) : Prop :=
  ∃ d ∈ db.dirents, d.parentIno = parent ∧ d.name = name ∧ d.childIno = ino

variable {db db' : Db} {parent newParent child ino p : Nat} {name newName n : Name}

private theorem entry_added {d : Dirent} (hdirents : db'.dirents = db.dirents ++ [d])
    (hfree : Names.Free db.dirents d.parentIno d.name) :
    db'.Entry p n ino ↔ if p = d.parentIno ∧ n = d.name then d.childIno =
      ino else db.Entry p n ino := by
  rw [Entry, hdirents]
  split
  · next heq =>
    obtain ⟨rfl, rfl⟩ := heq
    constructor
    · rintro ⟨e, he, hp, hn, rfl⟩
      rcases List.mem_append.mp he with he | he
      · exact (hfree e he (by rw [hp, hn])).elim
      · rw [List.mem_singleton.mp he]
    · intro hchild
      exact ⟨d, List.mem_append_right _ (List.mem_singleton_self d), rfl, rfl, hchild⟩
  · next hne =>
    constructor
    · rintro ⟨e, he, hp, hn, hchild⟩
      rcases List.mem_append.mp he with he | he
      · exact ⟨e, he, hp, hn, hchild⟩
      · rw [List.mem_singleton.mp he] at hp hn
        exact (hne ⟨hp.symm, hn.symm⟩).elim
    · rintro ⟨e, he, hrest⟩
      exact ⟨e, List.mem_append_left _ he, hrest⟩

private theorem entry_dropped (hdirents : db'.dirents = (db.deleteDirent parent name).dirents) :
    db'.Entry p n ino ↔ ¬(p = parent ∧ n = name) ∧ db.Entry p n ino := by
  rw [Entry, hdirents]
  constructor
  · rintro ⟨e, he, rfl, rfl, hchild⟩
    obtain ⟨hmem, hne⟩ := List.mem_filter.mp he
    exact ⟨of_decide_eq_true hne, e, hmem, rfl, rfl, hchild⟩
  · rintro ⟨hne, e, he, rfl, rfl, hchild⟩
    exact ⟨e, List.mem_filter.mpr ⟨he, decide_eq_true hne⟩, rfl, rfl, hchild⟩

private theorem entry_moved
    (hdirents : db'.dirents = (db.moveDirent parent name newParent newName).dirents) :
    db'.Entry p n ino ↔ (p = newParent ∧ n = newName) ∧ db.Entry parent name ino ∨
      ¬(p = parent ∧ n = name) ∧ db.Entry p n ino := by
  rw [Entry, hdirents]
  constructor
  · rintro ⟨e', he', hp, hn, hchild⟩
    obtain ⟨e, he, rfl⟩ := List.mem_map.mp he'
    by_cases hmoved : e.parentIno = parent ∧ e.name = name
    · rw [if_pos hmoved] at hp hn hchild
      exact .inl ⟨⟨hp.symm, hn.symm⟩, e, he, hmoved.1, hmoved.2, hchild⟩
    · rw [if_neg hmoved] at hp hn hchild
      exact .inr ⟨by rwa [← hp, ← hn], e, he, hp, hn, hchild⟩
  · rintro (⟨⟨rfl, rfl⟩, e, he, hp, hn, hchild⟩ | ⟨hne, e, he, hp, hn, hchild⟩)
    · refine ⟨_, List.mem_map.mpr ⟨e, he, rfl⟩, ?_⟩
      rw [if_pos ⟨hp, hn⟩]
      exact ⟨rfl, rfl, hchild⟩
    · refine ⟨_, List.mem_map.mpr ⟨e, he, rfl⟩, ?_⟩
      rw [if_neg (by rwa [hp, hn])]
      exact ⟨hp, hn, hchild⟩

end Db

structure Refines (m : Reference) (s : Shared) : Prop where
  regular : ∀ ino ≠ 1, ∀ k, s.db.kindOf ino = some k → k = .regularFile
  names : ∀ parent name ino, m.names parent name = some ino ↔ s.db.Entry parent name ino
  handles : ∀ fh, s.table.handleIno fh = m.handles fh
  opened : ∀ fh ino, m.handles fh = some ino → ino ≠ 1
  bytes : ∀ ino ≠ 1, (s.db.kindOf ino).isSome → (s.file ino).bytes = m.bytes ino
  closing : s.table.closing = false

namespace Refines

variable {m m' : Reference} {s s' : Shared} {env : Env} {busy touched : Nat → Prop}
  {ino parent newParent fh : Nat} {name newName : Name}

private theorem regularFile (h : Refines m s) (hne : ino ≠ 1) (hsome : (s.db.kindOf ino).isSome) :
    s.db.kindOf ino = some .regularFile := by
  obtain ⟨k, hk⟩ := Option.isSome_iff_exists.mp hsome
  rw [hk, h.regular ino hne k hk]

private theorem alive_iff (h : Refines m s) (hinv : s.Inv [] busy) (hr : s.Reclaims) :
    m.Alive ino ↔ ino ≠ 1 ∧ (s.db.kindOf ino).isSome := by
  constructor
  · rintro (⟨p, n, hname⟩ | ⟨fh, hfh⟩)
    · obtain ⟨d, hd, -, -, rfl⟩ := (h.names p n ino).mp hname
      exact ⟨hinv.sound.tree.rootUnnamed d hd, hinv.sound.tree.child d hd⟩
    · refine ⟨h.opened fh ino hfh, ?_⟩
      obtain ⟨slot, hget, rfl⟩ := Option.map_eq_some_iff.mp ((h.handles fh).trans hfh)
      have hf := hinv.table.find_of_handle hget
      exact Option.isSome_of_eq_some (hinv.kindOf (OpenTable.file_of_find hf))
  · rintro ⟨hne, hsome⟩
    rcases Dbfs.named_or_open hinv hr hne hsome with ⟨d, hd, rfl⟩ | ⟨fh, hfh⟩
    · exact .inl ⟨d.parentIno, d.name, (h.names ..).mpr ⟨d, hd, rfl, rfl, rfl⟩⟩
    · exact .inr ⟨fh, (h.handles fh).symm.trans hfh⟩

private theorem ne_root (hinv : s.Inv [] busy) (hkind : s.db.kindOf ino = some .regularFile) :
    ino ≠ 1 := by
  rintro rfl
  exact nomatch hkind.symm.trans hinv.sound.tree.root

private theorem of_frame (h : Refines m s) (hframe : Frame (fun i => i = ino) s s') {bytes : Bytes}
    (hbytes : s.db.kindOf ino = some .regularFile → (s'.file ino).bytes = bytes) :
    Refines (m.setBytes ino bytes) s' where
  regular j hj k hk := h.regular j hj k (hframe.kind.symm.trans hk)
  names p n i := (h.names p n i).trans (by
    have hdirents : s'.db.dirents = s.db.dirents := congrArg Names.entries hframe.names
    rw [Db.Entry, Db.Entry, hdirents])
  handles k := (hframe.handles k).trans (h.handles k)
  opened := h.opened
  bytes j hj hsome := by
    have hsome' : (s.db.kindOf j).isSome := hframe.kind ▸ hsome
    change _ = if j = ino then bytes else m.bytes j
    split
    · next heq =>
      subst heq
      exact hbytes (h.regularFile hj hsome')
    · next hne => exact (hframe.bytes j hne).trans (h.bytes j hj hsome')
  closing := hframe.closing.trans h.closing

private theorem of_quiet (h : Refines m s) (hquiet : Quiet s s') : Refines m s' where
  regular j hj k hk := h.regular j hj k (hquiet.kind.symm.trans hk)
  names p n i := (h.names p n i).trans (by
    have hdirents : s'.db.dirents = s.db.dirents := congrArg Names.entries hquiet.names
    rw [Db.Entry, Db.Entry, hdirents])
  handles k := (hquiet.handles k).trans (h.handles k)
  opened := h.opened
  bytes j hj hsome := (hquiet.bytes j not_false).trans (h.bytes j hj (hquiet.kind ▸ hsome))
  closing := hquiet.closing.trans h.closing

private theorem held (h : s.Inv [] busy) (hr : s.Reclaims) (hsome : (s.db.kindOf ino).isSome) :
    s.Held ino := by
  rcases Nat.eq_zero_or_pos (s.db.nlinkOf ino) with hzero | hpos
  · obtain ⟨slot, hf, hrefs, -⟩ := Dbfs.slot_of_nameless h hr ⟨hsome, hzero⟩
    refine .inr ?_
    rw [Shared.file, OpenTable.file_of_find hf]
    exact hrefs
  · exact .inl hpos

private theorem of_kept (h : Refines m s) (hinv : s'.Inv [] busy) (hr : s'.Reclaims)
    (hkept : Kept s s') (hkind : ∀ i, (s'.db.kindOf i).isSome → s'.db.kindOf i = s.db.kindOf i)
    (hbytes : m'.bytes = m.bytes)
    (hnames : ∀ p n i, m'.names p n = some i ↔ s'.db.Entry p n i)
    (hhandles : ∀ fh, s'.table.handleIno fh = m'.handles fh)
    (hopened : ∀ fh i, m'.handles fh = some i → i ≠ 1) : Refines m' s' where
  regular j hj k hk := h.regular j hj k ((hkind j (Option.isSome_of_eq_some hk)).symm.trans hk)
  names := hnames
  handles := hhandles
  opened := hopened
  bytes j hj hsome := by
    have hsome' : (s.db.kindOf j).isSome := hkind j hsome ▸ hsome
    rw [hbytes, hkept.bytes j hsome' (held hinv hr hsome)]
    exact h.bytes j hj hsome'
  closing := hkept.closing.trans h.closing

section Data

variable {offset size : Nat} {data : Bytes}

private theorem writeErrno_eq (h : Refines m s) (hkind : s.db.kindOf ino = some .regularFile) :
    s.writeErrno ino offset data.length =
      if data.length ≠ 0 ∧ maxFileSize < offset + data.length then some .EFBIG else none := by
  rw [Shared.writeErrno, Db.fileErrno_eq_none.mpr hkind, h.closing]
  rfl

private theorem of_write (h : Refines m s) (hinv : s.Inv [] busy) (hhealthy : env.Healthy)
    {r : Except Errno Nat} (hresult : Fs.WriteResult env s s' ino offset data r) :
    Refines (m.write ino offset data) s' ∧ (ino ≠ 1 → (s.db.kindOf ino).isSome →
      r.map Reply.written = Reference.writeReply offset data) := by
  obtain ⟨hframe, -, hresult⟩ := hresult
  have hlength : data.length ≠ 0 ↔ data ≠ [] := by rw [Ne, List.length_eq_zero_iff]
  rcases r with e | n
  · rcases hresult with hfailed | ⟨-, hquiet, herrno⟩
    · exact (hfailed.1.2 hhealthy).elim
    · by_cases hkind : s.db.kindOf ino = some .regularFile
      · rw [h.writeErrno_eq hkind] at herrno
        split at herrno
        · next hbig =>
          obtain rfl := Option.some.inj herrno
          rw [Reference.write, if_neg (Nat.not_le.mpr hbig.2)]
          exact ⟨h.of_quiet hquiet, fun _ _ => (if_pos ⟨hlength.mp hbig.1, hbig.2⟩).symm⟩
        · cases herrno
      · refine ⟨?_, fun hne hsome => (hkind (h.regularFile hne hsome)).elim⟩
        rw [Reference.write]
        split
        · exact h.of_frame hquiet.frame fun hk => (hkind hk).elim
        · exact h.of_quiet hquiet
  · obtain ⟨-, rfl, hbytes, hnone⟩ := hresult
    have hfits : data ≠ [] → s.db.kindOf ino = some .regularFile → offset + data.length ≤
        maxFileSize :=
      fun hne hkind => by
        have herrno := hnone hne
        rw [h.writeErrno_eq hkind] at herrno
        by_contra hbig
        rw [if_pos ⟨hlength.mpr hne, Nat.not_le.mp hbig⟩] at herrno
        cases herrno
    constructor
    · rw [Reference.write]
      split
      · refine h.of_frame hframe fun hkind => ?_
        rw [hbytes, h.bytes ino (ne_root hinv hkind) (by rw [hkind]; rfl)]
      · next hbig =>
        rw [← m.setBytes_self ino]
        refine h.of_frame hframe fun hkind => ?_
        obtain rfl : data = [] := by
          by_contra hne
          exact hbig (hfits hne hkind)
        rw [hbytes, written, if_pos rfl, h.bytes ino (ne_root hinv hkind) (by rw [hkind]; rfl)]
    · intro hne hsome
      refine (if_neg fun hbig => ?_).symm
      exact Nat.not_lt.mpr (hfits hbig.1 (h.regularFile hne hsome)) hbig.2

private theorem read_eq (h : Refines m s) (hhealthy : env.Healthy) (hne : ino ≠ 1)
    (hsome : (s.db.kindOf ino).isSome) {r : Except Errno Bytes}
    (hresult : Fs.ReadResult env s s' ino offset size r) :
    r.map Reply.data = .ok (.data (slice offset size (m.bytes ino))) := by
  obtain ⟨-, hresult⟩ := hresult
  rcases r with e | data
  · rcases hresult with hfailed | ⟨-, herrno⟩
    · exact (hfailed.2 hhealthy).elim
    · rw [Db.fileErrno_eq_none.mpr (h.regularFile hne hsome)] at herrno
      cases herrno
  · rw [hresult.2.2, h.bytes ino hne hsome]
    rfl

/-- What is not alive cannot be read. -/
private theorem read_dead (h : Refines m s) (hinv : s.Inv [] busy) (hr : s.Reclaims)
    (hdead : ¬m.Alive ino) {r : Except Errno Bytes}
    (hresult : Fs.ReadResult env s s' ino offset size r) : (r.map Reply.data).isOk = false := by
  obtain ⟨-, hresult⟩ := hresult
  rcases r with e | data
  · rfl
  · have hkind := Db.fileErrno_eq_none.mp hresult.2.1
    refine (hdead ((h.alive_iff hinv hr).mpr ⟨ne_root hinv hkind, ?_⟩)).elim
    rw [hkind]
    rfl

private theorem of_resize (h : Refines m s) (hinv : s.Inv [] busy)
    (hframe : Frame (fun i => i = ino) s s')
    (hok : s.db.kindOf ino = some .regularFile → size ≤ maxFileSize →
      (s'.file ino).bytes = resize size (s.file ino).bytes)
    (hbig : maxFileSize < size → Quiet s s') :
    Refines (if size ≤ maxFileSize then m.setBytes ino (resize size (m.bytes ino)) else m) s' := by
  split
  · next hle =>
    refine h.of_frame hframe fun hkind => ?_
    rw [hok hkind hle, h.bytes ino (ne_root hinv hkind) (by rw [hkind]; rfl)]
  · next hlt => exact h.of_quiet (hbig (Nat.not_le.mp hlt))

private theorem of_fallocate (h : Refines m s) (hinv : s.Inv [] busy) {start length : Int}
    {mode : UInt32} (hframe : Frame (fun i => i = ino) s s')
    (hok : Fs.Fallocates s.db ino start length mode → (s'.file ino).bytes =
      Fs.resized ((Fs.fallocateStop start length mode).map (max (s.file ino).size))
        (s.file ino).bytes)
    (hno : ¬Fs.Fallocates s.db ino start length mode → Quiet s s') :
    Refines (m.fallocate ino start length mode) s' := by
  rw [Reference.fallocate]
  split
  · next hargs =>
    obtain ⟨rfl, hstart, hlength, hmax⟩ := hargs
    refine h.of_frame hframe fun hkind => ?_
    have hold := h.bytes ino (ne_root hinv hkind) (by rw [hkind]; rfl)
    rw [hok ⟨hstart, hlength, rfl, hkind, hmax⟩, ← hold, File.length_bytes]
    rfl
  · next hargs =>
    by_cases hfits : Fs.Fallocates s.db ino start length mode
    · rw [← m.setBytes_self ino]
      refine h.of_frame hframe fun hkind => ?_
      have hkeep : mode &&& Fs.fallocFlKeepSize ≠ 0 := by
        by_contra hzero
        have hmode := Fs.eq_zero_of_masks hfits.flags (not_not.mpr hzero)
        exact hargs ⟨hmode, hfits.nonneg, hfits.pos, hfits.max⟩
      rw [hok hfits, Fs.fallocateStop, if_pos hkeep]
      exact h.bytes ino (ne_root hinv hkind) (by rw [hkind]; rfl)
    · exact h.of_quiet (hno hfits)

end Data

section Names

variable {inode : Inode} {now : Timestamp}

private theorem of_link (h : Refines m s) (hinv : s'.Inv [] busy) (hr : s'.Reclaims)
    (hkept : Kept s s') (htable : s'.table = s.table)
    (hdb : s.db.link ino newParent newName now = .ok (inode, s'.db)) :
    Refines (m.setName newParent newName (some ino)) s' := by
  obtain ⟨-, r, -, -, -, hfree, -, heq⟩ := Db.link_cases hdb
  have hdirents : s'.db.dirents = s.db.dirents ++
      [⟨nextRowid (s.db.dirents.map Dirent.id), newParent, newName, ino⟩] := by
    rw [heq]
    rfl
  refine h.of_kept hinv hr hkept (fun i _ => (Db.sameData_link hdb).kind i) rfl (fun p n i => ?_)
    (fun fh => by rw [htable]; exact h.handles fh) h.opened
  rw [Db.entry_added hdirents hfree]
  change (if p = newParent ∧ n = newName then some ino else m.names p n) = some i ↔ _
  split
  · rw [Option.some.injEq]
  · exact h.names p n i

private theorem kind_of_drop {db : Db} {d : Dirent} {r : InodeRow} {isOpen : Bool}
    (hother : ∀ i, i ≠ d.childIno → db.kindOf i = s.db.kindOf i)
    (hgone : Db.LastName r isOpen → db.kindOf d.childIno = none)
    (hstays : ¬Db.LastName r isOpen → db.kindOf d.childIno = s.db.kindOf d.childIno) (i : Nat)
    (hsome : (db.kindOf i).isSome) : db.kindOf i = s.db.kindOf i := by
  by_cases hi : i = d.childIno
  · subst hi
    by_cases hlast : Db.LastName r isOpen
    · rw [hgone hlast] at hsome
      cases hsome
    · exact hstays hlast
  · exact hother i hi

private theorem of_unlink (h : Refines m s) (hcore : s.Core [] busy) (hinv : s'.Inv [] busy)
    (hr : s'.Reclaims) (hremoved : Fs.Removed s s') {target : Inode} {isOpen : Bool}
    (hlookup : s.db.lookup parent name = .ok target)
    (hdb : s.db.unlinkEntry parent name target isOpen now = .ok s'.db) :
    Refines (m.setName parent name none) s' := by
  obtain ⟨d, r, hd, rfl, rfl, hrow, rfl, hfile, heq⟩ := Db.unlinkEntry_eq hlookup hdb
  have hempty : r.kind = .directory → ∀ e ∈ s.db.dirents, e.parentIno ≠ r.ino :=
    fun hdir => (hfile hdir).elim
  have hsame : Db.SameData (s.db.dropEntry d r isOpen now) s'.db := heq ▸ Db.sameData_touchDir
  obtain ⟨-, hother, hgone, hstays⟩ := Db.relinked_dropEntry hcore.sound hinv.sound hd hrow hempty
    hsame fun e he => ⟨e, by rwa [heq] at he, rfl⟩
  have hdirents : s'.db.dirents = (s.db.deleteDirent d.parentIno d.name).dirents := by
    rw [heq]
    exact Db.dirents_dropEntry now isOpen hcore.sound.tree hcore.sound.exact hd hrow hempty
  refine h.of_kept hinv hr hremoved.1 (kind_of_drop hother hgone fun hlast => (hstays hlast).1) rfl
    (fun p n i => ?_) (fun fh => (hremoved.2 fh).trans (h.handles fh)) h.opened
  rw [Db.entry_dropped hdirents]
  change (if p = d.parentIno ∧ n = d.name then none else m.names p n) = some i ↔ _
  split
  · next hgone => exact ⟨nofun, fun hentry => (hentry.1 hgone).elim⟩
  · next hstays => rw [h.names p n i, and_iff_right hstays]

/-- The names after a move, where `between` is the store without what had the new name. -/
private theorem names_moved (h : Refines m s) {between db : Db}
    (hne : ¬(parent = newParent ∧ name = newName))
    (hbetween : ∀ p n i, between.Entry p n i ↔
      ¬(p = newParent ∧ n = newName) ∧ s.db.Entry p n i)
    (hdirents : db.dirents = (between.moveDirent parent name newParent newName).dirents) (p : Nat)
    (n : Name) (i : Nat) :
    ((m.setName parent name none).setName newParent newName (m.names parent name)).names p n =
      some i ↔ db.Entry p n i := by
  rw [Db.entry_moved hdirents, hbetween, hbetween]
  change (if p = newParent ∧ n = newName then m.names parent name
    else if p = parent ∧ n = name then none else m.names p n) = some i ↔ _
  by_cases hnew : p = newParent ∧ n = newName
  · rw [if_pos hnew, h.names]
    constructor
    · intro hentry
      exact .inl ⟨hnew, hne, hentry⟩
    · rintro (⟨-, -, hentry⟩ | ⟨-, hnot, -⟩)
      · exact hentry
      · exact (hnot hnew).elim
  · rw [if_neg hnew]
    by_cases hold : p = parent ∧ n = name
    · rw [if_pos hold]
      refine ⟨nofun, ?_⟩
      rintro (⟨hnew', -⟩ | ⟨hnot, -⟩)
      · exact (hnew hnew').elim
      · exact (hnot hold).elim
    · rw [if_neg hold, h.names]
      constructor
      · intro hentry
        exact .inr ⟨hold, hnew, hentry⟩
      · rintro (⟨hnew', -⟩ | ⟨-, -, hentry⟩)
        · exact (hnew hnew').elim
        · exact hentry

private theorem of_rename (h : Refines m s) (hcore : s.Core [] busy) (hinv : s'.Inv [] busy)
    (hr : s'.Reclaims) (hremoved : Fs.Removed s s') {noreplace : Bool} {isOpen : Nat → Bool}
    {replaced : Option Inode}
    (hdb : s.db.renameEntry parent name newParent newName noreplace isOpen now =
      .ok (replaced, s'.db)) :
    Refines (if parent = newParent ∧ name = newName then m
      else (m.setName parent name none).setName newParent newName (m.names parent name)) s' := by
  have hhandles : ∀ fh, s'.table.handleIno fh = m.handles fh := fun fh =>
    (hremoved.2 fh).trans (h.handles fh)
  obtain ⟨d, r, hd, rfl, rfl, hrow, -, -, hcase⟩ := Db.renameEntry_eq hcore.sound.tree hdb
  rcases hcase with ⟨hp, hn, -, heq⟩ | ⟨-, hfree, heq⟩ |
    ⟨f, q, hf, rfl, rfl, hfd, hq, -, -, hempty, heq⟩
  · rw [if_pos ⟨hp, hn⟩]
    exact h.of_kept hinv hr hremoved.1 (fun i _ => by rw [heq]) rfl
      (fun p n i => by rw [heq]; exact h.names p n i) hhandles h.opened
  · have hne : ¬(d.parentIno = newParent ∧ d.name = newName) := by
      rintro ⟨rfl, rfl⟩
      exact hfree d hd rfl
    rw [if_neg hne]
    refine h.of_kept hinv hr hremoved.1 (fun i _ => by rw [heq]; exact Db.kindOf_moveEntry _ _ _ i)
      rfl (h.names_moved hne (fun p n i => ?_) (heq ▸ Db.dirents_moveEntry _ _ _)) hhandles h.opened
    refine ⟨fun hentry => ⟨?_, hentry⟩, And.right⟩
    rintro ⟨rfl, rfl⟩
    obtain ⟨e, he, hp, hn, -⟩ := hentry
    exact hfree e he (by rw [hp, hn])
  · have hne : ¬(d.parentIno = f.parentIno ∧ d.name = f.name) := by
      rintro ⟨hp, hn⟩
      exact hfd (List.inj_on_of_nodup_map hcore.sound.tree.distinct hf hd (by rw [hp, hn]))
    have hsame : Db.SameData (s.db.dropEntry f q (isOpen q.ino) now) s'.db :=
      heq ▸ Db.sameData_moveEntry _ _
    obtain ⟨-, hother, hgone, hstays⟩ := Db.relinked_dropEntry hcore.sound hinv.sound hf hq hempty
      hsame fun e he => by
        rw [heq] at he
        exact Db.children_moveEntry _ _ e he
    rw [if_neg hne]
    refine h.of_kept hinv hr hremoved.1 (kind_of_drop hother hgone fun hlast => (hstays hlast).1)
      rfl
      (h.names_moved hne (fun p n i => ?_) (heq ▸ Db.dirents_moveEntry _ _ _)) hhandles h.opened
    exact Db.entry_dropped (Db.dirents_dropEntry now (isOpen q.ino) hcore.sound.tree
      hcore.sound.exact hf hq hempty)

private theorem of_createOpen (h : Refines m s) (hcore : s.Core [] busy) (hinv : s'.Inv [] busy)
    (hr : s'.Reclaims) (hkept : Kept s s') {attr : FileAttr} {mode uid gid : UInt32}
    (hopened : Opened attr.ino fh s s') (hempty : (s'.file attr.ino).bytes = [])
    (hcreated : Fs.Created s s' parent name (.file mode) uid gid attr) :
    Refines (((m.setBytes attr.ino []).setName parent name (some attr.ino)).setHandle fh
      (some attr.ino)) s' := by
  obtain ⟨inode, now, hdb, rfl⟩ := hcreated
  obtain ⟨rfl, hkind, -⟩ := Db.createNode_rows hdb
  obtain ⟨-, -, -, hfree, -, heq⟩ := Db.createNode_cases hdb
  have hdirents : s'.db.dirents = s.db.dirents ++
      [⟨nextRowid (s.db.dirents.map Dirent.id), parent, name, s.db.nextIno⟩] := by
    rw [heq]
    rfl
  have hnew : s.db.nextIno ≠ 1 := by
    intro hone
    have hnone := Db.nextIno_new s.db
    rw [hone, show s.db.kindOf 1 = _ from hcore.sound.tree.root] at hnone
    cases hnone
  constructor
  · intro j hj k hk
    rw [hkind] at hk
    split at hk
    · exact (Option.some.inj hk).symm
    · exact h.regular j hj k hk
  · intro p n i
    rw [Db.entry_added hdirents hfree]
    change (if p = parent ∧ n = name then some s.db.nextIno else m.names p n) = some i ↔ _
    split
    · rw [Option.some.injEq]
    · exact h.names p n i
  · intro k
    rw [hopened.handles]
    change _ = if k = fh then some s.db.nextIno else m.handles k
    split
    · rfl
    · exact h.handles k
  · intro k i hk
    change (if k = fh then some s.db.nextIno else m.handles k) = some i at hk
    split at hk
    · exact Option.some.inj hk ▸ hnew
    · exact h.opened k i hk
  · intro j hj hsome
    change _ = if j = s.db.nextIno then [] else m.bytes j
    split
    · next heq => exact heq ▸ hempty
    · next hne =>
      have hsome' : (s.db.kindOf j).isSome := by rwa [hkind, if_neg hne] at hsome
      exact (hkept.bytes j hsome' (held hinv hr hsome)).trans (h.bytes j hj hsome')
  · exact hkept.closing.trans h.closing

end Names

section Handles

private theorem of_openFile (h : Refines m s) (hinv : s'.Inv [] busy) (hr : s'.Reclaims)
    (hkept : Kept s s') (hdb : s'.db = s.db) (hopened : Opened ino fh s s') (hne : ino ≠ 1) :
    Refines (m.setHandle fh (some ino)) s' := by
  refine h.of_kept hinv hr hkept (fun i _ => by rw [hdb]) rfl (fun p n i => ?_) (fun k => ?_)
    fun k i hk => ?_
  · rw [hdb]
    exact h.names p n i
  · rw [hopened.handles]
    change _ = if k = fh then some ino else m.handles k
    split
    · rfl
    · exact h.handles k
  · change (if k = fh then some ino else m.handles k) = some i at hk
    split at hk
    · exact Option.some.inj hk ▸ hne
    · exact h.opened k i hk

private theorem of_release (h : Refines m s) (hcore : s.Core [] busy) (hinv : s'.Inv [] busy)
    (hr : s'.Reclaims) (hhealthy : env.Healthy) (hkept : Kept s s') {r : Except Errno Unit}
    (hhandles : ∀ k, s'.table.handleIno k = if k = fh then none else s.table.handleIno k)
    (hcase : Fs.Closed env ino s s' r ∨ Fs.Deleted env fh ino s s' r) :
    Refines (m.setHandle fh none) s' := by
  have hrows : s'.db.dirents = s.db.dirents ∧
      ∀ i, (s'.db.kindOf i).isSome → s'.db.kindOf i = s.db.kindOf i := by
    rcases hcase with hclosed | hdeleted
    · exact ⟨congrArg Names.entries hclosed.names,
        fun i _ => congrFun (congrArg Names.kind hclosed.names) i⟩
    · have hdb : s'.db = s.db.deleteInodeRows ino := by
        rcases r with e | ⟨⟩
        · exact ((hdeleted.error nofun).1.2 hhealthy).elim
        · exact (hdeleted.ok rfl).2
      have hs := hcore.sound.toLinked
      have hfile := hs.not_directory hdeleted.kind hdeleted.nlink
      rw [hdb]
      refine ⟨Db.dirents_deleteInodeRows fun d hd => ⟨fun heq => hfile ?_,
        hs.unnamed hdeleted.nlink d hd⟩, fun i hsome => ?_⟩
      · exact heq ▸ hs.tree.parent d hd
      · rw [Db.kindOf_deleteInodeRows] at hsome ⊢
        split at hsome
        · cases hsome
        · next hne => rw [if_neg hne]
  refine h.of_kept hinv hr hkept hrows.2 rfl (fun p n i => ?_) (fun k => ?_) fun k i hk => ?_
  · rw [Db.Entry, hrows.1]
    exact h.names p n i
  · rw [hhandles]
    change _ = if k = fh then none else m.handles k
    split
    · rfl
    · exact h.handles k
  · change (if k = fh then none else m.handles k) = some i at hk
    split at hk
    · cases hk
    · exact h.opened k i hk

end Handles

end Refines

namespace Dbfs

/-- The calls on files, as the kernel issues them: only regular files are opened, only inodes with
a name are linked, and offsets are those of the FUSE handlers. -/
def FileCall (s : Shared) : Call → Prop
  | .openFile ino => ∀ r ∈ s.db.findInode ino, r.kind = .regularFile
  | .link ino _ _ => ∀ r ∈ s.db.findInode ino, 0 < r.nlink
  | .write _ offset data => offset + data.length < u64Size
  | .writeFh _ offset data => offset + data.length < u64Size
  | .setattr _ _ _ _ size _ _ => size.isSome = true
  | .mkdir .. | .create .. | .symlink .. | .rmdir .. => False
  | _ => True

variable {db : Db} {m : Reference} {s s' : Shared} {env : Env} {c : Call}

private theorem FileCall.legal (hc : FileCall s c) : Legal s c := by
  cases c with
  | openFile ino =>
    intro r hr hdir
    rw [hc r hr] at hdir
    cases hdir
  | link ino newParent newName => exact hc
  | write ino offset data => exact hc
  | writeFh fh offset data => exact hc
  | _ => trivial

private theorem FileCall.openFile_ne {ino : Nat} (h : s.Inv [] fun _ => False)
    (hc : FileCall s (.openFile ino)) : ino ≠ 1 := by
  rintro rfl
  obtain ⟨r, hr, hdir⟩ := Option.map_eq_some_iff.mp
    (show s.db.kindOf 1 = some .directory from h.sound.tree.root)
  rw [hc r hr] at hdir
  cases hdir

private theorem refines_call (hhealthy : env.Healthy) (h : s.Inv [] fun _ => False)
    (hr : s.Reclaims) (hm : Refines m s) (hc : FileCall s c) :
    Prog.wp (call env c) (fun r s' => s'.Inv [] (fun _ => False) → s'.Reclaims →
      m.Expects c r ∧ Refines (m.step c r) s') s := by
  have hadm := Legal.admissible h hc.legal
  have hidle : ∀ s' : Shared, s'.db = s.db → s'.table = s.table → Refines m s' :=
    fun s' hdb ht => hm.of_quiet (Frame.of_eq hdb ht)
  cases c with
  | read ino offset size =>
    refine (Prog.wp_map ..).mpr (Prog.wp_mono (Fs.read_spec h.toCore) ?_)
    intro r s' hresult _ _
    refine ⟨⟨fun halive => ?_, fun hdead => hm.read_dead h hr hdead hresult⟩,
      hm.of_quiet hresult.1.quiet⟩
    obtain ⟨hne, hsome⟩ := (hm.alive_iff h hr).mp halive
    exact hm.read_eq hhealthy hne hsome hresult
  | readFh fh offset size =>
    refine (Prog.wp_map ..).mpr (Prog.wp_mono (Fs.readFh_spec h.toCore) ?_)
    intro r s' hresult _ _
    rw [hm.handles] at hresult
    rcases hfh : m.handles fh with _ | ino
    · rw [hfh] at hresult
      obtain ⟨rfl, rfl⟩ := hresult
      refine ⟨?_, hm⟩
      rw [Reference.Expects, hfh]
      rfl
    · rw [hfh] at hresult
      obtain ⟨hne, hsome⟩ := (hm.alive_iff h hr).mp (.inr ⟨fh, hfh⟩)
      refine ⟨?_, hm.of_quiet hresult.1.quiet⟩
      rw [Reference.Expects, hfh]
      exact hm.read_eq hhealthy hne hsome hresult
  | write ino offset data =>
    refine (Prog.wp_map ..).mpr (Prog.wp_mono (Fs.write_spec hadm h) ?_)
    rintro r s' ⟨-, hresult⟩ _ _
    obtain ⟨hrefines, hreply⟩ := hm.of_write h hhealthy hresult
    refine ⟨fun halive => ?_, hrefines⟩
    obtain ⟨hne, hsome⟩ := (hm.alive_iff h hr).mp halive
    exact hreply hne hsome
  | writeFh fh offset data =>
    refine (Prog.wp_map ..).mpr (Prog.wp_mono (Fs.writeFh_spec hadm h) ?_)
    rintro r s' ⟨-, hresult⟩ _ _
    rw [hm.handles] at hresult
    rcases hfh : m.handles fh with _ | ino
    · rw [hfh] at hresult
      obtain ⟨rfl, rfl⟩ := hresult
      rw [Reference.Expects, Reference.step, hfh]
      exact ⟨rfl, hm⟩
    · rw [hfh] at hresult
      obtain ⟨hne, hsome⟩ := (hm.alive_iff h hr).mp (.inr ⟨fh, hfh⟩)
      obtain ⟨hrefines, hreply⟩ := hm.of_write h hhealthy hresult
      rw [Reference.Expects, Reference.step, hfh]
      exact ⟨hreply hne hsome, hrefines⟩
  | setattr ino mode uid gid size atime mtime =>
    rcases size with _ | size
    · cases hc
    refine (Prog.wp_map ..).mpr
      (Prog.wp_mono (Fs.setattr_spec mode uid gid (some size) atime mtime h) ?_)
    rintro r s' ⟨-, hframe, -, hresult⟩ _ _
    have hframe' : Frame (fun i => i = ino) s s' := hframe.mono fun i hi => hi.1
    rcases r with e | attr
    · rcases hresult with hfailed | ⟨-, hquiet, herrno⟩
      · exact (hfailed.2 hhealthy).elim
      · -- a file that is there is only refused for its size
        have hbig : s.db.kindOf ino = some .regularFile → maxFileSize < size := fun hkind => by
          rcases herrno with ⟨n, hn, herrno⟩ | ⟨hnone, -⟩
          · obtain rfl := Option.some.inj hn
            by_contra hle
            rw [Db.sizeErrno_eq_none.mpr ⟨hkind, Nat.le_of_not_lt hle⟩] at herrno
            cases herrno
          · rw [hkind] at hnone
            cases hnone
        refine ⟨fun halive => ⟨nofun, fun hle => ?_⟩, hm.of_resize h hframe'
          (fun hkind hle => (Nat.not_lt.mpr hle (hbig hkind)).elim) fun _ => hquiet⟩
        obtain ⟨hne, hsome⟩ := (hm.alive_iff h hr).mp halive
        exact (Nat.not_lt.mpr hle (hbig (hm.regularFile hne hsome))).elim
    · obtain ⟨-, hnone, -, -, -, -, hbytes⟩ := hresult
      have hle := (Db.sizeErrno_eq_none.mp (hnone size rfl)).2
      exact ⟨fun _ => ⟨fun _ => hle, fun _ => rfl⟩, hm.of_resize h hframe' (fun _ _ => hbytes)
        fun hlt => (Nat.not_lt.mpr hle hlt).elim⟩
  | fallocate ino offset length mode =>
    refine (Prog.wp_map ..).mpr (Prog.wp_mono (Fs.fallocate_spec h) ?_)
    rintro r s' ⟨-, hframe, -, hresult⟩ _ _
    refine ⟨trivial, ?_⟩
    rcases r with e | ⟨⟩
    · obtain ⟨hquiet, hfailed | ⟨-, hno⟩⟩ := hresult
      · exact (hfailed.2 hhealthy).elim
      · exact hm.of_fallocate h hframe (fun hfits => (hno hfits).elim) fun _ => hquiet
    · exact hm.of_fallocate h hframe (fun _ => hresult.2.2) fun hno => (hno hresult.2.1).elim
  | getattr ino =>
    refine (Prog.wp_map ..).mpr (Prog.wp_mono (Fs.getattr_spec h.toCore) ?_)
    exact fun r s' hresult _ _ => ⟨trivial, hm.of_quiet hresult.1.quiet⟩
  | lookup parent name =>
    refine (Prog.wp_map ..).mpr (Prog.wp_mono (Fs.lookup_spec h.toCore) ?_)
    exact fun r s' hresult _ _ => ⟨trivial, hm.of_quiet hresult.1.quiet⟩
  | flushFile ino =>
    refine (Prog.wp_map ..).mpr (Prog.wp_mono (Fs.flushFile_spec h) ?_)
    exact fun r s' hresult _ _ => ⟨trivial, hm.of_quiet hresult.2.1⟩
  | flushFh fh =>
    refine (Prog.wp_map ..).mpr (Prog.wp_mono (Fs.flushFh_spec h) ?_)
    rintro r s' ⟨-, hresult⟩ _ _
    rcases hfh : s.table.handleIno fh with _ | ino
    · rw [hfh] at hresult
      exact ⟨trivial, hresult.2 ▸ hm⟩
    · rw [hfh] at hresult
      exact ⟨trivial, hm.of_quiet hresult.1⟩
  | syncFh fh =>
    refine (Prog.wp_map ..).mpr (Prog.wp_mono (Fs.syncFh_spec h) ?_)
    rintro r s' ⟨-, hresult⟩ _ _
    rcases hfh : s.table.handleIno fh with _ | ino
    · rw [hfh] at hresult
      exact ⟨trivial, hresult.2 ▸ hm⟩
    · rw [hfh] at hresult
      exact ⟨trivial, hm.of_quiet hresult.1⟩
  | flushAll =>
    refine (Prog.wp_map ..).mpr (Prog.wp_mono (Fs.flushAll_spec h) ?_)
    exact fun r s' hresult _ _ => ⟨trivial, hm.of_quiet hresult.2.1⟩
  | openFile ino =>
    refine (Prog.wp_map ..).mpr (Prog.wp_mono (Fs.openFile_spec h hadm) ?_)
    rintro r s' ⟨-, hdb, hkept, hresult⟩ hinv' hr'
    refine ⟨trivial, ?_⟩
    rcases r with e | fh
    · exact hm.of_quiet hresult.1
    · exact hm.of_openFile hinv' hr' hkept hdb hresult.2.2 (hc.openFile_ne h)
  | releaseFile fh =>
    refine (Prog.wp_map ..).mpr (Prog.wp_mono (Fs.releaseFh_spec h) ?_)
    rintro r s' ⟨-, hresult⟩ hinv' hr'
    refine ⟨trivial, ?_⟩
    rcases hfh : s.table.handleIno fh with _ | ino
    · rw [hfh] at hresult
      obtain ⟨-, rfl⟩ := hresult
      have hsame : m.setHandle fh none = m := by
        refine congrArg (fun handles => { m with handles := handles }) (funext fun k => ?_)
        split
        · next heq => rw [heq, ← hm.handles, hfh]
        · rfl
      rwa [Reference.step, hsame]
    · rw [hfh] at hresult
      obtain ⟨hkept, hhandles, hcase⟩ := hresult
      exact hm.of_release h.toCore hinv' hr' hhealthy hkept hhandles hcase
  | link ino newParent newName =>
    refine (Prog.wp_map ..).mpr (Prog.wp_mono (Fs.link_spec hadm h) ?_)
    rintro r s' ⟨-, htable, hkept, hresult⟩ hinv' hr'
    refine ⟨trivial, ?_⟩
    rcases r with e | attr
    · exact hidle s' hresult.1 htable
    · obtain ⟨-, inode, now, hdb, -⟩ := hresult
      exact hm.of_link hinv' hr' hkept htable hdb
  | unlink parent name =>
    refine (Prog.wp_map ..).mpr (Prog.wp_mono (Fs.unlink_spec h) ?_)
    rintro r s' ⟨-, hremoved, hresult⟩ hinv' hr'
    refine ⟨trivial, ?_⟩
    rcases r with e | ⟨⟩
    · exact hidle s' hresult.1 hresult.2.1
    · obtain ⟨-, target, now, hlookup, -, hdb⟩ := hresult
      exact hm.of_unlink h.toCore hinv' hr' hremoved hlookup hdb
  | rename parent name newParent newName flags =>
    refine (Prog.wp_map ..).mpr (Prog.wp_mono (Fs.rename_spec hadm h) ?_)
    rintro r s' ⟨-, hremoved, hresult⟩ hinv' hr'
    refine ⟨trivial, ?_⟩
    rcases r with e | ⟨⟩
    · exact hidle s' hresult.1 hresult.2.1
    · obtain ⟨-, replaced, now, -, hdb⟩ := hresult
      exact hm.of_rename h.toCore hinv' hr' hremoved hdb
  | createOpen parent name mode umask uid gid =>
    refine (Prog.wp_map ..).mpr (Prog.wp_mono (Fs.createOpen_spec h) ?_)
    rintro r s' ⟨-, hresult⟩ hinv' hr'
    refine ⟨trivial, ?_⟩
    rcases r with e | ⟨attr, fh⟩
    · exact hidle s' hresult.1 hresult.2.1
    · obtain ⟨-, hkept, hopened, hempty, hcreated⟩ := hresult
      exact hm.of_createOpen h.toCore hinv' hr' hkept hopened hempty hcreated
  | mkdir | create | symlink | rmdir => cases hc

/-- The model after a run of calls that start in `s`. -/
def modelRun (env : Env) : Shared → Reference → List Call → Reference
  | _, m, [] => m
  | s, m, c :: calls => modelRun env (step env s c) (m.step c (reply env s c)) calls

/-- The file system and the model are where the same calls lead them. -/
structure Together (m : Reference) (s : Shared) : Prop where
  inv : s.Inv [] fun _ => False
  reclaims : s.Reclaims
  refines : Refines m s

private theorem Together.step (hhealthy : env.Healthy) (h : Together m s) (hc : FileCall s c) :
    m.Expects c (reply env s c) ∧ Together (m.step c (reply env s c)) (step env s c) := by
  have hadm := Legal.admissible h.inv hc.legal
  have hkeeps : Keeps _ s c (reply env s c) (call env c s).2 := call_spec env c h.inv hadm
  have hreclaims : (call env c s).2.Reclaims := reclaims_call hhealthy h.inv hadm h.reclaims
  obtain ⟨hexpects, hrefines⟩ : m.Expects c (reply env s c) ∧
      Refines (m.step c (reply env s c)) (call env c s).2 :=
    refines_call hhealthy h.inv h.reclaims h.refines hc hkeeps.inv hreclaims
  exact ⟨hexpects, (step_keeps env h.inv hadm).inv, hreclaims, ⟨hrefines.regular, hrefines.names,
    hrefines.handles, hrefines.opened, hrefines.bytes, hrefines.closing⟩⟩

private theorem together_run {calls : List Call} (hhealthy : env.Healthy) (h : Together m s)
    (hcalls : LegalRun (Dbfs.step env) FileCall s calls) :
    Together (modelRun env s m calls) (run env s calls) := by
  induction calls generalizing s m with
  | nil => exact h
  | cons c calls ih => exact ih (h.step hhealthy hcalls.1).2 hcalls.2

private theorem together_fresh (mountUid mountGid : UInt32) (now : Timestamp) (writeBuffer : Nat) :
    Together .empty (.withWriteBuffer (.fresh mountUid mountGid now) writeBuffer) := by
  have hopened : Db.Opened (.fresh mountUid mountGid now) := .fresh mountUid mountGid now
  refine ⟨.withWriteBuffer hopened.reached.sound writeBuffer, fun _ hnameless =>
    (hopened.not_nameless hnameless).elim, ?_⟩
  have hkind : ∀ i ≠ 1, (Db.fresh mountUid mountGid now).kindOf i = none := fun i hi => by
    rw [Db.kindOf_fresh, if_neg hi]
  constructor
  · intro i hi k hk
    exact nomatch (hkind i hi).symm.trans hk
  · intro p n i
    refine ⟨nofun, ?_⟩
    rintro ⟨d, hd, -⟩
    change d ∈ (Db.fresh mountUid mountGid now).dirents at hd
    rw [Db.fresh_eq] at hd
    cases hd
  · intro fh
    rfl
  · intro fh i hfh
    cases hfh
  · intro i hi hsome
    have hnone : ((Db.fresh mountUid mountGid now).kindOf i).isSome := hsome
    rw [hkind i hi] at hnone
    cases hnone
  · rfl

/-- In every run of calls on files from a new database, without failures, each read returns the
slice that the model returns, and each write the reply of the model. -/
theorem expects_of_run (mountUid mountGid : UInt32) (now : Timestamp) (writeBuffer : Nat)
    (env : Env) (hhealthy : env.Healthy) (calls : List Call) (c : Call)
    (h : LegalRun (step env) FileCall
      (.withWriteBuffer (.fresh mountUid mountGid now) writeBuffer) (calls ++ [c])) :
    let start := Shared.withWriteBuffer (.fresh mountUid mountGid now) writeBuffer
    (modelRun env start .empty calls).Expects c (reply env (run env start calls) c) := by
  intro start
  obtain ⟨hcalls, hc, -⟩ := legalRun_append.mp h
  exact ((together_run hhealthy (together_fresh mountUid mountGid now writeBuffer) hcalls).step
    hhealthy hc).1

/-- A file that was written, unlinked and written again is read through its handle. -/
theorem expects_of_unlinked :
    let start := Shared.withWriteBuffer (.fresh 0 0 ⟨0, 0⟩) 65536
    let calls : List Call := [.createOpen 1 [97] 0o644 0 0 0, .writeFh 0 0 [1, 2, 3],
      .unlink 1 [97], .writeFh 0 5 [4]]
    reply calm (run calm start calls) (.readFh 0 1 9) = .ok (.data [2, 3, 0, 0, 4]) :=
  expects_of_run 0 0 ⟨0, 0⟩ 65536 calm (fun _ => rfl) [.createOpen 1 [97] 0o644 0 0 0,
    .writeFh 0 0 [1, 2, 3], .unlink 1 [97], .writeFh 0 5 [4]] (.readFh 0 1 9)
    ⟨trivial, (by decide : 0 + 3 < u64Size), trivial, (by decide : 5 + 1 < u64Size),
      trivial, trivial⟩

end Dbfs

end VibeDbfs
