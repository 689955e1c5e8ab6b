import VibeDbfs.Fuse.Lifetimes

/-!
The size that an attribute reply shows, against the length that a read of the whole file gives.
-/

set_option autoImplicit false
set_option relaxedAutoImplicit false

namespace VibeDbfs

open Lib Lib.Bytes Shared

variable {db : Db} {s s' : Shared} {env : Env} {busy : Nat → Prop} {c : Call} {ino : Nat}
  {attr : FileAttr}

def Shared.StoredEnd (s : Shared) (ino : Nat) : Prop := ∀ o, s.table.file ino = some o →
  ∀ c bytes, o.dirty c = some bytes → c * chunkSize + bytes.length ≤ s.db.storedSize ino

private theorem storedEnd_iff (h : s.Core [] busy) :
    s.db.storedSize ino = (s.file ino).size ↔ s.StoredEnd ino := by
  rcases ho : s.table.file ino with _ | o
  · rw [Shared.file, ho]
    refine ⟨fun _ o ho' => ?_, fun _ => rfl⟩
    rw [ho] at ho'
    cases ho'
  · have ha := h.live ino o ho
    have hsize : (s.file ino).size = o.size := by
      rw [Shared.file, ho]
      rfl
    rw [hsize]
    constructor
    · intro heq o' ho' c bytes hdirty
      obtain rfl := Option.some.inj (ho.symm.trans ho')
      rw [heq]
      exact (ha.dirty c bytes hdirty).2.2.2.2
    · intro hend
      refine Nat.le_antisymm ha.grows (Nat.le_of_not_lt fun hlt => ?_)
      -- the chunk that ends the file lies behind the stored end
      obtain ⟨c, bytes, hdirty, hstop⟩ := ha.grown hlt
      have hle := hend o ho c bytes hdirty
      exact Nat.not_lt.mpr (hstop ▸ hle) hlt

namespace Dbfs

def replyAttr : Except Errno Reply → Option FileAttr
  | .ok (.attr attr) => some attr
  | .ok (.created attr _) => some attr
  | _ => none

def linked : Call → Option Nat
  | .link ino _ _ => some ino
  | _ => none

/-- The reply of a call shows the size unless the call links a file with a buffered end. -/
def SizeResult (s s' : Shared) (c : Call) (r : Except Errno Reply) : Prop :=
  ∀ attr, replyAttr r = some attr → attr.kind = .regularFile →
    s'.db.kindOf attr.ino = some attr.kind ∧
      (Fs.ShowsSize s' attr ↔ ∀ ino ∈ linked c, s.StoredEnd ino)

private theorem SizeResult.of_shows {r : Except Errno FileAttr} (hc : linked c = none)
    (h : ∀ attr, r = .ok attr → attr.kind = .regularFile →
      s'.db.kindOf attr.ino = some attr.kind ∧ Fs.ShowsSize s' attr) :
    SizeResult s s' c (r.map .attr) := by
  intro attr hattr hkind
  rcases r with e | attr'
  · cases hattr
  · obtain rfl := Option.some.inj hattr
    obtain ⟨hrow, hsize⟩ := h attr' rfl hkind
    refine ⟨hrow, fun _ ino hino => ?_, fun _ => hsize⟩
    rw [hc] at hino
    cases hino

private theorem SizeResult.of_attr {r : Except Errno FileAttr} (hc : linked c = none)
    (h : Fs.AttrResult env s s' r) : SizeResult s s' c (r.map .attr) := by
  refine .of_shows hc ?_
  rintro attr rfl -
  obtain ⟨hidle, -, hkind, hsize⟩ := h
  rw [Fs.ShowsSize, hidle.file, hidle.db]
  exact ⟨hkind, hsize⟩

private theorem SizeResult.of_none {r : Except Errno Reply} (h : replyAttr r = none) :
    SizeResult s s' c r := by
  intro attr hattr
  rw [h] at hattr
  cases hattr

private theorem replyAttr_map {α : Type} {f : α → Reply} (hf : ∀ a, replyAttr (.ok (f a)) = none)
    (r : Except Errno α) : replyAttr (r.map f) = none := by
  rcases r with e | a
  · rfl
  · exact hf a

private theorem sizeResult_node {parent : Nat} {name : Name} {node : NewNode} {uid gid : UInt32}
    (h : s.Inv [] busy) (hc : linked c = none)
    (hfile : node.kind = .regularFile → node.size = 0) :
    Prog.wp (Reply.attr <$> Fs.createNode env parent name node uid gid)
      (fun r s' => SizeResult s s' c r) s := by
  refine (Prog.wp_map ..).mpr (Prog.wp_mono (Fs.createNode_spec h) ?_)
  rintro r s' ⟨-, htable, -, hresult⟩
  refine .of_shows hc ?_
  rintro attr rfl hkind
  have hcreated := hresult.2
  obtain ⟨inode, now, hdb, rfl⟩ := hcreated
  obtain ⟨-, hino, hnode, hsize, hkinds, -⟩ := Db.relinked_createNode h.sound hdb
  have hzero := hfile (hnode.symm.trans hkind)
  have hempty := Fs.bytes_of_created h htable hzero hresult.2
  have hlength := congrArg List.length hempty
  rw [File.length_bytes] at hlength
  refine ⟨?_, (hsize.trans hzero).trans hlength.symm⟩
  exact ((hkinds inode.ino).trans (if_pos hino)).trans (congrArg some hnode.symm)

private theorem sizeResult_link {newParent : Nat} {newName : Name} {inode : Inode} {now : Timestamp}
    (h : s.Inv [] busy) (htable : s'.table = s.table)
    (hdb : s.db.link ino newParent newName now = .ok (inode, s'.db)) :
    s'.db.kindOf inode.ino = some inode.kind ∧
      (Fs.ShowsSize s' (fileAttrFromInode inode) ↔ s.StoredEnd ino) := by
  obtain ⟨-, r, hr, -, -, -, rfl, -⟩ := Db.link_cases hdb
  have hino := Db.findInode_ino hr
  have hsize : (s'.file ino).size = (s.file ino).size := by
    rw [Shared.file, htable]
    change ((s.table.file ino).map OpenFile.size).getD (s'.db.storedSize ino) = _
    rw [(Db.sameData_link hdb).size]
    rfl
  constructor
  · change s'.db.kindOf r.ino = some r.kind
    rw [hino, (Db.sameData_link hdb).kind, Db.kindOf_of_find hr]
  · change r.size = (s'.file r.ino).size ↔ _
    rw [hino, hsize, ← storedEnd_iff h.toCore, Db.storedSize_of_find hr]

private theorem sizeResult_call (h : s.Inv [] busy) (hadm : Admissible busy s c) :
    Prog.wp (call env c) (fun r s' => SizeResult s s' c r) s := by
  cases c with
  | getattr ino =>
    refine (Prog.wp_map ..).mpr (Prog.wp_mono (Fs.getattr_spec h.toCore) ?_)
    exact fun r s' hr => .of_attr rfl hr
  | lookup parent name =>
    refine (Prog.wp_map ..).mpr (Prog.wp_mono (Fs.lookup_spec h.toCore) ?_)
    exact fun r s' hr => .of_attr rfl hr
  | mkdir parent name mode umask uid gid => exact sizeResult_node h rfl nofun
  | create parent name mode umask uid gid => exact sizeResult_node h rfl fun _ => rfl
  | symlink parent name target uid gid => exact sizeResult_node h rfl nofun
  | link ino newParent newName =>
    refine (Prog.wp_map ..).mpr (Prog.wp_mono (Fs.link_spec hadm h) ?_)
    rintro r s' ⟨-, htable, -, hresult⟩ attr hattr -
    rcases r with e | attr'
    · cases hattr
    · obtain rfl := Option.some.inj hattr
      obtain ⟨-, inode, now, hdb, rfl⟩ := hresult
      obtain ⟨hrow, hsize⟩ := sizeResult_link h htable hdb
      rw [hsize]
      exact ⟨hrow, fun hend i hi => Option.some.inj hi ▸ hend, fun hend => hend ino rfl⟩
  | setattr ino mode uid gid size atime mtime =>
    refine (Prog.wp_map ..).mpr
      (Prog.wp_mono (Fs.setattr_spec mode uid gid size atime mtime h) ?_)
    rintro r s' ⟨-, -, -, hresult⟩
    refine .of_shows rfl ?_
    rintro attr rfl -
    obtain ⟨-, -, hino, hkind, hsize, -⟩ := hresult
    exact ⟨hino ▸ hkind, hsize⟩
  | createOpen parent name mode umask uid gid =>
    refine (Prog.wp_map ..).mpr (Prog.wp_mono (Fs.createOpen_spec h) ?_)
    rintro r s' ⟨-, hresult⟩ attr hattr -
    rcases r with e | ⟨attr', fh⟩
    · cases hattr
    · obtain rfl := Option.some.inj hattr
      obtain ⟨-, -, -, hempty, inode, now, hdb, rfl⟩ := hresult
      obtain ⟨-, hino, hnode, hsize, hkinds, -⟩ := Db.relinked_createNode h.sound hdb
      have hlength := congrArg List.length hempty
      rw [File.length_bytes] at hlength
      refine ⟨((hkinds inode.ino).trans (if_pos hino)).trans (congrArg some hnode.symm), ?_⟩
      exact ⟨fun _ _ hi => (nomatch hi), fun _ => hsize.trans hlength.symm⟩
  | openFile | read | readFh | write | writeFh | fallocate | flushFile | flushFh | syncFh | flushAll
  | releaseFile | unlink | rmdir | rename =>
    exact (Prog.wp_map ..).mpr (.of_none (replyAttr_map (fun _ => rfl) _))

private theorem read_whole (h : s.Core [] busy) (hkind : s.db.kindOf ino = some .regularFile) :
    reply calm s (.read ino 0 maxFileSize) = .ok (.data (s.file ino).bytes) := by
  have hread : Prog.wp (call calm (.read ino 0 maxFileSize))
      (fun r _ => r = .ok (.data (s.file ino).bytes)) s := by
    refine (Prog.wp_map ..).mpr (Prog.wp_mono (Fs.read_spec h) ?_)
    rintro r s' ⟨-, hresult⟩
    rcases r with e | data
    · rcases hresult with hfailed | ⟨-, herrno⟩
      · exact (hfailed.2 fun _ => rfl).elim
      · rw [Db.fileErrno_eq_none.mpr hkind] at herrno
        cases herrno
    · have hmax := (h.file_ok ino).size_le hkind
      rw [hresult.2.2, slice, List.drop_zero, List.take_of_length_le
        (File.length_bytes.trans_le hmax)]
      rfl
  exact hread

/-- The size in an attribute reply is the length of the whole file, unless the call links a file
that has unflushed bytes behind its stored end. -/
theorem replySize_iff_of_run (hdb : db.Reached) (writeBuffer : Nat) (env : Env) (calls : List Call)
    (c : Call) (h : LegalCalls env (.withWriteBuffer db writeBuffer) (calls ++ [c])) :
    let s := run env (.withWriteBuffer db writeBuffer) calls
    ∀ attr, replyAttr (reply env s c) = some attr → attr.kind = .regularFile → ∃ data,
      reply calm (step env s c) (.read attr.ino 0 maxFileSize) = .ok (.data data) ∧
        (attr.size = data.length ↔ ∀ ino ∈ linked c, s.StoredEnd ino) := by
  intro s attr hattr hkind
  obtain ⟨hcalls, hlegal, -⟩ := legalRun_append.mp h
  have hinv : s.Inv [] fun _ => False := (inv_of_run hdb writeBuffer hcalls).1
  have hadm := Legal.admissible hinv hlegal
  have hresult : Prog.wp (call env c) (fun r s' => SizeResult s s' c r) s :=
    sizeResult_call hinv hadm
  obtain ⟨hrow, hsize⟩ := hresult attr hattr hkind
  have hinv' : (step env s c).Inv [] fun _ => False := (step_keeps env hinv hadm).inv
  refine ⟨_, read_whole hinv'.toCore (hrow.trans (congrArg some hkind)), ?_⟩
  rw [File.length_bytes]
  exact hsize

/-- The attributes of a file with three unflushed bytes. -/
theorem replySize_of_getattr :
    let s := run calm (.withWriteBuffer (.fresh 0 0 ⟨0, 0⟩) 65536)
      [.createOpen 1 [97] 0o644 0 0 0, .writeFh 0 0 [1, 2, 3]]
    ∃ attr data, reply calm s (.getattr 2) = .ok (.attr attr) ∧
      reply calm (step calm s (.getattr 2)) (.read 2 0 maxFileSize) = .ok (.data data) ∧
      attr.size = data.length := by
  intro s
  obtain ⟨data, hread, hsize⟩ := replySize_iff_of_run (.fresh 0 0 ⟨0, 0⟩) 65536 calm
    [.createOpen 1 [97] 0o644 0 0 0, .writeFh 0 0 [1, 2, 3]] (.getattr 2) (by decide) _ rfl rfl
  exact ⟨_, data, rfl, hread, hsize.mpr nofun⟩

/-- The reply to a link of that file shows its stored size. -/
theorem replySize_false : ¬∀ (calls : List Call) (c : Call) (attr : FileAttr) (data : Bytes),
    let s := run calm (.withWriteBuffer (.fresh 0 0 ⟨0, 0⟩) 65536) calls
    LegalCalls calm (.withWriteBuffer (.fresh 0 0 ⟨0, 0⟩) 65536) (calls ++ [c]) →
      replyAttr (reply calm s c) = some attr → attr.kind = .regularFile →
      reply calm (step calm s c) (.read attr.ino 0 maxFileSize) = .ok (.data data) →
      attr.size = data.length := by
  intro h
  have hsize := h [.createOpen 1 [97] 0o644 0 0 0, .writeFh 0 0 [1, 2, 3]] (.link 2 1 [98]) _
    [1, 2, 3] (by decide) rfl rfl (by decide)
  exact absurd hsize (by decide)

end Dbfs

end VibeDbfs
