import VibeDbfs.Fuse.Contents
import VibeDbfs.Fuse.Remounts

/-!
The contents of the files in the life of a database: what the requests make of them, what a read
returns, what a mount finds, and that what was saved lasts.
-/

set_option autoImplicit false
set_option relaxedAutoImplicit false

namespace VibeDbfs

open Lib Lib.Bytes Shared

namespace Request

variable (handles : Nat → Option Nat)

/-- The inode whose content a request may change. -/
def changes : Request → Option Nat
  | write fh _ _ => handles fh
  | setattr ino _ _ _ (some _) _ _ => some ino
  | fallocate ino _ _ _ => some ino
  | _ => none

def newContent : Request → Bytes → Bytes
  | write _ offset data, bytes => written offset.toNat data bytes
  | setattr _ _ _ _ size _ _, bytes => Fs.resized size bytes
  | fallocate _ offset length mode, bytes =>
    Fs.resized ((Fs.fallocateStop offset length mode).map (max bytes.length)) bytes
  | _, bytes => bytes

def Attempted : Request → Bytes → Bytes → Prop
  | write _ offset data, bytes, bytes' => PartlyWritten offset.toNat data bytes bytes'
  | setattr _ _ _ _ size _ _, bytes, bytes' => bytes' = bytes ∨ bytes' = Fs.resized size bytes
  | _, bytes, bytes' => bytes' = bytes

/-- The files whose content the request makes persistent when it succeeds. -/
def saves : Request → Nat → Bool
  | flush fh, i => handles fh = some i
  | fsync fh, i => handles fh = some i
  | release fh, i => handles fh = some i
  | setattr ino _ _ _ size _ _, i => ino = i ∧ size.isSome
  | _, _ => false

/-- What becomes of a content that the request may change, by an answer that is `ok` or not. -/
inductive Leaves (failed : Prop) (r : Request) (bytes : Bytes) : Bool → Bytes → Prop
  | done : Leaves failed r bytes true (r.newContent bytes)
  | refused : Leaves failed r bytes false bytes
  | failed {bytes' : Bytes} (hfailed : failed) (h : r.Attempted bytes bytes') :
      Leaves failed r bytes false bytes'

end Request

/-- A file as it is read, and as the database has it. -/
structure FileData where
  bytes : Bytes
  stored : Bytes

/-- A tree with handles, and the data of its files. -/
structure DataTree where
  names : OpenTree
  file : Nat → FileData

namespace OpenTree

def NamesFile (m : OpenTree) (i : Nat) : Prop := m.tree.node i = some .file ∧ m.tree.Named i

def HasFile (m : OpenTree) (i : Nat) : Prop :=
  m.tree.node i = some .file ∧ (m.tree.Named i ∨ m.IsOpen i)

end OpenTree

namespace DataTree

/-- What a request makes of the contents, and what a read is told. -/
structure Serves (failed : Prop) (m : DataTree) (r : Request)
    (answer : Except ReplyErrno Answer) (m' : DataTree) : Prop where
  made : ∀ i, m.names.tree.node i = none → m'.names.HasFile i → m'.file i = ⟨[], []⟩
  kept : ∀ i, r.changes m.names.handles ≠ some i → (m.names.tree.node i).isSome →
    m'.names.HasFile i → (m'.file i).bytes = (m.file i).bytes
  changed : ∀ i, r.changes m.names.handles = some i →
    r.Leaves failed (m.file i).bytes answer.isOk (m'.file i).bytes
  stored : ∀ i, m.names.NamesFile i → m'.names.NamesFile i →
    (m'.file i).stored = (m.file i).stored ∨ (m'.file i).stored = (m.file i).bytes ∨
      (m'.file i).stored = (m'.file i).bytes ∨
        r.changes m.names.handles = some i ∧ r.Attempted (m.file i).bytes (m'.file i).stored
  saved : answer.isOk = true → ∀ i, r.saves m.names.handles i = true → m'.names.NamesFile i →
    (m'.file i).stored = (m'.file i).bytes
  read : ∀ fh offset size i, r = .read fh offset size → 0 ≤ offset → m.names.handles fh = some i →
    m.names.tree.node i = some .file →
      answer = .ok (.data (slice offset.toNat size (m.file i).bytes)) ∨
        failed ∧ answer.isOk = false

/-- A mount finds of each file what the database has, which a flush may have brought up to date. -/
def Remounts (failed : Prop) (m : DataTree) (flushed : Bool) (m' : DataTree) : Prop :=
  ∀ i, m'.names.NamesFile i → ∃ bytes, m'.file i = ⟨bytes, bytes⟩ ∧
    (bytes = (m.file i).stored ∨ flushed = true ∧ bytes = (m.file i).bytes) ∧
      (flushed = true → ¬failed → bytes = (m.file i).bytes)

/-- The life of a tree whose files have contents. -/
inductive Lives (m : DataTree) :
    LifeEvent → Told (Option (Except ReplyErrno Answer)) → DataTree → Prop
  | served {r : Request} {answer : Except ReplyErrno Answer} {failed : Bool} {m' : DataTree}
      (hnames : OpenTree.Lives m.names (.request r) ⟨some answer, failed⟩ m'.names)
      (h : m.Serves (failed = true) r answer m') : Lives m (.request r) ⟨some answer, failed⟩ m'
  | remounted {flushed : Bool} {writeBuffer : Nat} {mountUid mountGid : UInt32} {now : Timestamp}
      {failed : Bool} {m' : DataTree}
      (hnames : OpenTree.Lives m.names (.remount flushed writeBuffer mountUid mountGid now)
        ⟨none, failed⟩ m'.names)
      (h : m.Remounts (failed = true) flushed m') :
      Lives m (.remount flushed writeBuffer mountUid mountGid now) ⟨none, failed⟩ m'

end DataTree

instance (db : Db) (i : Nat) : Decidable (db.Named i) := inferInstanceAs (Decidable (_ ∧ _))

namespace LifeEvent

/-- The event does not change the content of the file `i`. -/
def Spares (handles : Nat → Option Nat) (i : Nat) : LifeEvent → Prop
  | request r => r.changes handles ≠ some i
  | remount .. => True

instance (handles : Nat → Option Nat) (i : Nat) : ∀ e, Decidable (Spares handles i e)
  | request r => inferInstanceAs (Decidable (r.changes handles ≠ some i))
  | remount .. => inferInstanceAs (Decidable True)

/-- A legal event after which the file `i` still has its content and a name. -/
def LeavesFile (env : Env) (i : Nat) (s : Shared) (e : LifeEvent) : Prop :=
  e.Legal s ∧ e.Spares s.table.handleIno i ∧ (e.step env s).db.Named i

instance (env : Env) (i : Nat) (s : Shared) (e : LifeEvent) : Decidable (LeavesFile env i s e) :=
  inferInstanceAs (Decidable (_ ∧ _ ∧ _))

end LifeEvent

section Served

variable {s s' : Shared} {env : Env} {busy : Nat → Prop} {c : Call} {r : Request}
  {result : Except Errno Reply} {i : Nat}

private theorem Request.contents_of_call {first second : SystemTime}
    (h : r.call first second = some c) :
    (∀ s : Shared, r.changes s.table.handleIno = Dbfs.changes s c) ∧
      r.newContent = Dbfs.newContent c ∧ r.Attempted = Dbfs.Attempted c ∧
        ∀ s : Shared, r.saves s.table.handleIno = Dbfs.saves s c := by
  cases r with
  | read fh offset size =>
    obtain ⟨-, hsome⟩ := Option.ite_none_left_eq_some.mp h
    cases hsome
    exact ⟨fun _ => rfl, rfl, rfl, fun _ => rfl⟩
  | write fh offset data =>
    obtain ⟨-, hsome⟩ := Option.ite_none_left_eq_some.mp h
    cases hsome
    exact ⟨fun _ => rfl, rfl, rfl, fun _ => rfl⟩
  | mknod parent name mode umask uid gid =>
    obtain ⟨-, hsome⟩ := Option.ite_none_right_eq_some.mp h
    cases hsome
    exact ⟨fun _ => rfl, rfl, rfl, fun _ => rfl⟩
  | setattr ino mode uid gid size =>
    cases h
    cases size with
    | none => exact ⟨fun _ => rfl, rfl, rfl, fun _ => rfl⟩
    | some size => exact ⟨fun _ => rfl, rfl, rfl, fun _ => rfl⟩
  | readdir | readlink | getxattr | listxattr | setxattr | removexattr => cases h
  | lookup | getattr | mkdir | create | symlink | link | openFile | release | flush | fsync
  | fallocate | unlink | rmdir | rename =>
    cases h
    exact ⟨fun _ => rfl, rfl, rfl, fun _ => rfl⟩

namespace Shared

open Request

/-- The tree of the store, the handles of the table, and each file as it is read and stored. -/
def dataTree (s : Shared) : DataTree :=
  ⟨s.openTree, fun i => ⟨(s.file i).bytes, (s.db.file i).bytes⟩⟩

private theorem dataTree_of_idle (h : Idle s s') : s'.dataTree = s.dataTree := by
  unfold dataTree
  rw [openTree_of_idle h, h.db]
  simp only [h.file]

private theorem kind_of_node (h : s.openTree.tree.node i = some .file) :
    s.db.kindOf i = some .regularFile :=
  Db.tree_node_kind.symm.trans (congrArg (Option.map Node.kind) h)

private theorem named_of_tree (h : s.Core [] busy) (hnames : s.openTree.NamesFile i) :
    s.db.Named i := by
  have hkind := kind_of_node hnames.1
  refine ⟨hkind, Nat.pos_of_ne_zero fun hzero => ?_⟩
  have hsome := Option.isSome_of_eq_some hkind
  exact (Db.unlinked_iff h.sound.toLinked hsome).mp hzero (.inr hnames.2)

private theorem held_of_tree (h : s.Core [] busy) (hfile : s.openTree.HasFile i) : s.Held i := by
  obtain ⟨hnode, hnamed | ⟨fh, hfh⟩⟩ := hfile
  · exact .inl (named_of_tree h ⟨hnode, hnamed⟩).2
  · obtain ⟨slot, hget, rfl⟩ := Option.map_eq_some_iff.mp hfh
    right
    rw [Shared.file, OpenTable.file_of_find (h.table.find_of_handle hget)]
    exact h.table.refs_pos hget

private theorem isOk_answer (f : Reply → Answer) (result : Except Errno Reply) :
    ((result.map f).mapError ReplyErrno.call).isOk = result.isOk := by
  rcases result with e | reply
  · rfl
  · rfl

private theorem contents_of_served {first second : SystemTime} (h' : s'.Core [] busy)
    (h : s.Core [] busy) (hcall : r.call first second = some c)
    (hfills : Dbfs.Fills env s c result s') (hbacked : Dbfs.Backed s c s')
    (hsaved : result.isOk = true → ∀ i, Dbfs.saves s c i = true → s'.db.Named i →
      (s'.file i).bytes = (s'.db.file i).bytes)
    (hread : ∀ fh offset size i, c = .readFh fh offset size → s.table.handleIno fh = some i →
      s.db.kindOf i = some .regularFile →
        result = .ok (.data (slice offset size (s.file i).bytes)) ∨
          env.Failed s s' ∧ result.isOk = false) :
    s.dataTree.Serves (s.failures < s'.failures) r
      ((result.map r.answerOf).mapError .call) s'.dataTree := by
  obtain ⟨hchanges, hnew, hattempted, hsaves⟩ := contents_of_call hcall
  have hsome : ∀ i, (s.openTree.tree.node i).isSome → (s.db.kindOf i).isSome := by
    intro i hi
    rw [← Db.tree_node_kind, Option.isSome_map]
    exact hi
  constructor
  case made =>
    intro i hnode hfile
    obtain ⟨hbytes, hstored⟩ := hfills.made i (Db.tree_node_eq_none.mp hnode) (kind_of_node hfile.1)
    exact congrArg₂ FileData.mk hbytes hstored
  case kept =>
    intro i hi hnode hfile
    exact hfills.kept i (fun heq => hi ((hchanges s).trans heq)) (hsome i hnode)
      (held_of_tree h' hfile)
  case changed =>
    intro i hi
    have hi' : Dbfs.changes s c = some i := (hchanges s).symm.trans hi
    rw [isOk_answer]
    change r.Leaves _ (s.file i).bytes _ (s'.file i).bytes
    cases hok : result.isOk with
    | true =>
      rw [hfills.done hok i hi', ← hnew]
      exact .done
    | false =>
      rcases hfills.failed hok i hi' with hsame | ⟨hfailed, hpartly⟩
      · rw [hsame]
        exact .refused
      · exact .failed hfailed.1 (hattempted ▸ hpartly)
  case stored =>
    intro i hnamed hnamed'
    have hstored := hbacked.stored (named_of_tree h hnamed) (named_of_tree h' hnamed')
    rwa [← hchanges, ← hattempted] at hstored
  case saved =>
    intro hok i hi hnamed
    rw [isOk_answer] at hok
    exact (hsaved hok i (hsaves s ▸ hi) (named_of_tree h' hnamed)).symm
  case read =>
    rintro fh offset size i rfl hpos hfh hnode
    have hcall' : some (Call.readFh fh offset.toNat size) = some c :=
      (if_neg (Int.not_lt.mpr hpos)).symm.trans hcall
    rcases hread fh offset.toNat size i (Option.some.inj hcall').symm hfh (kind_of_node hnode) with
      hdata | ⟨hfailed, hok⟩
    · rw [hdata]
      exact .inl rfl
    · exact .inr ⟨hfailed.1, (isOk_answer _ result).trans hok⟩

private theorem contents_call (h : s.Serving) (hl : r.Legal s) (hcall : (r.call 0 0).isSome) :
    Prog.wp (serve env r) (fun answer s' =>
      s.dataTree.Serves (s.failures < s'.failures) r answer s'.dataTree) s := by
  obtain ⟨first, second, c, s₁, hidle, hsame, hcall, hserve⟩ := servedBy env s hcall
  have hinv := (h.of_idle hidle).inv
  have hadm := Dbfs.Legal.admissible hinv (Legal.of_db (legal_call hl hcall) hidle.db)
  have hkeeps : Dbfs.Keeps _ s₁ c (Dbfs.call env c s₁).1 (Dbfs.call env c s₁).2 :=
    Dbfs.call_spec env c hinv hadm
  unfold Prog.wp
  rw [hserve, ← dataTree_of_idle hidle, ← hsame]
  refine contents_of_served hkeeps.inv.toCore hinv.toCore hcall (Dbfs.call_fills hinv hadm)
    (Dbfs.call_backed hinv hadm) hkeeps.saved ?_
  rintro fh offset size i rfl hfh hkind
  exact Dbfs.call_readFh hinv.toCore hfh hkind

section Idle

variable {handles : Nat → Option Nat}

private theorem idle_respond {α : Type} {f : α → Answer} {x : Fs α} (hx : Prog.Within Idle x) :
    Prog.Within Idle (respond f x) :=
  Prog.Within.map f fun s => hx s

private theorem idle_getattr (ino : Nat) : Prog.Within Idle (Fs.getattr env ino) := by
  have hrow : Prog.Within Idle (Fs.getattrRow env ino) := .bind (Fs.idle_query _) fun _ => .pure _
  exact .bind hrow fun _ => Fs.within_overlayAttr _

private theorem idle_xattr (value : Bytes) (size : Nat) :
    Prog.Within Idle (replyXattr value size) := by
  unfold replyXattr
  split
  · exact .pure _
  · split
    · exact .throw _
    · exact .pure _

private theorem idle_serve (env : Env) (h : r.call 0 0 = none) :
    Prog.Within Idle (serve env r) := by
  have hgetattr : ∀ {β : Type} (ino : Nat) (k : FileAttr → Fs β),
      (∀ attr, Prog.Within Idle (k attr)) → Prog.Within Idle (Fs.getattr env ino >>= k) :=
    fun ino _ hk => .bind (idle_getattr ino) hk
  have hmap : ∀ {β : Type} {x : Fs β}, Prog.Within Idle x →
      Prog.Within Idle (Prog.mapError ReplyErrno.call x) := fun hx s => hx s
  cases r with
  | readdir ino offset full =>
    exact idle_respond (Fs.within_readdirStream Fs.idle_query ino offset _ [])
  | readlink ino => exact idle_respond (Fs.idle_query _)
  | getxattr ino name size =>
    exact .bind (hmap (hgetattr ino _ fun _ => .throw _)) fun value => idle_xattr value size
  | listxattr ino size =>
    exact .bind (hmap (hgetattr ino _ fun _ => .pure _)) fun names => idle_xattr names size
  | setxattr ino name => exact idle_respond (hgetattr ino _ fun _ => .throw _)
  | removexattr ino name => exact idle_respond (hgetattr ino _ fun _ => .throw _)
  | read fh offset size =>
    change (if offset < 0 then none else some _) = none at h
    split at h
    · next hneg =>
      rw [show serve env (.read fh offset size) = _ from if_pos hneg]
      exact .throw _
    · cases h
  | write fh offset data =>
    change (if offset < 0 then none else some _) = none at h
    split at h
    · next hneg =>
      rw [show serve env (.write fh offset data) = _ from if_pos hneg]
      exact .throw _
    · cases h
  | mknod parent name mode umask uid gid =>
    change (if _ then some _ else none) = none at h
    split at h
    · cases h
    · next hspecial =>
      rw [show serve env (.mknod parent name mode umask uid gid) = _ from if_neg hspecial]
      exact .throw _
  | lookup | getattr | mkdir | create | symlink | link | setattr | openFile | release | flush
  | fsync | fallocate | unlink | rmdir | rename => cases h

private theorem refused_of_changes (env : Env) (s : Shared) (h : r.call 0 0 = none)
    (hchanges : r.changes handles = some i) : (r.answer env s).isOk = false := by
  cases r with
  | write fh offset data =>
    change (if offset < 0 then none else some _) = none at h
    split at h
    · next hneg =>
      rw [Request.answer, show serve env (.write fh offset data) = _ from if_pos hneg]
      rfl
    · cases h
  | setattr | fallocate => cases h
  | lookup | getattr | readdir | mkdir | create | symlink | readlink | link | getxattr | listxattr
  | setxattr | removexattr | openFile | release | flush | fsync | read | unlink | rmdir | mknod
  | rename => cases hchanges

private theorem saves_of_none (h : r.call 0 0 = none) : r.saves handles i = false := by
  cases r with
  | flush | fsync | release | setattr => cases h
  | lookup | getattr | readdir | mkdir | create | symlink | readlink | link | getxattr | listxattr
  | setxattr | removexattr | openFile | read | write | fallocate | unlink | rmdir | mknod
  | rename => rfl

private theorem contents_idle (env : Env) (s : Shared) (hcall : r.call 0 0 = none) :
    s.dataTree.Serves (s.failures < (r.step env s).failures) r (r.answer env s)
      (r.step env s).dataTree := by
  have hidle : Idle s (r.step env s) := idle_serve env hcall s
  rw [dataTree_of_idle hidle]
  constructor
  case made =>
    intro i hnode hfile
    cases hnode.symm.trans hfile.1
  case kept => exact fun _ _ _ _ => rfl
  case changed =>
    intro i hi
    rw [refused_of_changes env s hcall hi]
    exact .refused
  case stored => exact fun _ _ _ => .inl rfl
  case saved =>
    intro _ i hi
    rw [saves_of_none hcall] at hi
    cases hi
  case read =>
    rintro fh offset size i rfl hpos
    cases (if_neg (Int.not_lt.mpr hpos)).symm.trans hcall

end Idle

private theorem contents_step (h : s.Serving) (env : Env) (hl : r.Legal s) :
    s.dataTree.Serves (s.failures < (r.step env s).failures) r (r.answer env s)
      (r.step env s).dataTree := by
  rcases hcall : r.call 0 0 with _ | c
  · exact contents_idle env s hcall
  · exact contents_call h hl (Option.isSome_of_eq_some hcall)

end Shared

end Served

section Life

namespace Shared

variable {s s' : Shared} {env : Env} {busy : Nat → Prop} {i : Nat} {mountUid mountGid : UInt32}
  {now : Timestamp}

private theorem stored_flushAll (h : s.Serving) (hnamed : (Fs.flushAll env s).2.db.Named i) :
    (((Fs.flushAll env s).2.db.file i).bytes = (s.db.file i).bytes ∨
      ((Fs.flushAll env s).2.db.file i).bytes = (s.file i).bytes) ∧
      (¬s.failures < (Fs.flushAll env s).2.failures →
        ((Fs.flushAll env s).2.db.file i).bytes = (s.file i).bytes) := by
  have hspec : Prog.wp (Fs.flushAll env) _ s := Fs.flushAll_spec h.inv
  have hbacks : Backs s (Fs.flushAll env s).2 := Fs.flushAll_backs h.inv
  obtain ⟨hinv, hquiet, hok, hfails⟩ := hspec
  have hbytes := hquiet.bytes i not_false
  constructor
  · rcases hbacks i ((Db.named_congr hquiet.names).mp hnamed) hnamed with hold | hnew | hnew
    · exact .inl hold
    · exact .inr hnew
    · exact .inr (hnew.trans hbytes)
  · intro hfailed
    have hdone : (Fs.flushAll env s).1 = .ok () := by
      by_contra hne
      exact hfailed (hfails hne).1
    exact (Fs.stored_of_settled hinv.toCore ((hok hdone).2 i) hnamed).symm.trans hbytes

private theorem named_of_mounted {db : Db} (hs : db.Sound)
    (hnamed : (db.initializeTables mountUid mountGid now).Named i) :
    db.Named i ∧ (db.initializeTables mountUid mountGid now).file i = db.file i := by
  have hfile : (db.initializeTables mountUid mountGid now).file i =
      if db.nlinkOf i = 0 then .absent else db.file i := hs.file_initialize mountUid mountGid i
  have hstays : db.nlinkOf i ≠ 0 := by
    intro hzero
    rw [if_pos hzero] at hfile
    cases hnamed.1.symm.trans (congrArg StoredFile.kind hfile)
  rw [if_neg hstays] at hfile
  have hkind := (congrArg StoredFile.kind hfile).symm.trans hnamed.1
  exact ⟨⟨hkind, Nat.pos_of_ne_zero hstays⟩, hfile⟩

private theorem contents_remounted (h : s.Serving) (env : Env) (flushed : Bool) (writeBuffer : Nat)
    (mountUid mountGid : UInt32) (now : Timestamp) :
    s.dataTree.Remounts (flushed = true ∧ s.failures < (Fs.flushAll env s).2.failures) flushed
      (LifeEvent.remounted env flushed writeBuffer mountUid mountGid now s).dataTree := by
  intro i hnames
  have hserving := (serving_remounted h env flushed writeBuffer mountUid mountGid now).1
  have hnamed := named_of_tree hserving.inv.toCore hnames
  -- the new table is empty, so a file is what the store has
  have hfound : ∀ {f : StoredFile},
      (LifeEvent.remounted env flushed writeBuffer mountUid mountGid now s).db.file i = f →
        (LifeEvent.remounted env flushed writeBuffer mountUid mountGid now s).dataTree.file i =
          ⟨f.bytes, f.bytes⟩ := by
    rintro _ rfl
    rfl
  cases flushed with
  | false =>
    obtain ⟨-, hfile⟩ := named_of_mounted h.inv.sound hnamed
    refine ⟨_, hfound hfile, .inl rfl, fun hflushed => ?_⟩
    cases hflushed
  | true =>
    obtain ⟨hleft, hfile⟩ := named_of_mounted (tree_flushAll h env).2.inv.sound hnamed
    obtain ⟨hstored, hdone⟩ := stored_flushAll h hleft
    exact ⟨_, hfound hfile, hstored.imp_right fun hbytes => ⟨rfl, hbytes⟩,
      fun _ hfailed => hdone fun hlt => hfailed ⟨rfl, hlt⟩⟩

private theorem data_step (h : s.Serving) (env : Env) (e : LifeEvent) (hlegal : e.Legal s) :
    s.dataTree.Lives e (e.told env s) (e.step env s).dataTree := by
  have hnames := (serving_step h env e hlegal).1
  cases e with
  | request r =>
    refine .served hnames ?_
    rw [LifeEvent.failed, decide_eq_true_eq]
    exact contents_step h env hlegal
  | remount flushed writeBuffer mountUid mountGid now =>
    refine .remounted hnames ?_
    rw [LifeEvent.failed, Bool.and_eq_true, decide_eq_true_eq]
    exact contents_remounted h env flushed writeBuffer mountUid mountGid now

private theorem namesFile_of_named (h : s.Core [] busy) (hnamed : s.db.Named i) :
    s.openTree.NamesFile i := by
  have hnode : s.openTree.tree.node i = some .file := by
    change s.db.nodeOf i = _
    rw [Db.nodeOf, hnamed.1]
    rfl
  refine ⟨hnode, ?_⟩
  by_contra hunnamed
  have hroot : i ≠ 1 := by
    rintro rfl
    cases hnamed.1.symm.trans h.sound.tree.root
  have hsome := Option.isSome_of_eq_some hnamed.1
  have hzero := (Db.unlinked_iff h.sound.toLinked hsome).mpr (not_or.mpr ⟨hroot, hunnamed⟩)
  exact Nat.ne_of_gt hnamed.2 hzero

end Shared

namespace DataTree

def root : DataTree := ⟨.mounted .root, fun _ => ⟨[], []⟩⟩

/-- The named file `i` has the content `bytes`, and the database has it too. -/
structure Safe (m : DataTree) (i : Nat) (bytes : Bytes) : Prop where
  named : m.names.NamesFile i
  file : m.file i = ⟨bytes, bytes⟩

variable {failed : Prop} {m m' : DataTree} {r : Request} {answer : Except ReplyErrno Answer}
  {i : Nat} {bytes : Bytes}

private theorem Serves.safe (h : m.Serves failed r answer m') (hok : answer.isOk = true)
    (hsaves : r.saves m.names.handles i = true) (hnamed : m'.names.NamesFile i) :
    m'.Safe i (m'.file i).bytes where
  named := hnamed
  file := congrArg (FileData.mk (m'.file i).bytes) (h.saved hok i hsaves hnamed)

/-- What is safe stays safe, unless a request changes it or the file loses its name. -/
private theorem Lives.safe {e : LifeEvent} {told : Told (Option (Except ReplyErrno Answer))}
    (h : m.Lives e told m') (hspares : e.Spares m.names.handles i)
    (hnamed : m'.names.NamesFile i) (hsafe : m.Safe i bytes) : m'.Safe i bytes := by
  refine ⟨hnamed, ?_⟩
  have hfile := hsafe.file
  cases h with
  | served hnames h =>
    have hsome := Option.isSome_of_eq_some hsafe.named.1
    have hbytes := h.kept i hspares hsome ⟨hnamed.1, .inl hnamed.2⟩
    have hstored : (m'.file i).stored = bytes := by
      rcases h.stored i hsafe.named hnamed with hold | hold | hnew | ⟨hchanges, -⟩
      · rw [hold, hfile]
      · rw [hold, hfile]
      · rw [hnew, hbytes, hfile]
      · exact (hspares hchanges).elim
    exact congrArg₂ FileData.mk (hbytes.trans (congrArg FileData.bytes hfile)) hstored
  | remounted hnames h =>
    obtain ⟨found, hfound, hstored | ⟨-, hflushed⟩, -⟩ := h i hnamed
    · rw [hfound, hstored, hfile]
    · rw [hfound, hflushed, hfile]

end DataTree

namespace Dbfs

private theorem dataTree_fresh (mountUid mountGid : UInt32) (created : Timestamp)
    (writeBuffer : Nat) :
    (Shared.withWriteBuffer (.fresh mountUid mountGid created) writeBuffer).dataTree = .root := by
  have hnames : (Shared.withWriteBuffer (.fresh mountUid mountGid created) writeBuffer).openTree =
      .mounted .root := by
    rw [openTree_withWriteBuffer (.fresh mountUid mountGid created), Db.tree_fresh]
  have hbytes : ∀ i, ((Db.fresh mountUid mountGid created).file i).bytes = [] := by
    intro i
    apply List.length_eq_zero_iff.mp
    rw [StoredFile.bytes, length_glue]
    change (Db.fresh mountUid mountGid created).storedSize i = 0
    rw [Db.fresh_eq]
    by_cases hroot : i = 1
    · rw [hroot]
      rfl
    · simp [Db.storedSize, Db.findInode, Ne.symm hroot]
  exact congrArg₂ DataTree.mk hnames (funext fun i => congrArg₂ FileData.mk (hbytes i) (hbytes i))

/-- A file that is read without a name, and one of which a crash leaves what was synced. -/
def syncedLife : List LifeEvent := [
  .request (.create 1 [97] 0o644 0 0 0),
  .request (.write 0 0 [1, 2, 3]),
  .request (.fsync 0),
  .request (.write 0 1 [9]),
  .request (.create 1 [98] 0o644 0 0 0),
  .request (.write 1 0 [7]),
  .request (.unlink 1 [98]),
  .request (.read 1 0 8),
  .request (.read 0 0 8),
  .remount false 65536 0 0 ⟨9, 0⟩,
  .request (.openFile 2),
  .request (.read 0 0 8)]

/-- What one request saved, all later ones return: after any requests that do not change the file,
failures, crashes and mounts, as long as it keeps a name. -/
theorem durable_of_life (mountUid mountGid : UInt32) (created : Timestamp) (writeBuffer : Nat)
    (env : Env) (before : List LifeEvent) (r : Request) (i : Nat) (after : List LifeEvent)
    (hbefore : LegalRun (LifeEvent.step env) LifeEvent.Legal
      (.withWriteBuffer (.fresh mountUid mountGid created) writeBuffer) before) :
    let s := runFrom (LifeEvent.step env)
      (.withWriteBuffer (.fresh mountUid mountGid created) writeBuffer) before
    let saved := r.step env s
    let s' := runFrom (LifeEvent.step env) saved after
    r.Legal s → (r.answer env s).isOk = true → r.saves s.table.handleIno i = true →
      saved.db.Named i → LegalRun (LifeEvent.step env) (LifeEvent.LeavesFile env i) saved after →
        s'.db.Named i ∧ (s'.file i).bytes = (saved.file i).bytes ∧
          (s'.db.file i).bytes = (saved.file i).bytes ∧
            ∀ fh offset size, 0 ≤ offset → s'.table.handleIno fh = some i →
              Request.answer env s' (.read fh offset size) =
                  .ok (.data (slice offset.toNat size (saved.file i).bytes)) ∨
                s'.failures < (Request.step env s' (.read fh offset size)).failures ∧
                  (Request.answer env s' (.read fh offset size)).isOk = false := by
  intro s saved s' hlegal hok hsaves hnamed hafter
  have hs : s.Serving := runFrom_induction (I := Serving)
    (fun _ e hlegal hs => (serving_step hs env e hlegal).2)
    (.fresh mountUid mountGid created writeBuffer) hbefore
  have hserving : saved.Serving := (serving_step hs env (.request r) hlegal).2
  have hsafe : saved.dataTree.Safe i (saved.file i).bytes :=
    (contents_step hs env hlegal).safe hok hsaves (namesFile_of_named hserving.inv.toCore hnamed)
  obtain ⟨hserving', hsafe'⟩ : s'.Serving ∧ s'.dataTree.Safe i (saved.file i).bytes := by
    refine runFrom_induction
      (I := fun s => s.Serving ∧ s.dataTree.Safe i (saved.file i).bytes) ?_
      ⟨hserving, hsafe⟩ hafter
    rintro s e ⟨hlegal, hspares, hnamed⟩ ⟨hs, hsafe⟩
    have hs' := (serving_step hs env e hlegal).2
    exact ⟨hs', (data_step hs env e hlegal).safe hspares
      (namesFile_of_named hs'.inv.toCore hnamed) hsafe⟩
  have hbytes : (s'.file i).bytes = (saved.file i).bytes :=
    congrArg FileData.bytes hsafe'.file
  refine ⟨named_of_tree hserving'.inv.toCore hsafe'.named, hbytes,
    congrArg FileData.stored hsafe'.file, fun fh offset size hpos hfh => ?_⟩
  have hread := (contents_step (r := .read fh offset size) hserving' env trivial).read
      fh offset size i
    rfl hpos hfh hsafe'.named.1
  rw [← hbytes]
  exact hread

/-- The sync of one file, before another is written and a crash. -/
theorem durable_of_syncedLife :
    let s := runFrom (LifeEvent.step calm) (.withWriteBuffer (.fresh 0 0 ⟨0, 0⟩) 131072)
      (syncedLife.take 2)
    let saved := Request.step calm s (.fsync 0)
    let s' := runFrom (LifeEvent.step calm) saved (syncedLife.drop 4)
    s'.db.Named 2 ∧ (s'.file 2).bytes = (saved.file 2).bytes ∧
      (s'.db.file 2).bytes = (saved.file 2).bytes ∧
        ∀ fh offset size, 0 ≤ offset → s'.table.handleIno fh = some 2 →
          Request.answer calm s' (.read fh offset size) =
              .ok (.data (slice offset.toNat size (saved.file 2).bytes)) ∨
            s'.failures < (Request.step calm s' (.read fh offset size)).failures ∧
              (Request.answer calm s' (.read fh offset size)).isOk = false :=
  durable_of_life 0 0 ⟨0, 0⟩ 131072 calm (syncedLife.take 2) (.fsync 0) 2 (syncedLife.drop 4)
    (by decide +kernel) trivial (by decide +kernel) (by decide +kernel) (by decide +kernel)
    (by decide +kernel)

end Dbfs

end Life

end VibeDbfs
