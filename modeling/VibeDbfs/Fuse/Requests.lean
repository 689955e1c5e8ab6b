import VibeDbfs.Fuse.OpenTree
import VibeDbfs.Fuse.Views

/-!
The requests of the kernel. The handlers answer each by a call, by a part of a listing, by the
target of a symlink, or by a refusal; whatever they answer, the tree and the handles explain it.
-/

set_option autoImplicit false
set_option relaxedAutoImplicit false

namespace VibeDbfs

open Lib Lib.Bytes

inductive TimeOrNow where
  | specificTime (time : SystemTime)
  | now

/-- The time that is meant, where the clock says `time`. -/
def TimeOrNow.at (time : SystemTime) : TimeOrNow → SystemTime
  | .specificTime given => given
  | .now => time

/-- What the handlers read of a request. A reply to `readdir` takes entries until it is `full`. -/
inductive Request where
  | lookup (parent : Nat) (name : Name)
  | getattr (ino : Nat)
  | readdir (ino : Nat) (offset : Int) (full : List DbfsDirEntry → DbfsDirEntry → Bool)
  | mkdir (parent : Nat) (name : Name) (mode umask uid gid : UInt32)
  | create (parent : Nat) (name : Name) (mode umask uid gid : UInt32)
  | symlink (parent : Nat) (linkName : Name) (target : Bytes) (uid gid : UInt32)
  | readlink (ino : Nat)
  | link (ino newParent : Nat) (newName : Name)
  | setattr (ino : Nat) (mode uid gid : Option UInt32) (size : Option Nat)
      (atime mtime : Option TimeOrNow)
  | getxattr (ino : Nat) (name : Name) (size : Nat)
  | listxattr (ino size : Nat)
  | setxattr (ino : Nat) (name : Name)
  | removexattr (ino : Nat) (name : Name)
  | openFile (ino : Nat)
  | release (fh : Nat)
  | flush (fh : Nat)
  | fsync (fh : Nat)
  | read (fh : Nat) (offset : Int) (size : Nat)
  | write (fh : Nat) (offset : Int) (data : Bytes)
  | fallocate (ino : Nat) (offset length : Int) (mode : UInt32)
  | unlink (parent : Nat) (name : Name)
  | rmdir (parent : Nat) (name : Name)
  | mknod (parent : Nat) (name : Name) (mode umask uid gid : UInt32)
  | rename (parent : Nat) (name : Name) (newParent : Nat) (newName : Name) (flags : UInt32)

inductive Answer where
  | ok
  | entry (attr : FileAttr)
  | attr (attr : FileAttr)
  | created (attr : FileAttr) (fh : Nat)
  | opened (fh : Nat)
  | data (data : Bytes)
  | written (written : Nat)
  | size (size : Nat)
  | directory (entries : List DbfsDirEntry)
  deriving DecidableEq, Repr

/-- The error numbers of the calls, and the two that only handlers reply with. -/
inductive ReplyErrno where
  | call (errno : Errno)
  | EPERM
  | ERANGE
  deriving DecidableEq, Repr

/-- The directory that `..` names, before its error is one of the replies. -/
def Db.parentOrSelf (db : Db) (ino : Nat) : Except DbError Nat :=
  match db.parentOfDir ino with
  | .error .notFound => .ok ino
  | parent => parent

abbrev Handler := Prog Shared ReplyErrno Answer

namespace Fs

variable (env : Env)

/-- `if wanted && emit(entry) { return Ok(()) }`, and what follows. -/
def offer {σ : Type} (wanted : Prop) [Decidable wanted] (emit : DbfsDirEntry → σ → Bool × σ)
    (entry : DbfsDirEntry) (state : σ) (rest : σ → Fs σ) : Fs σ :=
  if wanted then
    match emit entry state with
    | (true, state) => pure state
    | (false, state) => rest state
  else rest state

def readdirStream {σ : Type} (ino : Nat) (offset : Int) (emit : DbfsDirEntry → σ → Bool × σ)
    (state : σ) : Fs σ := do
  let parent ← query env fun db => db.parentOrSelf ino
  offer (offset < 1) emit ⟨[46], ino, .directory, 1⟩ state fun state =>
    offer (offset < 2) emit ⟨[46, 46], parent, .directory, 2⟩ state fun state =>
      query env fun db => db.readDirAfter ino (max (offset - 2) 0)
        (fun row => emit ⟨row.name, row.child, row.kind, row.id + 2⟩) state

def readlink (ino : Nat) : Fs Bytes := query env fun db => db.readSymlink ino

def getxattr (ino : Nat) (_name : Name) : Fs Bytes := do
  let _ ← getattr env ino
  Prog.throw .ENODATA

def listxattr (ino : Nat) : Fs Bytes := do
  let _ ← getattr env ino
  pure []

def setxattr (ino : Nat) (_name : Name) : Fs Unit := do
  let _ ← getattr env ino
  Prog.throw .EOPNOTSUPP

def removexattr (ino : Nat) (_name : Name) : Fs Unit := do
  let _ ← getattr env ino
  Prog.throw .ENODATA

def timeOrNow : Option TimeOrNow → Fs (Option SystemTime)
  | none => pure none
  | some (.specificTime time) => pure (some time)
  | some .now => fun s => (.ok (some (env.clock s.tick)), { s with tick := s.tick + 1 })

end Fs

namespace Request

/-- `match result { Ok(a) => reply.f(a), Err(errno) => reply.error(errno) }`. -/
def respond {α : Type} (f : α → Answer) (x : Fs α) : Handler := f <$> Prog.mapError .call x

def replyXattr (value : Bytes) (size : Nat) : Handler :=
  if size = 0 then pure (.size (value.length % 4294967296))
  else if size < value.length then Prog.throw .ERANGE
  else pure (.data value)

def fileTypeMask : UInt32 := 0o170000

def regularFileType : UInt32 := 0o100000

def serve (env : Env) : Request → Handler
  | lookup parent name => respond .entry (Fs.lookup env parent name)
  | getattr ino => respond .attr (Fs.getattr env ino)
  | readdir ino offset full =>
    respond .directory (Fs.readdirStream env ino offset (Dbfs.addTo full) [])
  | mkdir parent name mode umask uid gid =>
    respond .entry (Fs.mkdir env parent name mode umask uid gid)
  | create parent name mode umask uid gid =>
    respond (fun r => .created r.1 r.2) (Fs.createOpen env parent name mode umask uid gid)
  | symlink parent linkName target uid gid =>
    respond .entry (Fs.symlink env parent linkName target uid gid)
  | readlink ino => respond .data (Fs.readlink env ino)
  | link ino newParent newName => respond .entry (Fs.link env ino newParent newName)
  | setattr ino mode uid gid size atime mtime => respond .attr do
    let atime ← Fs.timeOrNow env atime
    let mtime ← Fs.timeOrNow env mtime
    Fs.setattr env ino mode uid gid size atime mtime
  | getxattr ino name size => do
    let value ← Prog.mapError .call (Fs.getxattr env ino name)
    replyXattr value size
  | listxattr ino size => do
    let names ← Prog.mapError .call (Fs.listxattr env ino)
    replyXattr names size
  | setxattr ino name => respond (fun _ => .ok) (Fs.setxattr env ino name)
  | removexattr ino name => respond (fun _ => .ok) (Fs.removexattr env ino name)
  | openFile ino => respond .opened (Fs.openFile env ino)
  | release fh => respond (fun _ => .ok) (Fs.releaseFh env fh)
  | flush fh => respond (fun _ => .ok) (Fs.flushFh env fh)
  | fsync fh => respond (fun _ => .ok) (Fs.syncFh env fh)
  | read fh offset size =>
    if offset < 0 then Prog.throw (.call .EINVAL)
    else respond .data (Fs.readFh env fh offset.toNat size)
  | write fh offset data =>
    if offset < 0 then Prog.throw (.call .EINVAL)
    else respond .written (Fs.writeFh env fh offset.toNat data)
  | fallocate ino offset length mode =>
    respond (fun _ => .ok) (Fs.fallocate env ino offset length mode)
  | unlink parent name => respond (fun _ => .ok) (Fs.unlink env parent name)
  | rmdir parent name => respond (fun _ => .ok) (Fs.rmdir env parent name)
  | mknod parent name mode umask uid gid =>
    -- a regular file only: FIFOs, devices and sockets are not supported
    if mode &&& fileTypeMask = 0 ∨ mode &&& fileTypeMask = regularFileType then
      respond .entry (Fs.create env parent name (mode &&& ~~~fileTypeMask) umask uid gid)
    else Prog.throw .EPERM
  | rename parent name newParent newName flags =>
    respond (fun _ => .ok) (Fs.rename env parent name newParent newName flags)

def step (env : Env) (s : Shared) (r : Request) : Shared := (serve env r s).2

def answer (env : Env) (s : Shared) (r : Request) : Except ReplyErrno Answer := (serve env r s).1

/-- The requests as the kernel sends them: it opens no directory that could be removed, links only
inodes that still have a name, and its offsets are signed. -/
def Legal (s : Shared) : Request → Prop
  | openFile ino => Dbfs.Legal s (.openFile ino)
  | link ino newParent newName => Dbfs.Legal s (.link ino newParent newName)
  | write _ offset data => offset < 9223372036854775808 ∧ data.length < 4294967296
  | _ => True

instance (s : Shared) : ∀ r, Decidable (Legal s r)
  | openFile ino => inferInstanceAs (Decidable (Dbfs.Legal s (.openFile ino)))
  | link ino newParent newName =>
    inferInstanceAs (Decidable (Dbfs.Legal s (.link ino newParent newName)))
  | write _ offset data =>
    inferInstanceAs (Decidable (offset < 9223372036854775808 ∧ data.length < 4294967296))
  | lookup .. | getattr _ | readdir .. | mkdir .. | create .. | symlink .. | readlink _ | setattr ..
  | getxattr .. | listxattr .. | setxattr .. | removexattr .. | release _ | flush _ | fsync _
  | read .. | fallocate .. | unlink .. | rmdir .. | mknod .. | rename .. =>
    inferInstanceAs (Decidable True)

/-- The call that a request comes to, where the clock says `first` and `second`. -/
def call (first second : SystemTime) : Request → Option Call
  | lookup parent name => some (.lookup parent name)
  | getattr ino => some (.getattr ino)
  | mkdir parent name mode umask uid gid => some (.mkdir parent name mode umask uid gid)
  | create parent name mode umask uid gid => some (.createOpen parent name mode umask uid gid)
  | symlink parent linkName target uid gid => some (.symlink parent linkName target uid gid)
  | link ino newParent newName => some (.link ino newParent newName)
  | setattr ino mode uid gid size atime mtime =>
    some (.setattr ino mode uid gid size (atime.map (TimeOrNow.at first))
      (mtime.map (TimeOrNow.at second)))
  | openFile ino => some (.openFile ino)
  | release fh => some (.releaseFile fh)
  | flush fh => some (.flushFh fh)
  | fsync fh => some (.syncFh fh)
  | read fh offset size => if offset < 0 then none else some (.readFh fh offset.toNat size)
  | write fh offset data => if offset < 0 then none else some (.writeFh fh offset.toNat data)
  | fallocate ino offset length mode => some (.fallocate ino offset length mode)
  | unlink parent name => some (.unlink parent name)
  | rmdir parent name => some (.rmdir parent name)
  | mknod parent name mode umask uid gid =>
    if mode &&& fileTypeMask = 0 ∨ mode &&& fileTypeMask = regularFileType then
      some (.create parent name (mode &&& ~~~fileTypeMask) umask uid gid)
    else none
  | rename parent name newParent newName flags => some (.rename parent name newParent newName flags)
  | readdir .. | readlink _ | getxattr .. | listxattr .. | setxattr .. | removexattr .. => none

def answerOf : Request → Reply → Answer
  | getattr _, .attr attr => .attr attr
  | setattr .., .attr attr => .attr attr
  | _, .attr attr => .entry attr
  | _, .created attr fh => .created attr fh
  | _, .opened fh => .opened fh
  | _, .data data => .data data
  | _, .written written => .written written
  | _, .empty => .ok

def refusal : Request → Option ReplyErrno
  | read _ offset _ => if offset < 0 then some (.call .EINVAL) else none
  | write _ offset _ => if offset < 0 then some (.call .EINVAL) else none
  | mknod _ _ mode _ _ _ =>
    if mode &&& fileTypeMask = 0 ∨ mode &&& fileTypeMask = regularFileType then none
    else some .EPERM
  | _ => none

/-- What a request for an extended attribute is answered, where its inode exists. -/
def xattr : Request → Option (Nat × Except ReplyErrno Answer)
  | getxattr ino _ _ => some (ino, .error (.call .ENODATA))
  | listxattr ino size => some (ino, .ok (if size = 0 then .size 0 else .data []))
  | setxattr ino _ => some (ino, .error (.call .EOPNOTSUPP))
  | removexattr ino _ => some (ino, .error (.call .ENODATA))
  | _ => none

end Request

/-- The stream of the directory `i`: `.`, `..`, and its entries, each under a cookie above the one
before. -/
structure FileTree.Streams (t : FileTree) (i : Nat) (stream : List DbfsDirEntry) : Prop where
  sorted : (stream.map DbfsDirEntry.offset).Pairwise (· < ·)
  eq : ∃ parent entries, stream =
      ⟨[46], i, .directory, 1⟩ :: ⟨[46, 46], parent, .directory, 2⟩ :: entries ∧
    t.Above i parent ∧ t.Lists i (entries.map DbfsDirEntry.entry)

/-- The answers to requests that only read the tree, or are refused by themselves. -/
inductive OpenTree.Finds (m : OpenTree) : Request → Except ReplyErrno Answer → Prop
  | refused {r : Request} {errno : ReplyErrno} (hrefusal : r.refusal = some errno) :
      Finds m r (.error errno)
  | target {ino : Nat} {target : Bytes} (hnode : m.tree.readlink ino = .ok target) :
      Finds m (.readlink ino) (.ok (.data target))
  | noTarget {ino : Nat} {e : DbError} (hnode : m.tree.readlink ino = .error e) :
      Finds m (.readlink ino) (.error (.call (errnoFromDbError e)))
  | xattr {r : Request} {ino : Nat} {answer : Except ReplyErrno Answer}
      (hxattr : r.xattr = some (ino, answer)) (hnode : (m.tree.node ino).isSome) : Finds m r answer
  | noInode {r : Request} {ino : Nat} {answer : Except ReplyErrno Answer}
      (hxattr : r.xattr = some (ino, answer)) (hnode : m.tree.node ino = none) :
      Finds m r (.error (.call .ENOENT))
  | page {ino : Nat} {offset : Int} {full : List DbfsDirEntry → DbfsDirEntry → Bool}
      {stream : List DbfsDirEntry} (hdir : m.tree.expectDirectory ino = .ok ())
      (hstream : m.tree.Streams ino stream) :
      Finds m (.readdir ino offset full)
        (.ok (.directory (feed (Dbfs.addTo full) (stream.filter (offset < ·.offset)) [])))
  | noDirectory {ino : Nat} {offset : Int} {full : List DbfsDirEntry → DbfsDirEntry → Bool}
      {e : DbError} (hdir : m.tree.expectDirectory ino = .error e) :
      Finds m (.readdir ino offset full) (.error (.call (errnoFromDbError e)))
  | onlyDots {ino parent : Nat} {offset : Int} {full : List DbfsDirEntry → DbfsDirEntry → Bool}
      {e : DbError} {page more : List DbfsDirEntry} (hdir : m.tree.expectDirectory ino = .error e)
      (hpage : page ++ more = [⟨[46], ino, .directory, 1⟩, ⟨[46, 46], parent, .directory, 2⟩].filter
        (offset < ·.offset)) (hmore : more ≠ []) :
      Finds m (.readdir ino offset full) (.ok (.directory page))

/-- What a file system may answer to the kernel, and what may follow. The error that says that the
storage `failed` is one of the storage. -/
inductive OpenTree.Serves (failed : Prop) (m : OpenTree) :
    Request → Except ReplyErrno Answer → OpenTree → Prop
  | call {r : Request} {first second : SystemTime} {c : Call} {reply : Except Errno Reply}
      {m' : OpenTree} (hcall : r.call first second = some c)
      (hallows : m.Allows failed c reply m') :
      Serves failed m r ((reply.map r.answerOf).mapError .call) m'
  | found {r : Request} {answer : Except ReplyErrno Answer} (hfailed : ¬failed)
      (hfinds : m.Finds r answer) : Serves failed m r answer m
  | failed {r : Request} {errno : Errno} (hcall : r.call 0 0 = none) (hfailed : failed)
      (hstorage : errno.OfStorage) : Serves failed m r (.error (.call errno)) m

private theorem Db.dotDot_eq (db : Db) (ino : Nat) :
    Dbfs.dotDot db ino = (db.parentOrSelf ino).mapError errnoFromDbError := by
  unfold Dbfs.dotDot parentOrSelf
  rcases db.parentOfDir ino with e | parent
  · cases e <;> rfl
  · rfl

namespace Fs

open Shared

variable {α σ : Type} {env : Env} {s s' s'' : Shared} {expected : Except Errno α}

/-- From `s` to `s'` nothing is changed, and the outcome is the expected one unless the storage
fails. -/
structure Reads (s : Shared) (expected r : Except Errno α) (s' : Shared) : Prop where
  idle : Idle s s'
  outcome : s.Unfailed s' ∧ r = expected ∨
    s.failures < s'.failures ∧ ∃ e : Errno, r = .error e ∧ e.OfStorage

private theorem query_reads (f : Db → Except DbError α) :
    Prog.wp (query env f) (Reads s ((f s.db).mapError errnoFromDbError)) s := by
  refine wp_query (fun failure _ => ?_) (fun error herror => ?_) fun a ha => ?_
  · exact ⟨⟨rfl, rfl, rfl⟩, .inr ⟨Nat.lt_succ_self _, _, rfl, failure.ofStorage⟩⟩
  · rw [herror]
    exact ⟨⟨rfl, rfl, rfl⟩, .inl ⟨rfl, rfl⟩⟩
  · rw [ha]
    exact ⟨⟨rfl, rfl, rfl⟩, .inl ⟨rfl, rfl⟩⟩

private theorem reads_bind {β : Type} {x : Fs α} {f : α → Fs β} {expected' : Except Errno α}
    {more : α → Except Errno β} (hx : Prog.wp x (Reads s expected') s)
    (hf : ∀ a s', Idle s s' → Prog.wp (f a) (Reads s' (more a)) s') :
    Prog.wp (x >>= f) (Reads s (expected' >>= more)) s := by
  refine (Prog.wp_bind_iff ..).mpr (Prog.wp_mono hx ?_)
  rintro r s' ⟨hidle, ⟨hsame, rfl⟩ | ⟨hfailed, e, rfl, he⟩⟩
  · rcases r with e | a
    · exact ⟨hidle, .inl ⟨hsame, rfl⟩⟩
    · refine Prog.wp_mono (hf a s' hidle) ?_
      rintro r s'' ⟨hidle', ⟨hsame', hr⟩ | ⟨hfailed, he⟩⟩
      · exact ⟨hidle.trans hidle', .inl ⟨hsame'.trans hsame, hr⟩⟩
      · exact ⟨hidle.trans hidle', .inr ⟨hsame ▸ hfailed, he⟩⟩
  · exact ⟨hidle, .inr ⟨hfailed, e, rfl, he⟩⟩

private theorem reads_offer {wanted : Prop} [Decidable wanted] {emit : DbfsDirEntry → σ → Bool × σ}
    {entry : DbfsDirEntry} {state : σ} {rest : σ → Fs σ} {rest' : σ → Except Errno σ}
    (hrest : ∀ state, Prog.wp (rest state) (Reads s (rest' state)) s) :
    Prog.wp (offer wanted emit entry state rest)
      (Reads s (Dbfs.offer wanted emit entry state rest')) s := by
  unfold offer Dbfs.offer
  split
  · rcases emit entry state with ⟨_ | _, state'⟩
    · exact hrest state'
    · exact ⟨.refl s, .inl ⟨rfl, rfl⟩⟩
  · exact hrest state

theorem within_readdirStream {R : Shared → Shared → Prop} [IsPreorder Shared R]
    (hquery : ∀ {β : Type} (f : Db → Except DbError β), Prog.Within R (query env f)) (ino : Nat)
    (offset : Int) (emit : DbfsDirEntry → σ → Bool × σ) (state : σ) :
    Prog.Within R (readdirStream env ino offset emit state) := by
  have hoffer : ∀ (wanted : Prop) [Decidable wanted] (entry : DbfsDirEntry) (state : σ)
      (rest : σ → Fs σ), (∀ state, Prog.Within R (rest state)) →
        Prog.Within R (offer wanted emit entry state rest) := by
    intro wanted _ entry state rest hrest
    unfold offer
    split
    · split
      · exact .pure _
      · exact hrest _
    · exact hrest _
  refine .bind (hquery _) fun parent => ?_
  exact hoffer _ _ _ _ fun state => hoffer _ _ _ _ fun state => hquery _

/-- The stream of a directory is that of the store, unless the storage fails. -/
private theorem readdirStream_reads (ino : Nat) (offset : Int) (emit : DbfsDirEntry → σ → Bool × σ)
    (state : σ) : Prog.wp (readdirStream env ino offset emit state)
      (Reads s (Dbfs.readdirStream s.db ino offset emit state)) s := by
  have hparent : Prog.wp (query env fun db => db.parentOrSelf ino)
      (Reads s (Dbfs.dotDot s.db ino)) s := by
    rw [Db.dotDot_eq]
    exact query_reads _
  refine reads_bind hparent fun parent s' hidle => ?_
  rw [← hidle.db]
  exact reads_offer fun state => reads_offer fun state => query_reads _

end Fs

namespace Dbfs

variable {db : Db} {i parent : Nat}

private theorem entriesAfter_eq_filter (hids : db.EntryIds) (offset : Int) :
    entriesAfter db i parent offset =
      (entriesAfter db i parent 0).filter (offset < ·.offset) := by
  have hsorted : ∀ offset, (entriesAfter db i parent offset).Pairwise
      fun a b => a.offset < b.offset := fun offset =>
    List.pairwise_map.mp (entriesAfter_sorted hids parent)
  have hmem : ∀ offset e, e ∈ entriesAfter db i parent offset ↔ offset < e.offset ∧
      (e = ⟨[46], i, .directory, 1⟩ ∨ e = ⟨[46, 46], parent, .directory, 2⟩ ∨
        ∃ d ∈ db.dirents, d.parentIno = i ∧ ∃ r, db.findInode d.childIno = some r ∧
          e = ⟨d.name, d.childIno, r.kind, d.id + 2⟩) := by
    intro offset e
    rw [entriesAfter, List.mem_append, List.mem_append, List.mem_map, or_assoc]
    constructor
    · rintro (he | he | ⟨row, hrow, rfl⟩)
      · split at he
        · next hlt =>
          obtain rfl := List.mem_singleton.mp he
          exact ⟨hlt, .inl rfl⟩
        · cases he
      · split at he
        · next hlt =>
          obtain rfl := List.mem_singleton.mp he
          exact ⟨hlt, .inr (.inl rfl)⟩
        · cases he
      · obtain ⟨d, hd, hin, hafter, r, hr, rfl⟩ := mem_rowsAfter.mp hrow
        refine ⟨?_, .inr (.inr ⟨d, hd, hin, r, hr, rfl⟩)⟩
        dsimp only
        omega
    · rintro ⟨hlt, rfl | rfl | ⟨d, hd, hin, r, hr, rfl⟩⟩
      · exact .inl ((if_pos hlt).symm ▸ List.mem_singleton_self _)
      · exact .inr (.inl ((if_pos hlt).symm ▸ List.mem_singleton_self _))
      · have hpos := hids.pos d hd
        dsimp only at hlt
        exact .inr (.inr ⟨_, mem_rowsAfter.mpr ⟨d, hd, hin, by omega, r, hr, rfl⟩, rfl⟩)
  have hantisymm : ∀ a b : DbfsDirEntry, a.offset < b.offset → b.offset < a.offset → a = b :=
    fun a b hab hba => (Int.lt_asymm hab hba).elim
  refine List.Perm.eq_of_pairwise (fun a b _ _ => hantisymm a b) (hsorted offset)
    ((hsorted 0).filter _) ?_
  have hnodup : ∀ offset, (entriesAfter db i parent offset).Nodup := fun offset =>
    (hsorted offset).imp fun hlt heq => (heq ▸ hlt).false
  refine (List.perm_ext_iff_of_nodup (hnodup offset) ((hnodup 0).filter _)).mpr fun e => ?_
  rw [List.mem_filter, hmem, hmem, decide_eq_true_eq]
  constructor
  · rintro ⟨hlt, he⟩
    refine ⟨⟨?_, he⟩, hlt⟩
    rcases he with rfl | rfl | ⟨d, -, -, r, -, rfl⟩
    · exact Int.zero_lt_one
    · exact Int.ofNat_succ_pos 1
    · dsimp only
      omega
  · exact fun he => ⟨he.2, he.1.2⟩

private theorem readdirStream_directory (hk : db.Keys) (ht : db.names.Tree) (hids : db.EntryIds)
    (hdir : db.kindOf i = some .directory) (offset : Int)
    (full : List DbfsDirEntry → DbfsDirEntry → Bool) :
    ∃ stream, db.tree.Streams i stream ∧ readdirStream db i offset (addTo full) [] =
      .ok (feed (addTo full) (stream.filter (offset < ·.offset)) []) := by
  obtain ⟨page, hpage⟩ : ∃ page, readPage db i offset full = .ok page := readPage_isOk hk hdir
  obtain ⟨parent, hparent, rfl⟩ := readPage_ok hpage
  refine ⟨entriesAfter db i parent 0, ⟨entriesAfter_sorted hids parent, parent, ?_⟩, ?_⟩
  · obtain ⟨entries, hstream, hlists⟩ := Db.stream_entries ht hids parent
    exact ⟨entries, hstream, Db.above_of_dotDot ht hdir hparent, hlists⟩
  · rw [← entriesAfter_eq_filter hids]
    exact hpage

private theorem offer_cases {full : List DbfsDirEntry → DbfsDirEntry → Bool} (wanted : Prop)
    [Decidable wanted] (e : DbfsDirEntry) (taken : List DbfsDirEntry)
    (rest : List DbfsDirEntry → Except Errno (List DbfsDirEntry)) :
    wanted ∧ offer wanted (addTo full) e taken rest = .ok taken ∨
      offer wanted (addTo full) e taken rest = rest (taken ++ if wanted then [e] else []) := by
  unfold offer addTo
  by_cases hwanted : wanted
  · rw [if_pos hwanted, if_pos hwanted]
    rcases full taken e
    · exact .inr rfl
    · exact .inl ⟨hwanted, rfl⟩
  · rw [if_neg hwanted, if_neg hwanted, List.append_nil]
    exact .inr rfl

private theorem readdirStream_elsewhere (hk : db.Keys) {e : DbError}
    (h : db.tree.expectDirectory i = .error e) (offset : Int)
    (full : List DbfsDirEntry → DbfsDirEntry → Bool) :
    readdirStream db i offset (addTo full) [] = .error (errnoFromDbError e) ∨
      ∃ parent page more, readdirStream db i offset (addTo full) [] = .ok page ∧
        page ++ more = [⟨[46], i, .directory, 1⟩, ⟨[46, 46], parent, .directory, 2⟩].filter
          (offset < ·.offset) ∧ more ≠ [] := by
  obtain ⟨parent, hparent⟩ := dotDot_ok db i
  have hrows : ∀ state, (db.readDirAfter i (max (offset - 2) 0)
      (fun row => addTo full ⟨row.name, row.child, row.kind, row.id + 2⟩) state).mapError
        errnoFromDbError = .error (errnoFromDbError e) := fun state => by
    rw [Db.readDirAfter_error hk h]
    rfl
  have hstream : readdirStream db i offset (addTo full) [] =
      offer (offset < 1) (addTo full) ⟨[46], i, .directory, 1⟩ [] fun state =>
        offer (offset < 2) (addTo full) ⟨[46, 46], parent, .directory, 2⟩ state fun _ =>
          .error (errnoFromDbError e) := by
    rw [readdirStream, hparent]
    simp only [hrows]
    rfl
  have hdots : [(⟨[46], i, .directory, 1⟩ : DbfsDirEntry), ⟨[46, 46], parent, .directory, 2⟩].filter
      (offset < ·.offset) = (if offset < 1 then [⟨[46], i, .directory, 1⟩] else []) ++
        if offset < 2 then [⟨[46, 46], parent, .directory, 2⟩] else [] := by
    by_cases hdot : offset < 1 <;> by_cases hdotDot : offset < 2 <;> simp [hdot, hdotDot]
  rw [hstream]
  rcases offer_cases (offset < 1) ⟨[46], i, .directory, 1⟩ [] _ with ⟨hdot, hfull⟩ | hdot
  · refine .inr ⟨parent, [], _, hfull, List.nil_append _, ?_⟩
    rw [hdots, if_pos hdot]
    exact List.cons_ne_nil _ _
  · rw [hdot]
    rcases offer_cases (offset < 2) ⟨[46, 46], parent, .directory, 2⟩ _ _ with
      ⟨hdotDot, hfull⟩ | herror
    · refine .inr ⟨parent, _, [⟨[46, 46], parent, .directory, 2⟩], hfull, ?_, List.cons_ne_nil _ _⟩
      rw [hdots, if_pos hdotDot, List.nil_append]
    · exact .inl herror

end Dbfs

private theorem Db.EntryIds.makes {db db' : Db} (h : db.EntryIds) (hs : db.Sound)
    (hmakes : db.Makes db') :
    db'.EntryIds := by
  cases hmakes with
  | data hnames _ =>
    have hids := congrArg (fun n => n.entries.map Dirent.id) hnames
    exact h.of_sublist (hids ▸ List.Sublist.refl _)
  | call _ hperform => exact h.perform hs hperform

private theorem Db.HasTargets.makes {db db' : Db} (h : db.HasTargets) (hs : db.Sound)
    (hmakes : db.Makes db') : db'.HasTargets := by
  cases hmakes with
  | data hnames hsymlinks =>
    intro i hi
    rw [hsymlinks]
    exact h i ((congrFun (congrArg Names.kind hnames) i).symm.trans hi)
  | call _ hperform => exact h.perform hs hperform

namespace Shared

variable {env : Env} {s s' : Shared}

/-- What holds of a file system between two requests. -/
structure Serving (s : Shared) : Prop where
  inv : s.Inv [] fun _ => False
  ids : s.db.EntryIds
  targets : s.db.HasTargets

theorem Serving.of_idle (h : s.Serving) (hidle : Idle s s') : s'.Serving where
  inv := h.inv.of_idle hidle
  ids := hidle.db ▸ h.ids
  targets := hidle.db ▸ h.targets

theorem Serving.call {c : Call} (h : s.Serving) (hl : Dbfs.Legal s c) (env : Env) :
    s.openTree.Allows (s.failures < (Dbfs.step env s c).failures) c (Dbfs.reply env s c)
      (Dbfs.step env s c).openTree ∧ Prog.wp (Dbfs.call env c) (fun _ s' => s'.Serving) s := by
  have hadm := Dbfs.Legal.admissible h.inv hl
  obtain ⟨hallows, hmakes⟩ := call_allows env h.inv hadm
  refine ⟨hallows, (Dbfs.call_spec env c h.inv hadm).inv, ?_, ?_⟩
  · exact h.ids.makes h.inv.sound hmakes
  · exact h.targets.makes h.inv.sound hmakes

/-- The answer is one that the tree and the handles explain, and the next request may come. -/
structure Serves (s : Shared) (r : Request) (answer : Except ReplyErrno Answer) (s' : Shared) :
    Prop where
  step : OpenTree.Serves (s.failures < s'.failures) s.openTree r answer s'.openTree
  serving : s'.Serving

open Request

variable {r : Request} {α : Type}

private theorem respond_call {f : α → Answer} {g : α → Reply} {x : Fs α} {c : Call}
    (hx : Dbfs.call env c = g <$> x) (hanswer : ∀ a, r.answerOf (g a) = f a) :
    respond f x s =
      (((Dbfs.call env c s).1.map r.answerOf).mapError .call, (Dbfs.call env c s).2) := by
  have hcall : Prog.wp x (fun result s' => Dbfs.call env c s = (result.map g, s')) s := by
    refine (Prog.wp_map g x (fun reply s' => Dbfs.call env c s = (reply, s')) s).mp ?_
    rw [hx]
    rfl
  change Prog.wp (respond f x) (fun answer s' => (answer, s') = _) s
  refine (Prog.wp_map ..).mpr ((Prog.wp_mapError ..).mpr (Prog.wp_mono hcall ?_))
  rintro (e | a) s' hrun
  · rw [hrun]
    rfl
  · rw [hrun]
    exact congrArg (fun answer => (Except.ok answer, s')) (hanswer a).symm

private theorem respond_congr {f : α → Answer} {x y : Fs α} (h : x s = y s') :
    respond f x s = respond f y s' := by
  have hmap : Prog.mapError ReplyErrno.call x s = Prog.mapError .call y s' := by
    unfold Prog.mapError
    rw [h]
  exact Prog.bind_congr hmap _

private theorem timeOrNow_eq (env : Env) (s : Shared) (time : Option TimeOrNow) :
    ∃ now s', Idle s s' ∧ s.Unfailed s' ∧
      Fs.timeOrNow env time s = (.ok (time.map (TimeOrNow.at now)), s') := by
  rcases time with _ | time | _
  · exact ⟨env.clock 0, s, .refl s, rfl, rfl⟩
  · exact ⟨env.clock 0, s, .refl s, rfl, rfl⟩
  · exact ⟨env.clock s.tick, { s with tick := s.tick + 1 }, ⟨rfl, rfl, rfl⟩, rfl, rfl⟩

/-- The request is served by one call, perhaps after readings of the clock. -/
def ServedBy (env : Env) (s : Shared) (r : Request) : Prop :=
  ∃ first second c s₁, Idle s s₁ ∧ s.Unfailed s₁ ∧ r.call first second = some c ∧ serve env r s =
    (((Dbfs.call env c s₁).1.map r.answerOf).mapError .call, (Dbfs.call env c s₁).2)

private theorem ServedBy.of_respond {f : α → Answer} {g : α → Reply} {x : Fs α} {c : Call}
    (hserve : serve env r s = respond f x s) (hx : Dbfs.call env c = g <$> x)
    (hcall : r.call 0 0 = some c) (hanswer : ∀ a, r.answerOf (g a) = f a) : ServedBy env s r :=
  ⟨0, 0, c, s, .refl s, rfl, hcall, hserve.trans (respond_call hx hanswer)⟩

private theorem servedBy_setattr (ino : Nat) (mode uid gid : Option UInt32) (size : Option Nat)
    (atime mtime : Option TimeOrNow) :
    ServedBy env s (.setattr ino mode uid gid size atime mtime) := by
  obtain ⟨first, s₁, hidle₁, hsame₁, hfirst⟩ := timeOrNow_eq env s atime
  obtain ⟨second, s₂, hidle₂, hsame₂, hsecond⟩ := timeOrNow_eq env s₁ mtime
  have hserve : serve env (.setattr ino mode uid gid size atime mtime) s = respond .attr
      (Fs.setattr env ino mode uid gid size (atime.map (TimeOrNow.at first))
        (mtime.map (TimeOrNow.at second))) s₂ :=
    respond_congr ((Prog.bind_ok hfirst).trans (Prog.bind_ok hsecond))
  exact ⟨first, second, .setattr ino mode uid gid size _ _, s₂, hidle₁.trans hidle₂,
    hsame₂.trans hsame₁, rfl, hserve.trans (respond_call rfl fun _ => rfl)⟩

theorem servedBy (env : Env) (s : Shared) (h : (r.call 0 0).isSome) : ServedBy env s r := by
  cases r with
  | setattr ino mode uid gid size atime mtime =>
    exact servedBy_setattr ino mode uid gid size atime mtime
  | read fh offset size =>
    by_cases hneg : offset < 0
    · rw [show Request.call 0 0 (.read fh offset size) = none from if_pos hneg] at h
      cases h
    · exact .of_respond (congrFun (if_neg hneg) s) rfl (if_neg hneg) fun _ => rfl
  | write fh offset data =>
    by_cases hneg : offset < 0
    · rw [show Request.call 0 0 (.write fh offset data) = none from if_pos hneg] at h
      cases h
    · exact .of_respond (congrFun (if_neg hneg) s) rfl (if_neg hneg) fun _ => rfl
  | mknod parent name mode umask uid gid =>
    by_cases hregular : mode &&& fileTypeMask = 0 ∨ mode &&& fileTypeMask = regularFileType
    · exact .of_respond (congrFun (if_pos hregular) s) rfl (if_pos hregular) fun _ => rfl
    · rw [show Request.call 0 0 (.mknod parent name mode umask uid gid) = none from
        if_neg hregular] at h
      cases h
  | readdir | readlink | getxattr | listxattr | setxattr | removexattr => cases h
  | lookup | getattr | mkdir | create | symlink | link | openFile | release | flush | fsync
  | fallocate | unlink | rmdir | rename => exact .of_respond rfl rfl rfl fun _ => rfl

theorem legal_call {first second : SystemTime} {c : Call} (hl : r.Legal s)
    (hcall : r.call first second = some c) : Dbfs.Legal s c := by
  cases r with
  | openFile | link =>
    cases hcall
    exact hl
  | write fh offset data =>
    obtain ⟨-, hsome⟩ := Option.ite_none_left_eq_some.mp hcall
    cases hsome
    -- a signed offset and a length of 32 bits: the end of the write fits in 64 bits
    obtain ⟨hoffset, hdata⟩ : offset < 9223372036854775808 ∧ data.length < 4294967296 := hl
    change offset.toNat + data.length < 18446744073709551616
    omega
  | read fh offset size =>
    obtain ⟨-, hsome⟩ := Option.ite_none_left_eq_some.mp hcall
    cases hsome
    trivial
  | mknod parent name mode umask uid gid =>
    obtain ⟨-, hsome⟩ := Option.ite_none_right_eq_some.mp hcall
    cases hsome
    trivial
  | readdir | readlink | getxattr | listxattr | setxattr | removexattr => cases hcall
  | lookup | getattr | mkdir | create | symlink | setattr | release | flush | fsync | fallocate
  | unlink | rmdir | rename =>
    cases hcall
    trivial

theorem Legal.of_db {c : Call} (h : Dbfs.Legal s c) (hdb : s'.db = s.db) : Dbfs.Legal s' c := by
  cases c with
  | openFile | link =>
    change ∀ r ∈ s'.db.findInode _, _
    rw [hdb]
    exact h
  | getattr | lookup | mkdir | create | symlink | setattr | read | readFh | write | writeFh
  | fallocate | flushFile | flushFh | syncFh | flushAll | releaseFile | unlink | rmdir | rename
  | createOpen => exact h

theorem openTree_of_idle (hidle : Idle s s') : s'.openTree = s.openTree := by
  have hleft : s'.Left = s.Left := by
    funext i
    rw [Left, Left, hidle.db, hidle.file]
  unfold openTree
  rw [hidle.db, hidle.table, hleft]

private theorem serves_call (h : s.Serving) (hl : r.Legal s) (hcall : (r.call 0 0).isSome) :
    Prog.wp (serve env r) (Serves s r) s := by
  obtain ⟨first, second, c, s₁, hidle, hsame, hcall, hserve⟩ := servedBy env s hcall
  obtain ⟨hallows, hserving⟩ :=
    (h.of_idle hidle).call (Legal.of_db (legal_call hl hcall) hidle.db) env
  rw [openTree_of_idle hidle, hsame] at hallows
  unfold Prog.wp
  rw [hserve]
  exact ⟨.call hcall hallows, hserving⟩

private theorem Serves.of_idle {answer : Except ReplyErrno Answer} (h : s.Serving)
    (hidle : Idle s s')
    (hstep : OpenTree.Serves (s.failures < s'.failures) s.openTree r answer s.openTree) :
    Serves s r answer s' := by
  refine ⟨?_, h.of_idle hidle⟩
  rwa [openTree_of_idle hidle]

private theorem serves_reads {f : α → Answer} {x : Fs α} {expected : Except Errno α} (h : s.Serving)
    (hcall : r.call 0 0 = none) (hx : Prog.wp x (Fs.Reads s expected) s)
    (hfinds : s.openTree.Finds r ((expected.mapError .call).map f)) :
    Prog.wp (respond f x) (Serves s r) s := by
  refine (Prog.wp_map ..).mpr ((Prog.wp_mapError ..).mpr (Prog.wp_mono hx ?_))
  rintro _ s' ⟨hidle, ⟨hsame, rfl⟩ | ⟨hfailed, e, rfl, he⟩⟩
  · exact .of_idle h hidle (.found (Nat.not_lt.mpr (Nat.le_of_eq hsame)) hfinds)
  · exact .of_idle h hidle (.failed hcall hfailed he)

private theorem serves_readlink (h : s.Serving) (ino : Nat) :
    Prog.wp (serve env (.readlink ino)) (Serves s (.readlink ino)) s := by
  refine serves_reads h rfl (Fs.query_reads _) ?_
  have htarget : s.db.readSymlink ino = s.openTree.tree.readlink ino :=
    Db.reads_symlink h.inv.sound.keys h.targets ino
  rw [htarget]
  rcases hnode : s.openTree.tree.readlink ino with e | target
  · exact .noTarget hnode
  · exact .target hnode

private theorem serves_readdir (h : s.Serving) (ino : Nat) (offset : Int)
    (full : List DbfsDirEntry → DbfsDirEntry → Bool) :
    Prog.wp (serve env (.readdir ino offset full)) (Serves s (.readdir ino offset full)) s := by
  refine serves_reads h rfl (Fs.readdirStream_reads ino offset _ []) ?_
  rcases hdir : s.db.tree.expectDirectory ino with e | ⟨⟩
  · rcases Dbfs.readdirStream_elsewhere h.inv.sound.keys hdir offset full with
      herror | ⟨parent, page, more, hpage, happend, hmore⟩
    · rw [herror]
      exact .noDirectory hdir
    · rw [hpage]
      exact .onlyDots hdir happend hmore
  · have hs := h.inv.sound
    obtain ⟨stream, hstream, hpage⟩ := Dbfs.readdirStream_directory hs.keys hs.tree h.ids
      (Db.kindOf_of_expectDirectory hdir) offset full
    rw [hpage]
    exact .page hdir hstream

private theorem serves_xattr {β : Type} {k : Fs β} (rest : β → Handler) {ino : Nat}
    {answer : Except ReplyErrno Answer} (h : s.Serving) (hcall : r.call 0 0 = none)
    (hxattr : r.xattr = some (ino, answer))
    (hrest : ∀ s', (Prog.mapError .call k >>= rest) s' = (answer, s')) :
    Prog.wp (Prog.mapError .call (Fs.getattr env ino >>= fun _ => k) >>= rest) (Serves s r) s := by
  refine (Prog.wp_bind_iff ..).mpr ((Prog.wp_mapError ..).mpr ((Prog.wp_bind_iff ..).mpr ?_))
  refine (Prog.wp_bind_iff ..).mpr ((Prog.wp_bind_iff ..).mpr
    (Prog.wp_mono (Fs.query_reads fun db => db.getInode ino) ?_))
  rintro _ s' ⟨hidle, ⟨hsame, rfl⟩ | ⟨hfailed, e, rfl, he⟩⟩
  · have hfailed : ¬s.failures < s'.failures := Nat.not_lt.mpr (Nat.le_of_eq hsame)
    have hnode : (s.db.tree.node ino).map Node.kind = s.db.kindOf ino := Db.tree_node_kind
    rcases hrow : s.db.findInode ino with _ | row
    · rw [Db.getInode, hrow]
      refine .of_idle h hidle (.found hfailed (.noInode hxattr (Db.tree_node_eq_none.mpr ?_)))
      exact Option.map_eq_none_iff.mpr hrow
    · rw [h.inv.sound.keys.getInode hrow]
      have hanswer : Prog.wp (Prog.mapError .call k >>= rest) (Serves s r) s' := by
        unfold Prog.wp
        rw [hrest]
        refine .of_idle h hidle (.found hfailed (.xattr hxattr ?_))
        rw [Db.kindOf_of_find hrow] at hnode
        exact Option.isSome_map ▸ Option.isSome_of_eq_some hnode
      exact (Prog.wp_mapError ..).mp ((Prog.wp_bind_iff ..).mp hanswer)
  · exact .of_idle h hidle (.failed hcall hfailed he)

private theorem serves_refused {errno : ReplyErrno} (h : s.Serving)
    (hserve : serve env r = Prog.throw errno) (hrefusal : r.refusal = some errno) :
    Prog.wp (serve env r) (Serves s r) s := by
  rw [hserve]
  exact .of_idle h (.refl s) (.found (Nat.lt_irrefl _) (.refused hrefusal))

theorem serve_serves (h : s.Serving) (hl : r.Legal s) :
    Prog.wp (serve env r) (Serves s r) s := by
  by_cases hcall : (r.call 0 0).isSome
  · exact serves_call h hl hcall
  cases r with
  | readdir ino offset full => exact serves_readdir h ino offset full
  | readlink ino => exact serves_readlink h ino
  | getxattr ino name size =>
    exact serves_xattr (k := Prog.throw .ENODATA) (fun value => replyXattr value size) h rfl rfl
      fun _ => rfl
  | listxattr ino size =>
    refine serves_xattr (k := pure []) (fun names => replyXattr names size) h rfl rfl fun _ => ?_
    cases size <;> rfl
  | setxattr ino name =>
    exact serves_xattr (k := Prog.throw .EOPNOTSUPP) (fun _ => pure .ok) h rfl rfl fun _ => rfl
  | removexattr ino name =>
    exact serves_xattr (k := Prog.throw .ENODATA) (fun _ => pure .ok) h rfl rfl fun _ => rfl
  | read fh offset size =>
    by_cases hneg : offset < 0
    · exact serves_refused h (if_pos hneg) (if_pos hneg)
    · exact (hcall (Option.isSome_of_eq_some (if_neg hneg))).elim
  | write fh offset data =>
    by_cases hneg : offset < 0
    · exact serves_refused h (if_pos hneg) (if_pos hneg)
    · exact (hcall (Option.isSome_of_eq_some (if_neg hneg))).elim
  | mknod parent name mode umask uid gid =>
    by_cases hregular : mode &&& fileTypeMask = 0 ∨ mode &&& fileTypeMask = regularFileType
    · exact (hcall (Option.isSome_of_eq_some (if_pos hregular))).elim
    · exact serves_refused h (if_neg hregular) (if_neg hregular)
  | lookup | getattr | mkdir | create | symlink | link | setattr | openFile | release | flush
  | fsync | fallocate | unlink | rmdir | rename => exact (hcall rfl).elim

end Shared

end VibeDbfs
