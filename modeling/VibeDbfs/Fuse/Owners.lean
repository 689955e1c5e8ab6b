import VibeDbfs.Fuse.Attributes
import VibeDbfs.Fuse.Footprint
import VibeDbfs.Fuse.Remounts
import VibeDbfs.Fuse.Replies
import VibeDbfs.Storage.Owners

/-!
The permissions that the kernel enforces are those of the attributes it is told. A node has the
owner it was made for, or the one that the last `setattr` gave it; nothing else changes it.
-/

set_option autoImplicit false
set_option relaxedAutoImplicit false

namespace VibeDbfs

open Lib Shared

/-- The attributes show the owner. Of its mode they show 16 bits. -/
structure Owner.ShownBy (o : Owner) (attr : FileAttr) : Prop where
  perm : attr.perm = o.mode.toUInt16
  uid : attr.uid = o.uid
  gid : attr.gid = o.gid

/-- What becomes of the owner of a node, by an answer that is `ok` or not. If the storage `failed`,
the error may be that of reading a change that was made. -/
inductive Owner.Follows (failed : Prop) (creates : Option Owner) (assign : Owner → Owner) :
    Bool → Option Owner → Owner → Prop
  | made {ok : Bool} {o : Owner} (h : creates = some o) : Follows failed creates assign ok none o
  | done {o : Owner} : Follows failed creates assign true (some o) (assign o)
  | refused {o : Owner} : Follows failed creates assign false (some o) o
  | unread {o : Owner} (hfailed : failed) : Follows failed creates assign false (some o) (assign o)

private theorem Owner.Follows.kept {failed : Prop} {creates : Option Owner} {assign : Owner → Owner}
    {o : Owner} (h : assign o = o) (ok : Bool) : Follows failed creates assign ok (some o) o := by
  cases ok with
  | false => exact .refused
  | true =>
    have hdone : Follows failed creates assign true (some o) (assign o) := .done
    rwa [h] at hdone

def Request.creates : Request → Option Owner
  | mkdir _ _ mode umask uid gid => some ⟨mode &&& ~~~umask, uid, gid⟩
  | create _ _ mode umask uid gid => some ⟨mode &&& ~~~umask, uid, gid⟩
  | mknod _ _ mode umask uid gid => some ⟨mode &&& ~~~fileTypeMask &&& ~~~umask, uid, gid⟩
  | symlink _ _ _ uid gid => some ⟨0o777, uid, gid⟩
  | _ => none

/-- What a request makes of the owner of `ino`. -/
def Request.assign (ino : Nat) (o : Owner) : Request → Owner
  | setattr i mode uid gid _ _ _ => if i = ino then o.set mode uid gid else o
  | _ => o

/-- The node that the attributes in the answer to a request are about, where the request says. -/
def Request.subject : Request → Option Nat
  | getattr ino => some ino
  | setattr ino _ _ _ _ _ _ => some ino
  | link ino _ _ => some ino
  | _ => none

def Request.answerAttr : Except ReplyErrno Answer → Option FileAttr
  | .ok (.entry attr) => some attr
  | .ok (.attr attr) => some attr
  | .ok (.created attr _) => some attr
  | _ => none

/-- A tree with handles, and who owns each of its nodes. -/
structure OwnedTree where
  names : OpenTree
  owner : Nat → Option Owner
  owned : ∀ i, (owner i).isSome = (names.tree.node i).isSome

/-- The owner of a node in the life of a database. -/
inductive Owner.Lives (ino : Nat) :
    LifeEvent → Told (Option (Except ReplyErrno Answer)) → Option Owner → Owner → Prop
  | request {r : Request} {answer : Except ReplyErrno Answer} {failed : Bool} {old : Option Owner}
      {o : Owner}
      (h : Follows (failed = true) r.creates (fun o => r.assign ino o) answer.isOk old o) :
      Lives ino (.request r) ⟨some answer, failed⟩ old o
  | remounted {flushed : Bool} {writeBuffer : Nat} {mountUid mountGid : UInt32} {now : Timestamp}
      {failed : Bool} {o : Owner} :
      Lives ino (.remount flushed writeBuffer mountUid mountGid now) ⟨none, failed⟩ (some o)
        (o.mounted ino mountUid mountGid)

/-- The life of a tree whose nodes have owners: every attribute that is told shows the owner of its
node. -/
structure OwnedTree.Lives (m : OwnedTree) (e : LifeEvent)
    (told : Told (Option (Except ReplyErrno Answer))) (m' : OwnedTree) : Prop where
  names : OpenTree.Lives m.names e told m'.names
  owners : ∀ i o, m'.owner i = some o → Owner.Lives i e told (m.owner i) o
  shown : ∀ attr, told.answer.bind Request.answerAttr = some attr →
    ∃ o, m'.owner attr.ino = some o ∧ o.ShownBy attr
  subject : ∀ attr r, told.answer.bind Request.answerAttr = some attr → e = .request r →
    ∀ ino ∈ r.subject, attr.ino = ino

namespace Call

def creates : Call → Option Owner
  | mkdir _ _ mode umask uid gid => some ⟨mode &&& ~~~umask, uid, gid⟩
  | create _ _ mode umask uid gid => some ⟨mode &&& ~~~umask, uid, gid⟩
  | createOpen _ _ mode umask uid gid => some ⟨mode &&& ~~~umask, uid, gid⟩
  | symlink _ _ _ uid gid => some ⟨0o777, uid, gid⟩
  | _ => none

/-- What a call makes of the owner of `ino`. -/
def assign (ino : Nat) (o : Owner) : Call → Owner
  | setattr i mode uid gid _ _ _ => if i = ino then o.set mode uid gid else o
  | _ => o

/-- The node that the attributes in the reply are about, where the call says. -/
def subject : Call → Option Nat
  | getattr ino => some ino
  | setattr ino _ _ _ _ _ _ => some ino
  | link ino _ _ => some ino
  | _ => none

end Call

private theorem Request.owner_of_call {r : Request} {first second : SystemTime} {c : Call}
    (h : r.call first second = some c) :
    r.creates = c.creates ∧ (∀ ino o, r.assign ino o = c.assign ino o) ∧ r.subject = c.subject := by
  cases r with
  | read fh offset size =>
    obtain ⟨-, hsome⟩ := Option.ite_none_left_eq_some.mp h
    cases hsome
    exact ⟨rfl, fun _ _ => rfl, rfl⟩
  | write fh offset data =>
    obtain ⟨-, hsome⟩ := Option.ite_none_left_eq_some.mp h
    cases hsome
    exact ⟨rfl, fun _ _ => rfl, rfl⟩
  | mknod parent name mode umask uid gid =>
    obtain ⟨-, hsome⟩ := Option.ite_none_right_eq_some.mp h
    cases hsome
    exact ⟨rfl, fun _ _ => rfl, rfl⟩
  | readdir | readlink | getxattr | listxattr | setxattr | removexattr => cases h
  | lookup | getattr | mkdir | create | symlink | link | setattr | openFile | release | flush
  | fsync | fallocate | unlink | rmdir | rename =>
    cases h
    exact ⟨rfl, fun _ _ => rfl, rfl⟩

private theorem Db.footprint_keepsOwners : Db.Footprint Db.KeepsOwners where
  replaceChunks := keepsOwners_replaceChunks
  truncateFile := keepsOwners_truncateFile
  deleteInodeRows := keepsOwners_deleteInodeRows

namespace Shared

variable {env : Env} {s s' : Shared} {c : Call} {α : Type}

/-- The owners after a call are those that it asks for, and its reply shows them. -/
structure Assigns (s : Shared) (c : Call) (r : Except Errno Reply) (s' : Shared) :
    Prop where
  owners : ∀ i o, s'.db.ownerOf i = some o →
    Owner.Follows (s.failures < s'.failures) c.creates (fun o => c.assign i o) r.isOk
      (s.db.ownerOf i) o
  shown : ∀ attr, Dbfs.replyAttr r = some attr → ∃ o, s'.db.ownerOf attr.ino = some o ∧
    o.ShownBy attr
  subject : ∀ attr, Dbfs.replyAttr r = some attr → ∀ ino ∈ c.subject, attr.ino = ino

section Replies

private theorem follows_of_keeps (hassign : ∀ i o, c.assign i o = o) (h : s.db.KeepsOwners s'.db)
    {failed : Prop} {ok : Bool} {i : Nat} {o : Owner} (ho : s'.db.ownerOf i = some o) :
    Owner.Follows failed c.creates (fun o => c.assign i o) ok (s.db.ownerOf i) o := by
  rw [h i o ho]
  exact .kept (hassign i o) ok

private theorem Assigns.of_error {e : Errno} (h : s.db.KeepsOwners s'.db) :
    Assigns s c (.error e) s' where
  owners i o ho := by
    rw [h i o ho]
    exact .refused
  shown _ hattr := by cases hattr
  subject _ hattr := by cases hattr

private theorem assigns_of_within {x : Fs α} {g : α → Reply}
    (hx : Prog.Within (OnStore Db.KeepsOwners) x) (hassign : ∀ i o, c.assign i o = o)
    (hattr : ∀ a, Dbfs.replyAttr (.ok (g a)) = none) : Prog.wp (g <$> x) (Assigns s c) s := by
  have hkeeps : Prog.wp x (fun _ s' => s.db.KeepsOwners s'.db) s := hx s
  refine (Prog.wp_map ..).mpr (Prog.wp_mono hkeeps fun r s' h => ?_)
  have hnone : Dbfs.replyAttr (r.map g) = none := by
    rcases r with e | a
    · rfl
    · exact hattr a
  refine ⟨fun i o ho => follows_of_keeps hassign h ho, fun attr hshown => ?_, fun attr hshown => ?_⟩
  · rw [hnone] at hshown
    cases hshown
  · rw [hnone] at hshown
    cases hshown

private theorem shownBy_row (r : InodeRow) (overlay : Overlay) :
    r.owner.ShownBy ((fileAttrFromInode r.inode).under overlay) := by
  rcases overlay with _ | ⟨size, _ | modified⟩ <;> exact ⟨rfl, rfl, rfl⟩

private theorem ino_under (attr : FileAttr) (overlay : Overlay) :
    (attr.under overlay).ino = attr.ino := by
  rcases overlay with _ | ⟨size, _ | modified⟩ <;> rfl

private theorem assigns_row {f : Db → Except DbError Inode}
    (hrow : ∀ inode, f s.db = .ok inode → ∃ r ino, s.db.findInode ino = some r ∧
      inode = r.inode ∧ ∀ i ∈ c.subject, ino = i)
    (hassign : ∀ i o, c.assign i o = o) :
    Prog.wp (Reply.attr <$> ((do
      let inode ← Fs.query env f
      pure (fileAttrFromInode inode)) >>= Fs.overlayAttr)) (Assigns s c) s := by
  refine (Prog.wp_map ..).mpr ?_
  rw [Prog.wp_bind_iff, Prog.wp_bind_iff]
  refine Fs.wp_query (fun failure _ => ?_) (fun error _ => ?_) fun inode hinode => ?_
  · exact .of_error fun _ _ => id
  · exact .of_error fun _ _ => id
  · obtain ⟨r, ino, hr, rfl, hsubject⟩ := hrow inode hinode
    have hino : r.ino = ino := Db.findInode_ino hr
    change Assigns s c (.ok (.attr (s.table.overlayAttr _))) _
    rw [OpenTable.overlayAttr_eq]
    refine ⟨fun i o ho => follows_of_keeps hassign (fun _ _ => id) ho, ?_, ?_⟩
    · rintro attr ⟨⟩
      refine ⟨r.owner, ?_, shownBy_row r _⟩
      have howner : s.db.ownerOf r.ino = some r.owner := by
        rw [hino]
        exact Db.ownerOf_of_find hr
      rw [ino_under]
      exact howner
    · rintro attr ⟨⟩ i hi
      rw [ino_under]
      exact hino.trans (hsubject i hi)

end Replies

section Calls

private theorem createNode_owner {p : Nat} {n : Name} {node : NewNode} {uid gid : UInt32} :
    Prog.wp (Fs.createNode env p n node uid gid) (fun r s' => match r with
      | .ok attr => (∀ i o, s'.db.ownerOf i = some o → s.db.ownerOf i = some o ∨
            s.db.ownerOf i = none ∧ o = node.owner uid gid) ∧
          s'.db.ownerOf attr.ino = some (node.owner uid gid) ∧ (node.owner uid gid).ShownBy attr
      | .error _ => s'.db = s.db) s := by
  rw [Fs.createNode, Fs.wp_now_bind, Prog.wp_bind_iff]
  refine Fs.wp_access (fun failure _ => rfl) (fun error _ => rfl) fun inode db hdb => ?_
  have howners := fun i o => Db.ownerOf_createNode (i := i) (o := o) hdb
  obtain ⟨rfl, hkind, -⟩ := Db.createNode_rows hdb
  refine ⟨howners, ?_, rfl, rfl, rfl⟩
  have hsome : (db.ownerOf s.db.nextIno).isSome := by
    rw [Db.ownerOf_isSome, hkind, if_pos rfl]
    rfl
  obtain ⟨o, ho⟩ := Option.isSome_iff_exists.mp hsome
  change db.ownerOf s.db.nextIno = _
  rcases howners _ _ ho with hold | ⟨-, rfl⟩
  · have hnew : (s.db.ownerOf s.db.nextIno).isSome = false := by
      rw [Db.ownerOf_isSome, Db.nextIno_new]
      rfl
    rw [hold] at hnew
    cases hnew
  · exact ho

private theorem Assigns.made {r : Except Errno Reply} {attr : FileAttr} {o : Owner}
    (hcreates : c.creates = some o) (hassign : ∀ i o, c.assign i o = o)
    (hsubject : c.subject = none)
    (howners : ∀ i o', s'.db.ownerOf i = some o' → s.db.ownerOf i = some o' ∨
      s.db.ownerOf i = none ∧ o' = o)
    (hattr : Dbfs.replyAttr r = some attr) (hino : s'.db.ownerOf attr.ino = some o)
    (hshown : o.ShownBy attr) : Assigns s c r s' where
  owners i o' ho := by
    rcases howners i o' ho with hold | ⟨hnone, rfl⟩
    · rw [hold]
      exact .kept (hassign i o') r.isOk
    · rw [hnone]
      exact .made hcreates
  shown attr' hattr' := by
    cases hattr.symm.trans hattr'
    exact ⟨o, hino, hshown⟩
  subject attr' _ ino hmem := by
    rw [hsubject] at hmem
    cases hmem

private theorem assigns_node {p : Nat} {n : Name} {node : NewNode} {uid gid : UInt32}
    (hcreates : c.creates = some (node.owner uid gid)) (hassign : ∀ i o, c.assign i o = o)
    (hsubject : c.subject = none) :
    Prog.wp (Reply.attr <$> Fs.createNode env p n node uid gid) (Assigns s c) s := by
  refine (Prog.wp_map ..).mpr (Prog.wp_mono createNode_owner ?_)
  rintro (e | attr) s' hresult
  · exact .of_error (hresult ▸ fun _ _ => id)
  · obtain ⟨howners, hino, hshown⟩ := hresult
    exact .made hcreates hassign hsubject howners rfl hino hshown

private theorem assigns_createOpen {p : Nat} {n : Name} {mode umask uid gid : UInt32} :
    Prog.wp (Dbfs.call env (.createOpen p n mode umask uid gid))
      (Assigns s (.createOpen p n mode umask uid gid)) s := by
  refine (Prog.wp_map ..).mpr ((Prog.wp_bind_iff ..).mpr (Prog.wp_mono createNode_owner ?_))
  rintro (e | attr) s' hresult
  · exact .of_error (hresult ▸ fun _ _ => id)
  · obtain ⟨howners, hino, hshown⟩ := hresult
    exact .made rfl (fun _ _ => rfl) rfl howners rfl hino hshown

private theorem assigns_link {i q : Nat} {n : Name} :
    Prog.wp (Dbfs.call env (.link i q n)) (Assigns s (.link i q n)) s := by
  refine (Prog.wp_map ..).mpr ?_
  rw [Fs.link, Fs.wp_now_bind, Prog.wp_bind_iff]
  refine Fs.wp_access (fun failure _ => ?_) (fun error _ => ?_) fun inode db hdb => ?_
  · exact .of_error fun _ _ => id
  · exact .of_error fun _ _ => id
  · have howners := fun j => Db.ownerOf_link (i := j) hdb
    obtain ⟨-, r, hr, -, -, -, rfl, -⟩ := Db.link_cases hdb
    have hino : r.ino = i := Db.findInode_ino hr
    constructor
    · intro j o ho
      exact follows_of_keeps (fun _ _ => rfl) (fun j o ho => (howners j).symm.trans ho) ho
    · rintro attr ⟨⟩
      refine ⟨r.owner, ?_, rfl, rfl, rfl⟩
      change db.ownerOf r.ino = _
      rw [howners, hino]
      exact Db.ownerOf_of_find hr
    · rintro attr ⟨⟩ j ⟨⟩
      exact hino

private theorem updateMetadata_owner {ino : Nat} {update : MetadataUpdate} :
    Prog.wp (Fs.updateMetadata env ino update) (fun r s' =>
      let changed := ∀ i, s'.db.ownerOf i = if i = ino then
        (s.db.ownerOf i).map fun o => o.set update.mode update.uid update.gid else s.db.ownerOf i
      match r with
      | .ok inode => changed ∧ ∃ row, s'.db.findInode ino = some row ∧ inode = row.inode
      | .error _ => s'.db = s.db ∨ s.failures < s'.failures ∧ changed) s := by
  rw [Fs.updateMetadata, Fs.wp_now_bind, Prog.wp_bind_iff]
  refine Fs.wp_exec (fun failure _ => .inl rfl) (fun error _ => .inl rfl) fun db hdb => ?_
  have hchanged := Db.ownerOf_updateMetadata hdb
  refine Fs.wp_query (fun failure _ => ?_) (fun error herror => ?_) fun inode hinode => ?_
  · exact .inr ⟨Nat.lt_succ_self _, hchanged⟩
  · -- the row that was changed is there
    obtain ⟨inode, hinode⟩ := Db.getInode_updateMetadata hdb
    cases hinode.symm.trans herror
  · obtain ⟨row, hrow, rfl⟩ := Db.find_of_getInode hinode
    exact ⟨hchanged, row, hrow, rfl⟩

private theorem assigns_setattr {ino : Nat} {mode uid gid : Option UInt32} {size : Option Nat}
    {atime mtime : Option SystemTime} :
    Prog.wp (Dbfs.call env (.setattr ino mode uid gid size atime mtime))
      (Assigns s (.setattr ino mode uid gid size atime mtime)) s := by
  refine (Prog.wp_map ..).mpr ?_
  rw [Fs.setattr, Fs.wp_table_bind]
  -- the flush and the truncation keep the owners, and no statement failed in them if they end
  have hkeeps : ∀ {x : Fs Unit} (s : Shared), Prog.Within (OnStore Db.KeepsOwners) x → Fs.Blames x →
      Prog.wp x (fun r s' => s.db.KeepsOwners s'.db ∧ (r = .ok () → s.Unfailed s')) s := by
    intro x s hx hblames
    have howners : Prog.wp x (fun _ s' => s.db.KeepsOwners s'.db) s := hx s
    refine Prog.wp_mono (Prog.wp_and howners (hblames s)) ?_
    rintro _ s' ⟨h, hsame⟩
    refine ⟨h, ?_⟩
    rintro rfl
    exact hsame
  have hflush : Prog.wp (Fs.ifSome (s.table.inodes.find ino) fun slot =>
      Fs.flushSlot env slot .persist >>= fun _ => Fs.freeIfIdle slot) _ s :=
    hkeeps s (Fs.within_ifSome fun slot => Db.footprint_keepsOwners.flushFree slot .persist)
      (Fs.blames_ifSome fun slot => Fs.blames_flushFree slot .persist)
  have htruncate : ∀ s₁, Prog.wp (Fs.ifSome size fun size => Fs.truncateLocked env ino size) _ s₁ :=
    fun s₁ => hkeeps s₁ (Fs.within_ifSome fun size =>
      Db.footprint_keepsOwners.truncateLocked ino size)
      (Fs.blames_ifSome fun size => Fs.blames_truncateLocked ino size)
  refine Prog.wp_bind hflush ?_ fun e s₁ h₁ => .of_error h₁.1
  rintro ⟨⟩ s₁ ⟨h₁, hsame₁⟩
  refine Prog.wp_bind (htruncate s₁) ?_ fun e s₂ h₂ => .of_error (h₁.trans h₂.1)
  rintro ⟨⟩ s₂ ⟨h₂, hsame₂⟩
  replace h₂ : s.db.KeepsOwners s₂.db := h₁.trans h₂
  have hsame : s₂.failures = s.failures := (hsame₂ rfl).trans (hsame₁ rfl)
  rw [Prog.wp_bind_iff]
  refine Prog.wp_mono updateMetadata_owner ?_
  -- the owners of `s₂` are those of `s`, so a change there is one of the call
  have hassigned : ∀ s' : Shared, (∀ i, s'.db.ownerOf i = if i = ino then
      (s₂.db.ownerOf i).map fun o => o.set mode uid gid else s₂.db.ownerOf i) →
      ∀ i o, s'.db.ownerOf i = some o → ∃ old, s.db.ownerOf i = some old ∧
        o = Call.assign i old (.setattr ino mode uid gid size atime mtime) := by
    intro s' hchanged i o ho
    rw [hchanged] at ho
    split at ho
    · next heq =>
      obtain ⟨old, hold, rfl⟩ := Option.map_eq_some_iff.mp ho
      exact ⟨old, h₂ i old hold, (if_pos heq.symm).symm⟩
    · next hne => exact ⟨o, h₂ i o ho, (if_neg (Ne.symm hne)).symm⟩
  rintro (e | inode) s' hresult
  · obtain hdb | ⟨hfailed, hchanged⟩ := hresult
    · exact .of_error (hdb ▸ h₂)
    · refine ⟨fun i o ho => ?_, (by rintro _ ⟨⟩), (by rintro _ ⟨⟩)⟩
      obtain ⟨old, hold, rfl⟩ := hassigned s' hchanged i o ho
      rw [hold]
      exact .unread (hsame ▸ hfailed)
  · obtain ⟨hchanged, row, hrow, rfl⟩ := hresult
    have hino : row.ino = ino := Db.findInode_ino hrow
    constructor
    · intro i o ho
      obtain ⟨old, hold, rfl⟩ := hassigned s' hchanged i o ho
      rw [hold]
      exact .done
    · rintro attr ⟨⟩
      refine ⟨row.owner, ?_, rfl, rfl, rfl⟩
      change s'.db.ownerOf row.ino = _
      rw [hino]
      exact Db.ownerOf_of_find hrow
    · rintro attr ⟨⟩ i ⟨⟩
      exact hino

private theorem call_assigns (env : Env) (s : Shared) (c : Call) :
    Prog.wp (Dbfs.call env c) (Assigns s c) s := by
  have hfoot := Db.footprint_keepsOwners
  cases c with
  | getattr ino =>
    apply assigns_row _ fun _ _ => rfl
    intro inode hinode
    obtain ⟨r, hr, rfl⟩ := Db.find_of_getInode hinode
    exact ⟨r, ino, hr, rfl, fun i hi => Option.some.inj hi⟩
  | lookup parent name =>
    apply assigns_row _ fun _ _ => rfl
    intro inode hinode
    obtain ⟨-, d, r, -, -, -, hr, rfl⟩ := Db.lookup_cases hinode
    exact ⟨r, _, hr, rfl, fun i hi => by cases hi⟩
  | mkdir parent name mode umask uid gid => exact assigns_node rfl (fun _ _ => rfl) rfl
  | create parent name mode umask uid gid => exact assigns_node rfl (fun _ _ => rfl) rfl
  | symlink parent name target uid gid => exact assigns_node rfl (fun _ _ => rfl) rfl
  | createOpen parent name mode umask uid gid => exact assigns_createOpen
  | link ino newParent newName => exact assigns_link
  | setattr ino mode uid gid size atime mtime => exact assigns_setattr
  | openFile ino =>
    exact assigns_of_within (.bind (Fs.onStore_slotFor ino) Fs.onStore_openSlot) (fun _ _ => rfl)
      fun _ => rfl
  | read ino offset size =>
    exact assigns_of_within (Fs.onStore_read ino offset size) (fun _ _ => rfl) fun _ => rfl
  | readFh fh offset size =>
    exact assigns_of_within (Fs.onStore_readFh fh offset size) (fun _ _ => rfl) fun _ => rfl
  | write ino offset data =>
    exact assigns_of_within (hfoot.write ino offset data) (fun _ _ => rfl) fun _ => rfl
  | writeFh fh offset data =>
    exact assigns_of_within (hfoot.writeFh fh offset data) (fun _ _ => rfl) fun _ => rfl
  | fallocate ino offset length mode =>
    exact assigns_of_within (hfoot.fallocate ino offset length mode) (fun _ _ => rfl) fun _ => rfl
  | flushFile ino => exact assigns_of_within (hfoot.flushFile ino) (fun _ _ => rfl) fun _ => rfl
  | flushFh fh => exact assigns_of_within (hfoot.flushFh fh) (fun _ _ => rfl) fun _ => rfl
  | syncFh fh => exact assigns_of_within (hfoot.syncFh fh) (fun _ _ => rfl) fun _ => rfl
  | flushAll => exact assigns_of_within hfoot.flushAll (fun _ _ => rfl) fun _ => rfl
  | releaseFile fh => exact assigns_of_within (hfoot.releaseFh fh) (fun _ _ => rfl) fun _ => rfl
  | unlink parent name =>
    refine assigns_of_within ?_ (fun _ _ => rfl) fun _ => rfl
    apply Prog.Within.bind (Fs.onStore_query _)
    intro inode
    refine .bind Fs.within_table fun t => .bind Fs.onStore_now fun modified => ?_
    exact .bind (Fs.onStore_exec fun _ _ hok => Db.keepsOwners_unlinkEntry hok) fun _ =>
      Fs.onStore_updateTable _
  | rmdir parent name =>
    refine assigns_of_within ?_ (fun _ _ => rfl) fun _ => rfl
    exact .bind Fs.onStore_now fun modified => Fs.onStore_exec fun _ _ hok =>
      Db.keepsOwners_removeDir hok
  | rename parent name newParent newName flags =>
    refine assigns_of_within ?_ (fun _ _ => rfl) fun _ => rfl
    unfold Fs.rename
    split
    · exact .throw _
    · refine .bind Fs.within_table fun t => .bind Fs.onStore_now fun modified => ?_
      refine .bind (Fs.onStore_access fun _ _ _ hok => Db.keepsOwners_renameEntry hok) ?_
      intro replaced
      cases replaced with
      | none => exact .pure ()
      | some target => exact Fs.onStore_updateTable _

end Calls

section Requests

open Request

variable {r : Request}

/-- The owners after a request are those that it asks for, and its answer shows them. -/
structure Tells (s : Shared) (r : Request) (answer : Except ReplyErrno Answer)
    (s' : Shared) : Prop where
  owners : ∀ i o, s'.db.ownerOf i = some o → Owner.Follows (s.failures < s'.failures) r.creates
    (fun o => r.assign i o) answer.isOk (s.db.ownerOf i) o
  shown : ∀ attr, answerAttr answer = some attr → ∃ o, s'.db.ownerOf attr.ino = some o ∧
    o.ShownBy attr
  subject : ∀ attr, answerAttr answer = some attr → ∀ ino ∈ r.subject, attr.ino = ino

private theorem answerAttr_answerOf (r : Request) (result : Except Errno Reply) :
    answerAttr ((result.map r.answerOf).mapError .call) = Dbfs.replyAttr result := by
  rcases result with e | reply
  · rfl
  · cases reply with
    | attr attr => cases r <;> rfl
    | empty | created | opened | data | written => cases r <;> rfl

private theorem tells_call (env : Env) (s : Shared) (h : (r.call 0 0).isSome) :
    Prog.wp (serve env r) (Tells s r) s := by
  obtain ⟨first, second, c, s₁, hidle, hsame, hcall, hserve⟩ := servedBy env s h
  obtain ⟨hcreates, hassign, hsubject⟩ := owner_of_call hcall
  have hassigns : Assigns s₁ c (Dbfs.call env c s₁).1 (Dbfs.call env c s₁).2 :=
    call_assigns env s₁ c
  unfold Prog.wp
  rw [hserve]
  generalize Dbfs.call env c s₁ = result at hassigns ⊢
  obtain ⟨result, s'⟩ := result
  have hok : ((result.map r.answerOf).mapError ReplyErrno.call).isOk = result.isOk := by
    cases result <;> rfl
  constructor
  · intro i o ho
    dsimp only
    rw [hok, hcreates, funext (hassign i), ← hidle.db, ← hsame]
    exact hassigns.owners i o ho
  · rw [answerAttr_answerOf]
    exact hassigns.shown
  · rw [answerAttr_answerOf, hsubject]
    exact hassigns.subject

/-- An answer without attributes, after which the store has the same owners. -/
def Silent (s : Shared) (answer : Except ReplyErrno Answer) (s' : Shared) : Prop :=
  s.db.KeepsOwners s'.db ∧ answerAttr answer = none

private theorem Silent.tells {answer : Except ReplyErrno Answer} (h : Silent s answer s')
    (hassign : ∀ i o, r.assign i o = o) : Tells s r answer s' where
  owners i o ho := by
    rw [h.1 i o ho]
    exact .kept (hassign i o) answer.isOk
  shown attr hattr := by cases h.2.symm.trans hattr
  subject attr hattr := by cases h.2.symm.trans hattr

private theorem silent_bind {x : Fs α} {k : α → Handler}
    (hx : Prog.Within (OnStore Db.KeepsOwners) x) (hk : ∀ a s', Prog.wp (k a) (Silent s') s') :
    Prog.wp (Prog.mapError .call x >>= k) (Silent s) s := by
  have hkeeps : Prog.wp x (fun _ s' => s.db.KeepsOwners s'.db) s := hx s
  refine (Prog.wp_bind_iff ..).mpr ((Prog.wp_mapError ..).mpr (Prog.wp_mono hkeeps ?_))
  rintro (e | a) s' h
  · exact ⟨h, rfl⟩
  · have hsilent := hk a s'
    exact ⟨h.trans hsilent.1, hsilent.2⟩

private theorem silent_respond {x : Fs α} {f : α → Answer}
    (hx : Prog.Within (OnStore Db.KeepsOwners) x)
    (hf : ∀ a, answerAttr (.ok (f a)) = none) : Prog.wp (respond f x) (Silent s) s :=
  silent_bind hx fun a _ => ⟨fun _ _ => id, hf a⟩

private theorem silent_xattr (value : Bytes) (size : Nat) :
    Prog.wp (replyXattr value size) (Silent s) s := by
  unfold replyXattr
  split
  · exact ⟨fun _ _ => id, rfl⟩
  · split
    · exact ⟨fun _ _ => id, rfl⟩
    · exact ⟨fun _ _ => id, rfl⟩

private theorem serve_tells (env : Env) (s : Shared) (r : Request) :
    Prog.wp (serve env r) (Tells s r) s := by
  by_cases hcall : (r.call 0 0).isSome
  · exact tells_call env s hcall
  have hgetattr : ∀ {β : Type} (ino : Nat) (k : FileAttr → Fs β),
      (∀ attr, Prog.Within (OnStore Db.KeepsOwners) (k attr)) →
        Prog.Within (OnStore Db.KeepsOwners) (Fs.getattr env ino >>= k) := by
    intro β ino k hk
    have hrow : Prog.Within (OnStore Db.KeepsOwners) (Fs.getattrRow env ino) :=
      .bind (Fs.onStore_query _) fun _ => .pure _
    exact .bind (.bind hrow fun _ => Fs.within_overlayAttr _) hk
  have hsilent : Prog.wp (serve env r) (Silent s) s := by
    cases r with
    | readdir ino offset full =>
      exact silent_respond (Fs.within_readdirStream Fs.onStore_query ino offset _ []) fun _ => rfl
    | readlink ino => exact silent_respond (Fs.onStore_query _) fun _ => rfl
    | getxattr ino name size =>
      exact silent_bind (hgetattr ino _ fun _ => .throw _) fun value _ => silent_xattr value size
    | listxattr ino size =>
      exact silent_bind (hgetattr ino _ fun _ => .pure _) fun names _ => silent_xattr names size
    | setxattr ino name => exact silent_respond (hgetattr ino _ fun _ => .throw _) fun _ => rfl
    | removexattr ino name => exact silent_respond (hgetattr ino _ fun _ => .throw _) fun _ => rfl
    | read fh offset size =>
      by_cases hneg : offset < 0
      · rw [show serve env (.read fh offset size) = _ from if_pos hneg]
        exact ⟨fun _ _ => id, rfl⟩
      · exact (hcall (Option.isSome_of_eq_some (if_neg hneg))).elim
    | write fh offset data =>
      by_cases hneg : offset < 0
      · rw [show serve env (.write fh offset data) = _ from if_pos hneg]
        exact ⟨fun _ _ => id, rfl⟩
      · exact (hcall (Option.isSome_of_eq_some (if_neg hneg))).elim
    | mknod parent name mode umask uid gid =>
      by_cases hregular : mode &&& fileTypeMask = 0 ∨ mode &&& fileTypeMask = regularFileType
      · exact (hcall (Option.isSome_of_eq_some (if_pos hregular))).elim
      · rw [show serve env (.mknod parent name mode umask uid gid) = _ from if_neg hregular]
        exact ⟨fun _ _ => id, rfl⟩
    | lookup | getattr | mkdir | create | symlink | link | setattr | openFile | release | flush
    | fsync | fallocate | unlink | rmdir | rename => exact (hcall rfl).elim
  refine hsilent.tells fun i o => ?_
  cases r with
  | setattr => exact (hcall rfl).elim
  | lookup | getattr | readdir | mkdir | create | symlink | readlink | link | getxattr | listxattr
  | setxattr | removexattr | openFile | release | flush | fsync | read | write | fallocate | unlink
  | rmdir | mknod | rename => rfl

end Requests

section Life

def ownedTree (s : Shared) : OwnedTree where
  names := s.openTree
  owner := s.db.ownerOf
  owned i := by
    rw [Db.ownerOf_isSome, ← Db.tree_node_kind, Option.isSome_map]
    rfl

private theorem owner_remounted (h : s.Serving) (env : Env) (flushed : Bool) (writeBuffer : Nat)
    (mountUid mountGid : UInt32) (now : Timestamp) {i : Nat} {o : Owner}
    (ho : (LifeEvent.remounted env flushed writeBuffer mountUid mountGid now s).db.ownerOf i =
      some o) : ∃ old, s.db.ownerOf i = some old ∧ o = old.mounted i mountUid mountGid := by
  obtain ⟨left, hserving, hkeeps, hleft⟩ : ∃ left : Shared, left.Serving ∧
      s.db.KeepsOwners left.db ∧
      (LifeEvent.remounted env flushed writeBuffer mountUid mountGid now s).db =
        left.db.initializeTables mountUid mountGid now := by
    cases flushed with
    | false => exact ⟨s, h, fun _ _ => id, rfl⟩
    | true => exact ⟨_, (tree_flushAll h env).2, Db.footprint_keepsOwners.flushAll s, rfl⟩
  have hroot : (left.db.kindOf 1).isSome :=
    Option.isSome_of_eq_some hserving.inv.sound.tree.root
  rw [hleft] at ho
  obtain ⟨old, hold, rfl⟩ := Db.ownerOf_initializeTables hroot mountUid mountGid ho
  exact ⟨old, hkeeps i old hold, rfl⟩

private theorem owned_step (h : s.Serving) (env : Env) (e : LifeEvent) (hlegal : e.Legal s) :
    OwnedTree.Lives s.ownedTree e (e.told env s) (e.step env s).ownedTree := by
  have hnames := (serving_step h env e hlegal).1
  cases e with
  | request r =>
    have htells : Tells s r (r.answer env s) (r.step env s) := serve_tells env s r
    refine ⟨hnames, fun i o ho => .request ?_, htells.shown, ?_⟩
    · rw [LifeEvent.failed, decide_eq_true_eq]
      exact htells.owners i o ho
    · rintro attr _ hattr ⟨⟩
      exact htells.subject attr hattr
  | remount flushed writeBuffer mountUid mountGid now =>
    refine ⟨hnames, fun i o ho => ?_, (by rintro _ ⟨⟩), (by rintro _ _ ⟨⟩)⟩
    obtain ⟨old, hold, rfl⟩ := owner_remounted h env flushed writeBuffer mountUid mountGid now ho
    change Owner.Lives i _ ⟨none, _⟩ (s.db.ownerOf i) _
    rw [hold]
    exact .remounted

end Life

end Shared

def OwnedTree.root (mountUid mountGid : UInt32) : OwnedTree where
  names := .mounted .root
  owner i := if i = 1 then some ⟨0o755, mountUid, mountGid⟩ else none
  owned i := by
    change _ = (if i = 1 then some Node.directory else none).isSome
    split
    · rfl
    · rfl

namespace Dbfs

private theorem ownedTree_fresh (mountUid mountGid : UInt32) (created : Timestamp)
    (writeBuffer : Nat) :
    (Shared.withWriteBuffer (.fresh mountUid mountGid created) writeBuffer).ownedTree =
      .root mountUid mountGid := by
  have hnames : (Shared.withWriteBuffer (.fresh mountUid mountGid created) writeBuffer).openTree =
      .mounted .root := by
    rw [openTree_withWriteBuffer (.fresh mountUid mountGid created), Db.tree_fresh]
  have howner : (Db.fresh mountUid mountGid created).ownerOf =
      fun i => if i = 1 then some ⟨0o755, mountUid, mountGid⟩ else none :=
    funext (Db.ownerOf_fresh mountUid mountGid created)
  unfold Shared.ownedTree OwnedTree.root
  congr 1

/-- Whatever the kernel asks, through mounts and crashes, the permissions that it is told are those
of the node: what it was made with, or what the last `setattr` said. -/
theorem owners_of_life (mountUid mountGid : UInt32) (created : Timestamp) (writeBuffer : Nat)
    (env : Env) (events : List LifeEvent)
    (h : LegalRun (LifeEvent.step env) LifeEvent.Legal
      (.withWriteBuffer (.fresh mountUid mountGid created) writeBuffer) events) :
    Traces OwnedTree.Lives (.root mountUid mountGid)
      (answers (LifeEvent.step env) (LifeEvent.told env)
        (.withWriteBuffer (.fresh mountUid mountGid created) writeBuffer) events)
      (runFrom (LifeEvent.step env)
        (.withWriteBuffer (.fresh mountUid mountGid created) writeBuffer) events).ownedTree := by
  rw [← ownedTree_fresh mountUid mountGid created writeBuffer]
  exact traces_of_simulation Shared.ownedTree (fun _ e hlegal hs =>
    (serving_step hs env e hlegal).2)
    (fun _ e hlegal hs => owned_step hs env e hlegal)
    (.fresh mountUid mountGid created writeBuffer) h

def chmodLife : List LifeEvent := [
  .request (.mkdir 1 [97] 0o777 0o022 7 8),
  .request (.create 2 [98] 0o666 0o022 7 8),
  .request (.setattr 3 (some 0o600) none (some 9) none none none),
  .request (.write 0 0 [1]),
  .remount true 65536 5 6 ⟨9, 0⟩,
  .request (.getattr 1),
  .request (.getattr 2),
  .request (.lookup 2 [98])]

theorem owners_of_chmodLife :
    Traces OwnedTree.Lives (.root 0 0)
        (answers (LifeEvent.step calm) (LifeEvent.told calm)
          (.withWriteBuffer (.fresh 0 0 ⟨0, 0⟩) 65536) chmodLife)
        (runFrom (LifeEvent.step calm) (.withWriteBuffer (.fresh 0 0 ⟨0, 0⟩) 65536)
          chmodLife).ownedTree ∧
      ((answers (LifeEvent.step calm) (LifeEvent.told calm)
        (.withWriteBuffer (.fresh 0 0 ⟨0, 0⟩) 65536) chmodLife).map fun told =>
          (told.2.answer.bind Request.answerAttr).map fun attr =>
            (attr.perm, attr.uid, attr.gid)).drop 5 =
        [some (0o755, 5, 6), some (0o755, 7, 8), some (0o600, 7, 9)] :=
  ⟨owners_of_life 0 0 ⟨0, 0⟩ 65536 calm chmodLife (by decide), by decide⟩

end Dbfs

end VibeDbfs
