import VibeDbfs.Fuse.Lifetimes

/-!
Each call as its sections. Between two sections a call holds neither the table lock nor the
database, so another thread may run there.
-/

set_option autoImplicit false
set_option relaxedAutoImplicit false

namespace VibeDbfs

open Lib Lib.Bytes Shared

namespace Db

variable {db db' : Db} {d : Dirent} {r : InodeRow} {isOpen : Bool} {now : Timestamp}
  {parent newParent : Nat} {name newName : Name}

/-- From `db` to `db'` no inode came, and none without a name got one. -/
structure Fewer (db db' : Db) : Prop where
  kind : ∀ i, (db'.kindOf i).isSome → db'.kindOf i = db.kindOf i
  nameless : ∀ i, (db.kindOf i).isSome → db.nlinkOf i = 0 → db'.nlinkOf i = 0

theorem Fewer.refl (db : Db) : Fewer db db := ⟨fun _ _ => rfl, fun _ _ hi => hi⟩

theorem Fewer.of_names (h : db'.names = db.names) : Fewer db db' :=
  ⟨fun i _ => congrFun (congrArg Names.kind h) i,
    fun i _ hi => (congrFun (congrArg Names.nlink h) i).trans hi⟩

theorem Relinked.fewer (h : Relinked db db')
    (hkind : ∀ i, (db'.kindOf i).isSome → (db.kindOf i).isSome) : Fewer db db' :=
  ⟨fun i hi => congrArg StoredFile.kind (h.file i (hkind i hi) hi), h.nameless⟩

theorem fewer_deleteInodeRows (db : Db) (ino : Nat) : Fewer db (db.deleteInodeRows ino) := by
  refine ⟨fun i hi => ?_, fun i _ hi => ?_⟩
  · have hne : i ≠ ino := by
      rintro rfl
      rw [kindOf_deleteInodeRows, if_pos rfl] at hi
      cases hi
    rw [kindOf_deleteInodeRows, if_neg hne]
  · by_cases hne : i = ino
    · have hgone : (db.deleteInodeRows ino).kindOf i = none := by
        rw [kindOf_deleteInodeRows, if_pos hne]
      rw [nlinkOf, Option.map_eq_none_iff.mp hgone]
      rfl
    · rwa [nlinkOf_deleteInodeRows hne]

private theorem fewer_dropEntry (hs : db.Sound) (hs' : db'.Sound) (hd : d ∈ db.dirents)
    (hr : db.findInode d.childIno = some r)
    (hempty : r.kind = .directory → ∀ e ∈ db.dirents, e.parentIno ≠ r.ino)
    (hsame : SameData (db.dropEntry d r isOpen now) db')
    (hchildren : ∀ e' ∈ db'.dirents, ∃ e ∈ (db.dropEntry d r isOpen now).dirents,
      e.childIno = e'.childIno) : Fewer db db' := by
  obtain ⟨hrelinked, hother, -, -⟩ := relinked_dropEntry hs hs' hd hr hempty hsame hchildren
  refine hrelinked.fewer fun i hi => ?_
  by_cases hchild : i = d.childIno
  · rw [hchild, kindOf_of_find hr]
    rfl
  · rwa [hother i hchild] at hi

theorem fewer_unlinkEntry {target : Inode} (hs : db.Sound)
    (hlookup : db.lookup parent name = .ok target)
    (h : db.unlinkEntry parent name target isOpen now = .ok db') : Fewer db db' := by
  obtain ⟨d, r, hd, -, -, hr, rfl, hfile, heq⟩ := unlinkEntry_eq hlookup h
  apply fewer_dropEntry hs (hs.unlinkEntry hlookup h) hd hr
  · intro hdir
    exact (hfile hdir).elim
  · exact heq ▸ sameData_touchDir
  · intro e he
    rw [heq] at he
    exact ⟨e, he, rfl⟩

theorem fewer_removeDir (hs : db.Sound) (h : db.removeDir parent name now = .ok db') :
    Fewer db db' := by
  obtain ⟨d, r, hd, -, -, hr, -, hempty, heq⟩ := removeDir_eq h
  apply fewer_dropEntry hs (hs.removeDir h) hd hr
  · intro _
    exact hempty
  · exact heq ▸ sameData_touchDir.trans (sameData_addDirectoryNlink _)
  · intro e he
    rw [heq] at he
    exact ⟨e, he, rfl⟩

theorem fewer_renameEntry {noreplace : Bool} {isOpen : Nat → Bool} {replaced : Option Inode}
    (hs : db.Sound) (h : db.renameEntry parent name newParent newName noreplace isOpen now =
      .ok (replaced, db')) : Fewer db db' := by
  have hs' := hs.renameEntry h
  obtain ⟨d, r, -, -, -, -, -, -, hcase⟩ := renameEntry_eq hs.tree h
  rcases hcase with ⟨-, -, -, heq⟩ | ⟨-, -, heq⟩ | ⟨f, q, hf, -, -, -, hq, -, -, hempty, heq⟩
  · rw [heq]
    exact .refl db
  · rw [heq] at hs' ⊢
    refine (relinked_moveEntry hs _ _ hs').fewer fun i hi => ?_
    rwa [kindOf_moveEntry] at hi
  · apply fewer_dropEntry hs hs' hf hq hempty
    · exact heq ▸ sameData_moveEntry _ _
    · intro e he
      rw [heq] at he
      exact children_moveEntry _ _ e he

end Db

instance : IsPreorder Shared Idle where
  refl := .refl
  trans _ _ _ h h' := h.trans h'

namespace Fs

variable {α : Type} {env : Env}

theorem idle_query (f : Db → Except DbError α) : Prog.Within Idle (query env f) := by
  intro s
  have hidle : Prog.wp (query env f) (fun _ s' => Idle s s') s := by
    apply wp_query
    · intro _ _
      exact ⟨rfl, rfl, rfl⟩
    · intro _ _
      exact ⟨rfl, rfl, rfl⟩
    · intro _ _
      exact ⟨rfl, rfl, rfl⟩
  exact hidle

private theorem idle_readLocked (ino offset size : Nat) :
    Prog.Within Idle (readLocked env ino offset size) := by
  refine .bind within_table fun t => ?_
  split
  · next slot _ =>
    apply Prog.Within.map
    refine .bind within_table fun t => ?_
    refine .bind (within_errnoOfKind _) fun _ => ?_
    split
    · exact .pure _
    · exact .bind (idle_query _) fun _ => .pure _
  · exact .pure _

theorem idle_syncDurable : Prog.Within Idle (syncDurable env) := by
  apply within_syncDurable
  · intro s
    exact ⟨rfl, rfl, rfl⟩
  · intro s
    exact ⟨rfl, rfl, rfl⟩

private theorem idle_flushAllSync (firstError : Option Errno) :
    Prog.Within Idle (flushAllSync env firstError) := by
  apply Prog.Within.bind (Prog.Within.attempt idle_syncDurable)
  intro synced
  split
  · exact .throw _
  · exact .throw _
  · exact .pure _

private theorem setattr_partly {held : List ArenaSlot} {busy : Nat → Prop} {s : Shared} {ino : Nat}
    (mode uid gid : Option UInt32) (size : Option Nat) (atime mtime : Option SystemTime)
    (h : s.Inv held busy) :
    Prog.wp (setattr env ino mode uid gid size atime mtime) (fun _ s' =>
      (s'.file ino).bytes = (s.file ino).bytes ∨
        (s'.file ino).bytes = resized size (s.file ino).bytes) s := by
  rw [setattr, wp_table_bind]
  apply Prog.wp_bind (persist_spec h)
  · intro _ s₁ hs₁
    obtain ⟨hinv, hquiet, -, hclean⟩ := hs₁
    have hbytes := hquiet.bytes ino not_false
    apply Prog.wp_bind (resize_spec size hinv hclean)
    · intro _ s₂ hs₂
      obtain ⟨hinv₂, -, -, -, hclean₂, hresized⟩ := hs₂
      rw [hbytes] at hresized
      apply Prog.wp_bind (updateMetadata_spec _ hinv₂ hclean₂)
      · intro inode s' hs'
        exact .inr ((hs'.2.1.bytes ino not_false).trans hresized)
      · intro e s' hs'
        exact .inr ((hs'.2.1.bytes ino not_false).trans hresized)
    · intro e s₂ hs₂
      exact .inl ((hs₂.2.1.bytes ino not_false).trans hbytes)
  · intro e s₁ hs₁
    exact .inl (hs₁.2.1.bytes ino not_false)

end Fs

/-- What is left of a call after its first section. -/
inductive Rest where
  | done (reply : Reply)
  | overlay (attr : FileAttr)
  | stored (ino offset size : Nat)
  | allocate (ino : Nat) (stop : Option Nat)
  | remove (parent : Nat) (name : Name) (inode : Inode)
  | insert (attr : FileAttr)
  | sync
  | syncAll (firstError : Option Errno)

namespace Dbfs

def firstSection (env : Env) : Call → Fs Rest
  | .getattr ino => .overlay <$> Fs.getattrRow env ino
  | .lookup parent name => .overlay <$> Fs.lookupRow env parent name
  | .read ino offset size =>
    (fun data => data.elim (.stored ino offset size) fun data => .done (.data data)) <$>
      Fs.readLocked env ino offset size
  | .fallocate ino offset length mode =>
    .allocate ino <$> Fs.fallocateCheck env ino offset length mode
  | .syncFh fh => (fun _ => .sync) <$> Fs.flushFh env fh
  | .flushAll => .syncAll <$> Fs.flushAllLocked env
  | .unlink parent name => .remove parent name <$> Fs.query env fun db => db.lookup parent name
  | .createOpen parent name mode umask uid gid =>
    .insert <$> Fs.create env parent name mode umask uid gid
  | c => .done <$> call env c

def lastSection (env : Env) : Rest → Fs Reply
  | .done reply => pure reply
  | .overlay attr => .attr <$> Fs.overlayAttr attr
  | .stored ino offset size => .data <$> Fs.readStored env ino offset size none
  | .allocate ino stop => (fun _ => .empty) <$> Fs.fallocateLocked env ino stop
  | .remove parent name inode => (fun _ => .empty) <$> Fs.unlinkLocked env parent name inode
  | .insert attr => (fun r => .created r.1 r.2) <$> Fs.createOpenLocked attr
  | .sync => (fun _ => .empty) <$> Fs.syncDurable env
  | .syncAll firstError => (fun _ => .empty) <$> Fs.flushAllSync env firstError

variable {env : Env} {s s' : Shared} {c : Call}

/-- A call in two sections: the first one hands `f a` over to the last one. -/
private theorem two_sections {α β : Type} (x : Fs α) {f : α → Rest} {g : α → Fs β} {h : β → Reply}
    (hlast : ∀ a, lastSection env (f a) = h <$> g a) (s : Shared) :
    ((f <$> x) >>= lastSection env) s = (h <$> (x >>= g)) s := by
  rcases hx : x s with ⟨r, s'⟩
  cases r with
  | error e =>
    have hfirst : (f <$> x) s = (.error e, s') := Prog.bind_error hx
    have hboth : (x >>= g) s = (.error e, s') := Prog.bind_error hx
    rw [Prog.bind_error hfirst]
    exact (Prog.bind_error hboth).symm
  | ok a =>
    have hfirst : (f <$> x) s = (.ok (f a), s') := Prog.bind_ok hx
    have hboth : (x >>= g) s = g a s' := Prog.bind_ok hx
    rw [Prog.bind_ok hfirst, hlast]
    exact (Prog.bind_congr hboth _).symm

private theorem one_section (x : Fs Reply) (s : Shared) :
    ((Rest.done <$> x) >>= lastSection env) s = x s := by
  rcases hx : x s with ⟨r, s'⟩
  cases r with
  | error e =>
    have hfirst : (Rest.done <$> x) s = (.error e, s') := Prog.bind_error hx
    exact Prog.bind_error hfirst
  | ok reply =>
    have hfirst : (Rest.done <$> x) s = (.ok (.done reply), s') := Prog.bind_ok hx
    exact Prog.bind_ok hfirst

/-- The sections of a call are the call. -/
theorem call_sections (env : Env) (c : Call) (s : Shared) :
    (firstSection env c >>= lastSection env) s = call env c s := by
  cases c with
  | getattr ino => exact two_sections _ (fun _ => rfl) s
  | lookup parent name => exact two_sections _ (fun _ => rfl) s
  | read ino offset size =>
    apply two_sections
    intro data
    cases data with
    | none => rfl
    | some data => rfl
  | fallocate ino offset length mode => exact two_sections _ (fun _ => rfl) s
  | syncFh fh => exact two_sections _ (fun _ => rfl) s
  | flushAll => exact two_sections _ (fun _ => rfl) s
  | unlink parent name => exact two_sections _ (fun _ => rfl) s
  | createOpen parent name mode umask uid gid => exact two_sections _ (fun _ => rfl) s
  | _ => exact one_section _ s

end Dbfs

namespace Shared

/-- A file that has a name, or lost its last one while it was open. -/
def Live (s : Shared) (ino : Nat) : Prop := s.db.kindOf ino = some .regularFile ∧ ¬s.Left ino

variable {s s' : Shared} {touched busy : Nat → Prop} {held : List ArenaSlot} {ino : Nat}

theorem live_of_named (h : s.db.Named ino) : s.Live ino :=
  ⟨h.1, fun hleft => Nat.ne_of_gt h.2 hleft.1.2⟩

private theorem Live.isHeld (hlive : s.Live ino) (h : s.Core held busy) : s.Held ino := by
  by_contra hnot
  obtain ⟨hnlink, hrefs⟩ := not_or.mp hnot
  refine hlive.2 ⟨⟨Option.isSome_of_eq_some hlive.1, Nat.eq_zero_of_not_pos hnlink⟩, ?_⟩
  rcases ho : s.table.file ino with _ | o
  · rw [Shared.file, ho]
    rfl
  · rw [Shared.file, ho] at hrefs ⊢
    rw [← Bool.not_eq_true]
    exact fun hunlinked => hrefs ((h.live ino o ho).unlinked hunlinked).1

private theorem live_of_frame (hframe : Frame touched s s') : s'.Live ino ↔ s.Live ino := by
  rw [Live, Live, Left, Left, Db.Nameless, Db.Nameless, hframe.kind, hframe.nlink, hframe.unlinked]

private theorem unlinked_of_table (htable : s'.table = s.table) (ino : Nat) :
    (s'.file ino).unlinked = (s.file ino).unlinked := by
  rw [Shared.file, Shared.file, htable]
  rfl

private theorem unmarked_of_removed (h : s.Core held busy) {target : Inode}
    (htable : s'.table = s.table.entryRemoved target)
    (hnamed : ∃ d ∈ s.db.dirents, d.childIno = target.ino) (ino : Nat) (hleft : s.Left ino) :
    (s'.file ino).unlinked = false := by
  obtain ⟨-, -, -, hfiles⟩ := h.table.entryRemoved target
  have hne : ino ≠ target.ino := by
    rintro rfl
    obtain ⟨d, hd, hchild⟩ := hnamed
    exact h.sound.toLinked.unnamed hleft.1.2 d hd hchild
  rw [Shared.file, htable, hfiles, if_neg hne]
  exact hleft.2

end Shared

namespace Dbfs

variable {env : Env} {s s' : Shared} {c : Call}

/-- What a section of a call keeps: the content of each live file that is not `touched`. No file
that was left gets a name or a handle that would keep it, and new files are empty. -/
structure Passes (touched : Nat → Prop) (s s' : Shared) : Prop where
  inv : s'.Inv [] fun _ => False
  closing : s'.table.closing = s.table.closing
  steady : s.table.closing = true → Fs.Steady s s'
  live : ∀ ino, (s.db.kindOf ino).isSome → s'.Live ino → s.Live ino
  fresh : ∀ ino, s.db.kindOf ino = none → s'.db.kindOf ino = some .regularFile →
    (s'.file ino).bytes = []
  bytes : ∀ ino, ¬touched ino → (s.db.kindOf ino).isSome → s'.Live ino →
    (s'.file ino).bytes = (s.file ino).bytes

variable {touched busy : Nat → Prop}

private theorem Passes.of_frame (hinv : s'.Inv [] fun _ => False) (hframe : Frame touched s s')
    (hsteady : s.table.closing = true → Fs.Steady s s') : Passes touched s s' := by
  refine ⟨hinv, hframe.closing, hsteady, fun ino _ => (live_of_frame hframe).mp, ?_, ?_⟩
  · intro ino hnone hregular
    have hkind := hframe.kind.symm.trans hregular
    rw [hnone] at hkind
    cases hkind
  · intro ino huntouched _ _
    exact hframe.bytes ino huntouched

private theorem Passes.of_quiet (hinv : s'.Inv [] fun _ => False) (hquiet : Quiet s s') :
    Passes (fun _ => False) s s' :=
  .of_frame hinv hquiet fun _ => Fs.steady_of_quiet hquiet

private theorem Passes.of_idle (h : s.Inv [] fun _ => False) (hidle : Idle s s') :
    Passes (fun _ => False) s s' :=
  .of_quiet (h.of_idle hidle) hidle.quiet

private theorem Passes.mono {touched' : Nat → Prop} (h : Passes touched s s')
    (hsub : ∀ ino, touched ino → touched' ino) : Passes touched' s s' :=
  { h with bytes := fun ino hino => h.bytes ino fun ht => hino (hsub ino ht) }

private theorem Passes.of_kept (hinv : s'.Inv [] fun _ => False) (hkept : Kept s s')
    (hfewer : s.db.Fewer s'.db) (hmarks : ∀ i, s.Left i → (s'.file i).unlinked = false) :
    Passes (fun _ => False) s s' := by
  refine ⟨hinv, hkept.closing, fun _ => hkept.steady, ?_, ?_, ?_⟩
  · rintro ino hsome ⟨hkind, hnot⟩
    refine ⟨(hfewer.kind ino (Option.isSome_of_eq_some hkind)).symm.trans hkind, fun hleft => ?_⟩
    exact hnot ⟨⟨Option.isSome_of_eq_some hkind, hfewer.nameless ino hsome hleft.1.2⟩,
      hmarks ino hleft⟩
  · intro ino hnone hregular
    have hkind := (hfewer.kind ino (Option.isSome_of_eq_some hregular)).symm.trans hregular
    rw [hnone] at hkind
    cases hkind
  · intro ino _ hsome hlive
    exact hkept.bytes ino hsome (hlive.isHeld hinv.toCore)

/-- The inode whose content a call may change. -/
def changes (s : Shared) : Call → Option Nat
  | .write ino _ _ => some ino
  | .writeFh fh _ _ => s.table.handleIno fh
  | .setattr ino _ _ _ (some _) _ _ => some ino
  | .fallocate ino _ _ _ => some ino
  | _ => none

def newContent : Call → Bytes → Bytes
  | .write _ offset data, bytes => written offset data bytes
  | .writeFh _ offset data, bytes => written offset data bytes
  | .setattr _ _ _ _ size _ _, bytes => Fs.resized size bytes
  | .fallocate _ offset length mode, bytes =>
    Fs.resized ((Fs.fallocateStop offset length mode).map (max bytes.length)) bytes
  | _, bytes => bytes

def Attempted : Call → Bytes → Bytes → Prop
  | .write _ offset data, bytes, bytes' => PartlyWritten offset data bytes bytes'
  | .writeFh _ offset data, bytes, bytes' => PartlyWritten offset data bytes bytes'
  | .setattr _ _ _ _ size _ _, bytes, bytes' => bytes' = bytes ∨ bytes' = Fs.resized size bytes
  | _, bytes, bytes' => bytes' = bytes

/-- A call that returns `r` turns the content `bytes` into `bytes'`. -/
def Becomes (c : Call) (r : Except Errno Reply) (bytes bytes' : Bytes) : Prop :=
  if r.isOk then bytes' = newContent c bytes else Attempted c bytes bytes'

/-- A section from `s` to `s'` that ends the call with `r`. -/
structure Returns (s : Shared) (c : Call) (r : Except Errno Reply) (s' : Shared) : Prop where
  passes : Passes (fun ino => changes s c = some ino) s s'
  content : ∀ ino, changes s c = some ino → Becomes c r (s.file ino).bytes (s'.file ino).bytes

private theorem Returns.of_none {r : Except Errno Reply} (hnone : changes s c = none)
    (h : Passes (fun _ => False) s s') : Returns s c r s' := by
  refine ⟨h.mono fun _ => False.elim, fun ino hino => ?_⟩
  rw [hnone] at hino
  cases hino

private theorem named_created {parent : Nat} {name : Name} {node : NewNode} {uid gid : UInt32}
    {attr : FileAttr} (h : s.Inv [] busy) (hinv : s'.Inv [] fun _ => False)
    (htable : s'.table = s.table) (hkept : Kept s s')
    (hcreated : Fs.Created s s' parent name node uid gid attr) :
    Passes (fun _ => False) s s' := by
  obtain ⟨inode, now, hdb, rfl⟩ := id hcreated
  obtain ⟨hrelinked, hino, -, -, hkind, -⟩ := Db.relinked_createNode h.sound hdb
  refine ⟨hinv, hkept.closing, fun _ => hkept.steady, ?_, ?_, ?_⟩
  · rintro ino hsome ⟨hregular, hnot⟩
    have hfile := hrelinked.file ino hsome (Option.isSome_of_eq_some hregular)
    refine ⟨(congrArg StoredFile.kind hfile).symm.trans hregular, fun hleft => hnot ?_⟩
    exact ⟨⟨Option.isSome_of_eq_some hregular, hrelinked.nameless ino hsome hleft.1.2⟩,
      (unlinked_of_table htable ino).trans hleft.2⟩
  · intro ino hnone hregular
    have hnew := hregular
    rw [hkind] at hnew
    split at hnew
    · next heq =>
      have hempty : node.size = 0 := by
        cases node with
        | file mode => rfl
        | directory mode => cases hnew
        | symlink target => cases hnew
      have hbytes : (s'.file (fileAttrFromInode inode).ino).bytes = [] :=
        Fs.bytes_of_created h htable hempty hcreated
      have hattr : (fileAttrFromInode inode).ino = s.db.nextIno := hino
      rw [hattr] at hbytes
      rw [heq]
      exact hbytes
    · rw [hnone] at hnew
      cases hnew
  · intro ino _ hsome hlive
    exact hkept.bytes ino hsome (hlive.isHeld hinv.toCore)

private theorem createNode_passes {parent : Nat} {name : Name} {node : NewNode} {uid gid : UInt32}
    (h : s.Inv [] fun _ => False) : Prog.wp (Fs.createNode env parent name node uid gid)
      (fun _ s' => Passes (fun _ => False) s s') s := by
  refine Prog.wp_mono (Fs.createNode_spec h) ?_
  rintro r s' ⟨hinv, htable, hkept, hresult⟩
  rcases r with e | attr
  · have hquiet : Quiet s s' := Frame.of_eq hresult.1 htable
    exact .of_quiet hinv hquiet
  · exact named_created h hinv htable hkept hresult.2

private theorem writeErrno_of_closing (hclosing : s.table.closing = true)
    (ino offset length : Nat) :
    s.writeErrno ino offset length ≠ none := by
  rw [writeErrno, hclosing]
  rcases s.db.fileErrno ino with _ | e
  · exact Option.some_ne_none _
  · exact Option.some_ne_none _

private theorem write_passes {ino offset : Nat} {data : Bytes} {r : Except Errno Nat}
    (hinv : s'.Inv [] fun _ => False) (hresult : Fs.WriteResult env s s' ino offset data r) :
    Passes (fun i => i = ino) s s' := by
  obtain ⟨hframe, hquiet, -⟩ := hresult
  apply Passes.of_frame hinv hframe
  intro hclosing
  exact Fs.steady_of_quiet (hquiet.resolve_right (writeErrno_of_closing hclosing _ _ _))

private theorem Returns.of_write {ino offset : Nat} {data : Bytes} {r : Except Errno Nat}
    (hchanges : changes s c = some ino) (hnew : newContent c = written offset data)
    (hattempted : Attempted c = PartlyWritten offset data)
    (hinv : s'.Inv [] fun _ => False) (hresult : Fs.WriteResult env s s' ino offset data r) :
    Returns s c (r.map .written) s' := by
  refine ⟨(write_passes hinv hresult).mono fun i hi => ?_, fun i hi => ?_⟩
  · rw [hchanges, hi]
  · obtain rfl : ino = i := Option.some.inj (hchanges.symm.trans hi)
    obtain ⟨-, -, hresult⟩ := hresult
    rcases r with e | n
    · change Attempted c _ _
      rw [hattempted]
      rcases hresult with ⟨-, hpartly⟩ | ⟨-, hquiet, -⟩
      · exact hpartly
      · rw [hquiet.bytes ino not_false]
        exact .none offset data _
    · change _ = newContent c _
      rw [hnew]
      exact hresult.2.2.1

private theorem Returns.of_flush {ino : Nat} {r : Except Errno Unit} (hnone : changes s c = none)
    (hinv : s'.Inv [] fun _ => False) (hflush : Fs.FlushResult env s s' ino r) :
    Returns s c (r.map fun _ => .empty) s' :=
  .of_none hnone (.of_quiet hinv hflush.1)

section One

variable {ino fh parent newParent : Nat} {name newName : Name} {data : Bytes}

private theorem returns_setattr (mode uid gid : Option UInt32) (size : Option Nat)
    (atime mtime : Option SystemTime) (h : s.Inv [] fun _ => False) :
    Prog.wp (call env (.setattr ino mode uid gid size atime mtime))
      (Returns s (.setattr ino mode uid gid size atime mtime)) s := by
  refine (Prog.wp_map ..).mpr (Prog.wp_mono (Prog.wp_and
    (Fs.setattr_spec mode uid gid size atime mtime h)
    (Fs.setattr_partly mode uid gid size atime mtime h)) ?_)
  rintro r s' ⟨⟨hinv, hframe, hsteady, hresult⟩, hpartly⟩
  refine ⟨(Passes.of_frame hinv hframe fun _ => hsteady).mono fun i hi => ?_, fun i hi => ?_⟩
  · obtain ⟨rfl, hsome⟩ := hi
    obtain ⟨n, rfl⟩ := Option.isSome_iff_exists.mp hsome
    rfl
  · rcases size with _ | n
    · cases hi
    · obtain rfl : ino = i := Option.some.inj hi
      rcases r with e | attr
      · exact hpartly
      · exact hresult.2.2.2.2.2.2

private theorem returns_openFile (h : s.Inv [] fun _ => False) (hc : Legal s (.openFile ino)) :
    Prog.wp (call env (.openFile ino)) (Returns s (.openFile ino)) s := by
  refine (Prog.wp_map ..).mpr (Prog.wp_mono (Fs.openFile_spec h (Legal.admissible h hc)) ?_)
  rintro r s' ⟨hinv, hdb, hkept, hresult⟩
  refine Returns.of_none rfl (.of_kept hinv hkept (hdb ▸ .refl s.db) fun i hleft => ?_)
  rcases r with e | fh
  · exact (hresult.1.unlinked i).trans hleft.2
  · exact (hresult.2.2.unlinked i).trans hleft.2

private theorem returns_readFh (offset size : Nat) (h : s.Inv [] fun _ => False) :
    Prog.wp (call env (.readFh fh offset size)) (Returns s (.readFh fh offset size)) s := by
  refine (Prog.wp_map ..).mpr (Prog.wp_mono (Fs.readFh_spec h.toCore) fun r s' hr => ?_)
  apply Returns.of_none rfl
  rcases hfh : s.table.handleIno fh with _ | ino
  · rw [hfh] at hr
    obtain ⟨rfl, rfl⟩ := hr
    exact .of_idle h (.refl _)
  · rw [hfh] at hr
    exact .of_idle h hr.1

private theorem returns_writeFh {offset : Nat} (h : s.Inv [] fun _ => False)
    (hc : Legal s (.writeFh fh offset data)) :
    Prog.wp (call env (.writeFh fh offset data)) (Returns s (.writeFh fh offset data)) s := by
  refine (Prog.wp_map ..).mpr (Prog.wp_mono (Fs.writeFh_spec hc h) ?_)
  rintro r s' ⟨hinv, hresult⟩
  rcases hfh : s.table.handleIno fh with _ | ino
  · rw [hfh] at hresult
    obtain ⟨rfl, rfl⟩ := hresult
    exact .of_none hfh (.of_idle h (.refl _))
  · rw [hfh] at hresult
    exact .of_write hfh rfl rfl hinv hresult

private theorem returns_flushFh (h : s.Inv [] fun _ => False) :
    Prog.wp (call env (.flushFh fh)) (Returns s (.flushFh fh)) s := by
  refine (Prog.wp_map ..).mpr (Prog.wp_mono (Fs.flushFh_spec h) ?_)
  rintro r s' ⟨hinv, hresult⟩
  rcases hfh : s.table.handleIno fh with _ | ino
  · rw [hfh] at hresult
    obtain ⟨rfl, rfl⟩ := hresult
    exact .of_none rfl (.of_idle h (.refl _))
  · rw [hfh] at hresult
    exact .of_flush rfl hinv hresult

private theorem returns_releaseFile (h : s.Inv [] fun _ => False) :
    Prog.wp (call env (.releaseFile fh)) (Returns s (.releaseFile fh)) s := by
  refine (Prog.wp_map ..).mpr (Prog.wp_mono (Fs.releaseFh_spec h) ?_)
  rintro r s' ⟨hinv, hresult⟩
  apply Returns.of_none rfl
  rcases hfh : s.table.handleIno fh with _ | ino
  · rw [hfh] at hresult
    obtain ⟨rfl, rfl⟩ := hresult
    exact .of_idle h (.refl _)
  · rw [hfh] at hresult
    obtain ⟨hkept, -, hcase⟩ := hresult
    rcases hcase with hclosed | hdeleted
    · exact .of_kept hinv hkept (.of_names hclosed.names) fun i hleft =>
        (hclosed.unlinked i).trans hleft.2
    · refine .of_kept hinv hkept ?_ fun i hleft => ?_
      rotate_left
      · have hne : i ≠ ino := by
          rintro rfl
          cases hdeleted.unlinked.symm.trans hleft.2
        rw [hdeleted.other i hne]
        exact hleft.2
      rcases r with e | ⟨⟩
      · have hdb := (hdeleted.error fun hr => by cases hr).2
        rw [hdb]
        exact .refl s.db
      · rw [(hdeleted.ok rfl).2]
        exact Db.fewer_deleteInodeRows s.db ino

private theorem returns_link (h : s.Inv [] fun _ => False)
    (hc : Legal s (.link ino newParent newName)) :
    Prog.wp (call env (.link ino newParent newName)) (Returns s (.link ino newParent newName))
      s := by
  refine (Prog.wp_map ..).mpr (Prog.wp_mono (Fs.link_spec hc h) ?_)
  rintro r s' ⟨hinv, htable, hkept, hresult⟩
  refine Returns.of_none rfl (.of_kept hinv hkept ?_ fun i hleft =>
    (unlinked_of_table htable i).trans hleft.2)
  rcases r with e | attr
  · rw [hresult.1]
    exact .refl s.db
  · obtain ⟨-, inode, now, hdb, -⟩ := hresult
    obtain ⟨-, row, hr, -⟩ := Db.link_cases hdb
    have hpos : 0 < s.db.nlinkOf ino := (Db.nlinkOf_of_find hr).symm ▸ hc row hr
    obtain ⟨hrelinked, hkind⟩ := Db.relinked_link h.sound hpos hdb
    exact hrelinked.fewer fun i hi => hkind i ▸ hi

private theorem returns_rmdir (h : s.Inv [] fun _ => False) :
    Prog.wp (call env (.rmdir parent name)) (Returns s (.rmdir parent name)) s := by
  have hclear : Fs.RmdirClear s parent name := Legal.admissible (c := .rmdir parent name) h trivial
  refine (Prog.wp_map ..).mpr (Prog.wp_mono (Fs.rmdir_spec hclear h) ?_)
  rintro r s' ⟨hinv, hremoved, htable, hresult⟩
  refine Returns.of_none rfl (.of_kept hinv hremoved.1 ?_ fun i hleft =>
    (unlinked_of_table htable i).trans hleft.2)
  rcases r with e | ⟨⟩
  · rw [hresult.1]
    exact .refl s.db
  · obtain ⟨-, now, hdb⟩ := hresult
    exact Db.fewer_removeDir h.sound hdb

private theorem returns_rename {flags : UInt32} (h : s.Inv [] fun _ => False) :
    Prog.wp (call env (.rename parent name newParent newName flags))
      (Returns s (.rename parent name newParent newName flags)) s := by
  have hclear : Fs.RenameClear s parent name newParent newName flags :=
    Legal.admissible (c := .rename parent name newParent newName flags) h trivial
  refine (Prog.wp_map ..).mpr (Prog.wp_mono (Fs.rename_spec hclear h) ?_)
  rintro r s' ⟨hinv, hremoved, hresult⟩
  apply Returns.of_none rfl
  rcases r with e | ⟨⟩
  · exact .of_kept hinv hremoved.1 (hresult.1 ▸ .refl s.db) fun i hleft =>
      (unlinked_of_table hresult.2.1 i).trans hleft.2
  · obtain ⟨-, replaced, now, htable, hdb⟩ := hresult
    refine .of_kept hinv hremoved.1 (Db.fewer_renameEntry h.sound hdb) fun i hleft => ?_
    rcases replaced with _ | target
    · exact (unlinked_of_table htable i).trans hleft.2
    · refine unmarked_of_removed h.toCore htable ?_ i hleft
      obtain ⟨_, _, -, -, -, -, -, -, hcase⟩ := Db.renameEntry_eq h.sound.tree hdb
      rcases hcase with ⟨-, -, hnone, -⟩ | ⟨hnone, -⟩ | ⟨f, q, hf, -, -, -, hq, htarget, -⟩
      · cases hnone
      · cases hnone
      · cases htarget
        exact ⟨f, hf, (Db.findInode_ino hq).symm⟩

end One

end Dbfs

/-- What the last section of `c` finds. -/
def Rest.Ready (c : Call) (s : Shared) : Rest → Prop
  | .allocate ino stop => ∃ offset length mode,
    c = .fallocate ino offset length mode ∧ stop = Fs.fallocateStop offset length mode
  | .remove parent name inode => (∀ s, Dbfs.changes s c = none) ∧
    ∃ target, s.db.lookup parent name = .ok target ∧ inode.SameTarget target
  | .insert attr => (∀ s, Dbfs.changes s c = none) ∧ s.table.file attr.ino = none ∧
    s.db.kindOf attr.ino = some .regularFile ∧ (s.file attr.ino).bytes = []
  | _ => ∀ s, Dbfs.changes s c = none

namespace Dbfs

variable {env : Env} {s s' : Shared} {c : Call}

/-- What the first section of a call leaves: the call has returned, or goes on. -/
def Proceeds (s : Shared) (c : Call) : Except Errno Rest → Shared → Prop
  | .ok (.done reply), s' => Returns s c (.ok reply) s'
  | .ok rest, s' => Passes (fun _ => False) s s' ∧ rest.Ready c s'
  | .error errno, s' => Returns s c (.error errno) s'

private theorem proceeds_one (h : Prog.wp (call env c) (Returns s c) s) :
    Prog.wp (Rest.done <$> call env c) (Proceeds s c) s := by
  refine (Prog.wp_map ..).mpr (Prog.wp_mono h fun r s' hr => ?_)
  rcases r with e | reply
  · exact hr
  · exact hr

private theorem proceeds_node {parent : Nat} {name : Name} {node : NewNode} {uid gid : UInt32}
    (hnone : changes s c = none) (h : s.Inv [] fun _ => False)
    (hcall : call env c = .attr <$> Fs.createNode env parent name node uid gid) :
    Prog.wp (Rest.done <$> call env c) (Proceeds s c) s := by
  apply proceeds_one
  rw [hcall]
  refine (Prog.wp_map ..).mpr (Prog.wp_mono (createNode_passes h) fun r s' hr => ?_)
  exact .of_none hnone hr

private theorem proceeds_idle {α : Type} {x : Fs α} {f : α → Rest} (hidle : Prog.Within Idle x)
    (h : s.Inv [] fun _ => False) (hnone : ∀ s, changes s c = none)
    (hrest : ∀ a s', Passes (fun _ => False) s s' ∧ (∀ s, changes s c = none) →
      Proceeds s c (.ok (f a)) s') : Prog.wp (f <$> x) (Proceeds s c) s := by
  have hwp : Prog.wp x (fun _ s' => Idle s s') s := hidle s
  refine (Prog.wp_map ..).mpr (Prog.wp_mono hwp fun r s' hr => ?_)
  have hpasses : Passes (fun _ => False) s s' := .of_idle h hr
  rcases r with e | a
  · exact .of_none (hnone s) hpasses
  · exact hrest a s' ⟨hpasses, hnone⟩

theorem firstSection_spec (env : Env) (h : s.Inv [] fun _ => False) (hc : Legal s c) :
    Prog.wp (firstSection env c) (Proceeds s c) s := by
  cases c with
  | mkdir parent name mode umask uid gid => exact proceeds_node rfl h rfl
  | create parent name mode umask uid gid => exact proceeds_node rfl h rfl
  | symlink parent name target uid gid => exact proceeds_node rfl h rfl
  | link ino newParent newName => exact proceeds_one (returns_link h hc)
  | setattr ino mode uid gid size atime mtime =>
    exact proceeds_one (returns_setattr mode uid gid size atime mtime h)
  | openFile ino => exact proceeds_one (returns_openFile h hc)
  | readFh fh offset size => exact proceeds_one (returns_readFh offset size h)
  | write ino offset data =>
    apply proceeds_one
    refine (Prog.wp_map ..).mpr (Prog.wp_mono (Fs.write_spec hc h) ?_)
    intro r s' hs'
    exact .of_write rfl rfl rfl hs'.1 hs'.2
  | writeFh fh offset data => exact proceeds_one (returns_writeFh h hc)
  | flushFile ino =>
    apply proceeds_one
    refine (Prog.wp_map ..).mpr (Prog.wp_mono (Fs.flushFile_spec h) ?_)
    intro r s' hs'
    exact .of_flush rfl hs'.1 hs'.2
  | flushFh fh => exact proceeds_one (returns_flushFh h)
  | releaseFile fh => exact proceeds_one (returns_releaseFile h)
  | rmdir parent name => exact proceeds_one (returns_rmdir h)
  | rename parent name newParent newName flags => exact proceeds_one (returns_rename h)
  | getattr ino =>
    have hidle : Prog.Within Idle (Fs.getattrRow env ino) :=
      .bind (Fs.idle_query _) fun _ => .pure _
    exact proceeds_idle hidle h (fun _ => rfl) fun _ _ => id
  | lookup parent name =>
    have hidle : Prog.Within Idle (Fs.lookupRow env parent name) :=
      .bind (Fs.idle_query _) fun _ => .pure _
    exact proceeds_idle hidle h (fun _ => rfl) fun _ _ => id
  | read ino offset size =>
    apply proceeds_idle (Fs.idle_readLocked ino offset size) h fun _ => rfl
    intro data s' hboth
    rcases data with _ | data
    · exact hboth
    · exact .of_none rfl hboth.1
  | fallocate ino offset length mode =>
    refine (Prog.wp_map ..).mpr
      (Prog.wp_mono (Fs.fallocateCheck_spec h.sound.keys.inodeKindOf_eq_ok.mpr) ?_)
    rintro r s' ⟨hdb, htable, hmoments, hresult⟩
    have hpasses : Passes (fun _ => False) s s' := .of_idle h ⟨hdb, htable, hmoments⟩
    rcases r with e | stop
    · refine ⟨hpasses.mono fun _ => False.elim, fun i _ => ?_⟩
      have hquiet : Quiet s s' := Frame.of_eq hdb htable
      exact hquiet.bytes i not_false
    · exact ⟨hpasses, offset, length, mode, rfl, hresult.2.2⟩
  | syncFh fh =>
    refine (Prog.wp_map ..).mpr (Prog.wp_mono (Fs.flushFh_spec h) ?_)
    rintro r s' ⟨hinv, hresult⟩
    have hpasses : Passes (fun _ => False) s s' := by
      rcases hfh : s.table.handleIno fh with _ | ino
      · rw [hfh] at hresult
        obtain ⟨rfl, rfl⟩ := hresult
        exact .of_idle h (.refl _)
      · rw [hfh] at hresult
        exact .of_quiet hinv hresult.1
    rcases r with e | ⟨⟩
    · exact .of_none rfl hpasses
    · exact ⟨hpasses, fun _ => rfl⟩
  | flushAll =>
    refine (Prog.wp_map ..).mpr (Prog.wp_mono (Fs.flushAllLocked_spec h) ?_)
    rintro r s' ⟨result, rfl, hinv, hquiet, -⟩
    exact ⟨.of_quiet hinv hquiet, fun _ => rfl⟩
  | unlink parent name =>
    refine (Prog.wp_map ..).mpr ?_
    apply Fs.wp_query
    · intro failure _
      exact .of_none rfl (.of_idle h ⟨rfl, rfl, rfl⟩)
    · intro error _
      exact .of_none rfl (.of_idle h ⟨rfl, rfl, rfl⟩)
    · intro target hlookup
      exact ⟨.of_idle h ⟨rfl, rfl, rfl⟩, fun _ => rfl, target, hlookup, rfl, rfl, rfl⟩
  | createOpen parent name mode umask uid gid =>
    refine (Prog.wp_map ..).mpr (Prog.wp_mono (Fs.createNode_spec h) ?_)
    rintro r s' ⟨hinv, htable, hkept, hresult⟩
    rcases r with e | attr
    · have hquiet : Quiet s s' := Frame.of_eq hresult.1 htable
      exact .of_none rfl (.of_quiet hinv hquiet)
    · have hempty : (s'.file attr.ino).bytes = [] :=
        Fs.bytes_of_created h htable rfl hresult.2
      have hpasses := named_created h hinv htable hkept hresult.2
      obtain ⟨-, inode, now, hdb, rfl⟩ := hresult
      obtain ⟨-, hino, -, -, hkind, -⟩ := Db.relinked_createNode h.sound hdb
      have hattr : (fileAttrFromInode inode).ino = s.db.nextIno := hino
      refine ⟨hpasses, fun _ => rfl, ?_, ?_, hempty⟩
      · rw [htable, hattr]
        exact Fs.Core.nextIno_closed h.toCore
      · rw [hattr, hkind, if_pos rfl]
        rfl

private theorem returns_idle {α : Type} {x : Fs α} {f : α → Reply} (hidle : Prog.Within Idle x)
    (h : s.Inv [] fun _ => False) (hnone : changes s c = none) :
    Prog.wp (f <$> x) (Returns s c) s := by
  have hwp : Prog.wp (f <$> x) (fun _ s' => Idle s s') s := hidle.map f s
  refine Prog.wp_mono hwp fun r s' hr => ?_
  exact .of_none hnone (.of_idle h hr)

private theorem returns_fallocateLocked {ino : Nat} {offset length : Int} {mode : UInt32}
    (h : s.Inv [] fun _ => False) :
    Prog.wp (lastSection env (.allocate ino (Fs.fallocateStop offset length mode)))
      (Returns s (.fallocate ino offset length mode)) s := by
  refine (Prog.wp_map ..).mpr (Prog.wp_mono (Fs.fallocateLocked_spec _ h) ?_)
  rintro r s' ⟨hinv, hframe, hsteady, hresult⟩
  refine ⟨(Passes.of_frame hinv hframe fun _ => hsteady).mono fun i hi => ?_, fun i hi => ?_⟩
  · rw [hi]
    rfl
  · obtain rfl : ino = i := Option.some.inj hi
    rcases r with e | ⟨⟩
    · exact hresult.1.bytes ino not_false
    · refine hresult.2.trans ?_
      rw [newContent, File.length_bytes]

private theorem returns_unlinkLocked {parent : Nat} {name : Name} {inode target : Inode}
    (h : s.Inv [] fun _ => False) (hnone : changes s c = none)
    (hlookup : s.db.lookup parent name = .ok target) (hsame : inode.SameTarget target) :
    Prog.wp (lastSection env (.remove parent name inode)) (Returns s c) s := by
  refine (Prog.wp_map ..).mpr (Prog.wp_mono (Fs.unlinkLocked_spec hlookup hsame h) ?_)
  rintro r s' ⟨hinv, hremoved, hresult⟩
  apply Returns.of_none hnone
  rcases r with e | ⟨⟩
  · exact .of_kept hinv hremoved.1 (hresult.1 ▸ .refl s.db) fun i hleft =>
      (unlinked_of_table hresult.2.1 i).trans hleft.2
  · obtain ⟨-, htable, now, hdb⟩ := hresult
    refine .of_kept hinv hremoved.1 (Db.fewer_unlinkEntry h.sound hlookup hdb) ?_
    obtain ⟨-, d, row, hd, -, -, hr, rfl⟩ := Db.lookup_cases hlookup
    exact unmarked_of_removed h.toCore htable ⟨d, hd, (Db.findInode_ino hr).symm⟩

private theorem returns_createOpenLocked {attr : FileAttr} (h : s.Inv [] fun _ => False)
    (hnone : changes s c = none) (hclosed : s.table.file attr.ino = none)
    (hkind : s.db.kindOf attr.ino = some .regularFile) (hempty : (s.file attr.ino).bytes = []) :
    Prog.wp (lastSection env (.insert attr)) (Returns s c) s := by
  have hsize : s.db.storedSize attr.ino = 0 := by
    have hlength := (s.file attr.ino).length_bytes
    rw [hempty, Shared.file, hclosed] at hlength
    exact hlength.symm
  refine (Prog.wp_map ..).mpr (Prog.wp_mono (Fs.createOpenLocked_spec h hclosed hkind hsize) ?_)
  rintro r s' ⟨fh, rfl, hinv, hdb, -, hkept, hopened⟩
  exact .of_none hnone (.of_kept hinv hkept (hdb ▸ .refl s.db) fun i hleft =>
    (hopened.unlinked i).trans hleft.2)

theorem lastSection_spec (env : Env) {rest : Rest} (h : s.Inv [] fun _ => False)
    (hrest : rest.Ready c s) : Prog.wp (lastSection env rest) (Returns s c) s := by
  cases rest with
  | done reply => exact .of_none (hrest s) (.of_idle h (.refl s))
  | overlay attr => exact returns_idle (.bind Fs.within_table fun _ => .pure _) h (hrest s)
  | stored ino offset size => exact returns_idle (Fs.idle_query _) h (hrest s)
  | allocate ino stop =>
    obtain ⟨offset, length, mode, rfl, rfl⟩ := hrest
    exact returns_fallocateLocked h
  | remove parent name inode =>
    obtain ⟨hnone, target, hlookup, hsame⟩ := hrest
    exact returns_unlinkLocked h (hnone s) hlookup hsame
  | insert attr =>
    obtain ⟨hnone, hclosed, hkind, hempty⟩ := hrest
    exact returns_createOpenLocked h (hnone s) hclosed hkind hempty
  | sync => exact returns_idle Fs.idle_syncDurable h (hrest s)
  | syncAll firstError => exact returns_idle (Fs.idle_flushAllSync firstError) h (hrest s)

end Dbfs

end VibeDbfs
