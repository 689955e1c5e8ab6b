import VibeDbfs.Fuse.Accounting
import VibeDbfs.Fuse.AnyCalls
import VibeDbfs.Fuse.Routine

/-!
What any call does to the names in the store and to the slots of the table, legal or not, and whose
slots are live then.
-/

set_option autoImplicit false
set_option relaxedAutoImplicit false

namespace VibeDbfs

open Lib Lib.Bytes

namespace OpenTable

variable {t : OpenTable} {ino size : Nat} {kind : FileKind} {slot : Slot} {target : Inode}
  {lost : Prop} {spare : Slot → Prop} {new : Nat → Prop}

private theorem find_insert (t : OpenTable) (ino size : Nat) (kind : FileKind) (j : Nat) :
    (t.inodes.insert ino kind size).2.find j =
      if j = ino then some (t.inodes.insert ino kind size).1 else t.inodes.find j := by
  apply find_cons
  unfold OpenInodes.insert
  split <;> rfl

private theorem unlinked_insert {j : Slot}
    (h : ((t.inodes.insert ino kind size).2.get j).unlinked = true) :
    j ≠ (t.inodes.insert ino kind size).1 ∧ (t.inodes.get j).unlinked = true := by
  rcases hfree : t.inodes.free with _ | ⟨slot, free⟩
  · rw [OpenInodes.insert, hfree] at h ⊢
    change (List.getD (t.inodes.slots ++ [_]) j _).unlinked = true at h
    rw [Cells.getD_append_singleton] at h
    split at h
    · cases h
    · next hne => exact ⟨hne, h⟩
  · have hslots : (t.inodes.insert ino kind size).2.slots = t.inodes.slots.modify slot fun o =>
        { o with
          ino := ino, kind := kind, size := size, mtime := ⟨0, 0⟩, refs := 0
          unlinked := false } := by
      rw [OpenInodes.insert, hfree]
    have hnew : (t.inodes.insert ino kind size).1 = slot := by rw [OpenInodes.insert, hfree]
    rw [hnew]
    by_cases hj : j = slot
    · subst hj
      rw [OpenInodes.get, hslots] at h
      by_cases hlt : j < t.inodes.slots.length
      · rw [Cells.getD_modify hlt, if_pos rfl] at h
        cases h
      · rw [List.modify_eq_self (Nat.le_of_not_lt hlt)] at h
        change (t.inodes.get j).unlinked = true at h
        rw [get_of_le (Nat.le_of_not_lt hlt)] at h
        cases h
    · refine ⟨hj, ?_⟩
      have hmodified : ({ t with inodes := (t.inodes.insert ino kind size).2 } :
        OpenTable).inodes.slots = t.inodes.slots.modify slot _ := hslots
      rcases get_modify hmodified j with hsame | ⟨heq, -⟩
      · exact hsame ▸ h
      · exact (hj heq).elim

private theorem adds_insert (hnew : new ino) :
    Adds new t { t with inodes := (t.inodes.insert ino kind size).2 } := by
  constructor
  · intro j hlive
    change ((t.inodes.insert ino kind size).2.find j).isSome at hlive
    rw [find_insert] at hlive
    split at hlive
    · next heq => exact .inr (heq ▸ hnew)
    · exact .inl hlive
  · rintro j ⟨k, hk, hmarked⟩
    change (t.inodes.insert ino kind size).2.find j = some k at hk
    obtain ⟨hne, hold⟩ := unlinked_insert hmarked
    rw [find_insert] at hk
    split at hk
    · exact (hne (Option.some.inj hk).symm).elim
    · exact ⟨k, hk, hold⟩

private theorem adds_openSlot (t : OpenTable) (slot : Slot) : Adds new t (t.openSlot slot).2 :=
  adds_modify rfl (fun _ _ hj => hj) fun _ ho => ho

private theorem adds_releaseDirty (t : OpenTable) (slot : Slot) :
    Adds new t (t.releaseDirty slot) :=
  adds_modify rfl (fun _ _ hj => hj) fun _ ho => ho

private theorem adds_discardSlot (t : OpenTable) (slot : Slot) : Adds new t (t.discardSlot slot) :=
  (adds_releaseDirty t slot).trans (adds_remove _ slot)

theorem releaseDirty_eq (t : OpenTable) (slot : Slot) : t.releaseDirty slot = { t with
    inodes := t.inodes.update slot fun o => { o with dirty := .empty }
    arena := { t.arena with
      free := (t.inodes.get slot).dirty.slots.reverse ++ t.arena.free } } := by
  unfold releaseDirty
  rw [DirtyIdx.releaseInto_eq]

theorem ino_releaseDirty (t : OpenTable) (slot j : Slot) :
    ((t.releaseDirty slot).inodes.get j).ino = (t.inodes.get j).ino := by
  rcases @get_modify t (t.releaseDirty slot) slot _ rfl j with hsame | ⟨-, hset⟩
  · rw [hsame]
  · rw [hset]

private theorem find_discardSlot (t : OpenTable) (slot : Slot) :
    (t.discardSlot slot).inodes.find (t.inodes.get slot).ino = none := by
  have hfind := find_filtered (t.releaseDirty slot).inodes
    ((t.releaseDirty slot).inodes.get slot).ino (t.inodes.get slot).ino
  rw [if_pos (ino_releaseDirty t slot slot).symm] at hfind
  exact hfind

/-- What `entry_removed` does to the slots: that of a file without any more names or handles goes,
and one of a file that is open is marked. -/
theorem Tidy.entryRemoved_cases (h : t.Tidy lost spare) (target : Inode) :
    (∀ i, ((t.entryRemoved target).inodes.find i).isSome → (t.inodes.find i).isSome) ∧
    (target.kind ≠ .directory → target.nlink ≤ 1 → t.isOpen target.ino = false →
      (t.entryRemoved target).inodes.find target.ino = none) ∧
    ∀ i, (t.entryRemoved target).Marked i → t.Marked i ∨
      i = target.ino ∧ target.kind ≠ .directory ∧ target.nlink ≤ 1 ∧ t.isOpen i = true := by
  have hsame : ∀ new, Adds new t t := fun _ => .of_eq rfl
  unfold entryRemoved
  split
  · next hstays =>
    refine ⟨fun _ hlive => hlive, fun hfile hone => ?_, fun _ => .inl⟩
    exact (hstays.elim hfile fun hmore => Nat.not_lt.mpr hone hmore).elim
  · next hlast =>
    obtain ⟨hfile, hone⟩ := not_or.mp hlast
    rcases hf : t.inodes.find target.ino with _ | slot
    · exact ⟨fun _ hlive => hlive, fun _ _ _ => hf, fun _ => .inl⟩
    · have hisOpen : t.isOpen target.ino = t.inodes.isOpen slot := by rw [isOpen, hf]
      dsimp only
      split
      · next hopen =>
        refine ⟨fun _ hlive => hlive, fun _ _ hclosed => ?_, fun i hmarked => ?_⟩
        · rw [hisOpen, hopen] at hclosed
          cases hclosed
        · obtain ⟨j, hj, hunlinked⟩ := hmarked
          have hcases := @get_modify t (t.updateSlot slot fun o => { o with unlinked := true })
            slot _ rfl j
          rcases hcases with hget | ⟨rfl, -⟩
          · rw [hget] at hunlinked
            exact .inl ⟨j, hj, hunlinked⟩
          · obtain rfl : i = target.ino :=
              (h.ino_of_find hj).symm.trans (h.ino_of_find hf)
            exact .inr ⟨rfl, hfile, Nat.le_of_not_lt hone, hisOpen.trans hopen⟩
      · next hclosed =>
        have hadds : Adds (fun _ => False) t (t.discardSlot slot) := adds_discardSlot t slot
        refine ⟨fun i hlive => (hadds.live i hlive).resolve_right id, fun _ _ _ => ?_,
          fun i hmarked => .inl (hadds.marked i hmarked)⟩
        have hgone := find_discardSlot t slot
        rwa [h.ino_of_find hf] at hgone

end OpenTable

namespace Shared

/-- From `s` to `s'` the store keeps its inodes, their kinds and their names, and only inodes of the
store get a slot. -/
structure KeepsNames (s s' : Shared) : Prop where
  names : s'.db.names = s.db.names
  keys : s.db.Keys → s'.db.Keys
  adds : s.table.Adds (fun i => (s.db.kindOf i).isSome) s'.table

variable {s s' s'' : Shared}

theorem KeepsNames.kind (h : KeepsNames s s') (i : Nat) : s'.db.kindOf i = s.db.kindOf i :=
  congrFun (congrArg Names.kind h.names) i

private theorem KeepsNames.trans (h : KeepsNames s s') (h' : KeepsNames s' s'') :
    KeepsNames s s'' :=
  ⟨h'.names.trans h.names, fun hk => h'.keys (h.keys hk),
    h.adds.trans (h'.adds.mono fun i hi => h.kind i ▸ hi)⟩

private theorem KeepsNames.of_table (hdb : s'.db = s.db)
    (hadds : s.table.Adds (fun i => (s.db.kindOf i).isSome) s'.table) : KeepsNames s s' :=
  ⟨by rw [hdb], fun hk => hdb ▸ hk, hadds⟩

private theorem KeepsNames.of_eq (hdb : s'.db = s.db) (hinodes : s'.table.inodes = s.table.inodes) :
    KeepsNames s s' :=
  .of_table hdb (.of_eq hinodes)

private theorem KeepsNames.of_store (hnames : s'.db.names = s.db.names)
    (hkeys : s.db.Keys → s'.db.Keys) (htable : s'.table = s.table) : KeepsNames s s' :=
  ⟨hnames, hkeys, .of_eq (congrArg OpenTable.inodes htable)⟩

instance : IsPreorder Shared KeepsNames where
  refl _ := .of_eq rfl rfl
  trans _ _ _ := KeepsNames.trans

def Backed (s : Shared) : Prop :=
  ∀ ino, (s.table.inodes.find ino).isSome → (s.db.kindOf ino).isSome

private theorem Backed.of_adds (h : s.Backed)
    (hkind : ∀ i, (s.db.kindOf i).isSome → (s'.db.kindOf i).isSome)
    (hadds : s.table.Adds (fun i => (s'.db.kindOf i).isSome) s'.table) : s'.Backed :=
  fun i hlive => (hadds.live i hlive).elim (fun hold => hkind i (h i hold)) id

private theorem Backed.removed {lost : Prop} {spare : Slot → Prop} {d : Dirent} {r : InodeRow}
    {isOpen : Bool} {now : Timestamp} (h : s.Backed) (htidy : s.table.Tidy lost spare)
    (hr : s.db.findInode d.childIno = some r)
    (hclear : r.kind = .directory → s.table.inodes.find d.childIno = none)
    (hopen : r.kind ≠ .directory → isOpen = s.table.isOpen d.childIno)
    (hsame : Db.SameData (s.db.dropEntry d r isOpen now) s'.db)
    (htable : s'.table = s.table.entryRemoved r.inode) : s'.Backed := by
  obtain ⟨hlive, hgone, -⟩ := htidy.entryRemoved_cases r.inode
  rw [← htable] at hlive hgone
  rw [show r.inode.ino = d.childIno from Db.findInode_ino hr] at hgone
  intro i hi
  have hold := h i (hlive i hi)
  by_cases hlast : Db.LastName r isOpen
  · rw [(((Db.sameData_dropEntry now isOpen hr).1 hlast).trans hsame).kind,
      Db.kindOf_deleteInodeRows, if_neg]
    · exact hold
    · rintro rfl
      rcases hlast with hdir | ⟨hone, hclosed⟩
      · have hfind := hlive _ hi
        rw [hclear hdir] at hfind
        cases hfind
      · by_cases hdir : r.kind = .directory
        · have hfind := hlive _ hi
          rw [hclear hdir] at hfind
          cases hfind
        · rw [hgone hdir hone ((hopen hdir).symm.trans hclosed)] at hi
          cases hi
  · rwa [(((Db.sameData_dropEntry now isOpen hr).2 hlast).trans hsame).kind]

end Shared

namespace Fs

open Shared (KeepsNames)

variable {env : Env} {s s' : Shared} {slot : Slot}

section Data

private theorem keepsNames_exec {f : Db → Except DbError Db}
    (hf : ∀ db db', f db = .ok db' → db'.names = db.names ∧ (db.Keys → db'.Keys)) :
    Prog.Within KeepsNames (exec env f) := by
  intro s
  change Prog.wp (exec env f) (fun _ s' => KeepsNames s s') s
  refine Prog.wp_mono (exec_outcome env f s) ?_
  rintro (e | ⟨⟩) s' ⟨-, htable, hresult⟩
  · exact .of_eq hresult.1 (congrArg OpenTable.inodes htable)
  · obtain ⟨hnames, hkeys⟩ := hf _ _ hresult.2
    exact .of_store hnames hkeys htable

private theorem keepsNames_now : Prog.Within KeepsNames (now env) := fun _ => .of_eq rfl rfl

private theorem keepsNames_updateTable {f : OpenTable → OpenTable}
    (hf : ∀ t, OpenTable.Adds (fun _ => False) t (f t)) :
    Prog.Within KeepsNames (updateTable f) :=
  fun s => .of_table rfl ((hf s.table).mono fun _ hfalse => hfalse.elim)

private theorem keepsNames_flushSlot (slot : Slot) (unlinked : Unlinked) :
    Prog.Within KeepsNames (flushSlot env slot unlinked) := by
  refine .bind within_table fun t => ?_
  dsimp only
  split
  · exact .pure ()
  · refine .bind (keepsNames_exec fun db db' hok => ?_) fun _ => ?_
    · rw [Db.replaceChunks_eq hok]
      exact ⟨Db.names_setSize.trans Db.names_upsertAll, fun hk => hk.upsertAll.setSize _ _⟩
    · exact .bind (keepsNames_updateTable fun t => t.adds_releaseDirty slot) fun _ _ =>
        .of_eq rfl rfl

private theorem keepsNames_routine (env : Env) : DataRoutine env KeepsNames where
  query f s := by
    have hquery := query_tidy env f s
    exact .of_eq hquery.2.1 (congrArg OpenTable.inodes hquery.1)
  truncate ino size := by
    refine .bind keepsNames_now fun _ => keepsNames_exec fun db db' hok => ?_
    obtain ⟨-, -, rfl⟩ := Db.truncateFile_cases hok
    exact ⟨Db.names_setSize.trans Db.names_cutAt, fun hk => hk.cutAt.setSize _ _⟩
  metadata ino update := by
    refine .bind keepsNames_now fun _ => keepsNames_exec fun db db' hok => ?_
    refine ⟨(Db.sameData_updateMetadata hok).2, fun hk => ?_⟩
    obtain ⟨-, f, rfl, hf⟩ := Db.updateMetadata_cases hok
    exact hk.updateInode fun r => ⟨(hf r).1, (hf r).2.2.2.2⟩
  order _ := .of_eq rfl rfl
  sync := by
    apply within_syncDurable
    · intro s
      exact .of_eq rfl rfl
    · intro s
      exact .of_eq rfl rfl
  record _ := .of_eq rfl rfl
  flush := keepsNames_flushSlot
  table _ hf := keepsNames_updateTable fun t => (hf t).adds

private theorem keepsNames_slotFor (ino : Nat) : Prog.Within KeepsNames (slotFor env ino) := by
  intro s
  change Prog.wp (slotFor env ino) (fun _ s' => KeepsNames s s') s
  rw [slotFor, wp_table_bind]
  rcases s.table.inodes.find ino with _ | slot
  · rw [Prog.wp_bind_iff]
    apply wp_query
    · intro failure _
      exact .of_eq rfl rfl
    · intro error _
      exact .of_eq rfl rfl
    · intro head hhead
      refine .of_table rfl (OpenTable.adds_insert ?_)
      unfold Db.inodeHead at hhead
      rcases hr : s.db.findInode ino with _ | r
      · rw [hr] at hhead
        cases hhead
      · rw [Db.kindOf_of_find hr]
        rfl
  · exact refl_of _ s

private theorem keepsNames_updateSlot {f : OpenInode → OpenInode}
    (hf : ∀ o, (f o).unlinked = o.unlinked) :
    Prog.Within KeepsNames (updateTable fun t => t.updateSlot slot f) :=
  keepsNames_updateTable fun _ =>
    OpenTable.adds_modify rfl (fun _ _ hj => hj) fun o ho => hf o ▸ ho

private theorem keepsNames_writeSlot (slot : Slot) (offset : Nat) (data : Bytes) :
    Prog.Within KeepsNames (writeSlot env slot offset data) := by
  have hchunk : ∀ ino span c, Prog.Within KeepsNames (writeChunk env slot ino span data c) :=
    fun ino span c => (keepsNames_routine env).writeChunk
      (fun _ _ => keepsNames_updateSlot fun _ => rfl) ino span data c
  refine .bind within_table fun t => ?_
  refine .bind (within_errnoOfKind _) fun _ => ?_
  split
  · exact .throw _
  · split
    · exact .pure 0
    · split
      · exact .throw _
      · refine .bind keepsNames_now fun _ => .bind (keepsNames_updateSlot fun _ => rfl) fun _ => ?_
        exact .bind (.each (hchunk _ _) _) fun _ => .pure _

private theorem keepsNames_write (ino offset : Nat) (data : Bytes) :
    Prog.Within KeepsNames (write env ino offset data) := by
  unfold write
  split
  · exact .pure 0
  · refine .bind (keepsNames_slotFor ino) fun slot => ?_
    refine .bind (Prog.Within.attempt (keepsNames_writeSlot slot offset data)) fun result => ?_
    refine .bind ((keepsNames_routine env).freeIfIdle slot) fun _ => ?_
    cases result with
    | ok a => exact .pure a
    | error e => exact .throw e

end Data

section Names

variable {parent newParent ino : Nat} {name newName : Name}

private theorem createNode_step {node : NewNode} {uid gid : UInt32} :
    Prog.wp (createNode env parent name node uid gid) (fun r s' => s'.table = s.table ∧ match r with
      | .error _ => s'.db = s.db
      | .ok attr => attr.ino = s.db.nextIno ∧ ∃ inode now,
          s.db.createNode parent name node uid gid now = .ok (inode, s'.db)) s := by
  rw [createNode, wp_now_bind]
  refine Prog.wp_bind (access_outcome env _ _) (fun inode s₁ hs₁ => ?_) fun e s₁ hs₁ => ?_
  · obtain ⟨-, htable, -, hdb⟩ := hs₁
    refine ⟨htable, ?_, inode, _, hdb⟩
    obtain ⟨rfl, -⟩ := Db.createNode_rows hdb
    rfl
  · exact ⟨hs₁.2.1, hs₁.2.2.1⟩

/-- A handle goes: what it does to names and slots. -/
theorem releaseFh_step {fh : Nat} {lost : Prop} {spare : Slot → Prop} (h : s.table.Tidy lost spare)
    (hmapped : ¬lost) :
    Prog.wp (releaseFh env fh) (fun _ s' => KeepsNames s s' ∨ ∃ ino, s.table.Marked ino ∧
      s'.db = s.db.deleteInodeRows ino ∧ s.table.Adds (fun _ => False) s'.table ∧
        s'.table.inodes.find ino = none) s := by
  rw [releaseFh, wp_table_bind]
  rcases hrelease : s.table.handles.release fh with _ | ⟨slot, handles⟩
  · exact .inl (.of_eq rfl rfl)
  rw [orErrno, Prog.wp_pure_bind, wp_updateTable_bind, wp_updateTable_bind]
  obtain ⟨huses, -⟩ := h.closeHandle hrelease
  set t : OpenTable := ({ s.table with handles := handles } : OpenTable).updateSlot slot fun o =>
    { o with refs := o.refs - 1 } with ht
  have hget : t.inodes.get slot = { s.table.inodes.get slot with
      refs := (s.table.inodes.get slot).refs - 1 } :=
    (OpenTable.get_update huses.1 slot).trans (if_pos rfl)
  have hadds : s.table.Adds (fun _ => False) t :=
    OpenTable.adds_modify rfl (fun _ _ hj => hj) fun _ ho => ho
  have hkeeps : KeepsNames s { s with table := t } :=
    .of_table rfl (hadds.mono fun _ hfalse => hfalse.elim)
  rw [dropHandle, wp_table_bind]
  dsimp only
  split
  · next hlast =>
    have hdiscarded := hadds.trans (t.adds_discardSlot slot)
    rw [wp_updateTable_bind]
    refine Prog.wp_mono (exec_outcome env _ _) ?_
    rintro (e | ⟨⟩) s' ⟨-, htable, hresult⟩
    · left
      refine .of_table hresult.1 ?_
      rw [htable]
      exact hdiscarded.mono fun _ hfalse => hfalse.elim
    · refine .inr ⟨(t.inodes.get slot).ino, ⟨slot, ?_, ?_⟩, (Except.ok.inj hresult.2).symm, ?_, ?_⟩
      · rw [hget]
        exact h.mapped.resolve_left hmapped slot huses
      · have hunlinked : (t.inodes.get slot).unlinked = true := hlast.2
        rwa [hget] at hunlinked
      · rw [htable]
        exact hdiscarded
      · rw [htable]
        exact t.find_discardSlot slot
  · exact .inl (hkeeps.trans ((keepsNames_routine env).flushFree slot .skip _))

end Names

end Fs

namespace Dbfs

open Shared (KeepsNames)

variable {env : Env} {s s' : Shared} {c : Call}

def firstTime (env : Env) (s : Shared) : Timestamp := .fromSystemTime (env.clock s.tick)

/-- What a call does to the names in the store and to the slots. -/
inductive NameStep (env : Env) (s s' : Shared) : Call → Prop
  | keeps {c : Call} (h : KeepsNames s s') : NameStep env s s' c
  | creates {c : Call} {parent : Nat} {name : Name} {node : NewNode} {uid gid : UInt32}
      {inode : Inode} {now : Timestamp}
      (hdb : s.db.createNode parent name node uid gid now = .ok (inode, s'.db))
      (hadds : s.table.Adds (fun i => i = s.db.nextIno) s'.table) : NameStep env s s' c
  | links {ino newParent : Nat} {newName : Name} {inode : Inode}
    (hfault : env.fault (s.tick + 1) = none)
      (hdb : s.db.link ino newParent newName (firstTime env s) = .ok (inode, s'.db))
      (htable : s'.table = s.table) : NameStep env s s' (.link ino newParent newName)
  | unlinks {parent : Nat} {name : Name} {target : Inode} {now : Timestamp}
      (hlookup : s.db.lookup parent name = .ok target)
      (hdb : s.db.unlinkEntry parent name target (s.table.isOpen target.ino) now = .ok s'.db)
      (htable : s'.table = s.table.entryRemoved target) : NameStep env s s' (.unlink parent name)
  | removes {parent : Nat} {name : Name} (hfault : env.fault (s.tick + 1) = none)
      (hdb : s.db.removeDir parent name (firstTime env s) = .ok s'.db)
      (htable : s'.table = s.table) : NameStep env s s' (.rmdir parent name)
  | renames {parent newParent : Nat} {name newName : Name} {flags : UInt32}
      {replaced : Option Inode} (hflags : flags &&& ~~~Fs.renameNoreplace = 0)
      (hfault : env.fault (s.tick + 1) = none)
      (hdb : s.db.renameEntry parent name newParent newName (flags &&& Fs.renameNoreplace ≠ 0)
        s.table.isOpen (firstTime env s) = .ok (replaced, s'.db))
      (htable : s'.table = replaced.elim s.table s.table.entryRemoved) :
      NameStep env s s' (.rename parent name newParent newName flags)
  | deletes {c : Call} {ino : Nat} (hmarked : s.table.Marked ino)
      (hdb : s'.db = s.db.deleteInodeRows ino)
      (hadds : s.table.Adds (fun _ => False) s'.table)
      (hgone : s'.table.inodes.find ino = none) : NameStep env s s' c

section Steps

variable {α : Type}

private theorem NameStep.of_within {x : Fs α} (hx : Prog.Within KeepsNames x) (f : α → Reply) :
    Prog.wp (f <$> x) (fun _ s' => NameStep env s s' c) s :=
  (Prog.wp_map ..).mpr (.keeps (hx s))

private theorem nameStep_node {parent : Nat} {name : Name} {node : NewNode} {uid gid : UInt32} :
    Prog.wp (Reply.attr <$> Fs.createNode env parent name node uid gid)
      (fun _ s' => NameStep env s s' c) s := by
  refine (Prog.wp_map ..).mpr (Prog.wp_mono Fs.createNode_step ?_)
  rintro (e | attr) s' ⟨htable, hresult⟩
  · exact .keeps (.of_eq hresult (congrArg OpenTable.inodes htable))
  · obtain ⟨-, inode, now, hdb⟩ := hresult
    exact .creates hdb (.of_eq (congrArg OpenTable.inodes htable))

private theorem nameStep_link {ino newParent : Nat} {newName : Name} :
    Prog.wp (call env (.link ino newParent newName))
      (fun _ s' => NameStep env s s' (.link ino newParent newName)) s := by
  rw [call, Prog.wp_map, Fs.link, Fs.wp_now_bind]
  refine Prog.wp_bind (Fs.access_outcome env _ _) (fun inode s₁ hs₁ => ?_) fun e s₁ hs₁ => ?_
  · exact .links hs₁.2.2.1 hs₁.2.2.2 hs₁.2.1
  · exact .keeps (.of_eq hs₁.2.2.1 (congrArg OpenTable.inodes hs₁.2.1))

private theorem nameStep_unlink {parent : Nat} {name : Name} :
    Prog.wp (call env (.unlink parent name))
      (fun _ s' => NameStep env s s' (.unlink parent name)) s := by
  rw [call, Prog.wp_map]
  refine Prog.wp_bind (Fs.query_tidy env _ s) (fun target s₁ hs₁ => ?_) fun e s₁ hs₁ => ?_
  · obtain ⟨htable₁, hdb₁, hlookup⟩ := hs₁
    rw [Fs.unlinkLocked, Fs.wp_table_bind, Fs.wp_now_bind]
    refine Prog.wp_bind (Fs.exec_outcome env _ _) (fun _ s₂ hs₂ => ?_) fun e s₂ hs₂ => ?_
    · obtain ⟨-, htable₂, -, hdb₂⟩ := hs₂
      rw [hdb₁, htable₁] at hdb₂
      refine .unlinks (hlookup target rfl) hdb₂ ?_
      · change s₂.table.entryRemoved target = _
        rw [htable₂]
        exact congrArg (fun t => t.entryRemoved target) htable₁
    · exact .keeps (.of_eq (hs₂.2.2.1.trans hdb₁)
        (congrArg OpenTable.inodes (hs₂.2.1.trans htable₁)))
  · exact .keeps (.of_eq hs₁.2.1 (congrArg OpenTable.inodes hs₁.1))

private theorem nameStep_rmdir {parent : Nat} {name : Name} :
    Prog.wp (call env (.rmdir parent name))
      (fun _ s' => NameStep env s s' (.rmdir parent name)) s := by
  rw [call, Prog.wp_map, Fs.rmdir, Fs.wp_now_bind]
  refine Prog.wp_mono (Fs.exec_outcome env _ _) ?_
  rintro (e | ⟨⟩) s' ⟨-, htable, hresult⟩
  · exact .keeps (.of_eq hresult.1 (congrArg OpenTable.inodes htable))
  · exact .removes hresult.1 hresult.2 htable

private theorem nameStep_rename {parent newParent : Nat} {name newName : Name} {flags : UInt32} :
    Prog.wp (call env (.rename parent name newParent newName flags))
      (fun _ s' => NameStep env s s' (.rename parent name newParent newName flags)) s := by
  rw [call, Prog.wp_map]
  unfold Fs.rename
  split
  · exact .keeps (refl_of _ s)
  · next hflags =>
    rw [Fs.wp_table_bind, Fs.wp_now_bind]
    refine Prog.wp_bind (Fs.access_outcome env _ _) (fun replaced s₁ hs₁ => ?_) fun e s₁ hs₁ => ?_
    · obtain ⟨-, htable, hfault, hdb⟩ := hs₁
      rcases replaced with _ | target
      · exact .renames (not_not.mp hflags) hfault hdb htable
      · refine .renames (not_not.mp hflags) hfault hdb ?_
        exact congrArg (fun t => t.entryRemoved target) htable
    · exact .keeps (.of_eq hs₁.2.2.1 (congrArg OpenTable.inodes hs₁.2.1))

private theorem nameStep_createOpen {parent : Nat} {name : Name} {mode umask uid gid : UInt32} :
    Prog.wp (call env (.createOpen parent name mode umask uid gid))
      (fun _ s' => NameStep env s s' c) s := by
  rw [call, Prog.wp_map]
  refine Prog.wp_bind Fs.createNode_step (fun attr s₁ hs₁ => ?_) fun e s₁ hs₁ => ?_
  · obtain ⟨htable, hino, inode, now, hdb⟩ := hs₁
    refine .creates hdb ?_
    change s.table.Adds _ (({ s₁.table with
      inodes := (s₁.table.inodes.insert attr.ino .regularFile 0).2 } : OpenTable).openSlot _).2
    rw [htable]
    have hadds : s.table.Adds (fun i => i = s.db.nextIno)
        { s.table with inodes := (s.table.inodes.insert attr.ino .regularFile 0).2 } :=
      OpenTable.adds_insert hino
    exact hadds.trans (OpenTable.adds_openSlot _ _)
  · exact .keeps (.of_eq hs₁.2 (congrArg OpenTable.inodes hs₁.1))

theorem call_nameStep (h : s.table.Tidy False fun _ => True) (c : Call) :
    Prog.wp (call env c) (fun _ s' => NameStep env s s' c) s := by
  have hdata := Fs.keepsNames_routine env
  cases c with
  | getattr ino =>
    exact .of_within (.bind (hdata.getattrRow ino) fun _ => Fs.within_overlayAttr _) _
  | lookup parent name =>
    exact .of_within (.bind (hdata.lookupRow parent name) fun _ => Fs.within_overlayAttr _) _
  | mkdir parent name mode umask uid gid => exact nameStep_node
  | create parent name mode umask uid gid => exact nameStep_node
  | symlink parent name target uid gid => exact nameStep_node
  | link ino newParent newName => exact nameStep_link
  | setattr ino mode uid gid size atime mtime =>
    exact .of_within (hdata.setattr ino mode uid gid size atime mtime) _
  | openFile ino =>
    exact .of_within (.bind (Fs.keepsNames_slotFor ino) fun slot => hdata.openSlot slot) _
  | read ino offset size => exact .of_within (hdata.read ino offset size) _
  | readFh fh offset size => exact .of_within (hdata.readFh fh offset size) _
  | write ino offset data => exact .of_within (Fs.keepsNames_write ino offset data) _
  | writeFh fh offset data =>
    exact .of_within (.bind Fs.within_table fun _ => .bind (Fs.within_orErrno _ _) fun slot =>
      Fs.keepsNames_writeSlot slot offset data) _
  | fallocate ino offset length mode =>
    exact .of_within (hdata.fallocate ino offset length mode) _
  | flushFile ino => exact .of_within (hdata.flushFile ino) _
  | flushFh fh => exact .of_within (hdata.flushFh fh) _
  | syncFh fh => exact .of_within (hdata.syncFh fh) _
  | flushAll => exact .of_within hdata.flushAll _
  | releaseFile fh =>
    refine (Prog.wp_map ..).mpr (Prog.wp_mono (Fs.releaseFh_step h id) ?_)
    rintro r s' (hkeeps | ⟨ino, hmarked, hdb, hadds, hgone⟩)
    · exact .keeps hkeeps
    · exact .deletes hmarked hdb hadds hgone
  | unlink parent name => exact nameStep_unlink
  | rmdir parent name => exact nameStep_rmdir
  | rename parent name newParent newName flags => exact nameStep_rename
  | createOpen parent name mode umask uid gid => exact nameStep_createOpen

end Steps

section Owners

/-- The call goes through and removes the directory `dir`, itself or by a rename over it. -/
def RemovesDirectory (env : Env) (s : Shared) (dir : Nat) : Call → Prop
  | .rmdir parent name => env.fault (s.tick + 1) = none ∧
      (s.db.removeDir parent name (firstTime env s)).isOk = true ∧
      ∃ d ∈ s.db.dirents, d.parentIno = parent ∧ d.name = name ∧ d.childIno = dir
  | .rename parent name newParent newName flags => flags &&& ~~~Fs.renameNoreplace = 0 ∧
      env.fault (s.tick + 1) = none ∧ ∃ target db,
        s.db.renameEntry parent name newParent newName (flags &&& Fs.renameNoreplace ≠ 0)
          s.table.isOpen (firstTime env s) = .ok (some target, db) ∧
        target.kind = .directory ∧ target.ino = dir
  | _ => False

def SparesSlots (env : Env) (s : Shared) (c : Call) : Prop :=
  ∀ dir, RemovesDirectory env s dir c → s.table.inodes.find dir = none

variable {lost : Prop} {spare : Slot → Prop}

private theorem NameStep.backed (h : NameStep env s s' c) (hb : s.Backed)
    (htidy : s.table.Tidy lost spare) (hc : SparesSlots env s c) : s'.Backed := by
  cases h with
  | keeps h =>
    exact hb.of_adds (fun i hi => h.kind i ▸ hi) (h.adds.mono fun i hi => h.kind i ▸ hi)
  | creates hdb hadds =>
    obtain ⟨-, hkind, -⟩ := Db.createNode_rows hdb
    refine hb.of_adds (fun i hi => ?_) (hadds.mono fun i hi => ?_)
    · rw [hkind]
      split
      · rfl
      · exact hi
    · rw [hkind, if_pos hi]
      rfl
  | links _ hdb htable =>
    exact hb.of_adds (fun i hi => (Db.sameData_link hdb).kind i ▸ hi)
      (.of_eq (congrArg OpenTable.inodes htable))
  | unlinks hlookup hdb htable =>
    obtain ⟨d, r, -, -, -, hr, rfl, hfile, heq⟩ := Db.unlinkEntry_eq hlookup hdb
    exact hb.removed htidy hr (fun hdir => (hfile hdir).elim)
      (fun _ => congrArg s.table.isOpen (Db.findInode_ino hr)) (heq ▸ Db.sameData_touchDir) htable
  | removes hfault hdb htable =>
    obtain ⟨d, r, hd, hparent, hname, hr, hdir, -, heq⟩ := Db.removeDir_eq hdb
    have hclear := hc d.childIno ⟨hfault, by rw [hdb]; rfl, d, hd, hparent, hname, rfl⟩
    exact hb.removed htidy hr (fun _ => hclear) (fun hfile => (hfile hdir).elim)
      (heq ▸ Db.sameData_touchDir.trans (Db.sameData_addDirectoryNlink _))
      (htable.trans (if_pos (.inl hdir)).symm)
  | renames hflags hfault hdb htable =>
    obtain ⟨source, -, -, -, ⟨-, rfl, heq⟩ | ⟨-, -, hexisting, -, heq⟩⟩ := Db.renameEntry_ok hdb
    · exact hb.of_adds (fun i hi => heq ▸ hi) (.of_eq (congrArg OpenTable.inodes htable))
    · rename_i replaced
      rcases replaced with _ | target
      · refine hb.of_adds (fun i hi => ?_) (.of_eq (congrArg OpenTable.inodes htable))
        rw [heq]
        exact (Db.kindOf_moveEntry _ _ _ i).symm ▸ hi
      · obtain ⟨-, d, r, -, rfl, rfl, hr, rfl⟩ :=
          Db.lookup_cases (Db.existingTarget_some hexisting)
        have hino : r.inode.ino = d.childIno := Db.findInode_ino hr
        have hmoved : s'.db = (s.db.dropEntry d r (s.table.isOpen r.inode.ino)
          (firstTime env s)).moveEntry _ _ _ _ _ _ _ := heq
        refine hb.removed htidy hr (fun hdir => ?_) (fun _ => congrArg s.table.isOpen hino)
          (hmoved ▸ Db.sameData_moveEntry _ _) htable
        exact hc d.childIno ⟨hflags, hfault, _, _, hdb, hdir, hino⟩
  | deletes _ hdb hadds hgone =>
    intro i hi
    rw [hdb, Db.kindOf_deleteInodeRows, if_neg]
    · exact hb i ((hadds.live i hi).resolve_right id)
    · rintro rfl
      rw [hgone] at hi
      cases hi

/-- No slot was lost, and every live one belongs to an inode. -/
structure Housed (s : Shared) : Prop where
  tidy : s.Tidy False fun _ => True
  backed : s.Backed

private theorem Housed.nextIno (h : Housed s) : s.table.inodes.find s.db.nextIno = none := by
  rcases hf : s.table.inodes.find s.db.nextIno with _ | slot
  · rfl
  · have hsome := h.backed s.db.nextIno (Option.isSome_of_eq_some hf)
    rw [Db.nextIno_new] at hsome
    cases hsome

theorem Housed.start (hdb : s.db.Sound) (writeBuffer : Nat) (htable : s.table = .new writeBuffer) :
    Housed s := by
  refine ⟨⟨htable ▸ OpenTable.Tidy.new writeBuffer, hdb.limits⟩, fun i hi => ?_⟩
  rw [htable] at hi
  cases hi

theorem Housed.step (h : Housed s) (hc : SparesSlots env s c) : Housed (step env s c) := by
  have htidy : Prog.wp (call env c) _ s := call_tidy h.tidy (.inr h.nextIno)
  have hnames : NameStep env s (call env c s).2 c := call_nameStep h.tidy.table c
  have hbacked : (call env c s).2.Backed := hnames.backed h.backed h.tidy.table hc
  refine ⟨?_, hbacked⟩
  rcases htidy with hkept | ⟨slot, -, -, -, hkept⟩
  · exact ⟨hkept.table, hkept.limits⟩
  · exact ⟨hkept.table.mono fun _ _ => trivial, hkept.limits⟩

/-- Each live slot belongs to an inode of the store, none to two, and the inode number that is
given out next has no slot. -/
structure SlotsBacked (s : Shared) : Prop where
  row : ∀ ino slot, s.table.inodes.find ino = some slot →
    (s.table.inodes.get slot).ino = ino ∧ (s.db.findInode ino).isSome
  injective : ∀ slot ∈ s.table.inodes.values, ∀ slot' ∈ s.table.inodes.values,
    (s.table.inodes.get slot).ino = (s.table.inodes.get slot').ino → slot = slot'
  next : s.table.inodes.find s.db.nextIno = none

private theorem Housed.slotsBacked (h : Housed s) : SlotsBacked s where
  row ino slot hf := by
    refine ⟨h.tidy.table.ino_of_find hf, ?_⟩
    rw [Db.findInode_isSome]
    exact h.backed ino (Option.isSome_of_eq_some hf)
  injective slot hslot slot' hslot' heq := by
    have hmapped := h.tidy.table.mapped.resolve_left id
    have hf := hmapped slot (h.tidy.table.uses_of_mem hslot)
    rw [heq] at hf
    exact Option.some.inj (hf.symm.trans (hmapped slot' (h.tidy.table.uses_of_mem hslot')))
  next := h.nextIno

variable {db : Db}

/-- As long as no call removes a directory that has a slot, every slot is backed by an inode. -/
theorem slotsBacked_of_run (hdb : db.Reached) (writeBuffer : Nat) (env : Env) (calls : List Call)
    (h : LegalRun (step env) (SparesSlots env) (.withWriteBuffer db writeBuffer) calls) :
    SlotsBacked (run env (.withWriteBuffer db writeBuffer) calls) := by
  have hstart : Housed (.withWriteBuffer db writeBuffer) := .start hdb.sound writeBuffer rfl
  have hrun : Housed (run env (.withWriteBuffer db writeBuffer) calls) :=
    runFrom_induction (fun _ _ hc hs => hs.step hc) hstart h
  exact hrun.slotsBacked

def reusedNumber : List Call := [
  .mkdir 1 [97] 0o755 0 0 0,
  .rmdir 1 [97],
  .createOpen 1 [98] 0o644 0 0 0]

theorem slotsBacked_of_reusedNumber :
    SlotsBacked (run calm (.withWriteBuffer (.fresh 0 0 ⟨0, 0⟩) 65536) reusedNumber) :=
  slotsBacked_of_run (.fresh 0 0 ⟨0, 0⟩) 65536 calm reusedNumber
    ⟨nofun, fun _ _ => rfl, nofun, trivial⟩

/-- A directory that is open when it is removed leaves its slot behind. -/
theorem slotsBacked_false : ¬∀ calls : List Call,
    SlotsBacked (run calm (.withWriteBuffer (.fresh 0 0 ⟨0, 0⟩) 65536) calls) := by
  intro h
  have hrow := (h [.mkdir 1 [97] 0o755 0 0 0, .openFile 2, .rmdir 1 [97]]).row 2 0 (by decide)
  exact absurd hrow.2 (by decide)

end Owners

end Dbfs

end VibeDbfs
