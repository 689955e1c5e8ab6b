import VibeDbfs.Fuse.Handling

/-!
Creating, linking, unlinking and renaming: what the store deletes and what the table forgets are
the same inodes, and the others keep their content.
-/

set_option autoImplicit false
set_option relaxedAutoImplicit false

namespace VibeDbfs

open Lib Lib.Bytes Shared

variable {s s' : Shared} {env : Env} {held : List ArenaSlot} {busy : Nat → Prop}
  {ino parent newParent : Nat} {name newName : Name}

namespace Db

/-- An inode without a name got none from `db` to `db'`. -/
def KeepsNameless (db db' : Db) : Prop :=
  ∀ i, (db.kindOf i).isSome → db.nlinkOf i = 0 → db'.nlinkOf i = 0

/-- From `db` to `db'` entries changed, and inodes came and went: those that stayed hold what they
held, and those without a name got none. -/
structure Relinked (db db' : Db) : Prop where
  sound : db'.Sound
  file : ∀ i, (db.kindOf i).isSome → (db'.kindOf i).isSome →
    db'.file i = { db.file i with nlink := db'.nlinkOf i }
  nameless : KeepsNameless db db'

variable {db db₁ db' : Db} {now : Timestamp} {d : Dirent} {r : InodeRow} {isOpen : Bool}

theorem Relinked.refl (hs : db.Sound) : Relinked db db := ⟨hs, fun _ _ _ => rfl, fun _ _ h => h⟩

theorem file_of_data (h : SameData db db') (i : Nat) :
    db'.file i = { db.file i with nlink := db'.nlinkOf i } := by
  simp only [file, h.kind, h.size, chunk, findChunk, h.chunks]

theorem Linked.not_directory (h : db.Linked) (hsome : (db.kindOf ino).isSome)
    (hnlink : db.nlinkOf ino = 0) : db.kindOf ino ≠ some .directory := by
  intro hdir
  have hexact := h.exact ino hsome
  rw [Names.linkCount, if_pos (show db.names.kind ino = _ from hdir)] at hexact
  change db.nlinkOf ino = _ at hexact
  omega

private theorem nameless_of_children (hs : db.Linked) (hs' : db'.Linked)
    (hkind : ∀ i, (db.kindOf i).isSome → db'.kindOf i = db.kindOf i ∨ db'.kindOf i = none)
    (hchildren : ∀ e' ∈ db'.dirents, (∃ e ∈ db.dirents, e.childIno = e'.childIno) ∨
      db.kindOf e'.childIno = none) : KeepsNameless db db' := by
  intro i hsome hnlink
  have hfile := hs.not_directory hsome hnlink
  refine hs'.nlink_eq_zero ?_ fun e' he' heq => ?_
  · rcases hkind i hsome with h | h
    · rwa [h]
    · rw [h]
      nofun
  · rcases hchildren e' he' with ⟨e, he, hchild⟩ | hnone
    · exact hs.unnamed hnlink e he (hchild.trans heq)
    · rw [← heq, hnone] at hsome
      cases hsome

theorem keepsNameless_createNode {node : NewNode} {uid gid : UInt32} {inode : Inode}
    (hs : db.Linked) (h : db.createNode parent name node uid gid now = .ok (inode, db')) :
    KeepsNameless db db' := by
  obtain ⟨-, hkind, -⟩ := createNode_rows h
  refine nameless_of_children hs (hs.createNode h) (fun i hi => .inl ?_) fun e' he' => ?_
  · rw [hkind, if_neg]
    rintro rfl
    rw [nextIno_new] at hi
    cases hi
  · obtain ⟨-, -, -, -, -, hdb⟩ := createNode_cases h
    have hdirents : db'.dirents = (db.addNode parent name node uid gid now).dirents := by
      rw [hdb]
      split <;> rfl
    rw [hdirents] at he'
    rcases List.mem_append.mp he' with he' | he'
    · exact .inl ⟨e', he', rfl⟩
    · rw [List.mem_singleton.mp he']
      exact .inr (nextIno_new db)

theorem relinked_createNode {node : NewNode} {uid gid : UInt32} {inode : Inode} (hs : db.Sound)
    (h : db.createNode parent name node uid gid now = .ok (inode, db')) :
    Relinked db db' ∧ inode.ino = db.nextIno ∧ inode.kind = node.kind ∧ inode.size = node.size ∧
      (∀ i, db'.kindOf i = if i = db.nextIno then some node.kind else db.kindOf i) ∧
      db'.storedSize db.nextIno = node.size := by
  obtain ⟨rfl, hkind, hsize, hchunks, -⟩ := createNode_rows h
  have hold : ∀ i, (db.kindOf i).isSome → db'.kindOf i = db.kindOf i ∧
      db'.storedSize i = db.storedSize i := by
    intro i hi
    have hne : i ≠ db.nextIno := by
      rintro rfl
      rw [nextIno_new] at hi
      cases hi
    rw [hkind, hsize, if_neg hne, if_neg hne]
    exact ⟨rfl, rfl⟩
  refine ⟨⟨hs.createNode h, fun i hi _ => ?_, keepsNameless_createNode hs.toLinked h⟩, rfl, rfl,
    rfl, hkind, (hsize _).trans (if_pos rfl)⟩
  simp only [file, (hold i hi).1, (hold i hi).2, chunk, findChunk, hchunks]

theorem keepsNameless_link {inode : Inode} (hs : db.Linked) (hnamed : 0 < db.nlinkOf ino)
    (h : db.link ino newParent newName now = .ok (inode, db')) : KeepsNameless db db' := by
  refine nameless_of_children hs (hs.link h) (fun i _ => .inl ((sameData_link h).kind i))
    fun e' he' => ?_
  obtain ⟨-, r, hr, hfile, -, -, -, rfl⟩ := link_cases h
  rcases List.mem_append.mp he' with he' | he'
  · exact .inl ⟨e', he', rfl⟩
  · rw [List.mem_singleton.mp he']
    -- the inode has an entry already
    have hexact := hs.exact ino (by simp [names, kindOf_of_find hr])
    rw [Names.linkCount, if_neg (by simpa [names, kindOf_of_find hr] using hfile)] at hexact
    rw [show db.nlinkOf ino = _ from hexact] at hnamed
    obtain ⟨e, he, heq⟩ := List.countP_pos_iff.mp hnamed
    exact .inl ⟨e, he, of_decide_eq_true heq⟩

theorem relinked_link {inode : Inode} (hs : db.Sound) (hnamed : 0 < db.nlinkOf ino)
    (h : db.link ino newParent newName now = .ok (inode, db')) :
    Relinked db db' ∧ ∀ i, db'.kindOf i = db.kindOf i :=
  ⟨⟨hs.link h, fun i _ _ => file_of_data (sameData_link h) i,
    keepsNameless_link hs.toLinked hnamed h⟩, (sameData_link h).kind⟩

/-- Dropping an entry, with whatever else happens to the entries after it. -/
theorem keepsNameless_dropEntry (hs : db.Linked) (hs' : db'.Linked) (hd : d ∈ db.dirents)
    (hr : db.findInode d.childIno = some r)
    (hempty : r.kind = .directory → ∀ e ∈ db.dirents, e.parentIno ≠ r.ino)
    (hsame : SameData (db.dropEntry d r isOpen now) db')
    (hchildren : ∀ e' ∈ db'.dirents, ∃ e ∈ (db.dropEntry d r isOpen now).dirents,
      e.childIno = e'.childIno) :
    KeepsNameless db db' ∧ (∀ i, i ≠ d.childIno → db'.kindOf i = db.kindOf i) ∧
      (LastName r isOpen → db'.kindOf d.childIno = none) ∧
      (¬LastName r isOpen → db'.kindOf d.childIno = db.kindOf d.childIno ∧
        (r.nlink ≤ 1 → db'.nlinkOf d.childIno = 0)) := by
  have hdirents := dirents_dropEntry now isOpen hs.tree hs.exact hd hr hempty
  have hbase := sameData_dropEntry now isOpen hr
  have hsub : ∀ e' ∈ db'.dirents, ∃ e ∈ (db.deleteDirent d.parentIno d.name).dirents,
      e.childIno = e'.childIno := fun e' he' => hdirents ▸ hchildren e' he'
  have hother : ∀ i, i ≠ d.childIno → db'.kindOf i = db.kindOf i := fun i hi => by
    by_cases hlast : LastName r isOpen
    · rw [((hbase.1 hlast).trans hsame).kind, kindOf_deleteInodeRows, if_neg hi]
    · exact ((hbase.2 hlast).trans hsame).kind i
  have hgone : LastName r isOpen → db'.kindOf d.childIno = none := fun hlast => by
    rw [((hbase.1 hlast).trans hsame).kind, kindOf_deleteInodeRows, if_pos rfl]
  have hstays : ¬LastName r isOpen → db'.kindOf d.childIno = db.kindOf d.childIno := fun hlast =>
    ((hbase.2 hlast).trans hsame).kind _
  refine ⟨nameless_of_children hs hs' (fun i _ => ?_) fun e' he' => ?_, hother, hgone,
    fun hlast => ⟨hstays hlast, fun hone => ?_⟩⟩
  · by_cases hi : i = d.childIno
    · by_cases hlast : LastName r isOpen
      · exact .inr (hi ▸ hgone hlast)
      · exact .inl (hi ▸ hstays hlast)
    · exact .inl (hother i hi)
  · obtain ⟨e, he, heq⟩ := hsub e' he'
    exact .inl ⟨e, (List.mem_filter.mp he).1, heq⟩
  · have hfile : r.kind ≠ .directory := fun hdir => hlast (.inl hdir)
    refine hs'.nlink_eq_zero ?_ fun e' he' heq => ?_
    · rw [hstays hlast, kindOf_of_find hr]
      exact fun hdir => hfile (Option.some.inj hdir)
    · obtain ⟨e, he, hchild⟩ := hsub e' he'
      exact unnamed_of_single hs.tree hs.exact hd hr (fun _ => hone) e he (hchild.trans heq)

theorem relinked_dropEntry (hs : db.Sound) (hs' : db'.Sound) (hd : d ∈ db.dirents)
    (hr : db.findInode d.childIno = some r)
    (hempty : r.kind = .directory → ∀ e ∈ db.dirents, e.parentIno ≠ r.ino)
    (hsame : SameData (db.dropEntry d r isOpen now) db')
    (hchildren : ∀ e' ∈ db'.dirents, ∃ e ∈ (db.dropEntry d r isOpen now).dirents,
      e.childIno = e'.childIno) :
    Relinked db db' ∧ (∀ i, i ≠ d.childIno → db'.kindOf i = db.kindOf i) ∧
      (LastName r isOpen → db'.kindOf d.childIno = none) ∧
      (¬LastName r isOpen → db'.kindOf d.childIno = db.kindOf d.childIno ∧
        (r.nlink ≤ 1 → db'.nlinkOf d.childIno = 0)) := by
  obtain ⟨hnameless, hother, hgone, hstays⟩ :=
    keepsNameless_dropEntry hs.toLinked hs'.toLinked hd hr hempty hsame hchildren
  refine ⟨⟨hs', fun i hi hi' => ?_, hnameless⟩, hother, hgone, hstays⟩
  have hbase := sameData_dropEntry now isOpen hr
  by_cases hlast : LastName r isOpen
  · have hne : i ≠ d.childIno := by
      rintro rfl
      rw [hgone hlast] at hi'
      cases hi'
    have hino := (hs.keys.range (by simp [kindOf_of_find hr] : (db.kindOf d.childIno).isSome)).2
    rw [file_of_data ((hbase.1 hlast).trans hsame), file_deleteInodeRows hs.keys hino, if_neg hne]
  · exact file_of_data ((hbase.2 hlast).trans hsame) i

theorem children_moveEntry (sourceIsDir targetIsDir : Bool) :
    ∀ e' ∈ (db.moveEntry parent name newParent newName sourceIsDir targetIsDir now).dirents,
      ∃ e ∈ db.dirents, e.childIno = e'.childIno := by
  intro e' he'
  rw [dirents_moveEntry] at he'
  obtain ⟨e, he, rfl⟩ := List.mem_map.mp he'
  refine ⟨e, he, ?_⟩
  split <;> rfl

theorem keepsNameless_moveEntry (hs : db.Linked) (sourceIsDir targetIsDir : Bool)
    (hs' : (db.moveEntry parent name newParent newName sourceIsDir targetIsDir now).Linked) :
    KeepsNameless db (db.moveEntry parent name newParent newName sourceIsDir targetIsDir now) :=
  nameless_of_children hs hs' (fun i _ => .inl (kindOf_moveEntry now sourceIsDir targetIsDir i))
    fun e' he' => .inl (children_moveEntry sourceIsDir targetIsDir e' he')

theorem relinked_moveEntry (hs : db.Sound) (sourceIsDir targetIsDir : Bool)
    (hs' : (db.moveEntry parent name newParent newName sourceIsDir targetIsDir now).Sound) :
    Relinked db (db.moveEntry parent name newParent newName sourceIsDir targetIsDir now) where
  sound := hs'
  file i _ _ := file_of_data (sameData_moveEntry sourceIsDir targetIsDir) i
  nameless := keepsNameless_moveEntry hs.toLinked sourceIsDir targetIsDir hs'.toLinked

end Db

namespace Shared

/-- What becomes of the slot of `ino`: it stays, is marked as unlinked, or goes with its inode. -/
def Follows (s s' : Shared) (ino : Nat) : Prop :=
  s'.table.file ino = s.table.file ino ∧
      (∀ o, s.table.file ino = some o → (s'.db.kindOf ino).isSome) ∨
  (∃ o, s.table.file ino = some o ∧ s'.table.file ino = some { o with unlinked := true } ∧
      0 < o.refs ∧ (s'.db.kindOf ino).isSome ∧ s'.db.nlinkOf ino = 0) ∨
  s'.table.file ino = none ∧ s'.db.kindOf ino = none

structure Moves (held : List ArenaSlot) (s s' : Shared) : Prop where
  relinked : s.db.Relinked s'.db
  table : s'.table.WF held
  follows : ∀ ino, Follows s s' ino
  moments : s'.moments = s.moments
  handles : ∀ fh, s'.table.handleIno fh = s.table.handleIno fh
  closing : s'.table.closing = s.table.closing
  maxSlots : s'.table.arena.maxSlots = s.table.arena.maxSlots

private theorem Moves.of_table (h : s.Core held busy) (hrelinked : s.db.Relinked s'.db)
    (htable : s'.table = s.table) (hmoments : s'.moments = s.moments)
    (hkind : ∀ i o, s.table.file i = some o → s'.db.kindOf i = s.db.kindOf i) :
    Moves held s s' where
  relinked := hrelinked
  table := htable ▸ h.table
  follows i := .inl ⟨by rw [htable], fun o ho => by
    rw [hkind i o ho, h.kindOf ho]
    rfl⟩
  moments := hmoments
  handles fh := by rw [htable]
  closing := by rw [htable]
  maxSlots := by rw [htable]

private theorem Moves.agrees (h : s.Core held busy) (hm : Moves held s s') {o : OpenFile}
    (ho : s.table.file ino = some o) (hsome : (s'.db.kindOf ino).isSome) :
    o.Agrees (s'.db.file ino) := by
  have ha := h.live ino o ho
  have hold : (s.db.kindOf ino).isSome := Option.isSome_of_eq_some (h.kindOf ho)
  rw [hm.relinked.file ino hold hsome]
  exact { ha with unlinked := fun hu => ⟨(ha.unlinked hu).1,
    hm.relinked.nameless ino hold (ha.unlinked hu).2⟩ }

private theorem Moves.core (h : s.Core held busy) (hm : Moves held s s') : s'.Core held busy := by
  refine ⟨hm.relinked.sound, hm.table, fun j o ho => ?_, fun j o ho hd => ?_,
    hm.moments ▸ h.chronicle⟩
  · rcases hm.follows j with ⟨heq, hsome⟩ | ⟨p, hp, heq, hrefs, hsome, hnlink⟩ | ⟨hnone, -⟩
    · rw [heq] at ho
      exact hm.agrees h ho (hsome o ho)
    · rw [heq] at ho
      cases ho
      exact { hm.agrees h hp hsome with unlinked := fun _ => ⟨hrefs, hnlink⟩ }
    · exact nomatch hnone.symm.trans ho
  · rcases hm.follows j with ⟨heq, -⟩ | ⟨p, hp, heq, -⟩ | ⟨hnone, -⟩
    · exact h.directory j o (heq ▸ ho) hd
    · rw [heq] at ho
      cases ho
      exact h.directory j p hp hd
    · exact nomatch hnone.symm.trans ho

private theorem Moves.kept (h : s.Core held busy) (hm : Moves held s s') : Kept s s' := by
  have hfiles : ∀ j, (s'.table.file j).map OpenFile.dirty = (s.table.file j).map OpenFile.dirty ∧
      (s'.table.file j).map OpenFile.size = (s.table.file j).map OpenFile.size ∨
      s'.table.file j = none ∧ s'.db.kindOf j = none := fun j => by
    rcases hm.follows j with ⟨heq, -⟩ | ⟨p, hp, heq, -⟩ | hgone
    · exact .inl ⟨by rw [heq], by rw [heq]⟩
    · exact .inl ⟨by rw [heq, hp]; rfl, by rw [heq, hp]; rfl⟩
    · exact .inr hgone
  have hclean : ∀ j, (s.file j).Clean → (s'.file j).Clean := fun j hc o ho => by
    rcases hfiles j with ⟨hdirty, -⟩ | ⟨hnone, -⟩
    · rw [show s'.table.file j = some o from ho] at hdirty
      obtain ⟨p, hp, heq⟩ := Option.map_eq_some_iff.mp hdirty.symm
      intro c
      rw [← heq]
      exact hc p hp c
    · exact nomatch hnone.symm.trans ho
  have hbytes : ∀ j, (s.db.kindOf j).isSome → (s'.db.kindOf j).isSome →
      (s'.file j).bytes = (s.file j).bytes := fun j hsome hsome' => by
    have hstored := hm.relinked.file j hsome hsome'
    rcases hfiles j with ⟨hdirty, hsize⟩ | ⟨-, hnone⟩
    · refine File.bytes_congr ?_ ?_
      · change ((s'.table.file j).map OpenFile.size).getD (s'.db.file j).size =
          ((s.table.file j).map OpenFile.size).getD (s.db.file j).size
        rw [hsize, hstored]
      · funext c
        change ((s'.table.file j).bind fun o => o.dirty c).getD ((s'.db.file j).chunk c) =
          ((s.table.file j).bind fun o => o.dirty c).getD ((s.db.file j).chunk c)
        rw [hstored]
        congr 1
        have := congrArg (fun f => Option.bind f fun dirty => dirty c) hdirty
        simpa [Option.bind_map] using this
    · rw [hnone] at hsome'
      cases hsome'
  refine ⟨fun j hsome hheld => hbytes j hsome ?_, fun j hsome hsome' =>
    size_le_of_bytes (hbytes j hsome hsome'), hclean, fun j hs => ?_, hm.closing, hm.maxSlots⟩
  · rcases hheld with hnlink | hrefs
    · rcases hk : s'.db.kindOf j with _ | k
      · exact (Nat.ne_of_gt hnlink (Db.nlinkOf_of_none hk)).elim
      · rfl
    · rcases ho : s'.table.file j with _ | o
      · rw [Shared.file, ho] at hrefs
        exact (Nat.lt_irrefl 0 hrefs).elim
      · exact Option.isSome_of_eq_some ((hm.core h).kindOf ho)
  · rcases hs with hc | hu
    · exact .inl (hclean j hc)
    · rcases hm.follows j with ⟨heq, -⟩ | ⟨p, hp, heq, -⟩ | ⟨hnone, -⟩
      · refine .inr ?_
        change ((s'.table.file j).map OpenFile.unlinked).getD false = true
        rw [heq]
        exact hu
      · refine .inr ?_
        rw [Shared.file, heq]
        rfl
      · exact .inl fun o ho => nomatch hnone.symm.trans ho

private theorem Moves.inv (h : s.Inv held busy) (hm : Moves held s s')
    (hkind : ∀ i, (s'.db.kindOf i).isSome → (s.db.kindOf i).isSome) : s'.Inv held busy := by
  refine h.of_core (hm.core h.toCore) hm.moments fun j hnamed => ?_
  have hsome' : (s'.db.kindOf j).isSome := Option.isSome_of_eq_some hnamed.1
  have hsome := hkind j hsome'
  have hstored := hm.relinked.file j hsome hsome'
  refine ⟨⟨(congrArg StoredFile.kind hstored).symm.trans hnamed.1, ?_⟩, by rw [hstored]; rfl⟩
  refine Nat.pos_of_ne_zero fun hzero => ?_
  exact Nat.ne_of_gt hnamed.2 (hm.relinked.nameless j hsome hzero)

end Shared

def Inode.SameTarget (a b : Inode) : Prop := a.ino = b.ino ∧ a.kind = b.kind ∧ a.nlink = b.nlink

private theorem Db.unlinkEntry_congr {db : Db} {a b : Inode} (h : a.SameTarget b) (isOpen : Bool)
    (now : Timestamp) :
    db.unlinkEntry parent name a isOpen now = db.unlinkEntry parent name b isOpen now := by
  simp only [Db.unlinkEntry, Db.dropUnlinkedInode, h.1, h.2.1, h.2.2]

private theorem OpenTable.entryRemoved_congr {t : OpenTable} {a b : Inode} (h : a.SameTarget b) :
    t.entryRemoved a = t.entryRemoved b := by
  simp only [OpenTable.entryRemoved, h.1, h.2.1, h.2.2]

namespace Fs

section Create

variable {node : NewNode} {uid gid : UInt32} {attr : FileAttr}

/-- `attr` describes a node that was created between `s` and `s'`. -/
def Created (s s' : Shared) (parent : Nat) (name : Name) (node : NewNode) (uid gid : UInt32)
    (attr : FileAttr) : Prop :=
  ∃ inode now, s.db.createNode parent name node uid gid now = .ok (inode, s'.db) ∧
    attr = fileAttrFromInode inode

theorem Core.nextIno_closed (h : s.Core held busy) : s.table.file s.db.nextIno = none := by
  rcases ho : s.table.file s.db.nextIno with _ | o
  · rfl
  · exact nomatch (Db.nextIno_new s.db).symm.trans (h.kindOf ho)

theorem createNode_spec (h : s.Inv held busy) :
    Prog.wp (createNode env parent name node uid gid) (fun r s' => s'.Inv held busy ∧
      s'.table = s.table ∧ Kept s s' ∧
      match r with
      | .ok attr => s'.failures = s.failures ∧ Created s s' parent name node uid gid attr
      | .error e => s'.db = s.db ∧ (env.Failed s s' ∨ s'.failures = s.failures ∧ ∃ now error,
          s.db.createNode parent name node uid gid now = .error error ∧
            e = errnoFromDbError error)) s := by
  rw [createNode, wp_now_bind, Prog.wp_bind_iff]
  refine wp_access (fun failure hfault => ?_) (fun error herror => ?_) fun inode db hdb => ?_
  · exact ⟨h.of_eq rfl rfl rfl, rfl, .of_quiet (Frame.of_eq rfl rfl), rfl,
      .inl ⟨Nat.lt_succ_self _, env.not_healthy hfault⟩⟩
  · exact ⟨h.of_eq rfl rfl rfl, rfl, .of_quiet (Frame.of_eq rfl rfl), rfl,
      .inr ⟨rfl, _, _, herror, rfl⟩⟩
  · obtain ⟨hrelinked, -, -, -, hkind, -⟩ := Db.relinked_createNode h.sound hdb
    have hclosed := Core.nextIno_closed h.toCore
    have hm : Moves held s { s with tick := s.tick + 1 + 1, db := db } :=
      .of_table h.toCore hrelinked rfl rfl fun i o ho => by
        change db.kindOf i = s.db.kindOf i
        rw [hkind, if_neg]
        rintro rfl
        exact nomatch hclosed.symm.trans ho
    refine ⟨(hm.core h.toCore).record _ fun j hnamed => ?_, rfl, (hm.kept h.toCore).followed
      (Frame.of_eq rfl rfl), rfl, inode, _, hdb, rfl⟩
    change db.Named j at hnamed
    by_cases hj : j = s.db.nextIno
    · left
      rw [hj, Shared.file, show Shared.table _ = s.table from rfl, hclosed]
      rfl
    · right
      have hold : s.db.kindOf j = db.kindOf j := by rw [hkind, if_neg hj]
      have hsome : (s.db.kindOf j).isSome := Option.isSome_of_eq_some (hold.trans hnamed.1)
      have hstored := hrelinked.file j hsome (hold ▸ hsome)
      refine ⟨rfl, ?_⟩
      change Since j (db.file j).bytes s.moments
      rw [hstored]
      refine h.since j ⟨hold.trans hnamed.1, Nat.pos_of_ne_zero fun hzero => ?_⟩
      exact Nat.ne_of_gt hnamed.2 (hrelinked.nameless j hsome hzero)

end Create

section Link

theorem link_spec (hnamed : ∀ r ∈ s.db.findInode ino, 0 < r.nlink) (h : s.Inv held busy) :
    Prog.wp (link env ino newParent newName) (fun r s' => s'.Inv held busy ∧
      s'.table = s.table ∧ Kept s s' ∧
      match r with
      | .ok attr => s'.failures = s.failures ∧ ∃ inode now,
          s.db.link ino newParent newName now = .ok (inode, s'.db) ∧ attr = fileAttrFromInode inode
      | .error e => s'.db = s.db ∧ (env.Failed s s' ∨ s'.failures = s.failures ∧ ∃ now error,
          s.db.link ino newParent newName now = .error error ∧ e = errnoFromDbError error)) s := by
  rw [link, wp_now_bind, Prog.wp_bind_iff]
  refine wp_access (fun failure hfault => ?_) (fun error herror => ?_) fun inode db hdb => ?_
  · exact ⟨h.of_eq rfl rfl rfl, rfl, .of_quiet (Frame.of_eq rfl rfl), rfl,
      .inl ⟨Nat.lt_succ_self _, env.not_healthy hfault⟩⟩
  · exact ⟨h.of_eq rfl rfl rfl, rfl, .of_quiet (Frame.of_eq rfl rfl), rfl,
      .inr ⟨rfl, _, _, herror, rfl⟩⟩
  · obtain ⟨-, r, hr, -⟩ := Db.link_cases hdb
    have hpos : 0 < s.db.nlinkOf ino := (Db.nlinkOf_of_find hr).symm ▸ hnamed r hr
    obtain ⟨hrelinked, hkind⟩ := Db.relinked_link h.sound hpos hdb
    have hm : Moves held s { s with tick := s.tick + 1 + 1, db := db } :=
      .of_table h.toCore hrelinked rfl rfl fun i _ _ => hkind i
    exact ⟨hm.inv h fun i hi => hkind i ▸ hi, rfl, hm.kept h.toCore, rfl, inode, _, hdb, rfl⟩

end Link

section Remove

variable {db : Db} {now : Timestamp} {d : Dirent} {r : InodeRow} {isOpen : Bool}

private theorem removal_moves (tick : Nat) (h : s.Core held busy) (hs' : db.Sound)
    (hd : d ∈ s.db.dirents) (hr : s.db.findInode d.childIno = some r)
    (hempty : r.kind = .directory → ∀ e ∈ s.db.dirents, e.parentIno ≠ r.ino)
    (hclear : r.kind = .directory → s.table.file d.childIno = none)
    (hopen : r.kind ≠ .directory → isOpen = s.table.isOpen d.childIno)
    (hsame : Db.SameData (s.db.dropEntry d r isOpen now) db)
    (hchildren : ∀ e' ∈ db.dirents, ∃ e ∈ (s.db.dropEntry d r isOpen now).dirents,
      e.childIno = e'.childIno) :
    Moves held s { s with
      tick := tick, db := db, table := s.table.entryRemoved r.inode } ∧
      ∀ i, (db.kindOf i).isSome → (s.db.kindOf i).isSome := by
  obtain ⟨hrelinked, hother, hgone, hstays⟩ :=
    Db.relinked_dropEntry h.sound hs' hd hr hempty hsame hchildren
  obtain ⟨hwf, hclosing, hhandles, hfiles⟩ := h.table.entryRemoved r.inode
  have hino : r.inode.ino = d.childIno := Db.findInode_ino hr
  have hkind : s.db.kindOf d.childIno = some r.kind := Db.kindOf_of_find hr
  refine ⟨⟨hrelinked, hwf, fun i => ?_, rfl, hhandles, hclosing,
    OpenTable.maxSlots_entryRemoved⟩, fun i hi => ?_⟩
  · have hfile : (s.table.entryRemoved r.inode).file i = _ := hfiles i
    rw [hino] at hfile
    by_cases hi : i = d.childIno
    · subst hi
      rw [if_pos rfl] at hfile
      rcases ho : s.table.file d.childIno with _ | o
      · rw [ho, Option.bind_none] at hfile
        exact .inl ⟨hfile.trans ho.symm, fun o ho' => nomatch ho.symm.trans ho'⟩
      · have hfileKind : r.kind ≠ .directory := fun hdir => nomatch (hclear hdir).symm.trans ho
        have hflag := hopen hfileKind
        rw [ho, Option.bind_some] at hfile
        by_cases hmore : 1 < r.nlink
        · replace hfile := hfile.trans (if_pos (Or.inr hmore))
          have hlast : ¬Db.LastName r isOpen := fun hlast =>
            Nat.not_le.mpr hmore (hlast.resolve_left hfileKind).1
          refine .inl ⟨hfile.trans ho.symm, fun _ _ => ?_⟩
          change (db.kindOf d.childIno).isSome
          rw [(hstays hlast).1, hkind]
          rfl
        · have hone := Nat.le_of_not_lt hmore
          have hnot : ¬(r.inode.kind = .directory ∨ r.inode.nlink > 1) :=
            not_or.mpr ⟨hfileKind, hmore⟩
          by_cases hrefs : 0 < o.refs
          · replace hfile := hfile.trans ((if_neg hnot).trans (if_pos hrefs))
            have hlast : ¬Db.LastName r isOpen := fun hlast => by
              have hclosed := (hlast.resolve_left hfileKind).2
              rw [hflag, OpenTable.isOpen_iff.mpr ⟨o, ho, hrefs⟩] at hclosed
              cases hclosed
            refine .inr (.inl ⟨o, ho, hfile, hrefs, ?_, (hstays hlast).2 hone⟩)
            change (db.kindOf d.childIno).isSome
            rw [(hstays hlast).1, hkind]
            rfl
          · replace hfile := hfile.trans ((if_neg hnot).trans (if_neg hrefs))
            refine .inr (.inr ⟨hfile, hgone (.inr ⟨hone, ?_⟩)⟩)
            rw [hflag, Bool.eq_false_iff]
            intro hpos
            obtain ⟨p, hp, hp'⟩ := OpenTable.isOpen_iff.mp hpos
            exact hrefs (Option.some.inj (ho.symm.trans hp) ▸ hp')
    · rw [if_neg hi] at hfile
      refine .inl ⟨hfile, fun o ho => ?_⟩
      change (db.kindOf i).isSome
      rw [hother i hi, h.kindOf ho]
      rfl
  · by_cases hc : i = d.childIno
    · rw [hc, hkind]
      rfl
    · exact hother i hc ▸ hi

/-- An entry goes: what is still held keeps its content, and no handle changes. -/
def Removed (s s' : Shared) : Prop :=
  Kept s s' ∧ ∀ fh, s'.table.handleIno fh = s.table.handleIno fh

private theorem Removed.of_idle (hdb : s'.db = s.db) (htable : s'.table = s.table) : Removed s s' :=
  ⟨.of_quiet (Frame.of_eq hdb htable), fun fh => by rw [htable]⟩

theorem unlinkLocked_spec {inode target : Inode} (hlookup : s.db.lookup parent name = .ok target)
    (hsame : inode.SameTarget target) (h : s.Inv held busy) :
    Prog.wp (unlinkLocked env parent name inode) (fun r s' => s'.Inv held busy ∧ Removed s s' ∧
      match r with
      | .ok _ => s'.failures = s.failures ∧ s'.table = s.table.entryRemoved target ∧
          ∃ now, s.db.unlinkEntry parent name target (s.table.isOpen target.ino) now = .ok s'.db
      | .error e => s'.db = s.db ∧ s'.table = s.table ∧ (env.Failed s s' ∨
          s'.failures = s.failures ∧ target.kind = .directory ∧ e = .EISDIR)) s := by
  rw [unlinkLocked, wp_table_bind, wp_now_bind, Prog.wp_bind_iff]
  simp only [Db.unlinkEntry_congr hsame, hsame.1]
  refine wp_exec (fun failure hfault => ?_) (fun error herror => ?_) fun db hdb => ?_
  · exact ⟨h.of_eq rfl rfl rfl, .of_idle rfl rfl, rfl, rfl,
      .inl ⟨Nat.lt_succ_self _, env.not_healthy hfault⟩⟩
  · refine ⟨h.of_eq rfl rfl rfl, .of_idle rfl rfl, rfl, rfl, .inr ⟨rfl, ?_⟩⟩
    unfold Db.unlinkEntry at herror
    split at herror
    · next hdir =>
      obtain rfl := Except.error.inj herror
      exact ⟨hdir, rfl⟩
    · cases herror
  · obtain ⟨d, r, hd, -, -, hr, rfl, hfile, heq⟩ := Db.unlinkEntry_eq hlookup hdb
    obtain ⟨hm, hkind⟩ := removal_moves (s.tick + 1 + 1) h.toCore
      (h.sound.unlinkEntry hlookup hdb) hd hr (fun hdir => (hfile hdir).elim)
      (fun hdir => (hfile hdir).elim)
      (fun _ => congrArg s.table.isOpen (Db.findInode_ino hr))
      (heq ▸ Db.sameData_touchDir) fun e he => by
        rw [heq] at he
        exact ⟨e, he, rfl⟩
    rw [wp_updateTable]
    dsimp only
    rw [OpenTable.entryRemoved_congr hsame]
    exact ⟨hm.inv h hkind, ⟨hm.kept h.toCore, hm.handles⟩, rfl, rfl, _, hdb⟩

theorem unlink_spec (h : s.Inv held busy) :
    Prog.wp (unlink env parent name) (fun r s' => s'.Inv held busy ∧ Removed s s' ∧
      match r with
      | .ok _ => s'.failures = s.failures ∧ ∃ target now, s.db.lookup parent name = .ok target ∧
          s'.table = s.table.entryRemoved target ∧
          s.db.unlinkEntry parent name target (s.table.isOpen target.ino) now = .ok s'.db
      | .error e => s'.db = s.db ∧ s'.table = s.table ∧ (env.Failed s s' ∨
          s'.failures = s.failures ∧ ((∃ error, s.db.lookup parent name = .error error ∧
              e = errnoFromDbError error) ∨
            ∃ target, s.db.lookup parent name = .ok target ∧ target.kind = .directory ∧
              e = .EISDIR))) s := by
  rw [unlink, Prog.wp_bind_iff]
  refine wp_query (fun failure hfault => ?_) (fun error herror => ?_) fun target hlookup => ?_
  · exact ⟨h.of_eq rfl rfl rfl, .of_idle rfl rfl, rfl, rfl,
      .inl ⟨Nat.lt_succ_self _, env.not_healthy hfault⟩⟩
  · exact ⟨h.of_eq rfl rfl rfl, .of_idle rfl rfl, rfl, rfl, .inr ⟨rfl, .inl ⟨_, herror, rfl⟩⟩⟩
  · have hinv : Shared.Inv held busy { s with tick := s.tick + 1 } := h.of_eq rfl rfl rfl
    have hquiet : Quiet s { s with tick := s.tick + 1 } := Frame.of_eq rfl rfl
    refine Prog.wp_mono (unlinkLocked_spec hlookup ⟨rfl, rfl, rfl⟩ hinv) ?_
    rintro r s' ⟨hinv', hremoved, hresult⟩
    refine ⟨hinv', ⟨hremoved.1.after hquiet, hremoved.2⟩, ?_⟩
    rcases r with e | ⟨⟩
    · obtain ⟨hdb, htable, hfailed | ⟨hfailures, hdir, rfl⟩⟩ := hresult
      · exact ⟨hdb, htable, .inl hfailed⟩
      · exact ⟨hdb, htable, .inr ⟨hfailures, .inr ⟨target, hlookup, hdir, rfl⟩⟩⟩
    · obtain ⟨hfailures, htable, now, hdb⟩ := hresult
      exact ⟨hfailures, target, now, hlookup, htable, hdb⟩

def RmdirClear (s : Shared) (parent : Nat) (name : Name) : Prop :=
  ∀ now db, s.db.removeDir parent name now = .ok db →
    ∀ target, s.db.lookup parent name = .ok target → s.table.file target.ino = none

theorem rmdir_spec (hclear : RmdirClear s parent name) (h : s.Inv held busy) :
    Prog.wp (rmdir env parent name) (fun r s' => s'.Inv held busy ∧ Removed s s' ∧
      s'.table = s.table ∧
      match r with
      | .ok _ => s'.failures = s.failures ∧ ∃ now, s.db.removeDir parent name now = .ok s'.db
      | .error e => s'.db = s.db ∧ (env.Failed s s' ∨ s'.failures = s.failures ∧ ∃ now error,
          s.db.removeDir parent name now = .error error ∧ e = errnoFromDbError error)) s := by
  rw [rmdir, wp_now_bind]
  refine wp_exec (fun failure hfault => ?_) (fun error herror => ?_) fun db hdb => ?_
  · exact ⟨h.of_eq rfl rfl rfl, .of_idle rfl rfl, rfl, rfl,
      .inl ⟨Nat.lt_succ_self _, env.not_healthy hfault⟩⟩
  · exact ⟨h.of_eq rfl rfl rfl, .of_idle rfl rfl, rfl, rfl, .inr ⟨rfl, _, _, herror, rfl⟩⟩
  · obtain ⟨target, hlookup, -⟩ := except_bind_eq_ok.mp hdb
    have hclosed := hclear _ _ hdb target hlookup
    obtain ⟨d, r, hd, hp, hn, hr, hdir, hempty, heq⟩ := Db.removeDir_eq hdb
    obtain ⟨-, d', r', hd', hp', hn', hr', rfl⟩ := Db.lookup_cases hlookup
    -- the entry that was looked up is the one that goes
    obtain rfl : d' = d := List.inj_on_of_nodup_map h.sound.tree.distinct hd' hd (by
      rw [hp, hn, hp', hn'])
    obtain rfl : r' = r := Option.some.inj (hr'.symm.trans hr)
    rw [show r'.inode.ino = d'.childIno from Db.findInode_ino hr] at hclosed
    obtain ⟨hm, hkind⟩ := removal_moves (s.tick + 1 + 1) h.toCore
      (h.sound.removeDir hdb) hd hr (fun _ => hempty) (fun _ => hclosed)
      (fun hfile => (hfile hdir).elim)
      (heq ▸ Db.sameData_touchDir.trans (Db.sameData_addDirectoryNlink _))
      fun e he => by
        rw [heq] at he
        exact ⟨e, he, rfl⟩
    have hstays : s.table.entryRemoved r'.inode = s.table := if_pos (.inl hdir)
    rw [hstays] at hm
    exact ⟨hm.inv h hkind, ⟨hm.kept h.toCore, hm.handles⟩, rfl, rfl, _, hdb⟩

end Remove

section Rename

variable {flags : UInt32}

def RenameClear (s : Shared) (parent : Nat) (name : Name) (newParent : Nat) (newName : Name)
    (flags : UInt32) : Prop :=
  flags &&& ~~~renameNoreplace = 0 → ∀ isOpen now target db,
    s.db.renameEntry parent name newParent newName (flags &&& renameNoreplace ≠ 0) isOpen now =
      .ok (some target, db) → target.kind = .directory → s.table.file target.ino = none

theorem rename_spec (hclear : RenameClear s parent name newParent newName flags)
    (h : s.Inv held busy) :
    Prog.wp (rename env parent name newParent newName flags) (fun r s' => s'.Inv held busy ∧
      Removed s s' ∧
      match r with
      | .ok _ => s'.failures = s.failures ∧ ∃ replaced now,
          s'.table = replaced.elim s.table s.table.entryRemoved ∧
          s.db.renameEntry parent name newParent newName (flags &&& renameNoreplace ≠ 0)
            s.table.isOpen now = .ok (replaced, s'.db)
      | .error e => s'.db = s.db ∧ s'.table = s.table ∧ (env.Failed s s' ∨
          s'.failures = s.failures ∧ ((flags &&& ~~~renameNoreplace ≠ 0 ∧ e = .EINVAL) ∨
            ∃ now error, s.db.renameEntry parent name newParent newName
              (flags &&& renameNoreplace ≠ 0) s.table.isOpen now = .error error ∧
                e = errnoFromDbError error))) s := by
  unfold rename
  split
  · next hbad => exact ⟨h, .of_idle rfl rfl, rfl, rfl, .inr ⟨rfl, .inl ⟨hbad, rfl⟩⟩⟩
  next hflags =>
  rw [not_not] at hflags
  rw [wp_table_bind, wp_now_bind, Prog.wp_bind_iff]
  refine wp_access (fun failure hfault => ?_) (fun error herror => ?_) fun replaced db hdb => ?_
  · exact ⟨h.of_eq rfl rfl rfl, .of_idle rfl rfl, rfl, rfl,
      .inl ⟨Nat.lt_succ_self _, env.not_healthy hfault⟩⟩
  · exact ⟨h.of_eq rfl rfl rfl, .of_idle rfl rfl, rfl, rfl, .inr ⟨rfl, .inr ⟨_, _, herror, rfl⟩⟩⟩
  · have hs' := h.sound.renameEntry hdb
    obtain ⟨d, r, hd, -, -, hr, -, -, hcase⟩ := Db.renameEntry_eq h.sound.tree hdb
    rcases hcase with ⟨-, -, rfl, heq⟩ | ⟨rfl, -, heq⟩ | ⟨f, q, hf, -, -, -, hq, rfl,
      -, hempty, heq⟩
    · obtain rfl : db = s.db := heq
      exact ⟨h.of_eq rfl rfl rfl, .of_idle rfl rfl, rfl, none, _, rfl, hdb⟩
    · have hrelinked : s.db.Relinked db := by
        rw [heq] at hs' ⊢
        exact Db.relinked_moveEntry h.sound _ _ hs'
      have hkind : ∀ i, db.kindOf i = s.db.kindOf i := fun i => by
        rw [heq]
        exact Db.kindOf_moveEntry _ _ _ i
      have hm : Moves held s { s with tick := s.tick + 1 + 1, db := db } :=
        .of_table h.toCore hrelinked rfl rfl fun i _ _ => hkind i
      exact ⟨hm.inv h fun i hi => hkind i ▸ hi, ⟨hm.kept h.toCore, hm.handles⟩, rfl, none, _, rfl,
        hdb⟩
    · have hino : q.ino = f.childIno := Db.findInode_ino hq
      obtain ⟨hm, hkind⟩ := removal_moves (s.tick + 1 + 1) h.toCore hs' hf hq hempty
        (fun hdir => hino ▸ hclear hflags _ _ _ _ hdb hdir)
        (fun _ => congrArg s.table.isOpen hino)
        (heq ▸ Db.sameData_moveEntry _ _) fun e he => by
          rw [heq] at he
          exact Db.children_moveEntry _ _ e he
      exact ⟨hm.inv h hkind, ⟨hm.kept h.toCore, hm.handles⟩, rfl, _, _, rfl, hdb⟩

end Rename

section CreateOpen

variable {mode umask uid gid : UInt32} {attr : FileAttr}

theorem createOpenLocked_spec (h : s.Inv held busy) (hnone : s.table.file attr.ino = none)
    (hkind : s.db.kindOf attr.ino = some .regularFile) (hsize : s.db.storedSize attr.ino = 0) :
    Prog.wp (createOpenLocked attr) (fun r s' => ∃ fh, r = .ok (attr, fh) ∧ s'.Inv held busy ∧
      s'.db = s.db ∧ s'.failures = s.failures ∧ Kept s s' ∧ Opened attr.ino fh s s') s := by
  have hf := OpenTable.file_eq_none.mp hnone
  rcases hi : s.table.inodes.insert attr.ino .regularFile 0 with ⟨slot, inodes⟩
  obtain ⟨hinv, hquiet, hf'⟩ := insert_core h hf hkind hsize.symm hi
  rw [createOpenLocked, wp_table_bind, hi]
  dsimp only
  rw [wp_updateTable_bind, Prog.wp_bind_iff]
  have hinv' : Shared.Inv held busy { s with table := { s.table with inodes := inodes } } :=
    hinv.mono fun i o ho hd hb => by
      rcases hb with hb | rfl
      · exact .inr hb
      · have hregular := (hinv.kindOf ho).symm.trans hkind
        rw [hd] at hregular
        cases hregular
  refine Prog.wp_mono (openSlot_spec hinv' hf') ?_
  rintro r s' ⟨fh, rfl, hinv'', hdb, hfailures, hkept, hopened⟩
  exact ⟨fh, rfl, hinv'', hdb, hfailures, hkept.after hquiet, hopened.after hquiet⟩

private theorem refs_of_opened {s₁ : Shared} {fh : Nat} (h : s'.Inv held busy)
    (ho : Opened ino fh s₁ s') :
    0 < (s'.file ino).refs := by
  have hfh : s'.table.handleIno fh = some ino := (ho.handles fh).trans (if_pos rfl)
  obtain ⟨slot, hget, rfl⟩ := Option.map_eq_some_iff.mp hfh
  have hf := h.table.find_of_handle hget
  rw [Shared.file, OpenTable.file_of_find hf]
  exact h.table.refs_pos hget

theorem bytes_of_created {node : NewNode} {uid gid : UInt32} (h : s.Inv held busy)
    (htable : s'.table = s.table) (hfile : node.size = 0)
    (hcreated : Created s s' parent name node uid gid attr) : (s'.file attr.ino).bytes = [] := by
  obtain ⟨inode, now, hdb, rfl⟩ := hcreated
  obtain ⟨-, hino, -, -, -, hsize⟩ := Db.relinked_createNode h.sound hdb
  have hzero : (s'.file s.db.nextIno).size = 0 := by
    rw [Shared.file, htable, Core.nextIno_closed h.toCore]
    exact hsize.trans hfile
  refine List.length_eq_zero_iff.mp (File.length_bytes.trans ?_)
  rw [show (fileAttrFromInode inode).ino = s.db.nextIno from hino]
  exact hzero

theorem createOpen_spec (h : s.Inv held busy) :
    Prog.wp (createOpen env parent name mode umask uid gid) (fun r s' => s'.Inv held busy ∧
      match r with
      | .ok (attr, fh) => s'.failures = s.failures ∧ Kept s s' ∧ Opened attr.ino fh s s' ∧
          (s'.file attr.ino).bytes = [] ∧
          Created s s' parent name (.file (mode &&& ~~~umask)) uid gid attr
      | .error e => s'.db = s.db ∧ s'.table = s.table ∧ (env.Failed s s' ∨
          s'.failures = s.failures ∧ ∃ now error,
            s.db.createNode parent name (.file (mode &&& ~~~umask)) uid gid now = .error error ∧
              e = errnoFromDbError error)) s := by
  rw [createOpen, create, Prog.wp_bind_iff]
  refine Prog.wp_mono (createNode_spec h) ?_
  rintro r s₁ ⟨hinv, htable, hkept, hresult⟩
  rcases r with e | attr
  · exact ⟨hinv, hresult.1, htable, hresult.2⟩
  · have hempty : (s₁.file attr.ino).bytes = [] := bytes_of_created h htable rfl hresult.2
    obtain ⟨hfailures, inode, now, hdb, rfl⟩ := hresult
    obtain ⟨-, hino, -, -, hkinds, hsize⟩ := Db.relinked_createNode h.sound hdb
    have hino' : (fileAttrFromInode inode).ino = s.db.nextIno := hino
    have hnone : s₁.table.file (fileAttrFromInode inode).ino = none := by
      rw [htable, hino', Core.nextIno_closed h.toCore]
    refine Prog.wp_mono (createOpenLocked_spec hinv hnone ?_ ?_) ?_
    · rw [hino', hkinds, if_pos rfl]
      rfl
    · rw [hino', hsize]
      rfl
    · rintro r s' ⟨fh, rfl, hinv', hdb', hfailures', hkept', hopened⟩
      have hnew : ∀ j, (s.db.kindOf j).isSome → j ≠ s.db.nextIno := by
        rintro j hsome rfl
        rw [Db.nextIno_new] at hsome
        cases hsome
      refine ⟨hinv', hfailures'.trans hfailures, hkept.trans hkept' (fun j hsome => ?_)
        fun j hsome hheld => hheld.imp (fun hn => hdb' ▸ hn) fun hr => ?_,
        ⟨?_, fun k => ?_, fun j hj => ?_, fun j => ?_⟩, ?_, inode, now, hdb'.symm ▸ hdb, rfl⟩
      · rw [hkinds, if_neg (hnew j hsome)]
        exact hsome
      · rwa [← hopened.refs j (hino' ▸ hnew j hsome)]
      · rw [← htable]
        exact hopened.new
      · rw [hopened.handles, htable]
      · rw [hopened.refs j hj, Shared.file, Shared.file, htable]
        rfl
      · rw [hopened.unlinked, Shared.file, Shared.file, htable]
        rfl
      · refine (hkept'.bytes _ ?_ (.inr (refs_of_opened hinv' hopened))).trans hempty
        rw [hino', hkinds, if_pos rfl]
        rfl

end CreateOpen

end Fs

end VibeDbfs
