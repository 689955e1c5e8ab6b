import VibeDbfs.Storage.RowLaws

/-!
What a successful method of the namespace found and what it left, and the step of the directory
structure that this is.
-/

set_option autoImplicit false
set_option relaxedAutoImplicit false

namespace VibeDbfs

open Lib
open Relation (ReflTransGen)

namespace NewNode

def targets (ino : Nat) : NewNode → List SymlinkRow
  | .directory _ => []
  | .file _ => []
  | .symlink target => [⟨ino, target⟩]

def row (node : NewNode) (ino : Nat) (uid gid : UInt32) (now : Timestamp) : InodeRow where
  ino := ino
  kind := node.kind
  mode := node.mode
  uid := uid
  gid := gid
  size := node.size
  atimeNs := now.toNs
  mtimeNs := now.toNs
  ctimeNs := now.toNs
  nlink := node.nlink

/-- The record that `create_node` returns. -/
def inode (node : NewNode) (ino : Nat) (uid gid : UInt32) (now : Timestamp) : Inode where
  ino := ino
  kind := node.kind
  mode := node.mode
  uid := uid
  gid := gid
  size := node.size
  atime := now
  mtime := now
  ctime := now
  nlink := node.nlink

end NewNode

namespace Db

variable {db db' : Db} {ino parent newParent : Nat} {name newName : Name} {now : Timestamp}

def addEntry (db : Db) (parent : Nat) (name : Name) (child : Nat) : Db :=
  { db with
    dirents := db.dirents ++ [⟨nextRowid (db.dirents.map Dirent.id), parent, name, child⟩] }

def nextIno (db : Db) : Nat := nextRowid (db.inodes.map InodeRow.ino)

def addNode (db : Db) (parent : Nat) (name : Name) (node : NewNode) (uid gid : UInt32)
    (now : Timestamp) : Db where
  inodes := db.inodes ++ [node.row db.nextIno uid gid now]
  dirents := (db.addEntry parent name db.nextIno).dirents
  fileChunks := db.fileChunks
  symlinkTargets := db.symlinkTargets ++ node.targets db.nextIno

theorem free_of_any_false (h : ¬(db.dirents.any fun d => d.parentIno = parent ∧ d.name = name) =
    true) :
    Names.Free db.dirents parent name := by
  intro d hd he
  simp only [Prod.mk.injEq] at he
  exact h (List.any_eq_true.mpr ⟨d, hd, by simpa using he⟩)

private theorem insertDirent_cases (h : db.insertDirent parent name ino = .ok db') :
    Names.Free db.dirents parent name ∧ (db.kindOf ino).isSome ∧
      db' = db.addEntry parent name ino := by
  unfold insertDirent at h
  split at h
  · cases h
  · next hfree =>
    split at h
    · cases h
    · next hsome =>
      rw [Bool.or_eq_true, not_or, Option.isNone_iff_eq_none, Option.isNone_iff_eq_none,
        ← ne_eq, ← ne_eq, Option.ne_none_iff_isSome, Option.ne_none_iff_isSome,
        findInode_isSome, findInode_isSome] at hsome
      exact ⟨free_of_any_false hfree, hsome.2, (Except.ok.inj h).symm⟩

theorem inodeFromRow_ok {r : InodeRow} {inode : Inode} (h : inodeFromRow r = .ok inode) :
    r.inode = inode := by
  unfold inodeFromRow at h
  split at h
  · cases h
  · exact Except.ok.inj h

theorem kindOf_of_read {k : FileKind} (h : db.inodeKindOf ino = .ok k) :
    db.kindOf ino = some k := by
  unfold inodeKindOf InodeRow.readKind at h
  split at h
  · next r hr =>
    split at h
    · cases h
    · exact (kindOf_of_find hr).trans (congrArg some (Except.ok.inj h))
  · cases h

theorem find_of_getInode {inode : Inode} (h : db.getInode ino = .ok inode) :
    ∃ r, db.findInode ino = some r ∧ r.inode = inode := by
  unfold getInode at h
  split at h
  · next r hr => exact ⟨r, hr, inodeFromRow_ok h⟩
  · cases h

theorem head_of_read {kind : FileKind} {size : Nat} (h : db.inodeHead ino = .ok (kind, size)) :
    ∃ r, db.findInode ino = some r ∧ r.kind = kind ∧ r.size = size := by
  unfold inodeHead InodeRow.readKind at h
  split at h
  · next r hr =>
    split at h
    · cases h
    · cases h
      exact ⟨r, hr, rfl, rfl⟩
  · cases h

/-- The entries of directory `ino`, by name. -/
def entriesOf (db : Db) (ino : Nat) : List DirEntry :=
  ((db.dirents.filter fun d => d.parentIno = ino).filterMap fun d =>
    (db.findInode d.childIno).map fun r => (⟨d.name, r.ino, r.kind⟩ : DirEntry)).insertionSort
      fun a b => a.name ≤ b.name

private theorem map_found (ds : List Dirent) :
    (ds.filterMap fun d => (db.findInode d.childIno).map fun r => (d.name, r)).map
        (fun entry => (⟨entry.1, entry.2.ino, entry.2.kind⟩ : DirEntry)) =
      ds.filterMap fun d => (db.findInode d.childIno).map fun r => ⟨d.name, r.ino, r.kind⟩ := by
  rw [List.map_filterMap]
  refine List.filterMap_congr fun d _ => ?_
  rw [Option.map_map]
  rfl

private theorem listDir_cases {entries : List DirEntry} (h : db.listDir ino = .ok entries) :
    db.kindOf ino = some .directory ∧ entries = db.entriesOf ino := by
  obtain ⟨k, hk, h⟩ := except_bind_eq_ok.mp h
  split at h
  · cases h
  · next hdir =>
    rw [not_not] at hdir
    refine ⟨hdir ▸ kindOf_of_read hk, ?_⟩
    dsimp only at h
    split at h
    · cases h
    · rw [map_found] at h
      exact (Except.ok.inj h).symm

section Reads

variable {r : InodeRow}

theorem Keys.readKind (hk : db.Keys) (h : db.findInode ino = some r) : r.readKind = .ok r.kind := by
  rw [InodeRow.readKind, hk.undamaged h]
  rfl

theorem Keys.inodeFromRow (hk : db.Keys) (h : db.findInode ino = some r) :
    inodeFromRow r = .ok r.inode := by
  rw [VibeDbfs.inodeFromRow, hk.undamaged h]
  rfl

theorem Keys.getInode (hk : db.Keys) (h : db.findInode ino = some r) :
    db.getInode ino = .ok r.inode := by
  rw [Db.getInode, h]
  exact hk.inodeFromRow h

theorem Keys.inodeHead (hk : db.Keys) (h : db.findInode ino = some r) :
    db.inodeHead ino = .ok (r.kind, r.size) := by
  rw [Db.inodeHead, h]
  dsimp only
  rw [hk.readKind h]
  rfl

theorem Keys.inodeHead_of_kind (hk : db.Keys) {k : FileKind} (h : db.kindOf ino = some k) :
    db.inodeHead ino = .ok (k, db.storedSize ino) := by
  obtain ⟨r, hr, rfl⟩ := Option.map_eq_some_iff.mp h
  rw [hk.inodeHead hr, storedSize_of_find hr]

theorem Keys.inodeKindOf_eq_ok (hk : db.Keys) {k : FileKind} :
    db.inodeKindOf ino = .ok k ↔ db.kindOf ino = some k := by
  refine ⟨kindOf_of_read, fun h => ?_⟩
  obtain ⟨r, hr, rfl⟩ := Option.map_eq_some_iff.mp h
  rw [inodeKindOf, hr]
  exact hk.readKind hr

theorem Keys.listDir (hk : db.Keys) (hdir : db.kindOf ino = some .directory) :
    db.listDir ino = .ok (db.entriesOf ino) := by
  have hread : db.inodeKindOf ino = .ok .directory := hk.inodeKindOf_eq_ok.mpr hdir
  have hintact : ((db.dirents.filter fun d => d.parentIno = ino).filterMap fun d =>
      (db.findInode d.childIno).map fun r => (d.name, r)).any (fun entry => entry.2.damaged) =
        false := by
    rw [List.any_eq_false]
    intro entry hentry
    obtain ⟨d, -, hd⟩ := List.mem_filterMap.mp hentry
    obtain ⟨r, hr, rfl⟩ := Option.map_eq_some_iff.mp hd
    rw [hk.undamaged hr]
    exact Bool.false_ne_true
  refine except_bind_eq_ok.mpr ⟨_, hread, ?_⟩
  rw [if_neg fun hne => hne rfl]
  dsimp only
  rw [hintact, if_neg Bool.false_ne_true, map_found]
  rfl

theorem Keys.inodeKindOf_error (hk : db.Keys) {error : DbError}
    (h : db.inodeKindOf ino = .error error) : db.kindOf ino = none ∧ error = .notFound := by
  rcases hr : db.findInode ino with _ | r
  · rw [inodeKindOf, hr] at h
    exact ⟨by rw [kindOf, hr]; rfl, (Except.error.inj h).symm⟩
  · rw [hk.inodeKindOf_eq_ok.mpr (kindOf_of_find hr)] at h
    cases h

theorem Keys.getInode_error (hk : db.Keys) {error : DbError} (h : db.getInode ino = .error error) :
    db.kindOf ino = none ∧ error = .notFound := by
  rcases hr : db.findInode ino with _ | r
  · rw [Db.getInode, hr] at h
    exact ⟨by rw [kindOf, hr]; rfl, (Except.error.inj h).symm⟩
  · rw [hk.getInode hr] at h
    cases h

theorem Keys.inodeHead_error (hk : db.Keys) {error : DbError}
    (h : db.inodeHead ino = .error error) :
    db.kindOf ino = none ∧ error = .notFound := by
  rcases hr : db.findInode ino with _ | r
  · rw [Db.inodeHead, hr] at h
    exact ⟨by rw [kindOf, hr]; rfl, (Except.error.inj h).symm⟩
  · rw [hk.inodeHead hr] at h
    cases h

theorem getInode_none (h : db.findInode ino = none) : db.getInode ino = .error .notFound := by
  rw [Db.getInode, h]

theorem inodeHead_none (h : db.findInode ino = none) : db.inodeHead ino = .error .notFound := by
  rw [Db.inodeHead, h]

end Reads

theorem checkName_eq_ok {u : Unit} : checkName name = .ok u ↔ name.length ≤ nameMax := by
  unfold checkName
  split
  · next h => exact ⟨nofun, fun hle => by omega⟩
  · next h => exact ⟨fun _ => by omega, fun _ => rfl⟩

theorem findEntry_mem {d : Dirent} (h : db.findEntry parent name = some d) :
    d ∈ db.dirents ∧ d.parentIno = parent ∧ d.name = name :=
  ⟨List.mem_of_find?_eq_some h, by simpa using List.find?_some h⟩

theorem findEntry_eq_none (h : db.findEntry parent name = none) :
    Names.Free db.dirents parent name := by
  intro d hd he
  simp only [Prod.mk.injEq] at he
  simpa [he] using List.find?_eq_none.mp h d hd

theorem lookup_cases {inode : Inode} (h : db.lookup parent name = .ok inode) :
    name.length ≤ nameMax ∧ ∃ d r, d ∈ db.dirents ∧ d.parentIno = parent ∧ d.name = name ∧
      db.findInode d.childIno = some r ∧ inode = r.inode := by
  obtain ⟨_, hname, h⟩ := except_bind_eq_ok.mp h
  refine ⟨checkName_eq_ok.mp hname, ?_⟩
  rcases hfind : db.findEntry parent name with _ | d
  · simp [hfind] at h
  · rcases hchild : db.findInode d.childIno with _ | r
    · simp [hfind, hchild] at h
    · obtain ⟨hd, hp, hn⟩ := findEntry_mem hfind
      simp only [hfind, Option.bind_some, hchild] at h
      exact ⟨d, r, hd, hp, hn, hchild, (inodeFromRow_ok h).symm⟩

private theorem lookup_notFound (ht : db.names.Tree)
    (h : db.lookup parent name = .error .notFound) :
    Names.Free db.dirents parent name := by
  by_cases hname : name.length ≤ nameMax
  · have hok : checkName name = .ok () := checkName_eq_ok.mpr hname
    rcases hfind : db.findEntry parent name with _ | d
    · exact findEntry_eq_none hfind
    · have hsome := ht.child d (findEntry_mem hfind).1
      change (db.kindOf d.childIno).isSome at hsome
      rw [← findInode_isSome, Option.isSome_iff_exists] at hsome
      obtain ⟨r, hr⟩ := hsome
      unfold lookup at h
      simp only [hok, hfind, Option.bind_some, hr, bind, Except.bind] at h
      unfold inodeFromRow at h
      split at h <;> cases h
  · have herr : checkName name = .error .nameTooLong := by
      unfold checkName
      rw [if_pos (by omega)]
    simp [lookup, herr, bind, Except.bind] at h

theorem createNode_cases {node : NewNode} {uid gid : UInt32} {inode : Inode}
    (h : db.createNode parent name node uid gid now = .ok (inode, db')) :
    name.length ≤ nameMax ∧ db.kindOf parent = some .directory ∧ db.nextIno ≤ maxIno ∧
      Names.Free db.dirents parent name ∧ inode = node.inode db.nextIno uid gid now ∧
      db' = if node.kind = .directory then
          ((db.addNode parent name node uid gid now).touchDir parent now).addDirectoryNlink parent 1
        else (db.addNode parent name node uid gid now).touchDir parent now := by
  obtain ⟨_, hname, h⟩ := except_bind_eq_ok.mp h
  obtain ⟨k, hk, h⟩ := except_bind_eq_ok.mp h
  split at h
  · cases h
  · next hdir =>
    rw [not_not] at hdir
    subst hdir
    dsimp only at h
    split at h
    · cases h
    · next hmax =>
      obtain ⟨db₁, hentry, h⟩ := except_bind_eq_ok.mp h
      obtain ⟨hfree, -, rfl⟩ := insertDirent_cases hentry
      have hfinal : inode = node.inode db.nextIno uid gid now ∧
          db' = if node.kind = .directory then
            ((db.addNode parent name node uid gid now).touchDir parent now).addDirectoryNlink
              parent 1
          else (db.addNode parent name node uid gid now).touchDir parent now := by
        cases node with
        | directory mode =>
          obtain ⟨_, ⟨⟩, h⟩ := except_bind_eq_ok.mp h
          rw [addNode, NewNode.targets, List.append_nil]
          cases h
          exact ⟨rfl, rfl⟩
        | file mode =>
          obtain ⟨_, ⟨⟩, h⟩ := except_bind_eq_ok.mp h
          rw [addNode, NewNode.targets, List.append_nil]
          cases h
          exact ⟨rfl, rfl⟩
        | symlink target =>
          obtain ⟨db₂, hlink, h⟩ := except_bind_eq_ok.mp h
          unfold insertSymlink at hlink
          split at hlink
          · cases hlink
          · cases hlink
            cases h
            exact ⟨rfl, rfl⟩
      exact ⟨checkName_eq_ok.mp hname, kindOf_of_read hk, Nat.le_of_not_lt hmax, hfree,
        hfinal.1, hfinal.2⟩

theorem link_cases {inode : Inode} (h : db.link ino newParent newName now = .ok (inode, db')) :
    newName.length ≤ nameMax ∧ ∃ r, db.findInode ino = some r ∧ r.kind ≠ .directory ∧
      db.kindOf newParent = some .directory ∧ Names.Free db.dirents newParent newName ∧
      inode = { r.inode with nlink := r.nlink + 1, ctime := now } ∧
      db' = ((db.addEntry newParent newName ino).setNlink ino (r.nlink + 1) now).touchDir
        newParent now := by
  obtain ⟨_, hname, h⟩ := except_bind_eq_ok.mp h
  obtain ⟨inode₀, hget, h⟩ := except_bind_eq_ok.mp h
  obtain ⟨r, hr, rfl⟩ := find_of_getInode hget
  split at h
  · cases h
  · next hfile =>
    obtain ⟨k, hk, h⟩ := except_bind_eq_ok.mp h
    split at h
    · cases h
    · next hdir =>
      rw [not_not] at hdir
      subst hdir
      obtain ⟨db₁, hentry, h⟩ := except_bind_eq_ok.mp h
      obtain ⟨hfree, -, rfl⟩ := insertDirent_cases hentry
      simp only [Except.ok.injEq, Prod.mk.injEq] at h
      exact ⟨checkName_eq_ok.mp hname, r, hr, hfile, kindOf_of_read hk, hfree, h.1.symm,
        h.2.symm⟩

theorem unlinkEntry_cases {target : Inode} {isOpen : Bool}
    (h : db.unlinkEntry parent name target isOpen now = .ok db') :
    target.kind ≠ .directory ∧
      db' = ((db.deleteDirent parent name).dropUnlinkedInode target now isOpen).touchDir
        parent now := by
  unfold unlinkEntry at h
  split at h
  · cases h
  · next hk => exact ⟨hk, (Except.ok.inj h).symm⟩

theorem removeDir_cases (h : db.removeDir parent name now = .ok db') :
    ∃ d r, d ∈ db.dirents ∧ d.parentIno = parent ∧ d.name = name ∧
      db.findInode d.childIno = some r ∧ r.kind = .directory ∧
      (∀ e ∈ db.dirents, e.parentIno ≠ r.ino) ∧
      db' = (((db.deleteDirent parent name).deleteInodeRows r.ino).touchDir parent
        now).addDirectoryNlink
        parent (-1) := by
  obtain ⟨target, hlookup, h⟩ := except_bind_eq_ok.mp h
  obtain ⟨-, d, r, hd, hp, hn, hr, rfl⟩ := lookup_cases hlookup
  split at h
  · cases h
  · next hdir =>
    rw [not_not] at hdir
    split at h
    · cases h
    · next hempty =>
      rw [not_not, List.countP_eq_zero] at hempty
      exact ⟨d, r, hd, hp, hn, hr, hdir, fun e he heq => hempty e he
        (decide_eq_true heq),
        (Except.ok.inj h).symm⟩

theorem renameEntry_ok {noreplace : Bool} {isOpen : Nat → Bool} {replaced : Option Inode}
    (h : db.renameEntry parent name newParent newName noreplace isOpen now = .ok (replaced, db')) :
    ∃ source, db.lookup parent name = .ok source ∧ db.kindOf newParent = some .directory ∧
      (source.kind = .directory → db.isDescendant newParent source.ino = some false) ∧
      ((parent = newParent ∧ name = newName) ∧ replaced = none ∧ db' = db ∨
        ¬(parent = newParent ∧ name = newName) ∧ (noreplace = true → replaced = none) ∧
        db.existingTarget newParent newName = .ok replaced ∧
        (∀ target, replaced = some target → db.renameTargetError source target = .ok ()) ∧
        db' = db.renameTx parent name newParent newName source replaced isOpen now) := by
  obtain ⟨_, -, h⟩ := except_bind_eq_ok.mp h
  obtain ⟨source, hsource, h⟩ := except_bind_eq_ok.mp h
  obtain ⟨k, hk, h⟩ := except_bind_eq_ok.mp h
  split at h
  · cases h
  · next hdir =>
    rw [not_not] at hdir
    subst hdir
    obtain ⟨below, hbelow, h⟩ := except_bind_eq_ok.mp h
    split at h
    · cases h
    · next hnot =>
      refine ⟨source, hsource, kindOf_of_read hk, fun hrdir => ?_, ?_⟩
      · unfold movesBelow at hbelow
        rw [if_pos hrdir] at hbelow
        split at hbelow
        · next b hb =>
          cases hbelow
          rw [Bool.not_eq_true] at hnot
          subst hnot
          exact hb
        · cases hbelow
      · split at h
        · next hsame =>
          cases h
          exact .inl ⟨hsame, rfl, rfl⟩
        · next hdiff =>
          obtain ⟨existing, hexisting, h⟩ := except_bind_eq_ok.mp h
          split at h
          · cases h
          · next hallowed =>
            obtain ⟨u, hcheck, h⟩ := except_bind_eq_ok.mp h
            cases h
            refine .inr ⟨hdiff, fun hno => ?_, hexisting, ?_, rfl⟩
            · rcases replaced with _ | target
              · rfl
              · exact (hallowed ⟨hno, rfl⟩).elim
            · rintro target rfl
              exact hcheck

theorem renameEntry_cases {noreplace : Bool} {isOpen : Nat → Bool} {replaced : Option Inode}
    (h : db.renameEntry parent name newParent newName noreplace isOpen now = .ok (replaced, db')) :
    ∃ d r, d ∈ db.dirents ∧ d.parentIno = parent ∧ d.name = name ∧
      db.findInode d.childIno = some r ∧ db.kindOf newParent = some .directory ∧
      (r.kind = .directory → db.isDescendant newParent r.ino = some false) ∧
      ((parent = newParent ∧ name = newName) ∧ replaced = none ∧ db' = db ∨
        ¬(parent = newParent ∧ name = newName) ∧
        db.existingTarget newParent newName = .ok replaced ∧
        (∀ target, replaced = some target →
          db.renameTargetError r.inode target = .ok ()) ∧
        db' = db.renameTx parent name newParent newName r.inode replaced isOpen now) := by
  obtain ⟨source, hsource, hparent, hbelow, hcase⟩ := renameEntry_ok h
  obtain ⟨-, d, r, hd, hp, hn, hr, rfl⟩ := lookup_cases hsource
  exact ⟨d, r, hd, hp, hn, hr, hparent, hbelow, hcase.imp_right fun ⟨hdiff, _, hrest⟩ =>
    ⟨hdiff, hrest⟩⟩

theorem existingTarget_none (ht : db.names.Tree)
    (h : db.existingTarget newParent newName = .ok none) :
    Names.Free db.dirents newParent newName := by
  unfold existingTarget at h
  split at h
  · cases h
  · next hlookup => exact lookup_notFound ht hlookup
  · cases h

theorem existingTarget_some {target : Inode}
    (h : db.existingTarget newParent newName = .ok (some target)) :
    db.lookup newParent newName = .ok target := by
  unfold existingTarget at h
  split at h
  · next hlookup =>
    cases h
    exact hlookup
  · cases h
  · cases h

theorem renameTargetError_ok (ht : db.names.Tree) {source target : Inode}
    (h : db.renameTargetError source target = .ok ()) :
    (target.kind = .directory ↔ source.kind = .directory) ∧
      (target.kind = .directory → ∀ e ∈ db.dirents, e.parentIno ≠ target.ino) := by
  unfold renameTargetError at h
  rcases hs : source.kind <;> rcases htk : target.kind <;> simp only [hs, htk] at h <;>
    try cases h
  all_goals simp only [reduceCtorEq, false_imp_iff, and_self, true_imp_iff, true_and]
  -- both are directories, and the listing of the target is empty
  obtain ⟨entries, hlist, h⟩ := except_bind_eq_ok.mp h
  split at h
  · cases h
  · next hempty =>
    rw [not_not] at hempty
    subst hempty
    obtain ⟨-, hnil⟩ := listDir_cases hlist
    intro e he heq
    have hsome := ht.child e he
    change (db.kindOf e.childIno).isSome at hsome
    rw [← findInode_isSome, Option.isSome_iff_exists] at hsome
    obtain ⟨r, hr⟩ := hsome
    have hmem : (⟨e.name, r.ino, r.kind⟩ : DirEntry) ∈
        ((db.dirents.filter fun d => d.parentIno = target.ino).filterMap fun d =>
          (db.findInode d.childIno).map fun r => (⟨d.name, r.ino, r.kind⟩ : DirEntry)) := by
      rw [List.mem_filterMap]
      exact ⟨e, by simpa using ⟨he, heq⟩, by simp [hr]⟩
    rw [← (List.perm_insertionSort (fun a b : DirEntry => a.name ≤ b.name) _).mem_iff] at hmem
    change _ ∈ db.entriesOf target.ino at hmem
    rw [← hnil] at hmem
    cases hmem

section Ancestors

private theorem climb_spec (ht : db.names.Tree) (ancestor : Nat) {steps current : Nat}
    (hsteps : Forest.Steps db.names.Up steps current 1) {fuel : Nat} (hfuel : steps < fuel) :
    ∃ b, db.climb ancestor fuel current = some b ∧
      (b = true ↔ Relation.TransGen db.names.Up current ancestor) := by
  generalize hroot : 1 = root at hsteps
  induction hsteps generalizing fuel with
  | zero _ =>
    subst hroot
    obtain ⟨fuel, rfl⟩ := Nat.exists_eq_add_of_lt hfuel
    refine ⟨false, by simp [climb], ?_⟩
    simp only [Bool.false_eq_true, false_iff]
    intro hup
    obtain ⟨b, ⟨-, d, hd, hchild, -⟩, -⟩ := Relation.TransGen.head'_iff.mp hup
    exact ht.rootUnnamed d hd hchild
  | @succ steps current parent _ hup hsteps ih =>
    subst hroot
    obtain ⟨fuel, rfl⟩ : ∃ k, fuel = k + 1 := ⟨fuel - 1, by omega⟩
    have hne : current ≠ 1 := by
      obtain ⟨-, d, hd, hchild, -⟩ := hup
      exact hchild ▸ ht.rootUnnamed d hd
    rcases hfind : db.dirents.find? (fun d => d.childIno = current) with _ | d
    · obtain ⟨-, d, hd, hchild, -⟩ := hup
      simpa [hchild] using List.find?_eq_none.mp hfind d hd
    · have hd : d ∈ db.dirents := List.mem_of_find?_eq_some hfind
      have hchild : d.childIno = current := by simpa using List.find?_some hfind
      have hparent : d.parentIno = parent :=
        ht.up_functional _ _ _ ⟨hup.1, d, hd, hchild, rfl⟩ hup
      rw [climb, if_neg hne, hfind]
      simp only [hparent]
      split
      · next heq =>
        subst heq
        exact ⟨true, rfl, by simpa using Relation.TransGen.single hup⟩
      · next hneq =>
        obtain ⟨b, hb, hiff⟩ := ih (show steps < fuel by omega) rfl
        refine ⟨b, hb, hiff.trans ⟨fun h => .head hup h, fun h => ?_⟩⟩
        obtain ⟨c, hc, hrest⟩ := Relation.TransGen.head'_iff.mp h
        have := ht.up_functional _ _ _ hup hc
        subst this
        rcases Relation.reflTransGen_iff_eq_or_transGen.mp hrest with heq | htrans
        · exact (hneq heq.symm).elim
        · exact htrans

theorem isDescendant_spec (ht : db.names.Tree) {dir : Nat} (hdir : db.kindOf dir = some .directory)
    (ancestor : Nat) : ∃ b, db.isDescendant dir ancestor = some b ∧
      (b = true ↔ ReflTransGen db.names.Up dir ancestor) := by
  unfold isDescendant
  split
  · next heq =>
    subst heq
    exact ⟨true, rfl, by simpa using ReflTransGen.refl⟩
  · next hne =>
    obtain ⟨steps, hsteps⟩ := Forest.exists_steps (ht.rooted dir hdir)
    have hlen : steps ≤ (db.dirents.map Dirent.childIno).length :=
      hsteps.length_le ht.up_functional
        (fun b ⟨_, d, hd, hchild, _⟩ => ht.rootUnnamed d hd hchild)
        (fun a b ⟨_, d, hd, hchild, _⟩ => hchild ▸ List.mem_map_of_mem hd)
    rw [List.length_map] at hlen
    obtain ⟨b, hb, hiff⟩ := climb_spec ht ancestor hsteps (Nat.lt_succ_of_le hlen)
    refine ⟨b, hb, hiff.trans ⟨fun h => h.to_reflTransGen, fun h => ?_⟩⟩
    rcases Relation.reflTransGen_iff_eq_or_transGen.mp h with heq | htrans
    · exact (hne heq.symm).elim
    · exact htrans

end Ancestors

end Db

end VibeDbfs
