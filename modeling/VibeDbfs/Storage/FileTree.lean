import VibeDbfs.Lib.NameTree
import VibeDbfs.Storage.Renaming

/-!
What the names of a store are for: a tree of files, directories and symlinks, in which each call
has one outcome. A node has no link count here; it goes when no entry names it. `Db.tree` is the
tree that the tables stand for.
-/

set_option autoImplicit false
set_option relaxedAutoImplicit false

namespace VibeDbfs

open Lib
open Relation (ReflTransGen)

inductive Node where
  | file
  | directory
  | symlink (target : Bytes)
  deriving DecidableEq, Repr

def Node.kind : Node → FileKind
  | .file => .regularFile
  | .directory => .directory
  | .symlink _ => .symlink

def NewNode.node : NewNode → Node
  | .directory _ => .directory
  | .file _ => .file
  | .symlink target => .symlink target

abbrev FileTree := NameTree Nat Name Node

namespace FileTree

def find (t : FileTree) (p : Nat) (n : Name) : Except DbError Nat := do
  checkName n
  match t.entry p n with
  | some i => .ok i
  | none => .error .notFound

def expectDirectory (t : FileTree) (p : Nat) : Except DbError Unit :=
  match t.node p with
  | some .directory => .ok ()
  | some _ => .error .notDirectory
  | none => .error .notFound

def expectFree (t : FileTree) (p : Nat) (n : Name) : Except DbError Unit :=
  if (t.entry p n).isSome then .error .alreadyExists else .ok ()

open scoped Classical in
noncomputable def expectReplaceable (t : FileTree) (i j : Nat) : Except DbError Unit :=
  if t.node j = some .directory then
    if t.node i ≠ some .directory then .error .isDirectory
    else if t.Empty j then .ok ()
    else .error .directoryNotEmpty
  else if t.node i = some .directory then .error .notDirectory
  else .ok ()

/-- A new node, with the number `fresh`, and its first name. -/
noncomputable def addNode (t : FileTree) (fresh p : Nat) (n : Name) (node : Node) : FileTree :=
  (t.setNode fresh (some node)).setEntry p n (some fresh)

open scoped Classical in
noncomputable def sweep (t : FileTree) : FileTree :=
  { t with node := fun i => if i = 1 ∨ t.Named i then t.node i else none }

def mayCreate (t : FileTree) (fresh p : Nat) (n : Name) : Except DbError Unit := do
  checkName n
  t.expectDirectory p
  if fresh > maxIno then .error .noSpace else t.expectFree p n

def mayLink (t : FileTree) (i p : Nat) (n : Name) : Except DbError Unit := do
  checkName n
  match t.node i with
  | none => .error .notFound
  | some .directory => .error .isDirectory
  | some _ => do
    t.expectDirectory p
    t.expectFree p n

/-- The node that an `unlink` takes a name from. -/
def mayUnlink (t : FileTree) (p : Nat) (n : Name) : Except DbError Nat := do
  let i ← t.find p n
  if t.node i = some .directory then .error .isDirectory else .ok i

open scoped Classical in
/-- The directory that an `rmdir` removes. -/
noncomputable def mayRemove (t : FileTree) (p : Nat) (n : Name) : Except DbError Nat := do
  let i ← t.find p n
  if t.node i ≠ some .directory then .error .notDirectory
  else if t.Empty i then .ok i
  else .error .directoryNotEmpty

open scoped Classical in
/-- A directory never moves into itself. -/
noncomputable def mayRename (t : FileTree) (p : Nat) (n : Name) (q : Nat) (m : Name)
    (noreplace : Bool) : Except DbError Unit := do
  checkName m
  let i ← t.find p n
  t.expectDirectory q
  if t.node i = some .directory ∧ t.Within q i then .error .invalidInput
  else if p = q ∧ n = m then .ok ()
  else
    match t.entry q m with
    | none => .ok ()
    | some j => if noreplace then .error .alreadyExists else t.expectReplaceable i j

/-- The tree after a rename, which may be over a node. An open handle keeps a replaced file. -/
noncomputable def renamed (t : FileTree) (p : Nat) (n : Name) (q : Nat) (m : Name)
    (isOpen : Nat → Bool) : FileTree :=
  if p = q ∧ n = m then t
  else
    match t.entry q m with
    | none => t.moveEntry p n q m
    | some j =>
      (t.dropEntry q m j (t.node j ≠ some .directory ∧ isOpen j = true)).moveEntry p n q m

/-- The outcome of a call on the names. A new node gets the number `fresh`. Calls on data and
metadata are none of the tree's business. -/
noncomputable def apply (t : FileTree) (fresh : Nat) : StoreCall → Except DbError FileTree
  | .createNode p n node _ _ => (t.mayCreate fresh p n).map fun _ => t.addNode fresh p n node.node
  | .link i p n => (t.mayLink i p n).map fun _ => t.setEntry p n (some i)
  | .unlinkEntry p n isOpen => (t.mayUnlink p n).map fun i => t.dropEntry p n i (isOpen = true)
  | .removeDir p n => (t.mayRemove p n).map fun i => t.dropEntry p n i False
  | .renameEntry p n q m noreplace isOpen =>
    (t.mayRename p n q m noreplace).map fun _ => t.renamed p n q m isOpen
  | .deleteInode i => .ok (t.setNode i none)
  | .reopen _ _ => .ok t.sweep
  | _ => .ok t

def root : FileTree := ⟨fun i => if i = 1 then some .directory else none, fun _ _ => none⟩

structure Unused (t : FileTree) (fresh : Nat) : Prop where
  node : t.node fresh = none
  unnamed : ¬t.Named fresh
  empty : t.Empty fresh

theorem expectDirectory_iff {t : FileTree} {p : Nat} :
    t.expectDirectory p = .ok () ↔ t.node p = some .directory := by
  unfold expectDirectory
  rcases t.node p with _ | ⟨_ | _ | _⟩
  · exact ⟨nofun, nofun⟩
  · exact ⟨nofun, nofun⟩
  · exact ⟨fun _ => rfl, fun _ => rfl⟩
  · exact ⟨nofun, nofun⟩

theorem node_sweep_of_stays {t : FileTree} {i : Nat} (h : i = 1 ∨ t.Named i) :
    t.sweep.node i = t.node i := if_pos h

theorem node_sweep_of_gone {t : FileTree} {i : Nat} (h : ¬(i = 1 ∨ t.Named i)) :
    t.sweep.node i = none := if_neg h

end FileTree

def StoreCall.onNames : StoreCall → Bool
  | .writeFileBatch _ _ => false
  | .truncateFile _ _ => false
  | .updateMetadata _ _ => false
  | _ => true

/-- What the store may answer to a call, and what may follow. A refused call changes nothing, and
a call that is not about names leaves the tree. -/
def FileTree.Does (t : FileTree) (call : Timestamp × StoreCall) (answer : Except DbError Unit)
    (t' : FileTree) : Prop :=
  if call.2.onNames = true then
    ∃ fresh, t.Unused fresh ∧ match t.apply fresh call.2 with
      | .ok after => answer = .ok () ∧ t' = after
      | .error e => answer = .error e ∧ t' = t
  else t' = t

namespace Db

/-- The target of the symlink `ino`. -/
def targetOf (db : Db) (ino : Nat) : Bytes :=
  ((db.symlinkTargets.find? fun r => r.ino = ino).map SymlinkRow.target).getD []

def nodeOf (db : Db) (ino : Nat) : Option Node :=
  (db.kindOf ino).map fun
    | .regularFile => .file
    | .directory => .directory
    | .symlink => .symlink (db.targetOf ino)

def tree (db : Db) : FileTree := ⟨db.nodeOf, fun p n => (db.findEntry p n).map Dirent.childIno⟩

variable {db db' : Db} {ino i j p q parent newParent : Nat} {n m name newName : Name}
  {now : Timestamp}

section Reading

theorem tree_node_eq_none : db.tree.node i = none ↔ db.kindOf i = none := Option.map_eq_none_iff

theorem tree_node_kind : (db.tree.node i).map Node.kind = db.kindOf i := by
  change (db.nodeOf i).map _ = _
  unfold nodeOf
  rcases db.kindOf i with _ | ⟨_ | _ | _⟩ <;> rfl

theorem tree_node_eq_directory :
    db.tree.node i = some .directory ↔ db.kindOf i = some .directory := by
  change db.nodeOf i = _ ↔ _
  unfold nodeOf
  rcases db.kindOf i with _ | ⟨_ | _ | _⟩ <;> simp

theorem nodeOf_congr (hkind : db'.kindOf i = db.kindOf i)
    (htarget : db.kindOf i = some .symlink → db'.targetOf i = db.targetOf i) :
    db'.nodeOf i = db.nodeOf i := by
  unfold nodeOf
  rw [hkind]
  rcases hk : db.kindOf i with _ | ⟨_ | _ | _⟩
  · rfl
  · rfl
  · rfl
  · rw [Option.map_some, Option.map_some, htarget hk]

theorem tree_entry_of_find {d : Dirent} (h : db.findEntry p n = some d) :
    db.tree.entry p n = some d.childIno := congrArg (Option.map Dirent.childIno) h

theorem tree_entry_eq_none : db.tree.entry p n = none ↔ db.findEntry p n = none :=
  Option.map_eq_none_iff

theorem tree_entry_eq_some (ht : db.names.Tree) :
    db.tree.entry p n = some i ↔
      ∃ d ∈ db.dirents, d.parentIno = p ∧ d.name = n ∧ d.childIno = i := by
  constructor
  · intro h
    obtain ⟨d, hd, rfl⟩ := Option.map_eq_some_iff.mp h
    obtain ⟨hmem, hp, hn⟩ := findEntry_mem hd
    exact ⟨d, hmem, hp, hn, rfl⟩
  · rintro ⟨d, hd, rfl, rfl, rfl⟩
    exact tree_entry_of_find ((findEntry_eq_some ht).mpr ⟨hd, rfl, rfl⟩)

theorem mem_of_named (h : db.tree.Named i) : ∃ d ∈ db.dirents, d.childIno = i := by
  obtain ⟨p, n, hentry⟩ := h
  obtain ⟨d, hd, hchild⟩ := Option.map_eq_some_iff.mp hentry
  exact ⟨d, (findEntry_mem hd).1, hchild⟩

theorem tree_named (ht : db.names.Tree) : db.tree.Named i ↔ ∃ d ∈ db.dirents, d.childIno = i := by
  refine ⟨mem_of_named, ?_⟩
  rintro ⟨d, hd, rfl⟩
  exact ⟨d.parentIno, d.name, (tree_entry_eq_some ht).mpr ⟨d, hd, rfl, rfl, rfl⟩⟩

theorem tree_empty (ht : db.names.Tree) :
    db.tree.Empty i ↔ ∀ d ∈ db.dirents, d.parentIno ≠ i := by
  constructor
  · intro h d hd hp
    have hentry := (tree_entry_eq_some ht).mpr ⟨d, hd, hp, rfl, rfl⟩
    cases (h d.name).symm.trans hentry
  · intro h n
    rcases hentry : db.tree.entry i n with _ | j
    · rfl
    · obtain ⟨d, hd, hp, -⟩ := (tree_entry_eq_some ht).mp hentry
      exact (h d hd hp).elim

theorem tree_within (ht : db.names.Tree) (hdir : db.kindOf q = some .directory) :
    db.tree.Within q i ↔ ReflTransGen db.names.Up q i := by
  constructor
  · intro h
    induction h using ReflTransGen.head_induction_on with
    | refl => exact .refl
    | head hup _ ih =>
      obtain ⟨n, hentry⟩ := hup
      obtain ⟨d, hd, hp, -, hchild⟩ := (tree_entry_eq_some ht).mp hentry
      have hparent := ht.parent d hd
      rw [hp] at hparent
      exact .head ⟨hdir, d, hd, hchild, hp⟩ (ih hparent)
  · intro h
    refine ReflTransGen.mono ?_ _ _ h
    rintro a b ⟨-, d, hd, hchild, hparent⟩
    exact ⟨d.name, (tree_entry_eq_some ht).mpr ⟨d, hd, hparent, rfl, hchild⟩⟩

end Reading

section Tables

theorem tree_congr (hsame : SameData db db') (hdirents : db'.dirents = db.dirents) :
    db'.tree = db.tree := by
  ext i : 2
  · refine nodeOf_congr (hsame.kind i) fun _ => ?_
    rw [targetOf, hsame.symlinks, targetOf]
  · funext n
    change (db'.findEntry i n).map _ = (db.findEntry i n).map _
    rw [findEntry, hdirents, findEntry]

theorem tree_touchDir : (db.touchDir ino now).tree = db.tree := tree_congr (sameData_touchDir) rfl

theorem tree_addDirectoryNlink (delta : Int) : (db.addDirectoryNlink ino delta).tree = db.tree :=
  tree_congr (sameData_addDirectoryNlink delta) rfl

theorem tree_addEntry (hfree : Names.Free db.dirents parent name) :
    (db.addEntry parent name ino).tree = db.tree.setEntry parent name (some ino) := by
  ext q m : 3
  · rfl
  · change ((db.addEntry parent name ino).findEntry q m).map _ = _
    unfold addEntry findEntry
    rw [List.find?_append]
    by_cases h : q = parent ∧ m = name
    · obtain ⟨rfl, rfl⟩ := h
      have hnone : db.dirents.find? (fun d => d.parentIno = q ∧ d.name = m) = none := by
        apply List.find?_eq_none.mpr
        intro d hd hat
        exact hfree d hd (Prod.ext (of_decide_eq_true hat).1 (of_decide_eq_true hat).2)
      rw [NameTree.entry_setEntry_self, hnone]
      simp
    · rw [NameTree.entry_setEntry_of_ne h, List.find?_singleton, if_neg, Option.or_none]
      · rfl
      · intro hat
        exact h ⟨(of_decide_eq_true hat).1.symm, (of_decide_eq_true hat).2.symm⟩

private theorem findEntry_deleteDirent : (db.deleteDirent parent name).findEntry q m =
    if q = parent ∧ m = name then none else db.findEntry q m := by
  have hkey : ∀ (xs : List Dirent), xs.find? (fun d => d.parentIno = q ∧ d.name = m) =
      xs.find? fun d => (d.parentIno, d.name) = (q, m) := by
    intro xs
    simp only [Prod.mk.injEq]
  unfold findEntry deleteDirent
  rw [hkey, hkey]
  split
  · next h =>
    apply Keyed.find_filter_of_drop
    intro d _ hd
    simpa [Prod.mk.injEq, h] using hd
  · next h =>
    apply Keyed.find_filter_of_keep
    intro d _ hd
    rw [Prod.mk.injEq] at hd
    rw [decide_eq_true_eq, hd.1, hd.2]
    exact h

private theorem tree_deleteDirent :
    (db.deleteDirent parent name).tree = db.tree.setEntry parent name none := by
  ext q m : 3
  · rfl
  · change ((db.deleteDirent parent name).findEntry q m).map _ = _
    rw [findEntry_deleteDirent]
    split
    · next h =>
      obtain ⟨rfl, rfl⟩ := h
      rw [NameTree.entry_setEntry_self]
      rfl
    · next h =>
      rw [NameTree.entry_setEntry_of_ne h]
      rfl

private theorem targetOf_deleteInodeRows (hi : i ≠ ino) :
    (db.deleteInodeRows ino).targetOf i = db.targetOf i := by
  unfold targetOf
  have hfind : (db.deleteInodeRows ino).symlinkTargets.find? (fun r => r.ino = i) =
      db.symlinkTargets.find? fun r => r.ino = i := by
    apply Keyed.find_filter_of_keep
    rintro r - rfl
    exact decide_eq_true hi
  rw [hfind]

theorem tree_deleteInodeRows (h : ∀ d ∈ db.dirents, d.parentIno ≠ ino ∧ d.childIno ≠ ino) :
    (db.deleteInodeRows ino).tree = db.tree.setNode ino none := by
  ext i : 2
  · by_cases hi : i = ino
    · subst hi
      rw [NameTree.node_setNode_self]
      apply tree_node_eq_none.mpr
      rw [kindOf_deleteInodeRows, if_pos rfl]
    · rw [NameTree.node_setNode_of_ne hi]
      apply nodeOf_congr
      · rw [kindOf_deleteInodeRows, if_neg hi]
      · exact fun _ => targetOf_deleteInodeRows hi
  · funext n
    change ((db.deleteInodeRows ino).findEntry i n).map _ = (db.findEntry i n).map _
    rw [findEntry, dirents_deleteInodeRows h, findEntry]

variable {d : Dirent} {r : InodeRow} {isOpen : Bool}

/-- A link count of one is one name, so the store deletes an inode where the tree drops the node. -/
private theorem lastName_iff (isOpen : Bool) (hs : db.Sound) (hd : d ∈ db.dirents)
    (hr : db.findInode d.childIno = some r) :
    LastName r isOpen ↔ ¬((r.kind ≠ .directory ∧ isOpen = true) ∨
      (db.tree.setEntry d.parentIno d.name none).Named d.childIno) := by
  have hrest := perm_deleteDirent hs.tree hd
  rw [← tree_deleteDirent]
  constructor
  · rintro hlast (⟨hfile, hopen⟩ | hnamed)
    · rw [(hlast.resolve_left hfile).2] at hopen
      cases hopen
    · obtain ⟨e, he, hchild⟩ := mem_of_named hnamed
      exact unnamed_of_single hs.tree hs.exact hd hr
        (fun hfile => (hlast.resolve_left hfile).1) e he
        hchild
  · intro hgone
    rw [not_or] at hgone
    by_cases hdir : r.kind = .directory
    · exact .inl hdir
    · refine .inr ⟨?_, Bool.eq_false_iff.mpr fun hopen => hgone.1 ⟨hdir, hopen⟩⟩
      -- no other entry names the inode, so the count of its entries is one
      have hexact := hs.exact d.childIno (by simp [names, kindOf_of_find hr])
      rw [Names.linkCount, if_neg (by simpa [names, kindOf_of_find hr] using hdir)] at hexact
      change db.nlinkOf d.childIno = db.dirents.countP _ at hexact
      rw [nlinkOf_of_find hr, hrest.countP_eq, List.countP_cons, if_pos (by simp),
        List.countP_eq_zero.mpr] at hexact
      · exact hexact.le
      · intro e he hchild
        obtain ⟨hmem, hne⟩ := List.mem_filter.mp he
        apply hgone.2
        rw [tree_deleteDirent]
        refine ⟨e.parentIno, e.name, ?_⟩
        rw [NameTree.entry_setEntry_of_ne (of_decide_eq_true hne), tree_entry_eq_some hs.tree]
        exact ⟨e, hmem, rfl, rfl, of_decide_eq_true hchild⟩

theorem tree_dropEntry (hs : db.Sound) (hd : d ∈ db.dirents)
    (hr : db.findInode d.childIno = some r)
    (hempty : r.kind = .directory → ∀ e ∈ db.dirents, e.parentIno ≠ r.ino) :
    (db.dropEntry d r isOpen now).tree = db.tree.dropEntry d.parentIno d.name d.childIno
      (r.kind ≠ .directory ∧ isOpen = true) := by
  have hiff := lastName_iff isOpen hs hd hr
  by_cases hlast : LastName r isOpen
  · have hdirents := dirents_dropEntry now isOpen hs.tree hs.exact hd hr hempty
    rw [dropEntry_of_last now isOpen hr hlast] at hdirents ⊢
    rw [NameTree.dropEntry_of_last (hiff.mp hlast), tree_deleteInodeRows, tree_deleteDirent]
    intro e he
    rw [← hdirents] at he
    have hkept := of_decide_eq_true (List.mem_filter.mp he).2
    exact ⟨fun h => hkept (.inl h), fun h => hkept (.inr h)⟩
  · rw [dropEntry_of_more now isOpen hr hlast, tree_congr (sameData_setNlink _) rfl,
      tree_deleteDirent, NameTree.dropEntry_of_stays]
    exact not_not.mp fun hgone => hlast (hiff.mpr hgone)

theorem tree_moveEntry (hs : db.names.Tree) (hd : d ∈ db.dirents)
    (hfree : Names.Free db.dirents newParent newName)
    (hdiff : ¬(d.parentIno = newParent ∧ d.name = newName)) (sourceIsDir targetIsDir : Bool)
    (hs' : (db.moveEntry d.parentIno d.name newParent newName sourceIsDir targetIsDir
      now).names.Tree) :
    (db.moveEntry d.parentIno d.name newParent newName sourceIsDir targetIsDir now).tree =
      db.tree.moveEntry d.parentIno d.name newParent newName := by
  have hmem := findEntry_moved hs hs' hd hdiff fun e => by
    rw [mem_moveEntry hs hd]
    refine or_congr_right (and_congr_right fun he => ?_)
    rw [and_iff_left fun hat => hfree e he (Prod.ext hat.1 hat.2)]
  have hsame : SameData db
      (db.moveEntry d.parentIno d.name newParent newName sourceIsDir targetIsDir now) :=
    sameData_moveEntry sourceIsDir targetIsDir
  ext q : 2
  · refine nodeOf_congr (hsame.kind q) fun _ => ?_
    rw [targetOf, hsame.symlinks, targetOf]
  · funext m
    change Option.map _ (findEntry _ q m) = _
    rw [hmem, NameTree.moveEntry]
    by_cases hnew : q = newParent ∧ m = newName
    · obtain ⟨rfl, rfl⟩ := hnew
      rw [if_pos ⟨rfl, rfl⟩, NameTree.entry_setEntry_self, Option.map_map]
      rfl
    · rw [if_neg hnew, NameTree.entry_setEntry_of_ne hnew]
      by_cases hold : q = d.parentIno ∧ m = d.name
      · obtain ⟨rfl, rfl⟩ := hold
        rw [if_pos ⟨rfl, rfl⟩, NameTree.entry_setEntry_self]
        rfl
      · rw [if_neg hold, NameTree.entry_setEntry_of_ne hold]
        rfl

end Tables

end Db

end VibeDbfs
