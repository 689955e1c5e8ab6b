import VibeDbfs.Fuse.Sections
import VibeDbfs.Storage.TreeRefinement

/-!
Taking a change back. Whatever `create_node`, `link` and a rename to a free name do, the call that
undoes it succeeds, and the tree, the link counts and the files are as they were.
-/

set_option autoImplicit false
set_option relaxedAutoImplicit false

namespace VibeDbfs

open Lib
open Relation (ReflTransGen)

private theorem except_map_eq_ok {ε α β : Type} {x : Except ε α} {f : α → β} {b : β} :
    x.map f = .ok b ↔ ∃ a, x = .ok a ∧ f a = b := by
  cases x with
  | error e => exact ⟨nofun, nofun⟩
  | ok a => exact ⟨fun h => ⟨a, rfl, Except.ok.inj h⟩, by rintro ⟨_, ⟨⟩, rfl⟩; rfl⟩

namespace FileTree

variable {t t' : FileTree} {fresh p q i : Nat} {n m : Name} {call undo : StoreCall}

/-- Only directories hold entries, and nothing leads from a directory up to what it holds. -/
structure Rooted (t : FileTree) : Prop where
  directory : ∀ p n i, t.entry p n = some i → t.node p = some .directory
  acyclic : ∀ p n i, t.entry p n = some i → ¬t.Within p i

/-- The call `undo` takes back what `call` does to the tree. -/
inductive Undoes (t : FileTree) : StoreCall → StoreCall → Prop
  | file {p : Nat} {n : Name} {node : NewNode} {uid gid : UInt32}
      (hfile : node.node ≠ .directory) :
      Undoes t (.createNode p n node uid gid) (.unlinkEntry p n false)
  | directory {p : Nat} {n : Name} {mode uid gid : UInt32} :
      Undoes t (.createNode p n (.directory mode) uid gid) (.removeDir p n)
  | link {i p : Nat} {n : Name} {isOpen : Bool} (hstays : isOpen = true ∨ t.Named i) :
      Undoes t (.link i p n) (.unlinkEntry p n isOpen)
  | rename {p q : Nat} {n m : Name} {isOpen isOpen' : Nat → Bool} {noreplace noreplace' : Bool}
      (hkeeps : noreplace = true ∨ p = q ∧ n = m ∨ t.entry q m = none) :
      Undoes t (.renameEntry p n q m noreplace isOpen) (.renameEntry q m p n noreplace' isOpen')

section Checks

private theorem find_iff : t.find p n = .ok i ↔ checkName n = .ok () ∧ t.entry p n = some i := by
  constructor
  · intro h
    obtain ⟨⟨⟩, hname, -⟩ := except_bind_eq_ok.mp h
    exact ⟨hname, Db.find_ok h⟩
  · rintro ⟨hname, hentry⟩
    refine except_bind_eq_ok.mpr ⟨(), hname, ?_⟩
    rw [hentry]

private theorem free_of_expectFree (h : t.expectFree p n = .ok ()) : t.entry p n = none := by
  unfold expectFree at h
  split at h
  · cases h
  · next hnone => exact Option.not_isSome_iff_eq_none.mp hnone

private theorem mayCreate_ok (h : t.mayCreate fresh p n = .ok ()) :
    checkName n = .ok () ∧ t.node p = some .directory ∧ t.entry p n = none := by
  obtain ⟨⟨⟩, hname, h⟩ := except_bind_eq_ok.mp h
  obtain ⟨⟨⟩, hdir, h⟩ := except_bind_eq_ok.mp h
  split at h
  · cases h
  · exact ⟨hname, expectDirectory_iff.mp hdir, free_of_expectFree h⟩

private theorem mayLink_ok (h : t.mayLink i p n = .ok ()) :
    checkName n = .ok () ∧ t.node i ≠ some .directory ∧ t.entry p n = none := by
  obtain ⟨⟨⟩, hname, h⟩ := except_bind_eq_ok.mp h
  rcases hnode : t.node i with _ | ⟨_ | _ | _⟩
  all_goals rw [hnode] at h
  · cases h
  · obtain ⟨⟨⟩, -, h⟩ := except_bind_eq_ok.mp h
    exact ⟨hname, nofun, free_of_expectFree h⟩
  · cases h
  · obtain ⟨⟨⟩, -, h⟩ := except_bind_eq_ok.mp h
    exact ⟨hname, nofun, free_of_expectFree h⟩

end Checks

private theorem mayUnlink_eq (hname : checkName n = .ok ()) (hentry : t.entry p n = some i)
    (hfile : t.node i ≠ some .directory) : t.mayUnlink p n = .ok i :=
  except_bind_eq_ok.mpr ⟨i, find_iff.mpr ⟨hname, hentry⟩, if_neg hfile⟩

private theorem mayRemove_eq (hname : checkName n = .ok ()) (hentry : t.entry p n = some i)
    (hdir : t.node i = some .directory) (hempty : t.Empty i) : t.mayRemove p n = .ok i := by
  refine except_bind_eq_ok.mpr ⟨i, find_iff.mpr ⟨hname, hentry⟩, ?_⟩
  rw [if_neg (not_not.mpr hdir), if_pos hempty]

private theorem createNode_undo {node : NewNode} {uid gid : UInt32} (hfresh : t.Unused fresh)
    (hundo : t.Undoes (.createNode p n node uid gid) undo)
    (h : t.apply fresh (.createNode p n node uid gid) = .ok t') (fresh' : Nat) :
    t'.apply fresh' undo = .ok t := by
  obtain ⟨⟨⟩, hmay, rfl⟩ := except_map_eq_ok.mp h
  obtain ⟨hname, hdir, hfree⟩ := mayCreate_ok hmay
  have hentry : (t.addNode fresh p n node.node).entry p n = some fresh :=
    NameTree.entry_setEntry_self
  have hnode : (t.addNode fresh p n node.node).node fresh = some node.node :=
    NameTree.node_setNode_self
  have hback := NameTree.dropEntry_new (b := some node.node) hfree hfresh.node hfresh.unnamed
  cases hundo with
  | file hfile =>
    refine except_map_eq_ok.mpr ⟨fresh, mayUnlink_eq hname hentry ?_, ?_⟩
    · rw [hnode]
      exact fun heq => hfile (Option.some.inj heq)
    · simp only [Bool.false_eq_true]
      exact hback
  | directory =>
    have hempty : (t.addNode fresh p n Node.directory).Empty fresh := by
      intro m
      have hne : ¬(fresh = p ∧ m = n) := by
        rintro ⟨rfl, -⟩
        cases hfresh.node.symm.trans hdir
      exact (NameTree.entry_setEntry_of_ne hne).trans (hfresh.empty m)
    exact except_map_eq_ok.mpr ⟨fresh, mayRemove_eq hname hentry hnode hempty, hback⟩

private theorem link_undo (hundo : t.Undoes (.link i p n) undo)
    (h : t.apply fresh (.link i p n) = .ok t') (fresh' : Nat) : t'.apply fresh' undo = .ok t := by
  obtain ⟨⟨⟩, hmay, rfl⟩ := except_map_eq_ok.mp h
  obtain ⟨hname, hfile, hfree⟩ := mayLink_ok hmay
  cases hundo with
  | link hstays =>
    exact except_map_eq_ok.mpr ⟨i, mayUnlink_eq hname NameTree.entry_setEntry_self hfile,
      NameTree.dropEntry_setEntry hfree hstays⟩

private theorem mayRename_ok {noreplace : Bool} (h : t.mayRename p n q m noreplace = .ok ()) :
    checkName m = .ok () ∧ (∃ i, t.find p n = .ok i) ∧ t.node q = some .directory ∧
      (noreplace = true → ¬(p = q ∧ n = m) → t.entry q m = none) := by
  obtain ⟨⟨⟩, hname, h⟩ := except_bind_eq_ok.mp h
  obtain ⟨i, hfind, h⟩ := except_bind_eq_ok.mp h
  obtain ⟨⟨⟩, hdir, h⟩ := except_bind_eq_ok.mp h
  refine ⟨hname, ⟨i, hfind⟩, expectDirectory_iff.mp hdir, ?_⟩
  rintro rfl hne
  rw [if_neg hne] at h
  split at h
  · cases h
  · split at h
    · assumption
    · cases h

private theorem mayRename_eq {noreplace : Bool} (hname : checkName m = .ok ())
    (hfind : t.find p n = .ok i) (hdir : t.node q = some .directory) (hin : ¬t.Within q i)
    (hfree : ¬(p = q ∧ n = m) → t.entry q m = none) : t.mayRename p n q m noreplace = .ok () := by
  refine except_bind_eq_ok.mpr ⟨(), hname, except_bind_eq_ok.mpr ⟨i, hfind, ?_⟩⟩
  refine except_bind_eq_ok.mpr ⟨(), expectDirectory_iff.mpr hdir, ?_⟩
  rw [if_neg fun h => hin h.2]
  split
  · rfl
  · next hne => rw [hfree hne]

private theorem not_within_moved (ht : t.Rooted) (hentry : t.entry p n = some i) :
    ¬(t.moveEntry p n q m).Within p i := by
  intro hin
  apply ht.acyclic p n i hentry
  -- only the way up from what has moved is another one
  refine Forest.climb_to_moved ?_ hin
  rintro a b ha ⟨k, hk⟩
  refine ⟨k, ?_⟩
  rw [NameTree.moveEntry] at hk
  by_cases hnew : b = q ∧ k = m
  · obtain ⟨rfl, rfl⟩ := hnew
    rw [NameTree.entry_setEntry_self, hentry] at hk
    exact (ha (Option.some.inj hk).symm).elim
  · rw [NameTree.entry_setEntry_of_ne hnew] at hk
    by_cases hold : b = p ∧ k = n
    · obtain ⟨rfl, rfl⟩ := hold
      rw [NameTree.entry_setEntry_self] at hk
      cases hk
    · rwa [NameTree.entry_setEntry_of_ne hold] at hk

private theorem rename_undo (ht : t.Rooted) {noreplace : Bool} {isOpen : Nat → Bool}
    (hundo : t.Undoes (.renameEntry p n q m noreplace isOpen) undo)
    (h : t.apply fresh (.renameEntry p n q m noreplace isOpen) = .ok t') (fresh' : Nat) :
    t'.apply fresh' undo = .ok t := by
  obtain ⟨⟨⟩, hmay, rfl⟩ := except_map_eq_ok.mp h
  obtain ⟨hname, ⟨i, hfind⟩, hdir, hchecked⟩ := mayRename_ok hmay
  obtain ⟨hold, hentry⟩ := find_iff.mp hfind
  have hparent := ht.directory p n i hentry
  cases hundo with
  | rename hkeeps =>
    have hfree : ¬(p = q ∧ n = m) → t.entry q m = none := by
      intro hne
      rcases hkeeps with hnoreplace | hsame | hfree
      · exact hchecked hnoreplace hne
      · exact (hne hsame).elim
      · exact hfree
    by_cases hsame : p = q ∧ n = m
    · obtain ⟨rfl, rfl⟩ := hsame
      have hstays : ∀ isOpen, t.renamed p n p n isOpen = t := fun _ => if_pos ⟨rfl, rfl⟩
      rw [hstays]
      refine except_map_eq_ok.mpr ⟨(), ?_, hstays _⟩
      exact mayRename_eq hold hfind hdir (ht.acyclic p n i hentry) fun h => (h ⟨rfl, rfl⟩).elim
    · have hmoved : t.renamed p n q m isOpen = t.moveEntry p n q m := by
        rw [renamed, if_neg hsame, hfree hsame]
      have hback : ¬(q = p ∧ m = n) := fun h => hsame ⟨h.1.symm, h.2.symm⟩
      have hgone : (t.moveEntry p n q m).entry p n = none := by
        rw [NameTree.moveEntry, NameTree.entry_setEntry_of_ne hsame, NameTree.entry_setEntry_self]
      rw [hmoved]
      refine except_map_eq_ok.mpr ⟨(), ?_, ?_⟩
      · refine mayRename_eq hold (find_iff.mpr ⟨hname, ?_⟩) hparent (not_within_moved ht hentry)
          fun _ => hgone
        rw [NameTree.moveEntry, NameTree.entry_setEntry_self, hentry]
      · rw [renamed, if_neg hback, hgone]
        exact NameTree.moveEntry_undo (hfree hsame) hsame

private theorem apply_undo (ht : t.Rooted) (hfresh : t.Unused fresh) (hundo : t.Undoes call undo)
    (h : t.apply fresh call = .ok t') (fresh' : Nat) : t'.apply fresh' undo = .ok t := by
  cases hundo with
  | file hfile => exact createNode_undo hfresh (.file hfile) h fresh'
  | directory => exact createNode_undo hfresh .directory h fresh'
  | link hstays => exact link_undo (.link hstays) h fresh'
  | rename hkeeps => exact rename_undo ht (.rename hkeeps) h fresh'

end FileTree

namespace Db

variable {db db' db₁ : Db} {call undo : StoreCall} {now later : Timestamp} {p i : Nat} {n : Name}

private theorem tree_rooted (ht : db.names.Tree) : db.tree.Rooted where
  directory p n i h := by
    obtain ⟨d, hd, rfl, -, -⟩ := (tree_entry_eq_some ht).mp h
    exact tree_node_eq_directory.mpr (ht.parent d hd)
  acyclic p n i h := by
    obtain ⟨d, hd, rfl, -, rfl⟩ := (tree_entry_eq_some ht).mp h
    have hparent := ht.parent d hd
    rw [tree_within ht hparent]
    intro hin
    -- what a directory climbs to is a directory
    have hchild : db.kindOf d.childIno = some .directory := by
      rcases ReflTransGen.cases_tail hin with hself | ⟨_, -, -, e, he, -, hup⟩
      · exact hself ▸ hparent
      · exact hup ▸ ht.parent e he
    refine Forest.no_cycle ht.up_functional ?_ (ht.rooted _ hchild) ⟨hchild, d, hd, rfl, rfl⟩ hin
    rintro b ⟨-, e, he, hroot, -⟩
    exact ht.rootUnnamed e he hroot

section Counts

def links (db : Db) : List (Nat × Name × Nat) :=
  db.dirents.map fun d => (d.parentIno, d.name, d.childIno)

private theorem mem_links (ht : db.names.Tree) :
    (p, n, i) ∈ db.links ↔ db.tree.entry p n = some i := by
  rw [tree_entry_eq_some ht, links, List.mem_map]
  simp only [Prod.mk.injEq]

private theorem nodup_links (ht : db.names.Tree) : db.links.Nodup := by
  apply List.Nodup.of_map fun l => (l.1, l.2.1)
  rw [links, List.map_map]
  exact ht.distinct

private theorem perm_links (ht : db.names.Tree) (ht' : db'.names.Tree)
    (htree : db'.tree = db.tree) :
    db'.links.Perm db.links := by
  refine (List.perm_ext_iff_of_nodup (nodup_links ht') (nodup_links ht)).mpr ?_
  rintro ⟨p, n, i⟩
  rw [mem_links ht, mem_links ht', htree]

private theorem kindOf_of_tree (htree : db'.tree = db.tree) (i : Nat) :
    db'.kindOf i = db.kindOf i := by
  rw [← tree_node_kind, htree, tree_node_kind]

private theorem linkCount_links : db.names.linkCount i =
    if db.kindOf i = some .directory then
      2 + db.links.countP fun l => l.1 = i ∧ db.kindOf l.2.2 = some .directory
    else db.links.countP fun l => l.2.2 = i := by
  rw [links, List.countP_map, List.countP_map]
  rfl

private theorem nlinkOf_of_tree (hl : db.Linked) (hl' : db'.Linked)
    (htree : db'.tree = db.tree) (i : Nat) :
    db'.nlinkOf i = db.nlinkOf i := by
  have hkind := kindOf_of_tree htree
  have hperm := perm_links hl.tree hl'.tree htree
  rcases hsome : db.kindOf i with _ | k
  · rw [nlinkOf_of_none hsome, nlinkOf_of_none ((hkind i).trans hsome)]
  · have hcount : db'.names.linkCount i = db.names.linkCount i := by
      simp only [linkCount_links, hkind, hperm.countP_eq]
    have hexact : db.nlinkOf i = _ := hl.exact i (Option.isSome_of_eq_some hsome)
    have hexact' : db'.nlinkOf i = _ :=
      hl'.exact i (Option.isSome_of_eq_some ((hkind i).trans hsome))
    rw [hexact, hexact', hcount]

end Counts

section Files

variable {d : Dirent} {r : InodeRow} {isOpen : Bool} {parent newParent : Nat} {name newName : Name}

private theorem relinked_of_drop (hs : db.Sound) (hs' : db'.Sound) (hd : d ∈ db.dirents)
    (hr : db.findInode d.childIno = some r)
    (hempty : r.kind = .directory → ∀ e ∈ db.dirents, e.parentIno ≠ r.ino)
    (hsame : SameData (db.dropEntry d r isOpen now) db')
    (hchildren : ∀ e' ∈ db'.dirents, ∃ e ∈ (db.dropEntry d r isOpen now).dirents,
      e.childIno = e'.childIno) : Relinked db db' :=
  (relinked_dropEntry hs hs' hd hr hempty hsame hchildren).1

theorem relinked_unlinkEntry {target : Inode} (hs : db.Sound)
    (hlookup : db.lookup parent name = .ok target)
    (h : db.unlinkEntry parent name target isOpen now = .ok db') : Relinked db db' := by
  obtain ⟨d, r, hd, -, -, hr, rfl, hfile, heq⟩ := unlinkEntry_eq hlookup h
  apply relinked_of_drop hs (hs.unlinkEntry hlookup h) hd hr
  · intro hdir
    exact (hfile hdir).elim
  · exact heq ▸ sameData_touchDir
  · intro e he
    rw [heq] at he
    exact ⟨e, he, rfl⟩

theorem relinked_removeDir (hs : db.Sound) (h : db.removeDir parent name now = .ok db') :
    Relinked db db' := by
  obtain ⟨d, r, hd, -, -, hr, -, hempty, heq⟩ := removeDir_eq h
  apply relinked_of_drop hs (hs.removeDir h) hd hr
  · intro _
    exact hempty
  · exact heq ▸ sameData_touchDir.trans (sameData_addDirectoryNlink _)
  · intro e he
    rw [heq] at he
    exact ⟨e, he, rfl⟩

theorem relinked_renameEntry {noreplace : Bool} {isOpen : Nat → Bool} {replaced : Option Inode}
    (hs : db.Sound) (h : db.renameEntry parent name newParent newName noreplace isOpen now =
      .ok (replaced, db')) : Relinked db db' := by
  have hs' := hs.renameEntry h
  obtain ⟨d, r, -, -, -, -, -, -, hcase⟩ := renameEntry_eq hs.tree h
  rcases hcase with ⟨-, -, -, heq⟩ | ⟨-, -, heq⟩ | ⟨f, q, hf, -, -, -, hq, -, -, hempty, heq⟩
  · rw [heq]
    exact .refl hs
  · rw [heq] at hs' ⊢
    exact relinked_moveEntry hs _ _ hs'
  · apply relinked_of_drop hs hs' hf hq hempty
    · exact heq ▸ sameData_moveEntry _ _
    · intro e he
      rw [heq] at he
      exact children_moveEntry _ _ e he

private theorem onNames_of_undoes {t : FileTree} {c : StoreCall} (hundo : t.Undoes call undo)
    (hc : c = call ∨ c = undo) : c.onNames = true := by
  cases hundo <;> rcases hc with rfl | rfl <;> rfl

private theorem allowed_of_undoes {t : FileTree} {c : StoreCall} (hundo : t.Undoes call undo)
    (hc : c = call ∨ c = undo) (db : Db) (now : Timestamp) : db.Allowed (now, c) := by
  cases hundo <;> rcases hc with rfl | rfl <;> trivial

private theorem fewer_of_undoes {t : FileTree} (hundo : t.Undoes call undo) (hs : db.Sound)
    (h : db.perform now undo = .ok db') : Fewer db db' := by
  cases hundo with
  | file hfile =>
    obtain ⟨target, hlookup, h⟩ := except_bind_eq_ok.mp h
    exact fewer_unlinkEntry hs hlookup h
  | directory => exact fewer_removeDir hs h
  | link =>
    obtain ⟨target, hlookup, h⟩ := except_bind_eq_ok.mp h
    exact fewer_unlinkEntry hs hlookup h
  | rename =>
    obtain ⟨⟨_, _⟩, h, ⟨⟩⟩ := except_bind_eq_ok.mp h
    exact fewer_renameEntry hs h

private theorem file_of_edit {t : FileTree} {c : StoreCall} (hundo : t.Undoes call undo)
    (hc : c = call ∨ c = undo) (hs : db.Sound) (h : db.perform now c = .ok db')
    (hi : (db.kindOf i).isSome) (hi' : (db'.kindOf i).isSome) :
    db'.file i = { db.file i with nlink := db'.nlinkOf i } := by
  cases hundo with
  | file hfile =>
    rcases hc with rfl | rfl
    · obtain ⟨⟨_, _⟩, h, ⟨⟩⟩ := except_bind_eq_ok.mp h
      exact (relinked_createNode hs h).1.file i hi hi'
    · obtain ⟨target, hlookup, h⟩ := except_bind_eq_ok.mp h
      exact (relinked_unlinkEntry hs hlookup h).file i hi hi'
  | directory =>
    rcases hc with rfl | rfl
    · obtain ⟨⟨_, _⟩, h, ⟨⟩⟩ := except_bind_eq_ok.mp h
      exact (relinked_createNode hs h).1.file i hi hi'
    · exact (relinked_removeDir hs h).file i hi hi'
  | link =>
    rcases hc with rfl | rfl
    · obtain ⟨⟨_, _⟩, h, ⟨⟩⟩ := except_bind_eq_ok.mp h
      exact file_of_data (sameData_link h) i
    · obtain ⟨target, hlookup, h⟩ := except_bind_eq_ok.mp h
      exact (relinked_unlinkEntry hs hlookup h).file i hi hi'
  | rename =>
    rcases hc with rfl | rfl
    all_goals
      obtain ⟨⟨_, _⟩, h, ⟨⟩⟩ := except_bind_eq_ok.mp h
      exact (relinked_renameEntry hs h).file i hi hi'

end Files

section Runs

/-- The calls of `edits` succeed from `db` to `db'`, each beside the one that takes it back. -/
inductive Edits : Db → List ((Timestamp × StoreCall) × (Timestamp × StoreCall)) → Db → Prop
  | nil (db : Db) : Edits db [] db
  | cons {db db₁ db' : Db} {call undo : Timestamp × StoreCall}
      {edits : List ((Timestamp × StoreCall) × (Timestamp × StoreCall))}
      (hundo : db.tree.Undoes call.2 undo.2) (h : db.perform call.1 call.2 = .ok db₁)
      (hrest : Edits db₁ edits db') : Edits db ((call, undo) :: edits) db'

/-- The store after `calls`, if all of them succeed. -/
def performAll (db : Db) : List (Timestamp × StoreCall) → Except DbError Db
  | [] => .ok db
  | call :: calls => do
    let db ← db.perform call.1 call.2
    db.performAll calls

/-- `db'` has the files of `db` under the same names. -/
structure SameFiles (db db' : Db) : Prop where
  tree : db'.tree = db.tree
  file : ∀ i, (db.kindOf i).isSome → db'.file i = db.file i

variable {db₂ : Db} {edits : List ((Timestamp × StoreCall) × (Timestamp × StoreCall))}

private theorem performAll_append {calls calls' : List (Timestamp × StoreCall)} :
    db.performAll (calls ++ calls') =
      db.performAll calls >>= fun db => db.performAll calls' := by
  induction calls generalizing db with
  | nil => rfl
  | cons call calls ih =>
    rw [List.cons_append, performAll, performAll]
    rcases db.perform call.1 call.2 with e | db
    · rfl
    · exact ih

private theorem perform_of_done {call : Timestamp × StoreCall}
    (h : (db.perform call.1 call.2).isOk = true) :
    db.perform call.1 call.2 = .ok (db.step call) := by
  unfold step
  rcases hdone : db.perform call.1 call.2 with e | db'
  · rw [hdone] at h
    cases h
  · rfl

private theorem SameFiles.takeBack {call undo : Timestamp × StoreCall} (hs : db.Sound)
    (hs₂ : db₂.Sound)
    (hundo : db.tree.Undoes call.2 undo.2) (h : db.perform call.1 call.2 = .ok db₁)
    (hsame : SameFiles db₁ db₂) :
    ∃ db₃, db₂.perform undo.1 undo.2 = .ok db₃ ∧ db₃.Sound ∧ SameFiles db db₃ := by
  have hcall := allowed_of_undoes hundo (.inl rfl) db call.1
  have hback := allowed_of_undoes hundo (.inr rfl) db₂ undo.1
  have hdone : db.tree.apply db.nextIno call.2 = .ok db₁.tree := by
    rw [← perform_names hs hcall (onNames_of_undoes hundo (.inl rfl)), h]
    rfl
  have hundone := FileTree.apply_undo (tree_rooted hs.tree) (unused_nextIno hs.tree) hundo hdone
    db₂.nextIno
  rw [← hsame.tree, ← perform_names hs₂ hback (onNames_of_undoes hundo (.inr rfl))] at hundone
  obtain ⟨db₃, h₃, htree⟩ := except_map_eq_ok.mp hundone
  have hs₁ := hs.perform hcall h
  have hs₃ := hs₂.perform hback h₃
  refine ⟨db₃, h₃, hs₃, htree, fun i hi => ?_⟩
  have hi₃ : (db₃.kindOf i).isSome := kindOf_of_tree htree i ▸ hi
  have hi₂ : (db₂.kindOf i).isSome := (fewer_of_undoes hundo hs₂ h₃).kind i hi₃ ▸ hi₃
  have hi₁ : (db₁.kindOf i).isSome := kindOf_of_tree hsame.tree i ▸ hi₂
  -- only the link count could differ, and the trees are the same
  calc db₃.file i = { db₂.file i with nlink := db₃.nlinkOf i } :=
        file_of_edit hundo (.inr rfl) hs₂ h₃ hi₂ hi₃
    _ = { db.file i with nlink := db₃.nlinkOf i } := by
        rw [hsame.file i hi₁, file_of_edit hundo (.inl rfl) hs h hi hi₁]
    _ = db.file i := by
        rw [nlinkOf_of_tree hs.toLinked hs₃.toLinked htree]
        rfl

private theorem Edits.takenBack (h : Edits db edits db') (hs : db.Sound) :
    ∃ db'', db'.performAll (edits.map Prod.snd).reverse = .ok db'' ∧ db''.Sound ∧
      SameFiles db db'' := by
  induction h with
  | nil db => exact ⟨db, rfl, hs, rfl, fun _ _ => rfl⟩
  | @cons db db₁ db' call undo edits hundo h _ ih =>
    obtain ⟨db₂, h₂, hs₂, hsame⟩ := ih (hs.perform (allowed_of_undoes hundo (.inl rfl) _ _) h)
    obtain ⟨db₃, h₃, hs₃, hsame₃⟩ := hsame.takeBack hs hs₂ hundo h
    refine ⟨db₃, ?_, hs₃, hsame₃⟩
    rw [List.map_cons, List.reverse_cons, performAll_append, h₂]
    exact except_bind_eq_ok.mpr ⟨db₂, rfl, except_bind_eq_ok.mpr ⟨db₃, h₃, rfl⟩⟩

/-- Any changes of the names of a store go back, the last one first: each call that takes one back
succeeds, and in the end every file is under the names, and has the data and the links, that it
had. -/
theorem undone_of_edits (hdb : db.Reached) (h : Edits db edits db') :
    ∃ db'', db'.performAll (edits.map Prod.snd).reverse = .ok db'' ∧ SameFiles db db'' := by
  obtain ⟨db'', h'', -, hsame⟩ := h.takenBack hdb.sound
  exact ⟨db'', h'', hsame⟩

/-- A directory and a file in it, a second name for the file, and the directory moves below a new
one. -/
def moves : List ((Timestamp × StoreCall) × (Timestamp × StoreCall)) := [
  ((⟨1, 0⟩, .createNode 1 [97] (.directory 0o755) 0 0), (⟨10, 0⟩, .removeDir 1 [97])),
  ((⟨2, 0⟩, .createNode 2 [98] (.file 0o644) 0 0), (⟨9, 0⟩, .unlinkEntry 2 [98] false)),
  ((⟨3, 0⟩, .link 3 1 [99]), (⟨8, 0⟩, .unlinkEntry 1 [99] false)),
  ((⟨4, 0⟩, .createNode 1 [100] (.directory 0o755) 0 0), (⟨7, 0⟩, .removeDir 1 [100])),
  ((⟨5, 0⟩, .renameEntry 1 [97] 4 [97] false fun _ => false),
    (⟨6, 0⟩, .renameEntry 4 [97] 1 [97] true fun _ => false))]

theorem undone_of_moves :
    ∃ db'', ((Db.fresh 0 0 ⟨0, 0⟩).runCalls (moves.map Prod.fst)).performAll
        (moves.map Prod.snd).reverse = .ok db'' ∧ SameFiles (Db.fresh 0 0 ⟨0, 0⟩) db'' := by
  apply undone_of_edits (.fresh 0 0 ⟨0, 0⟩)
  refine .cons .directory (perform_of_done (by decide)) ?_
  refine .cons (.file nofun) (perform_of_done (by decide)) ?_
  refine .cons (.link (.inr ⟨2, [98], by decide⟩)) (perform_of_done (by decide)) ?_
  refine .cons .directory (perform_of_done (by decide)) ?_
  exact .cons (.rename (.inr (.inr (by decide)))) (perform_of_done (by decide)) (.nil _)

end Runs

end Db

end VibeDbfs
