import VibeDbfs.Storage.StoreRuns

/-!
When `rename_entry` succeeds, and everything that a successful one does to the names, the inodes
and the rows of the store.
-/

set_option autoImplicit false
set_option relaxedAutoImplicit false

namespace VibeDbfs

open Lib
open Relation (ReflTransGen)

namespace Db

variable {db db' : Db} {parent newParent : Nat} {name newName : Name} {now : Timestamp}
  {noreplace : Bool} {isOpen : Nat → Bool} {replaced : Option Inode}

/-- What may be replaced: a file by a file, and an empty directory by a directory. -/
def MayReplace (db : Db) (source target : Nat) : Prop :=
  db.kindOf source ≠ some .directory ∧ db.kindOf target ≠ some .directory ∨
    db.kindOf source = some .directory ∧ db.kindOf target = some .directory ∧
      ∀ e ∈ db.dirents, e.parentIno ≠ target

/-- The entry `d` may get the name `newName` in directory `newParent`. -/
structure MayMove (db : Db) (d : Dirent) (newParent : Nat) (newName : Name)
    (noreplace : Bool) : Prop where
  directory : db.kindOf newParent = some .directory
  outside : ¬(db.kindOf d.childIno = some .directory ∧
    ReflTransGen db.names.Up newParent d.childIno)
  place : (d.parentIno = newParent ∧ d.name = newName) ∨
    db.findEntry newParent newName = none ∨
      noreplace = false ∧ ∃ f, db.findEntry newParent newName = some f ∧
        db.MayReplace d.childIno f.childIno

/-- The entry of this name is the last one of inode `ino`, and no handle keeps the inode. -/
def Deletes (db : Db) (newParent : Nat) (newName : Name) (isOpen : Nat → Bool) (ino : Nat) : Prop :=
  ∃ f q, db.findEntry newParent newName = some f ∧ f.childIno = ino ∧
    db.findInode ino = some q ∧ LastName q (isOpen ino)

/-- What a rename between two different entries does. -/
structure Renamed (db db' : Db) (parent : Nat) (name : Name) (newParent : Nat) (newName : Name)
    (isOpen : Nat → Bool) : Prop where
  entries : ∀ p n, db'.findEntry p n =
    if p = newParent ∧ n = newName then (db.findEntry parent name).map fun d =>
      { d with parentIno := newParent, name := newName }
    else if p = parent ∧ n = name then none
    else db.findEntry p n
  unlinked : ∀ f, db.findEntry newParent newName = some f →
    ¬db.Deletes newParent newName isOpen f.childIno →
      db'.nlinkOf f.childIno + 1 = db.nlinkOf f.childIno
  deleted : ∀ ino, db.Deletes newParent newName isOpen ino → db'.findInode ino = none
  kept : ∀ ino, ¬db.Deletes newParent newName isOpen ino → db'.kindOf ino = db.kindOf ino
  chunks : ∀ row, row ∈ db'.fileChunks ↔ row ∈ db.fileChunks ∧
    ∀ ino, db.Deletes newParent newName isOpen ino →
      ¬((chunkKeys ino).1 ≤ row.id ∧ row.id ≤ (chunkKeys ino).2)
  targets : ∀ row, row ∈ db'.symlinkTargets ↔
    row ∈ db.symlinkTargets ∧ ¬db.Deletes newParent newName isOpen row.ino

section Lookup

theorem findEntry_eq_some (ht : db.names.Tree) {d : Dirent} :
    db.findEntry parent name = some d ↔
      d ∈ db.dirents ∧ d.parentIno = parent ∧ d.name = name := by
  constructor
  · exact findEntry_mem
  · rintro ⟨hd, rfl, rfl⟩
    rcases hfind : db.findEntry d.parentIno d.name with _ | e
    · exact (findEntry_eq_none hfind d hd rfl).elim
    · obtain ⟨he, hp, hn⟩ := findEntry_mem hfind
      have hsame := List.inj_on_of_nodup_map ht.distinct he hd (Prod.ext hp hn)
      rw [hsame]

theorem exists_inode (ht : db.names.Tree) {d : Dirent} (hd : d ∈ db.dirents) :
    ∃ r, db.findInode d.childIno = some r := by
  have hsome := ht.child d hd
  change (db.kindOf d.childIno).isSome at hsome
  rwa [← findInode_isSome, Option.isSome_iff_exists] at hsome

theorem lookup_of_entry (hk : db.Keys) {d : Dirent} {r : InodeRow} (hname : name.length ≤ nameMax)
    (hd : db.findEntry parent name = some d) (hr : db.findInode d.childIno = some r) :
    db.lookup parent name = .ok r.inode := by
  refine except_bind_eq_ok.mpr ⟨(), checkName_eq_ok.mpr hname, ?_⟩
  simp only [hd, Option.bind_some, hr]
  exact hk.inodeFromRow hr

theorem existingTarget_of_free (hname : newName.length ≤ nameMax)
    (hfree : db.findEntry newParent newName = none) :
    db.existingTarget newParent newName = .ok none := by
  have hlookup : db.lookup newParent newName = .error .notFound := by
    unfold lookup
    rw [show checkName newName = .ok () from checkName_eq_ok.mpr hname]
    simp only [hfree, Option.bind_none]
    rfl
  unfold existingTarget
  rw [hlookup]

theorem existingTarget_of_entry (hk : db.Keys) {f : Dirent} {q : InodeRow}
    (hname : newName.length ≤ nameMax)
    (hf : db.findEntry newParent newName = some f) (hq : db.findInode f.childIno = some q) :
    db.existingTarget newParent newName = .ok (some q.inode) := by
  unfold existingTarget
  rw [lookup_of_entry hk hname hf hq]

end Lookup

section Succeeds

theorem listDir_of_empty (hk : db.Keys) {ino : Nat} (hkind : db.kindOf ino = some .directory)
    (hempty : ∀ e ∈ db.dirents, e.parentIno ≠ ino) : db.listDir ino = .ok [] := by
  have hnone : (db.dirents.filter fun d => d.parentIno = ino) = [] := by
    refine List.filter_eq_nil_iff.mpr fun e he => ?_
    simpa using hempty e he
  rw [hk.listDir hkind, entriesOf, hnone]
  rfl

private theorem renameTargetError_iff (hk : db.Keys) (ht : db.names.Tree) {d f : Dirent}
    {r q : InodeRow}
    (hr : db.findInode d.childIno = some r) (hq : db.findInode f.childIno = some q) :
    db.renameTargetError r.inode q.inode = .ok () ↔
      db.MayReplace d.childIno f.childIno := by
  have hino : q.ino = f.childIno := findInode_ino hq
  rw [MayReplace, kindOf_of_find hr, kindOf_of_find hq, ← hino]
  simp only [ne_eq, Option.some.injEq]
  constructor
  · intro h
    obtain ⟨hkinds, hempty⟩ := renameTargetError_ok ht h
    change (q.kind = .directory ↔ r.kind = .directory) at hkinds
    by_cases hdir : q.kind = .directory
    · exact .inr ⟨hkinds.mp hdir, hdir, hempty hdir⟩
    · exact .inl ⟨fun h => hdir (hkinds.mpr h), hdir⟩
  · rintro (⟨hr', hq'⟩ | ⟨hr', hq', hempty⟩)
    · unfold renameTargetError InodeRow.inode
      rcases hrk : r.kind <;> rcases hqk : q.kind <;> simp_all
    · have hlist : db.listDir q.ino = .ok [] := by
        refine listDir_of_empty hk ?_ hempty
        rw [hino, kindOf_of_find hq, hq']
      unfold renameTargetError InodeRow.inode
      rw [hr', hq']
      exact except_bind_eq_ok.mpr ⟨[], hlist, rfl⟩

theorem movesBelow_iff (ht : db.names.Tree) (hnew : db.kindOf newParent = some .directory)
    {d : Dirent} {r : InodeRow} (hr : db.findInode d.childIno = some r) :
    db.movesBelow newParent r.inode = .ok false ↔
      ¬(db.kindOf d.childIno = some .directory ∧
        ReflTransGen db.names.Up newParent d.childIno) := by
  rw [kindOf_of_find hr, Option.some.injEq]
  by_cases hdir : r.kind = .directory
  · obtain ⟨below, hbelow, hiff⟩ := isDescendant_spec ht hnew r.ino
    rw [← findInode_ino hr, ← hiff]
    simp [movesBelow, InodeRow.inode, hdir, hbelow]
  · simp [movesBelow, InodeRow.inode, hdir]

private theorem renameEntry_of_checks (hk : db.Keys) {source : Inode} {existing : Option Inode}
    (hname : newName.length ≤ nameMax) (hsource : db.lookup parent name = .ok source)
    (hdir : db.kindOf newParent = some .directory)
    (hbelow : db.movesBelow newParent source = .ok false)
    (hdiff : ¬(parent = newParent ∧ name = newName))
    (hexisting : db.existingTarget newParent newName = .ok existing)
    (hno : ¬(noreplace = true ∧ existing.isSome = true))
    (hcheck : (existing.forM fun target => db.renameTargetError source target) = .ok ()) :
    db.renameEntry parent name newParent newName noreplace isOpen now =
      .ok (existing, db.renameTx parent name newParent newName source existing isOpen now) := by
  refine except_bind_eq_ok.mpr ⟨(), checkName_eq_ok.mpr hname, except_bind_eq_ok.mpr
    ⟨source, hsource, except_bind_eq_ok.mpr ⟨_, hk.inodeKindOf_eq_ok.mpr hdir, ?_⟩⟩⟩
  rw [if_neg (not_not.mpr rfl)]
  refine except_bind_eq_ok.mpr ⟨false, hbelow, ?_⟩
  rw [if_neg Bool.false_ne_true, if_neg hdiff]
  refine except_bind_eq_ok.mpr ⟨existing, hexisting, ?_⟩
  rw [if_neg hno]
  exact except_bind_eq_ok.mpr ⟨(), hcheck, rfl⟩

private theorem renameEntry_same (hk : db.Keys) {source : Inode}
    (hsource : db.lookup parent name = .ok source)
    (hname : name.length ≤ nameMax) (hdir : db.kindOf parent = some .directory)
    (hbelow : db.movesBelow parent source = .ok false) :
    db.renameEntry parent name parent name noreplace isOpen now = .ok (none, db) := by
  refine except_bind_eq_ok.mpr ⟨(), checkName_eq_ok.mpr hname, except_bind_eq_ok.mpr
    ⟨source, hsource, except_bind_eq_ok.mpr ⟨_, hk.inodeKindOf_eq_ok.mpr hdir, ?_⟩⟩⟩
  rw [if_neg (not_not.mpr rfl)]
  refine except_bind_eq_ok.mpr ⟨false, hbelow, ?_⟩
  rw [if_neg Bool.false_ne_true, if_pos ⟨rfl, rfl⟩]

theorem renameEntry_succeeds (hk : db.Keys) (ht : db.names.Tree) {d : Dirent}
    (hname : name.length ≤ nameMax)
    (hnew : newName.length ≤ nameMax) (hd : db.findEntry parent name = some d)
    (hmay : db.MayMove d newParent newName noreplace) :
    ∃ result, db.renameEntry parent name newParent newName noreplace isOpen now = .ok result := by
  obtain ⟨hmem, rfl, rfl⟩ := findEntry_mem hd
  obtain ⟨r, hr⟩ := exists_inode ht hmem
  have hsource := lookup_of_entry hk hname hd hr
  have hbelow := (movesBelow_iff ht hmay.directory hr).mpr hmay.outside
  by_cases hsame : d.parentIno = newParent ∧ d.name = newName
  · obtain ⟨rfl, rfl⟩ := hsame
    exact ⟨_, renameEntry_same hk hsource hname hmay.directory hbelow⟩
  · rcases hmay.place.resolve_left hsame with hfree | ⟨hno, f, hf, hreplace⟩
    · have hexisting := existingTarget_of_free hnew hfree
      exact ⟨_, renameEntry_of_checks hk hnew hsource hmay.directory hbelow hsame hexisting
        (fun h => Bool.noConfusion h.2) rfl⟩
    · obtain ⟨q, hq⟩ := exists_inode ht (findEntry_mem hf).1
      have hexisting := existingTarget_of_entry hk hnew hf hq
      have hcheck := (renameTargetError_iff hk ht hr hq).mpr hreplace
      exact ⟨_, renameEntry_of_checks hk hnew hsource hmay.directory hbelow hsame hexisting
        (fun h => Bool.noConfusion (hno.symm.trans h.1)) hcheck⟩

theorem mayMove_of_ok (hk : db.Keys) (ht : db.names.Tree)
    (h : db.renameEntry parent name newParent newName noreplace isOpen now = .ok (replaced, db')) :
    name.length ≤ nameMax ∧ newName.length ≤ nameMax ∧ ∃ d, db.findEntry parent name = some d ∧
      db.MayMove d newParent newName noreplace := by
  obtain ⟨_, hnew, -⟩ := except_bind_eq_ok.mp h
  rw [checkName_eq_ok] at hnew
  obtain ⟨source, hsource, hdir, hbelow, hcase⟩ := renameEntry_ok h
  obtain ⟨hname, d, r, hmem, rfl, rfl, hr, rfl⟩ := lookup_cases hsource
  refine ⟨hname, hnew, d, (findEntry_eq_some ht).mpr ⟨hmem, rfl, rfl⟩, hdir, ?_, ?_⟩
  · refine (movesBelow_iff ht hdir hr).mp ?_
    unfold movesBelow
    split
    · next hrdir => rw [hbelow hrdir]
    · rfl
  · rcases hcase with ⟨hsame, -, -⟩ | ⟨-, hno, hexisting, hcheck, -⟩
    · exact .inl hsame
    · right
      rcases replaced with _ | target
      · refine .inl ((Option.eq_none_iff_forall_ne_some).mpr fun e he => ?_)
        obtain ⟨he, hp, hn⟩ := findEntry_mem he
        exact existingTarget_none ht hexisting e he (by rw [hp, hn])
      · right
        obtain ⟨-, f, q, hf, hfp, hfn, hq, rfl⟩ := lookup_cases (existingTarget_some hexisting)
        refine ⟨Bool.eq_false_iff.mpr fun hyes => ?_, f,
          (findEntry_eq_some ht).mpr ⟨hf, hfp, hfn⟩,
          (renameTargetError_iff hk ht hr hq).mp (hcheck _ rfl)⟩
        cases hno hyes

end Succeeds

section Does

theorem mem_moveEntry (ht : db.names.Tree) {d : Dirent} (hd : d ∈ db.dirents)
    (sourceIsDir targetIsDir : Bool) {e : Dirent} :
    e ∈ (db.moveEntry d.parentIno d.name newParent newName sourceIsDir targetIsDir now).dirents ↔
      e = { d with parentIno := newParent, name := newName } ∨
        e ∈ db.dirents ∧ ¬(e.parentIno = d.parentIno ∧ e.name = d.name) := by
  rw [dirents_moveEntry, (perm_moveDirent ht hd newParent newName).mem_iff, List.mem_cons,
    deleteDirent, List.mem_filter, decide_eq_true_eq]

/-- Where the entries that have neither name stay and `d` gets the new one, the map of the names
changes at the two names only. -/
theorem findEntry_moved (ht : db.names.Tree) (ht' : db'.names.Tree) {d : Dirent}
    (hd : d ∈ db.dirents) (hdiff : ¬(d.parentIno = newParent ∧ d.name = newName))
    (hmem : ∀ e, e ∈ db'.dirents ↔ e = { d with parentIno := newParent, name := newName } ∨
      e ∈ db.dirents ∧ ¬(e.parentIno = d.parentIno ∧ e.name = d.name) ∧
        ¬(e.parentIno = newParent ∧ e.name = newName)) (p : Nat) (n : Name) :
    db'.findEntry p n =
      if p = newParent ∧ n = newName then (db.findEntry d.parentIno d.name).map fun d =>
        { d with parentIno := newParent, name := newName }
      else if p = d.parentIno ∧ n = d.name then none
      else db.findEntry p n := by
  apply Option.ext
  intro e
  rw [findEntry_eq_some ht', hmem]
  split_ifs with hnew hold
  · obtain ⟨rfl, rfl⟩ := hnew
    rw [(findEntry_eq_some ht).mpr ⟨hd, rfl, rfl⟩, Option.map_some, Option.some.injEq]
    constructor
    · rintro ⟨rfl | ⟨-, -, hother⟩, hp, hn⟩
      · rfl
      · exact (hother ⟨hp, hn⟩).elim
    · rintro rfl
      exact ⟨.inl rfl, rfl, rfl⟩
  · obtain ⟨rfl, rfl⟩ := hold
    simp only [iff_false]
    rintro ⟨rfl | ⟨-, hother, -⟩, hp, hn⟩
    · exact hdiff ⟨hp.symm, hn.symm⟩
    · exact hother ⟨hp, hn⟩
  · rw [findEntry_eq_some ht]
    constructor
    · rintro ⟨rfl | ⟨he, -, -⟩, hp, hn⟩
      · exact (hnew ⟨hp.symm, hn.symm⟩).elim
      · exact ⟨he, hp, hn⟩
    · rintro ⟨he, rfl, rfl⟩
      exact ⟨.inr ⟨he, hold, hnew⟩, rfl, rfl⟩

private theorem not_deletes_of_free (hfree : Names.Free db.dirents newParent newName) (ino : Nat) :
    ¬db.Deletes newParent newName isOpen ino := by
  rintro ⟨f, -, hf, -⟩
  obtain ⟨hf, hp, hn⟩ := findEntry_mem hf
  exact hfree f hf (by rw [hp, hn])

private theorem renamed_of_free (hl : db.Linked) (ht' : db'.names.Tree) {d : Dirent}
    (hd : d ∈ db.dirents) (hfree : Names.Free db.dirents newParent newName)
    (hdiff : ¬(d.parentIno = newParent ∧ d.name = newName)) (sourceIsDir : Bool)
    (hdb : db' = db.moveEntry d.parentIno d.name newParent newName sourceIsDir false now) :
    db.Renamed db' d.parentIno d.name newParent newName isOpen := by
  have hnone : ∀ ino, ¬db.Deletes newParent newName isOpen ino := not_deletes_of_free hfree
  constructor
  case entries =>
    apply findEntry_moved hl.tree ht' hd hdiff
    intro e
    rw [hdb, mem_moveEntry hl.tree hd]
    refine or_congr_right (and_congr_right fun he => ?_)
    rw [and_iff_left fun hat => hfree e he (Prod.ext hat.1 hat.2)]
  case unlinked =>
    intro f hf
    obtain ⟨hf, hp, hn⟩ := findEntry_mem hf
    exact (hfree f hf (Prod.ext hp hn)).elim
  case deleted =>
    intro ino hgone
    exact (hnone ino hgone).elim
  case kept =>
    intro ino _
    rw [hdb, kindOf_moveEntry]
  case chunks =>
    intro row
    rw [hdb, fileChunks_moveEntry, and_iff_left]
    intro ino hgone
    exact (hnone ino hgone).elim
  case targets =>
    intro row
    rw [hdb, symlinkTargets_moveEntry, and_iff_left (hnone row.ino)]

/-- An inode that keeps a name or a handle loses one link: the directories, whose link counts
change too, are other inodes. -/
private theorem nlinkOf_replaced (hl : db.Linked) {d f : Dirent} {q : InodeRow} {isOpen : Bool}
    (hd : d ∈ db.dirents) (hf : f ∈ db.dirents) (hq : db.findInode f.childIno = some q)
    (hempty : q.kind = .directory → ∀ e ∈ db.dirents, e.parentIno ≠ q.ino)
    (hmore : ¬LastName q isOpen) (sourceIsDir targetIsDir : Bool) :
    ((db.dropEntry f q isOpen now).moveEntry d.parentIno d.name f.parentIno f.name
      sourceIsDir targetIsDir now).nlinkOf f.childIno + 1 = db.nlinkOf f.childIno := by
  have hnamed : db.nlinkOf f.childIno ≠ 0 := by
    intro hzero
    exact hl.unnamed hzero f hf rfl
  have hapart : ∀ e ∈ db.dirents, f.childIno ≠ e.parentIno := by
    intro e he heq
    have hdir : db.kindOf e.parentIno = some .directory := hl.tree.parent e he
    rw [← heq, kindOf_of_find hq] at hdir
    exact hmore (.inl (Option.some.inj hdir))
  rcases dropEntry_cases now isOpen hl.tree hl.exact hf hq hempty with
    ⟨-, hkind, hnlink⟩ | ⟨hlast, -⟩
  · have hparent : ∀ e ∈ db.dirents,
        ((db.dropEntry f q isOpen now).kindOf e.parentIno).isSome := by
      intro e he
      rw [hkind]
      exact Option.isSome_of_eq_some (hl.tree.parent e he)
    rw [nlinkOf_moveEntry now sourceIsDir targetIsDir (hparent d hd) (hparent f hf), hnlink]
    simp only [hapart d hd, hapart f hf, and_false, if_false, if_true]
    omega
  · exact (hmore hlast).elim

private theorem deletes_iff (ht : db.names.Tree) {f : Dirent} {q : InodeRow} (hf : f ∈ db.dirents)
    (hq : db.findInode f.childIno = some q) {ino : Nat} :
    db.Deletes f.parentIno f.name isOpen ino ↔
      ino = f.childIno ∧ LastName q (isOpen f.childIno) := by
  have hentry := (findEntry_eq_some ht).mpr ⟨hf, rfl, rfl⟩
  constructor
  · rintro ⟨f', q', hf', rfl, hq', hlast⟩
    obtain rfl := Option.some.inj (hentry.symm.trans hf')
    obtain rfl := Option.some.inj (hq.symm.trans hq')
    exact ⟨rfl, hlast⟩
  · rintro ⟨rfl, hlast⟩
    exact ⟨f, q, hentry, rfl, hq, hlast⟩

private theorem renamed_of_replaced (hl : db.Linked) (ht' : db'.names.Tree) {d f : Dirent}
    {q : InodeRow} (hd : d ∈ db.dirents) (hf : f ∈ db.dirents) (hne : f ≠ d)
    (hq : db.findInode f.childIno = some q)
    (hempty : q.kind = .directory → ∀ e ∈ db.dirents, e.parentIno ≠ q.ino)
    (sourceIsDir targetIsDir : Bool)
    (hdb : db' = (db.dropEntry f q (isOpen f.childIno) now).moveEntry d.parentIno d.name
      f.parentIno f.name sourceIsDir targetIsDir now) :
    db.Renamed db' d.parentIno d.name f.parentIno f.name isOpen := by
  have hdirents := dirents_dropEntry now (isOpen f.childIno) hl.tree hl.exact hf hq hempty
  have htree := dropEntry_tree now (isOpen f.childIno) hl.tree hl.exact hf hq hempty
  have hmem : d ∈ (db.dropEntry f q (isOpen f.childIno) now).dirents :=
    mem_dropEntry hl.tree hl.exact hf hq hempty hd hne
  have hdiff : ¬(d.parentIno = f.parentIno ∧ d.name = f.name) := by
    intro hsame
    exact hne (List.inj_on_of_nodup_map hl.tree.distinct hf hd
      (Prod.ext hsame.1.symm hsame.2.symm))
  have hiff : ∀ ino, db.Deletes f.parentIno f.name isOpen ino ↔
      ino = f.childIno ∧ LastName q (isOpen f.childIno) := fun ino => deletes_iff hl.tree hf hq
  have hdata : (LastName q (isOpen f.childIno) → SameData (db.deleteInodeRows f.childIno) db') ∧
      (¬LastName q (isOpen f.childIno) → SameData db db') := by
    rw [hdb]
    have hdrop := sameData_dropEntry now (isOpen f.childIno) hq
    exact ⟨fun hlast => (hdrop.1 hlast).trans (sameData_moveEntry sourceIsDir targetIsDir),
      fun hmore => (hdrop.2 hmore).trans (sameData_moveEntry sourceIsDir targetIsDir)⟩
  constructor
  case entries =>
    apply findEntry_moved hl.tree ht' hd hdiff
    intro e
    rw [hdb, mem_moveEntry htree hmem, hdirents, deleteDirent, List.mem_filter, decide_eq_true_eq]
    refine or_congr_right ?_
    rw [and_assoc, and_comm (a := ¬(e.parentIno = f.parentIno ∧ e.name = f.name))]
  case unlinked =>
    intro f' hf' hkept
    rw [(findEntry_eq_some hl.tree).mpr ⟨hf, rfl, rfl⟩, Option.some.injEq] at hf'
    subst hf'
    rw [hdb]
    exact nlinkOf_replaced hl hd hf hq hempty (fun hlast => hkept ((hiff _).mpr ⟨rfl, hlast⟩))
      sourceIsDir targetIsDir
  case deleted =>
    intro ino hgone
    obtain ⟨rfl, hlast⟩ := (hiff ino).mp hgone
    have hnone : db'.kindOf f.childIno = none := by
      rw [(hdata.1 hlast).kind, kindOf_deleteInodeRows, if_pos rfl]
    exact Option.map_eq_none_iff.mp hnone
  case kept =>
    intro ino hkept
    rw [hiff] at hkept
    by_cases hlast : LastName q (isOpen f.childIno)
    · rw [(hdata.1 hlast).kind, kindOf_deleteInodeRows, if_neg fun h => hkept ⟨h, hlast⟩]
    · exact (hdata.2 hlast).kind ino
  case chunks =>
    intro row
    simp only [hiff]
    by_cases hlast : LastName q (isOpen f.childIno)
    · rw [(hdata.1 hlast).chunks]
      change row ∈ db.fileChunks.filter _ ↔ _
      simp only [List.mem_filter, decide_eq_true_eq, hlast, and_true, forall_eq]
      rfl
    · rw [(hdata.2 hlast).chunks]
      simp only [hlast, and_false, false_imp_iff, implies_true, and_true]
  case targets =>
    intro row
    rw [hiff]
    by_cases hlast : LastName q (isOpen f.childIno)
    · rw [(hdata.1 hlast).symlinks]
      change row ∈ db.symlinkTargets.filter _ ↔ _
      simp only [List.mem_filter, decide_eq_true_eq, hlast, and_true]
    · rw [(hdata.2 hlast).symlinks]
      simp only [hlast, and_false, not_false_eq_true, and_true]

theorem renameEntry_renamed (hs : db.Sound)
    (h : db.renameEntry parent name newParent newName noreplace isOpen now = .ok (replaced, db'))
    (hdiff : ¬(parent = newParent ∧ name = newName)) :
    db.Renamed db' parent name newParent newName isOpen := by
  have htree : db'.names.Tree := (hs.renameEntry h).tree
  obtain ⟨d, r, hd, rfl, rfl, hr, -, -, hcase⟩ := renameEntry_eq hs.tree h
  rcases hcase with ⟨hp, hn, -, -⟩ | ⟨-, hfree, hdb⟩ |
    ⟨f, q, hf, rfl, rfl, hne, hq, -, -, hempty, hdb⟩
  · exact (hdiff ⟨hp, hn⟩).elim
  · exact renamed_of_free hs.toLinked htree hd hfree hdiff _ hdb
  · rw [findInode_ino hq] at hdb
    exact renamed_of_replaced hs.toLinked htree hd hf hne hq hempty _ _ hdb

end Does

end Db

end VibeDbfs
