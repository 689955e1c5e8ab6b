import VibeDbfs.Storage.NameSteps

/-!
Opening an existing store: the root and the directory link counts are as they were, and exactly the
inodes with link count 0 go.
-/

set_option autoImplicit false
set_option relaxedAutoImplicit false

namespace VibeDbfs

open Lib
open Relation (ReflTransGen)

namespace Db

/-- The primary keys hold, the entries form a tree, and the link counts are exact. -/
structure Linked (db : Db) : Prop where
  keys : db.Keys
  tree : db.names.Tree
  exact : db.names.Exact

variable {db db' : Db} {ino j : Nat}

theorem Linked.of_steps (h : db.Linked) (hkeys : db'.Keys)
    (hsteps : ReflTransGen Names.Step db.names db'.names) : db'.Linked := by
  have hboth : db'.names.Tree ∧ db'.names.Exact := by
    generalize db'.names = n' at hsteps
    induction hsteps with
    | refl => exact ⟨h.tree, h.exact⟩
    | tail _ hstep ih => exact ⟨hstep.tree ih.1, hstep.exact ih.1 ih.2⟩
  exact ⟨hkeys, hboth.1, hboth.2⟩

private theorem Linked.root_nlink (h : db.Linked) : 2 ≤ db.nlinkOf 1 := by
  have hroot : db.names.kind 1 = some .directory := h.tree.root
  have hexact := h.exact 1 (Option.isSome_of_eq_some hroot)
  rw [Names.linkCount, if_pos hroot] at hexact
  change db.nlinkOf 1 = _ at hexact
  omega

theorem Linked.unnamed (h : db.Linked) (hnlink : db.nlinkOf ino = 0) :
    ∀ d ∈ db.dirents, d.childIno ≠ ino := by
  rintro d hd rfl
  have hexact := h.exact d.childIno (h.tree.child d hd)
  change db.nlinkOf d.childIno = _ at hexact
  rw [hnlink, Names.linkCount] at hexact
  split at hexact
  · omega
  · have := List.countP_eq_zero.mp hexact.symm d hd
    simp at this

theorem Linked.nlink_eq_zero (h : db.Linked) (hfile : db.kindOf ino ≠ some .directory)
    (hunnamed : ∀ d ∈ db.dirents, d.childIno ≠ ino) : db.nlinkOf ino = 0 := by
  rcases hkind : db.kindOf ino with _ | k
  · exact nlinkOf_of_none hkind
  · have hexact := h.exact ino (Option.isSome_of_eq_some hkind)
    rw [Names.linkCount, if_neg (show ¬db.names.kind ino = _ from hfile)] at hexact
    exact hexact.trans (List.countP_eq_zero.mpr fun d hd heq =>
      hunnamed d hd (of_decide_eq_true heq))

theorem Linked.nlink_eq_zero_iff (h : db.Linked) (hsome : (db.kindOf ino).isSome) :
    db.nlinkOf ino = 0 ↔ ino ≠ 1 ∧ ∀ d ∈ db.dirents, d.childIno ≠ ino := by
  constructor
  · intro hzero
    refine ⟨?_, h.unnamed hzero⟩
    rintro rfl
    have := h.root_nlink
    omega
  · rintro ⟨hroot, hunnamed⟩
    refine h.nlink_eq_zero (fun hdir => ?_) hunnamed
    have hone : db.dirents.countP (fun d => d.childIno = ino) = 1 := h.tree.named ino hroot hdir
    have hnone : db.dirents.countP (fun d => d.childIno = ino) = 0 :=
      List.countP_eq_zero.mpr fun d hd heq => hunnamed d hd (of_decide_eq_true heq)
    omega

section Sweep

variable {inos : List Nat}

private theorem findInode_sweep :
    (inos.foldl deleteInodeRows db).findInode j = if j ∈ inos then none else db.findInode j := by
  induction inos generalizing db with
  | nil => simp
  | cons i inos ih =>
    rw [List.foldl_cons, ih, findInode_deleteInodeRows]
    by_cases hj : j = i
    · simp [hj]
    · simp [hj]

private theorem sweep_keys (h : db.Keys) : (inos.foldl deleteInodeRows db).Keys := by
  induction inos generalizing db with
  | nil => exact h
  | cons i inos ih => exact ih (h.deleteInodeRows i)

private theorem sweep_steps (h : db.Linked) (hinos : ∀ i ∈ inos, db.nlinkOf i = 0) :
    ReflTransGen Names.Step db.names (inos.foldl deleteInodeRows db).names := by
  induction inos generalizing db with
  | nil => exact .refl
  | cons i inos ih =>
    have hstep : ReflTransGen Names.Step db.names (db.deleteInodeRows i).names := by
      by_cases hkind : (db.kindOf i).isSome
      · exact .single (deleteInode_step h.tree h.exact hkind (hinos i List.mem_cons_self))
      · rw [names_deleteInodeRows_of_none h.tree (by simpa using hkind)]
    refine hstep.trans (ih (h.of_steps (h.keys.deleteInodeRows i) hstep) fun k hk => ?_)
    by_cases hki : k = i
    · exact nlinkOf_of_none (by rw [hki, kindOf_deleteInodeRows, if_pos rfl])
    · rw [nlinkOf_deleteInodeRows hki]
      exact hinos k (List.mem_cons_of_mem _ hk)

end Sweep

section Initialize

variable (mountUid mountGid : UInt32) (now : Timestamp)

private theorem insertRoot_eq (h : db.Linked) : db.insertRoot mountUid mountGid now = db := by
  have hroot : (db.findInode 1).isSome := by
    rw [findInode_isSome]
    exact Option.isSome_of_eq_some h.tree.root
  unfold insertRoot
  rw [if_neg (by simp [Option.isSome_iff_ne_none.mp hroot])]

private theorem findInode_claimRoot (j : Nat) :
    (db.claimRoot mountUid mountGid now).findInode j = db.findInode j ∨
      ∃ r, db.findInode j = some r ∧ (db.claimRoot mountUid mountGid now).findInode j =
        some { r with uid := mountUid, gid := mountGid, ctimeNs := now.toNs } := by
  rw [claimRoot, findInode_updateInode]
  · split
    · rcases hfind : db.findInode j with _ | r
      · exact .inl rfl
      · rw [Option.map_some]
        split
        · exact .inr ⟨r, rfl, rfl⟩
        · exact .inl rfl
    · exact .inl rfl
  · intro r
    split <;> rfl

theorem names_claimRoot : (db.claimRoot mountUid mountGid now).names = db.names := by
  simp only [names, Names.mk.injEq]
  refine ⟨funext fun j => ?_, funext fun j => ?_, rfl⟩
  · rcases findInode_claimRoot mountUid mountGid now j with h | ⟨r, hr, h⟩
    · rw [kindOf, h, kindOf]
    · rw [kindOf, h, kindOf, hr]
      rfl
  · rcases findInode_claimRoot mountUid mountGid now j with h | ⟨r, hr, h⟩
    · rw [nlinkOf, h, nlinkOf]
    · rw [nlinkOf, h, nlinkOf, hr]
      rfl

theorem storedSize_claimRoot :
    (db.claimRoot mountUid mountGid now).storedSize j = db.storedSize j := by
  rcases findInode_claimRoot mountUid mountGid now j with h | ⟨r, hr, h⟩
  · rw [storedSize, h, storedSize]
  · rw [storedSize, h, storedSize, hr]
    rfl

theorem keys_claimRoot (h : db.Keys) : (db.claimRoot mountUid mountGid now).Keys :=
  h.updateInode fun r => by
    split <;> exact ⟨rfl, rfl⟩

theorem recompute_eq (h : db.Linked) : db.recomputeDirectoryNlink = db := by
  have hinodes : db.recomputeDirectoryNlink.inodes = db.inodes := by
    refine (List.map_congr_left fun r hr => ?_).trans (List.map_id _)
    have hfind := h.keys.mem_iff.mpr ⟨hr, rfl⟩
    rw [id]
    split
    · next hdir =>
      have hkind : db.names.kind r.ino = some .directory :=
        (kindOf_of_find hfind).trans (hdir ▸ rfl)
      have hexact := h.exact r.ino (Option.isSome_of_eq_some hkind)
      rw [Names.linkCount, if_pos hkind] at hexact
      change db.nlinkOf r.ino = _ at hexact
      rw [nlinkOf_of_find hfind] at hexact
      have hcount : db.dirents.countP (fun d => d.parentIno = r.ino ∧
          db.inodes.any fun child => child.ino = d.childIno ∧ child.kind = .directory) =
          db.dirents.countP fun d => d.parentIno = r.ino ∧
            db.names.kind d.childIno = some .directory := by
        refine List.countP_congr fun d hd => ?_
        have hchild : (db.inodes.any fun child =>
            child.ino = d.childIno ∧ child.kind = .directory) = true ↔
            db.names.kind d.childIno = some .directory := by
          rw [List.any_eq_true]
          constructor
          · rintro ⟨child, hmem, hc⟩
            rw [decide_eq_true_eq] at hc
            exact (kindOf_of_find (h.keys.mem_iff.mpr ⟨hmem, hc.1⟩)).trans (hc.2 ▸ rfl)
          · intro hk
            obtain ⟨child, hc, hck⟩ := Option.map_eq_some_iff.mp hk
            obtain ⟨hmem, hino⟩ := h.keys.mem_iff.mp hc
            exact ⟨child, hmem, by simp [hino, hck]⟩
        simp only [decide_eq_true_eq, hchild]
      rw [hcount]
      exact congrArg (fun nlink => ({ r with nlink := nlink } : InodeRow)) hexact.symm
    · rfl
  exact congrArg (fun inodes => ({ db with inodes := inodes } : Db)) hinodes

def orphans (db : Db) : List Nat :=
  (db.inodes.filter fun r => r.nlink = 0 ∧ r.ino ≠ 1).map InodeRow.ino

private theorem mem_orphans (h : db.Linked) :
    j ∈ db.orphans ↔ (db.kindOf j).isSome ∧ db.nlinkOf j = 0 := by
  simp only [orphans, List.mem_map, List.mem_filter, decide_eq_true_eq]
  constructor
  · rintro ⟨r, ⟨hr, hn, -⟩, rfl⟩
    have hfind := h.keys.mem_iff.mpr ⟨hr, rfl⟩
    exact ⟨by simp [kindOf_of_find hfind], (nlinkOf_of_find hfind).trans hn⟩
  · rintro ⟨hkind, hn⟩
    rw [← findInode_isSome, Option.isSome_iff_exists] at hkind
    obtain ⟨r, hr⟩ := hkind
    rw [nlinkOf_of_find hr] at hn
    obtain ⟨hmem, rfl⟩ := h.keys.mem_iff.mp hr
    refine ⟨r, ⟨hmem, hn, fun h1 => ?_⟩, rfl⟩
    have := h.root_nlink
    rw [← h1, nlinkOf_of_find hr] at this
    omega

private theorem Linked.claimRoot (h : db.Linked) : (db.claimRoot mountUid mountGid now).Linked :=
  ⟨keys_claimRoot mountUid mountGid now h.keys,
    (names_claimRoot mountUid mountGid now).symm ▸ h.tree,
    (names_claimRoot mountUid mountGid now).symm ▸ h.exact⟩

theorem initialize_eq (h : db.Linked) : db.initializeTables mountUid mountGid now =
    (db.claimRoot mountUid mountGid now).orphans.foldl deleteInodeRows
      (db.claimRoot mountUid mountGid now) := by
  unfold initializeTables initializeRows
  rw [insertRoot_eq mountUid mountGid now h]
  dsimp only
  rw [if_pos rfl, recompute_eq (h.claimRoot mountUid mountGid now)]
  rfl

private theorem initialize_steps (h : db.Linked) : ReflTransGen Names.Step db.names
    (db.initializeTables mountUid mountGid now).names := by
  have hclaim := h.claimRoot mountUid mountGid now
  rw [initialize_eq mountUid mountGid now h]
  conv_lhs => rw [← names_claimRoot mountUid mountGid now]
  exact sweep_steps hclaim fun i hi => ((mem_orphans hclaim).mp hi).2

theorem Linked.initializeTables (h : db.Linked) :
    (db.initializeTables mountUid mountGid now).Linked := by
  refine h.of_steps ?_ (initialize_steps mountUid mountGid now h)
  rw [initialize_eq mountUid mountGid now h]
  exact sweep_keys (keys_claimRoot mountUid mountGid now h.keys)

theorem mem_orphans_claimRoot (h : db.Linked) :
    j ∈ (db.claimRoot mountUid mountGid now).orphans ↔ (db.kindOf j).isSome ∧ db.nlinkOf j = 0 := by
  rw [mem_orphans (h.claimRoot mountUid mountGid now)]
  have hnames : (db.claimRoot mountUid mountGid now).names = db.names :=
    names_claimRoot mountUid mountGid now
  have hk : (db.claimRoot mountUid mountGid now).kindOf = db.kindOf := congrArg Names.kind hnames
  have hn : (db.claimRoot mountUid mountGid now).nlinkOf = db.nlinkOf := congrArg Names.nlink hnames
  rw [hk, hn]

theorem kindOf_initialize (h : db.Linked) :
    (db.initializeTables mountUid mountGid now).kindOf j =
      if db.nlinkOf j = 0 then none else db.kindOf j := by
  have hk : (db.claimRoot mountUid mountGid now).kindOf j = db.kindOf j :=
    congrFun (congrArg Names.kind (names_claimRoot mountUid mountGid now)) j
  rw [initialize_eq mountUid mountGid now h, kindOf, findInode_sweep]
  by_cases hmem : (db.kindOf j).isSome ∧ db.nlinkOf j = 0
  · rw [if_pos ((mem_orphans_claimRoot mountUid mountGid now h).mpr hmem), if_pos hmem.2]
    rfl
  · rw [if_neg fun h' => hmem ((mem_orphans_claimRoot mountUid mountGid now h).mp h')]
    split
    · next hn =>
      have hnone : db.kindOf j = none := by
        rw [← Option.not_isSome_iff_eq_none]
        exact fun hs => hmem ⟨hs, hn⟩
      rw [← hnone, ← hk]
      rfl
    · exact hk

theorem fresh_eq : Db.fresh mountUid mountGid now =
    ⟨[⟨1, .directory, 0o755, mountUid, mountGid, 0, now.toNs, now.toNs, now.toNs, 2, false⟩], [],
      [], []⟩ := by
  have hroot : Db.empty.insertRoot mountUid mountGid now =
      ⟨[⟨1, .directory, 0o755, mountUid, mountGid, 0, now.toNs, now.toNs, now.toNs, 2, false⟩], [],
        [], []⟩ := rfl
  rw [fresh, initializeTables, initializeRows, hroot]
  simp only [claimRoot, updateInode, List.map_cons, List.map_nil, ite_self]
  rfl

theorem kindOf_fresh :
    (Db.fresh mountUid mountGid now).kindOf j = if j = 1 then some .directory else none := by
  rw [fresh_eq]
  by_cases hj : j = 1 <;> simp [kindOf, findInode, hj, eq_comm]

theorem Linked.fresh : (Db.fresh mountUid mountGid now).Linked := by
  have hdirents : (Db.fresh mountUid mountGid now).names.entries = [] := by
    rw [fresh_eq]
    rfl
  have hkind : ∀ ino k, (Db.fresh mountUid mountGid now).names.kind ino = some k → ino = 1 := by
    intro ino k h
    change (Db.fresh mountUid mountGid now).kindOf ino = _ at h
    rw [kindOf_fresh] at h
    split at h
    · assumption
    · cases h
  refine ⟨?_, ⟨?_, ?_, ?_, ?_, ?_, ?_, ?_⟩, ?_⟩
  · rw [fresh_eq]
    exact ⟨by simp, by simp [maxIno], by simp, by simp⟩
  · exact (kindOf_fresh mountUid mountGid now).trans (if_pos rfl)
  · simp [hdirents]
  · simp [hdirents]
  · simp [hdirents]
  · simp [hdirents]
  · exact fun ino h1 hdir => (h1 (hkind ino _ hdir)).elim
  · intro ino hdir
    rw [hkind ino _ hdir]
  · intro ino hsome
    obtain ⟨k, hk⟩ := Option.isSome_iff_exists.mp hsome
    obtain rfl := hkind ino k hk
    rw [fresh_eq]
    rfl

end Initialize

end Db

end VibeDbfs
