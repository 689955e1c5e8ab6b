import VibeDbfs.Storage.Data
import VibeDbfs.Storage.Rebuild

/-!
An older store after opening it: every lookup, listing, symlink and read gives what the old tables
hold.
-/

set_option autoImplicit false
set_option relaxedAutoImplicit false

namespace VibeDbfs

open Lib Lib.Sql Lib.Prog Lib.Bytes Migration

namespace Legacy

variable {old : Legacy} {f : File} {c : Conn} {engine : Engine} {db : Db} {i d k s t : Table}

section Decode

/-- The tables of the migrated file, before the root and the link counts are seen to. -/
structure Decoded (old : Legacy) (db : Db) : Prop where
  inodes : List.Forall₂ SameInode old.inodes db.inodes
  dirents : (db.dirents.map Dirent.triple).Perm (old.entries.map LegacyEntry.triple)
  chunks : (db.fileChunks.map fun r => (r.id, r.data)).Perm (old.chunks.map LegacyChunk.row)
  targets : db.symlinkTargets = old.targets

private theorem rowsOf_of_bare {name : String} (h : (f.tables name).map Table.bare = some t) :
    f.rowsOf name = t.rows := by
  obtain ⟨t', ht', rfl⟩ := Option.map_eq_some_iff.mp h
  rw [File.rowsOf, ht']
  rfl

private theorem decoded_of_upgraded (h : Upgraded old c engine i d k s)
    (htargets : List.Forall₂ (fun r row => LegacyTarget.ofRow r = some row) s.rows old.targets) :
    Decoded old (Db.ofFile c.file) := by
  have htarget : ∀ r row, LegacyTarget.ofRow r = some row → SymlinkRow.ofRow r = row := by
    intro r row hrow
    simp only [LegacyTarget.ofRow, Option.bind_eq_bind, Option.bind_eq_some_iff,
      Option.some.injEq] at hrow
    obtain ⟨ino, hino, target, htarget, rfl⟩ := hrow
    simp [SymlinkRow.ofRow, nat?_eq_some.mp hino, blob?_eq_some.mp htarget, Value.blob?]
  constructor
  · rw [Db.ofFile, rowsOf_of_bare (h.tables "inodes")]
    change List.Forall₂ SameInode old.inodes ((i.rows.map (mergedRow engine)).map InodeRow.ofRow)
    rw [List.map_map, List.forall₂_map_right_iff]
    exact (List.Forall₂.flip h.inodes.rows).imp fun _ _ hr => hr.merged
  · rw [Db.ofFile, rowsOf_of_bare (h.tables "dirents")]
    exact h.dirents.triples
  · rw [Db.ofFile, rowsOf_of_bare (h.tables "file_chunks")]
    exact h.chunks.chunks
  · rw [Db.ofFile, rowsOf_of_bare (h.tables "symlink_targets")]
    refine (Paired.map_eq (g := id) htargets htarget).trans (List.map_id _)

end Decode

section Tables

private theorem inodesTable_of_upgraded (h : Upgraded old c engine i d k s) :
    ∃ t, c.file.tables "inodes" = some t ∧ t.view = false ∧
      ∀ column ∈ inodesTable.columns, column ∈ t.columns := by
  obtain ⟨t, ht, hbare⟩ := Option.map_eq_some_iff.mp (h.tables "inodes")
  have hplain := h.plain "inodes" _ rfl
  rw [← hbare] at hplain
  refine ⟨t, ht, hplain.view, fun column hcolumn => ?_⟩
  rw [← Table.bare_columns, hbare]
  exact hcolumn

private theorem direntsTable_of_upgraded (h : Upgraded old c engine i d k s) :
    ∃ t, c.file.tables "dirents" = some t ∧
      ∀ column ∈ ["parent_ino", "child_ino"], column ∈ t.columns := by
  obtain ⟨t, ht, hbare⟩ := Option.map_eq_some_iff.mp (h.tables "dirents")
  have hnames : ∀ column ∈ ["parent_ino", "child_ino"], column ∈ direntsTable.columns := by decide
  refine ⟨t, ht, fun column hcolumn => ?_⟩
  rw [← Table.bare_columns, hbare]
  exact h.dirents.columns column (hnames column hcolumn)

end Tables

section Initialize

variable (mountUid mountGid : UInt32) (now : Timestamp)

/-- The tables after opening: the rows match the older inodes, and nothing is swept. -/
structure Ready (old : Legacy) (db : Db) : Prop where
  inodes : List.Forall₂ (fun o r => LegacyInode.Matches o r.inode ∧ r.damaged = false)
    old.inodes db.inodes
  dirents : (db.dirents.map Dirent.triple).Perm (old.entries.map LegacyEntry.triple)
  chunks : (db.fileChunks.map fun r => (r.id, r.data)).Perm (old.chunks.map LegacyChunk.row)
  targets : db.symlinkTargets = old.targets

private theorem Decoded.ready (h : Decoded old db) (hold : old.Valid) (claim : Bool) :
    Ready old (db.initializeRows claim mountUid mountGid now) := by
  have hroot : (db.findInode 1).isNone = false := by
    obtain ⟨o, ho, hone⟩ := hold.root
    obtain ⟨r, hr, hsame⟩ := Paired.mem_left h.inodes ho
    rw [Option.isNone_eq_false_iff, Db.findInode, Keyed.find_isSome_iff]
    exact ⟨r, hr, hsame.ino.trans hone⟩
  have hinsert : db.insertRoot mountUid mountGid now = db := by
    unfold Db.insertRoot
    rw [hroot]
    rfl
  have hrow : ∀ o r, SameInode o r →
      (LegacyInode.Matches o r.inode ∧ r.damaged = false) ∧ r.nlink = o.nlink := by
    intro o r hsame
    exact ⟨⟨⟨hsame.ino, hsame.kind, hsame.mode, hsame.size, fun _ => ⟨hsame.uid, hsame.gid⟩,
      fun _ => hsame.nlink⟩, hsame.damaged⟩, hsame.nlink⟩
  generalize hclaimed : (if claim then db.claimRoot mountUid mountGid now else db) = db'
  have hclaim : List.Forall₂ (fun o r => (LegacyInode.Matches o r.inode ∧ r.damaged = false) ∧
      r.nlink = o.nlink) old.inodes db'.inodes := by
    subst hclaimed
    split
    · refine List.forall₂_map_right_iff.mpr (h.inodes.imp fun o r hsame => ?_)
      split
      · next hone =>
        dsimp only
        split
        · have hroot : o.ino = 1 := hsame.ino.symm.trans hone
          exact ⟨⟨⟨hsame.ino, hsame.kind, hsame.mode, hsame.size, fun hne => (hne hroot).elim,
            fun _ => hsame.nlink⟩, hsame.damaged⟩, hsame.nlink⟩
        · exact hrow o r hsame
      · exact hrow o r hsame
    · exact h.inodes.imp hrow
  have hrest : db'.dirents = db.dirents ∧ db'.fileChunks = db.fileChunks ∧
      db'.symlinkTargets = db.symlinkTargets := by
    subst hclaimed
    split
    · exact ⟨rfl, rfl, rfl⟩
    · exact ⟨rfl, rfl, rfl⟩
  have hrecompute : List.Forall₂ (fun o r => (LegacyInode.Matches o r.inode ∧ r.damaged = false) ∧
      0 < r.nlink) old.inodes db'.recomputeDirectoryNlink.inodes := by
    refine List.forall₂_map_right_iff.mpr ((Paired.and_left hclaim hold.links).imp ?_)
    rintro o r ⟨hlinks, ⟨hmatches, hintact⟩, hnlink⟩
    have hkind : r.kind = o.kind := hmatches.kind
    split
    · next hdir =>
      exact ⟨⟨⟨hmatches.ino, hmatches.kind, hmatches.mode, hmatches.size, hmatches.owner,
        fun hne => (hne (hkind.symm.trans hdir)).elim⟩, hintact⟩, by dsimp only; omega⟩
    · next hdir => exact ⟨⟨hmatches, hintact⟩, hnlink ▸ hlinks (hkind ▸ hdir)⟩
  have hsweep : db'.recomputeDirectoryNlink.sweepOrphans = db'.recomputeDirectoryNlink := by
    have hnone : db'.recomputeDirectoryNlink.inodes.filter
        (fun r => r.nlink = 0 ∧ r.ino ≠ 1) = [] := by
      refine List.filter_eq_nil_iff.mpr fun r hr => ?_
      obtain ⟨o, -, hro⟩ := Paired.mem_left (List.Forall₂.flip hrecompute) hr
      simp [Nat.ne_of_gt hro.2]
    unfold Db.sweepOrphans
    rw [hnone]
    rfl
  have hinit : db.initializeRows claim mountUid mountGid now = db'.recomputeDirectoryNlink := by
    unfold Db.initializeRows
    rw [hinsert]
    dsimp only
    rw [hclaimed, hsweep]
  rw [hinit]
  refine ⟨hrecompute.imp fun _ _ h => h.1, ?_, ?_, ?_⟩
  · exact hrest.1 ▸ h.dirents
  · exact hrest.2.1 ▸ h.chunks
  · exact hrest.2.2.trans h.targets

end Initialize

section Views

private theorem Ready.find (h : Ready old db) (ino : Nat) :
    (old.inode ino = none ∧ db.findInode ino = none) ∨
      ∃ o r, old.inode ino = some o ∧ db.findInode ino = some r ∧
        LegacyInode.Matches o r.inode := by
  have hrel := Paired.find LegacyInode.ino InodeRow.ino h.inodes
    (fun _ _ hmatch => hmatch.1.ino.symm) ino
  change Option.Rel _ (old.inode ino) (db.findInode ino) at hrel
  generalize old.inode ino = x at hrel
  generalize db.findInode ino = y at hrel
  cases hrel with
  | none => exact .inl ⟨rfl, rfl⟩
  | some hmatch => exact .inr ⟨_, _, rfl, rfl, hmatch.1⟩

private theorem Ready.keys (h : Ready old db) (hold : old.Valid) : db.Keys := by
  have hinos : db.inodes.map InodeRow.ino = old.inodes.map LegacyInode.ino :=
    (Paired.map_eq h.inodes fun _ _ hmatch => hmatch.1.ino.symm).symm
  refine ⟨hinos ▸ hold.inodes, fun r hr => ?_, ?_, fun r hr => ?_⟩
  rotate_left 2
  · obtain ⟨o, -, -, hintact⟩ := Paired.mem_left (List.Forall₂.flip h.inodes) hr
    exact hintact
  · obtain ⟨o, ho, hmatch⟩ := Paired.mem_left (List.Forall₂.flip h.inodes) hr
    have hino : r.ino = o.ino := hmatch.1.ino
    exact hino ▸ hold.inos o ho
  · have hids : db.fileChunks.map ChunkRow.id =
        (db.fileChunks.map fun r => (r.id, r.data)).map Prod.fst := by
      rw [List.map_map]
      rfl
    rw [hids, (h.chunks.map Prod.fst).nodup_iff, List.map_map]
    refine hold.chunks.of_map.map_on fun a ha b hb hab => ?_
    refine List.inj_on_of_nodup_map hold.chunks ha hb (Prod.ext_iff.mpr ?_)
    exact (chunkKey_inj (hold.owner_le ha) (hold.owner_le hb) (hold.indexes a ha)
      (hold.indexes b hb)).mp hab

private theorem Ready.findEntry (h : Ready old db) (hold : old.Valid) (parent : Nat) (name : Name) :
    (db.findEntry parent name).map Dirent.childIno = old.child parent name := by
  have hleft : (db.findEntry parent name).map Dirent.childIno =
      ((db.dirents.map Dirent.triple).find? fun e => (e.1, e.2.1) = (parent, name)).map
        fun e => e.2.2 := by
    rw [List.find?_map, Option.map_map]
    refine congrArg (Option.map _) (congrArg (fun p => db.dirents.find? p) (funext fun d => ?_))
    exact decide_eq_decide.mpr (by simp [Dirent.triple, Prod.ext_iff])
  have hright : old.child parent name =
      ((old.entries.map LegacyEntry.triple).find? fun e => (e.1, e.2.1) = (parent, name)).map
        fun e => e.2.2 := by
    rw [List.find?_map, Option.map_map]
    rfl
  rw [hleft, hright]
  refine congrArg (Option.map _) (Keyed.find_perm h.dirents ?_)
  rw [((h.dirents.map _).nodup_iff), List.map_map]
  exact hold.names

private theorem Ready.lookup (h : Ready old db) (hold : old.Valid) (parent : Nat) (name : Name) :
    match old.lookup parent name with
    | .ok o => ∃ inode, db.lookup parent name = .ok inode ∧ o.Matches inode
    | .error error => db.lookup parent name = .error error := by
  have hbind : ((db.findEntry parent name).bind fun d => db.findInode d.childIno) =
      (old.child parent name).bind db.findInode := by
    rw [← h.findEntry hold, Option.bind_map]
    rfl
  rcases hname : checkName name with error | _
  · have hold' : old.lookup parent name = .error error := by
      simp only [Legacy.lookup, hname, bind, Except.bind]
    have hnew : db.lookup parent name = .error error := by
      simp only [Db.lookup, hname, bind, Except.bind]
    rw [hold']
    exact hnew
  · rcases hchild : (old.child parent name).bind old.inode with _ | o
    · have hold' : old.lookup parent name = .error .notFound := by
        simp only [Legacy.lookup, hname, hchild, bind, Except.bind]
      have hrow : (old.child parent name).bind db.findInode = none := by
        rcases hc : old.child parent name with _ | c
        · rw [Option.bind_none]
        · rw [hc, Option.bind_some] at hchild
          rcases h.find c with ⟨-, hr⟩ | ⟨o, r, ho, -, -⟩
          · rw [Option.bind_some, hr]
          · rw [hchild] at ho
            cases ho
      rw [hold']
      simp only [Db.lookup, hname, hbind, hrow, bind, Except.bind]
    · have hold' : old.lookup parent name = .ok o := by
        simp only [Legacy.lookup, hname, hchild, bind, Except.bind]
      obtain ⟨c, hc, ho⟩ := Option.bind_eq_some_iff.mp hchild
      rw [hold']
      rcases h.find c with ⟨hnone, -⟩ | ⟨o', r, ho', hr, hmatch⟩
      · rw [hnone] at ho
        cases ho
      · obtain rfl := Option.some.inj (ho.symm.trans ho')
        refine ⟨r.inode, ?_, hmatch⟩
        rw [← (h.keys hold).inodeFromRow hr]
        simp only [Db.lookup, hname, hbind, hc, Option.bind_some, hr, bind, Except.bind]

private theorem Ready.chunk (h : Ready old db) (hold : old.Valid) {ino c : Nat}
    (hino : ino ≤ maxIno) (hc : c < maxChunks) : db.chunk ino c = old.chunk ino c := by
  refine congrArg (Option.getD · []) (Option.ext fun bytes => ?_)
  rw [Db.findChunk_eq_some (h.keys hold), Option.map_eq_some_iff]
  constructor
  · intro hmem
    have hold' : (chunkKey ino c, bytes) ∈ old.chunks.map LegacyChunk.row :=
      h.chunks.mem_iff.mp (List.mem_map_of_mem hmem)
    obtain ⟨e, he, hrow⟩ := List.mem_map.mp hold'
    obtain ⟨hkey, hdata⟩ := Prod.ext_iff.mp hrow
    have hpair := (chunkKey_inj (hold.owner_le he) hino (hold.indexes e he) hc).mp hkey
    exact ⟨e, (Keyed.find_eq_some_iff hold.chunks).mpr ⟨he, Prod.ext_iff.mpr hpair⟩, hdata⟩
  · rintro ⟨e, hfind, rfl⟩
    obtain ⟨he, hpair⟩ := (Keyed.find_eq_some_iff hold.chunks).mp hfind
    obtain ⟨rfl, rfl⟩ := Prod.ext_iff.mp hpair
    have hmem : e.row ∈ db.fileChunks.map fun r => (r.id, r.data) :=
      h.chunks.mem_iff.mpr (List.mem_map_of_mem he)
    obtain ⟨row, hrow, heq⟩ := List.mem_map.mp hmem
    obtain ⟨hkey, hdata⟩ := Prod.ext_iff.mp heq
    have hrow' : row = ⟨chunkKey e.ino e.chunkIndex, e.data⟩ := by
      cases row
      exact congrArg₂ ChunkRow.mk hkey hdata
    exact hrow' ▸ hrow

def listed (resolve : Nat → Option (Nat × FileKind)) (ino : Nat) (es : List (Nat × Name × Nat)) :
    List DirEntry :=
  (es.filter fun e => e.1 = ino).filterMap fun e =>
    (resolve e.2.2).map fun found => ⟨e.2.1, found.1, found.2⟩

private theorem listed_names {resolve : Nat → Option (Nat × FileKind)} {ino : Nat}
    {es : List (Nat × Name × Nat)} (hnodup : (es.map fun e => (e.1, e.2.1)).Nodup) :
    ((listed resolve ino es).map DirEntry.name).Nodup := by
  unfold List.Nodup listed
  rw [List.pairwise_map, List.pairwise_filterMap, List.pairwise_filter]
  refine (List.pairwise_map.mp hnodup).imp fun {a b} hab ha hb x hx y hy hxy => hab ?_
  obtain ⟨_, -, rfl⟩ := Option.map_eq_some_iff.mp hx
  obtain ⟨_, -, rfl⟩ := Option.map_eq_some_iff.mp hy
  rw [decide_eq_true_eq] at ha hb
  exact Prod.ext (ha.trans hb.symm) hxy

private theorem sort_eq {xs ys : List DirEntry} (hperm : xs.Perm ys)
    (hnodup : (xs.map DirEntry.name).Nodup) :
    (xs.insertionSort fun a b => a.name ≤ b.name) =
      ys.insertionSort fun a b => a.name ≤ b.name := by
  have htotal : Std.Total fun a b : DirEntry => a.name ≤ b.name :=
    ⟨fun a b => List.le_total a.name b.name⟩
  have htrans : IsTrans DirEntry fun a b => a.name ≤ b.name :=
    ⟨fun _ _ _ h h' => List.le_trans h h'⟩
  have hx := List.perm_insertionSort (fun a b : DirEntry => a.name ≤ b.name) xs
  have hy := List.perm_insertionSort (fun a b : DirEntry => a.name ≤ b.name) ys
  have hsorted := List.pairwise_insertionSort (fun a b : DirEntry => a.name ≤ b.name) xs
  refine List.Perm.eq_of_pairwise ?_ hsorted (List.pairwise_insertionSort _ ys)
    (hx.trans (hperm.trans hy.symm))
  intro a b ha hb hab hba
  exact List.inj_on_of_nodup_map hnodup (hx.mem_iff.mp ha) (hperm.mem_iff.mpr (hy.mem_iff.mp hb))
    (List.le_antisymm hab hba)

private theorem Ready.listDir (h : Ready old db) (hold : old.Valid) (ino : Nat) :
    db.listDir ino = old.listDir ino := by
  have hresolve : ∀ c name, (db.findInode c).map (fun r => (⟨name, r.ino, r.kind⟩ : DirEntry)) =
      (old.inode c).map fun o => ⟨name, o.ino, o.kind⟩ := by
    intro c name
    rcases h.find c with ⟨ho, hr⟩ | ⟨o, r, ho, hr, hmatch⟩
    · rw [ho, hr]
      rfl
    · rw [ho, hr, Option.map_some, Option.map_some, show r.ino = o.ino from hmatch.ino,
        show r.kind = o.kind from hmatch.kind]
  have hleft : (db.dirents.filter fun d => d.parentIno = ino).filterMap (fun d =>
      (db.findInode d.childIno).map fun r => (⟨d.name, r.ino, r.kind⟩ : DirEntry)) =
      listed (fun c => (old.inode c).map fun o => (o.ino, o.kind)) ino
        (db.dirents.map Dirent.triple) := by
    unfold listed
    rw [List.filter_map, List.filterMap_map]
    refine List.filterMap_congr fun d _ => ?_
    rw [hresolve, Function.comp_apply, Option.map_map]
    rfl
  have hright : (old.entries.filter fun e => e.parentIno = ino).filterMap (fun e =>
      (old.inode e.childIno).map fun o => (⟨e.name, o.ino, o.kind⟩ : DirEntry)) =
      listed (fun c => (old.inode c).map fun o => (o.ino, o.kind)) ino
        (old.entries.map LegacyEntry.triple) := by
    unfold listed
    rw [List.filter_map, List.filterMap_map]
    refine List.filterMap_congr fun e _ => ?_
    rw [Function.comp_apply, Option.map_map]
    rfl
  have hnodup : ((db.dirents.map Dirent.triple).map fun e => (e.1, e.2.1)).Nodup := by
    rw [(h.dirents.map _).nodup_iff, List.map_map]
    exact hold.names
  have hperm : (listed (fun c => (old.inode c).map fun o => (o.ino, o.kind)) ino
      (db.dirents.map Dirent.triple)).Perm (listed (fun c => (old.inode c).map fun o =>
        (o.ino, o.kind)) ino (old.entries.map LegacyEntry.triple)) :=
    (h.dirents.filter _).filterMap _
  rcases h.find ino with ⟨ho, hr⟩ | ⟨o, r, ho, hr, hmatch⟩
  · have hkind : db.inodeKindOf ino = .error .notFound := by rw [Db.inodeKindOf, hr]
    unfold Legacy.listDir Db.listDir
    rw [ho, hkind]
    rfl
  · have hkind : r.kind = o.kind := hmatch.kind
    by_cases hdir : o.kind = .directory
    · have hnew : db.listDir ino = .ok (db.entriesOf ino) :=
        (h.keys hold).listDir (by rw [Db.kindOf_of_find hr, hkind, hdir])
      rw [hnew, Legacy.listDir, ho]
      dsimp only
      rw [if_neg (not_not_intro hdir), hright, ← sort_eq hperm (listed_names hnodup)]
      exact congrArg (fun es : List DirEntry => (.ok (es.insertionSort fun a b => a.name ≤ b.name) :
        Except DbError (List DirEntry))) hleft
    · have hread : db.inodeKindOf ino = .ok o.kind :=
        (h.keys hold).inodeKindOf_eq_ok.mpr (by rw [Db.kindOf_of_find hr, hkind])
      unfold Legacy.listDir Db.listDir
      rw [ho, hread]
      dsimp only
      rw [if_pos hdir]
      exact if_pos hdir

private theorem Ready.readSymlink (h : Ready old db) (hold : old.Valid) (ino : Nat) :
    db.readSymlink ino = old.readSymlink ino := by
  unfold Legacy.readSymlink Db.readSymlink
  rw [h.targets]
  rcases h.find ino with ⟨ho, hr⟩ | ⟨o, r, ho, hr, hmatch⟩
  · rw [ho, Db.inodeKindOf, hr]
    rfl
  · have hkind : db.kindOf ino = some o.kind :=
      (Db.kindOf_of_find hr).trans (congrArg some hmatch.kind)
    rw [ho, (h.keys hold).inodeKindOf_eq_ok.mpr hkind]
    rfl

private theorem Ready.readFile (h : Ready old db) (hold : old.Valid) (ino offset size : Nat) :
    db.readFile ino offset size = old.readFile ino offset size := by
  rcases h.find ino with ⟨ho, hr⟩ | ⟨o, r, ho, hr, hmatch⟩
  · have hhead : db.inodeHead ino = .error .notFound := Db.inodeHead_none hr
    have hread : old.readFile ino offset size =
        .error .notFound := by simp only [Legacy.readFile, ho]
    rw [hread, Db.readFile, hhead]
    exact rfl
  · have hkind : r.kind = o.kind := hmatch.kind
    have hsize : r.size = o.size := hmatch.size
    have hmem : o ∈ old.inodes ∧ o.ino = ino := (Keyed.find_eq_some_iff hold.inodes).mp ho
    rcases herror : o.kind.regularFileError with _ | error
    · have hregular : db.kindOf ino = some .regularFile := by
        rw [Db.kindOf_of_find hr, hkind, FileKind.regularFileError_eq_none.mp herror]
      have hstored : db.storedSize ino = o.size := (Db.storedSize_of_find hr).trans hsize
      have hmax : ino ≤ maxIno := hmem.2 ▸ (hold.inos o hmem.1).2
      have hlt := hold.sizes o hmem.1
      have hread : old.readFile ino offset size = .ok
          (tabulate (min size (o.size - offset)) fun p => old.byte ino (offset + p)) := by
        simp only [Legacy.readFile, ho, herror]
      rw [hread, Db.readFile_of_regular (h.keys hold) hregular, hstored]
      split
      · next hempty =>
        have hzero : min size (o.size - offset) = 0 := by omega
        rw [hzero]
        rfl
      · next hne =>
        rw [not_or] at hne
        rw [Db.readInto_eq (h.keys hold) hmax (by omega) (by omega)]
        refine congrArg (fun f => Except.ok (tabulate _ f)) (funext fun p => ?_)
        unfold Legacy.byte
        split
        · next hc => rw [h.chunk hold hmax hc]
        · next hc =>
          have hnone : old.chunks.find? (fun e => (e.ino, e.chunkIndex) =
              (ino, (offset + p) / chunkSize)) = none := by
            refine Keyed.find_eq_none_iff.mpr fun e he heq => hc ?_
            have hindex : e.chunkIndex = (offset + p) / chunkSize := (Prod.ext_iff.mp heq).2
            exact hindex ▸ hold.indexes e he
          rw [Legacy.chunk, hnone]
          rfl
    · have hread : old.readFile ino offset size = .error error := by
        simp only [Legacy.readFile, ho, herror]
      have hhead : db.inodeHead ino = .ok (o.kind, r.size) := hkind ▸ (h.keys hold).inodeHead hr
      have hstored : db.readFile ino offset size = .error error := by
        simp only [Db.readFile, hhead, herror, bind, Except.bind]
      rw [hread, hstored]

private theorem Ready.preserved (h : Ready old db) (hold : old.Valid) : Preserved old db :=
  ⟨h.lookup hold, h.listDir hold, h.readSymlink hold, h.readFile hold,
    (Paired.map_eq h.inodes fun _ _ hmatch => hmatch.1.ino.symm).symm, h.dirents, h.chunks⟩

end Views

section Migration

variable (engine : Engine) (mountUid mountGid : UInt32) (now : Timestamp)

/-- Opening a valid store of version 0 to 3 succeeds, brings the file to version 4, and keeps every
inode, name, symlink target and byte. -/
theorem preserved_of_openFile (hworks : engine.Works) (hlayout : Layout f)
    (hread : ofFile f = some old) (hold : old.Valid) :
    ∃ db f', Db.openFile engine f mountUid mountGid now = (.ok db, f') ∧
      f'.userVersion = schemaVersion ∧ Preserved old db := by
  have htargets : List.Forall₂ (fun r row => LegacyTarget.ofRow r = some row)
      (tableOr f "symlink_targets" symlinkTargetsTable).rows old.targets := by
    simp only [ofFile, Option.bind_eq_bind, Option.bind_eq_some_iff, Option.some.injEq] at hread
    obtain ⟨_, -, _, -, _, -, targets, htargets, rfl⟩ := hread
    rw [rowsOf_tableOr]
    exact Paired.mapM_eq_some_iff.mp htargets
  obtain ⟨claim, c', ⟨engine', i, d, k, hupgraded⟩, hinit⟩ := Db.initializeFile_gives
    mountUid mountGid now
    (upgrade_gives hworks hlayout hread hold)
    (fun c' hc' => by
      obtain ⟨engine', i, d, k, hupgraded⟩ := hc'
      exact hupgraded.works)
    (fun c' hc' => by
      obtain ⟨engine', i, d, k, hupgraded⟩ := hc'
      exact inodesTable_of_upgraded hupgraded)
    (fun c' hc' => by
      obtain ⟨engine', i, d, k, hupgraded⟩ := hc'
      exact direntsTable_of_upgraded hupgraded)
  refine ⟨_, c'.file, ?_, hupgraded.version,
    ((decoded_of_upgraded hupgraded htargets).ready mountUid mountGid now hold claim).preserved
      hold⟩
  unfold Db.openFile
  rw [hinit]

/-- A file of version 2: entries without ids, seconds and fractions, chunks by inode and index. -/
def version2File : File where
  userVersion := 2
  indexes := [direntsChild]
  tables name := [
    ("inodes", {
      columns := ["ino", "kind", "mode", "uid", "gid", "size", "atime", "mtime", "ctime", "nlink",
        "atime_nsec", "mtime_nsec", "ctime_nsec"]
      rowid := some "ino", primaryKey := ["ino"], foreignKeys := []
      rows := [[1, 2, 493, 0, 0, 0, 1, 1, 1, 2, 0, 0, 0],
        [5, 1, 420, 7, 7, 65538, -1, 1, 1, 1, 9, 0, 0]].map fun values =>
          Sql.row (["ino", "kind", "mode", "uid", "gid", "size", "atime", "mtime", "ctime", "nlink",
            "atime_nsec", "mtime_nsec", "ctime_nsec"].zip (values.map .integer)) }),
    ("dirents", {
      columns := ["parent_ino", "name", "child_ino"], rowid := none
      primaryKey := ["parent_ino", "name"], foreignKeys := []
      rows := [Sql.row [("parent_ino", .integer 1), ("name", .blob [97]),
        ("child_ino", .integer 5)]] }),
    ("file_chunks", {
      columns := ["ino", "chunk_index", "data"], rowid := none
      primaryKey := ["ino", "chunk_index"], foreignKeys := []
      rows := [Sql.row [("ino", .integer 5), ("chunk_index", .integer 1),
        ("data", .blob [65, 66])]] }),
    ("symlink_targets", {
      columns := ["ino", "target"], rowid := some "ino", primaryKey := ["ino"], foreignKeys := []
      rows := [] })].lookup name

def version2Store : Legacy where
  inodes := [⟨1, .directory, 493, 0, 0, 0, 2⟩, ⟨5, .regularFile, 420, 7, 7, 65538, 1⟩]
  entries := [⟨1, [97], 5⟩]
  chunks := [⟨5, 1, [65, 66]⟩]
  targets := []

theorem preserved_of_version2 : Layout version2File ∧ ofFile version2File = some version2Store ∧
    version2Store.Valid ∧ ∃ db f', Db.openFile .plain version2File 3 3 ⟨9, 0⟩ = (.ok db, f') ∧
      f'.userVersion = schemaVersion ∧ Preserved version2Store db := by
  have hlayout : Layout version2File := by
    refine ⟨by decide, fun name h => ?_, fun name t h => ?_, by decide,
      ⟨_, rfl, by decide, by decide, by decide, ?_, ?_⟩, ?_, ?_, ?_⟩
    · by_contra hname
      have hnone : version2File.tables name = none := by
        refine List.lookup_eq_none_iff.mpr ?_
        simpa using hname
      rw [hnone] at h
      cases h
    · obtain ⟨before, after, hsplit, -⟩ := List.lookup_eq_some_iff.mp h
      have hmem : (name, t) ∈ before ++ (name, t) :: after := by simp
      rw [← hsplit] at hmem
      simp only [List.mem_cons, Prod.mk.injEq, List.not_mem_nil, or_false] at hmem
      rcases hmem with ⟨-, rfl⟩ | ⟨-, rfl⟩ | ⟨-, rfl⟩ | ⟨-, rfl⟩ <;> exact ⟨rfl, rfl⟩
    · simp
    · simp [nsecColumns]
    · rintro t ⟨⟩
      exact ⟨by decide, by decide, by simp⟩
    · rintro t ⟨⟩
      decide
    · rintro t ⟨⟩
      decide
  have hread : ofFile version2File = some version2Store := by decide
  have hvalid : version2Store.Valid := ⟨by decide, by decide, by decide, by decide, by decide,
    by decide, by decide, by decide, by decide, by decide, by decide⟩
  exact ⟨hlayout, hread, hvalid, preserved_of_openFile .plain 3 3 ⟨9, 0⟩
    (fun _ _ => rfl) hlayout hread hvalid⟩

end Migration

end Legacy

end VibeDbfs
