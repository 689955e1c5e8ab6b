import VibeDbfs.Fuse.Shared
import VibeDbfs.Lib.Paging
import VibeDbfs.Storage.StoreRuns

/-!
Directory listings by cookie: pages of a listing with changes of the store between them.
-/

set_option autoImplicit false
set_option relaxedAutoImplicit false

namespace VibeDbfs

open Lib

structure DbfsDirEntry where
  name : Name
  ino : Nat
  kind : FileKind
  offset : Int
  deriving DecidableEq, Repr

/-- A row of the query of `read_dir_after`. -/
structure DirRow where
  id : Nat
  name : Name
  child : Nat
  kind : FileKind
  damaged : Bool

/-- Hands `items` to `emit`, which keeps a state, until it says to stop. -/
def feed {α σ : Type} (emit : α → σ → Bool × σ) : List α → σ → σ
  | [], state => state
  | item :: items, state =>
    match emit item state with
    | (true, state) => state
    | (false, state) => feed emit items state

namespace Db

/-- The parent directory of directory `ino`; the root is its own parent. -/
def parentOfDir (db : Db) (ino : Nat) : Except DbError Nat :=
  if ino = 1 then .ok 1
  else
    match db.dirents.find? fun d => d.childIno = ino with
    | some d => .ok d.parentIno
    | none => .error .notFound

/-- The rows of directory `ino` with an id above `afterId`, in id order. -/
def rowsAfter (db : Db) (ino : Nat) (afterId : Int) : List DirRow :=
  let rows := (db.dirents.filter fun d => d.parentIno = ino ∧ afterId < d.id).filterMap fun d =>
    (db.findInode d.childIno).map fun r =>
      (⟨d.id, d.name, d.childIno, r.kind, r.damaged⟩ : DirRow)
  rows.insertionSort fun a b => a.id ≤ b.id

/-- The loop of `read_dir_after`: `feed`, up to the first row of an unknown kind. -/
def feedRows {σ : Type} (emit : DirRow → σ → Bool × σ) : List DirRow → σ → Except DbError σ
  | [], state => .ok state
  | row :: rows, state =>
    if row.damaged then .error .corrupt
    else
      match emit row state with
      | (true, state) => .ok state
      | (false, state) => feedRows emit rows state

def readDirAfter {σ : Type} (db : Db) (ino : Nat) (afterId : Int)
    (emit : DirRow → σ → Bool × σ) (state : σ) : Except DbError σ := do
  if (← db.inodeKindOf ino) ≠ .directory then .error .notDirectory
  else feedRows emit (db.rowsAfter ino afterId) state

end Db

namespace Dbfs

/-- The directory that `..` names. -/
def dotDot (db : Db) (ino : Nat) : Except Errno Nat :=
  match db.parentOfDir ino with
  | .ok parent => .ok parent
  | .error .notFound => .ok ino
  | .error error => .error (errnoFromDbError error)

/-- `if wanted && emit(entry) { return Ok(()) }`, and what follows. -/
def offer {σ : Type} (wanted : Prop) [Decidable wanted] (emit : DbfsDirEntry → σ → Bool × σ)
    (entry : DbfsDirEntry) (state : σ) (rest : σ → Except Errno σ) : Except Errno σ :=
  if wanted then
    match emit entry state with
    | (true, state) => .ok state
    | (false, state) => rest state
  else rest state

/-- Streams the entries after `offset`. The offset of `.` is 1, that of `..` is 2, and that of the
entry with id `n` is `n + 2`. -/
def readdirStream {σ : Type} (db : Db) (ino : Nat) (offset : Int)
    (emit : DbfsDirEntry → σ → Bool × σ) (state : σ) : Except Errno σ := do
  let parent ← dotDot db ino
  offer (offset < 1) emit ⟨[46], ino, .directory, 1⟩ state fun state =>
    offer (offset < 2) emit ⟨[46, 46], parent, .directory, 2⟩ state fun state =>
      (db.readDirAfter ino (max (offset - 2) 0)
        (fun row => emit ⟨row.name, row.child, row.kind, row.id + 2⟩) state).mapError
          errnoFromDbError

def addTo (full : List DbfsDirEntry → DbfsDirEntry → Bool) (entry : DbfsDirEntry)
    (entries : List DbfsDirEntry) : Bool × List DbfsDirEntry :=
  if full entries entry then (true, entries) else (false, entries ++ [entry])

/-- The entries that one `readdir` request accepts. -/
def readPage (db : Db) (ino : Nat) (offset : Int) (full : List DbfsDirEntry → DbfsDirEntry → Bool) :
    Except Errno (List DbfsDirEntry) :=
  readdirStream db ino offset (addTo full) []

/-- Collects every entry after `offset`. -/
def readdir (db : Db) (ino : Nat) (offset : Int) : Except Errno (List DbfsDirEntry) :=
  readPage db ino offset fun _ _ => false

end Dbfs

/-- A page of a listing, and the store that it was read from. -/
structure ListedPage where
  db : Db
  entries : List DbfsDirEntry

structure Listing where
  db : Db
  pages : List ListedPage

inductive Turn where
  | page (full : List DbfsDirEntry → DbfsDirEntry → Bool)
  | change (call : Timestamp × StoreCall)

namespace Listing

def accepted (l : Listing) : List DbfsDirEntry := l.pages.flatMap ListedPage.entries

def nextOffset (l : Listing) : Int := Page.cursor 0 (l.accepted.map DbfsDirEntry.offset)

def turn (dir : Nat) (l : Listing) : Turn → Listing
  | .page full =>
    match Dbfs.readPage l.db dir l.nextOffset full with
    | .ok entries => { l with pages := l.pages ++ [⟨l.db, entries⟩] }
    | .error _ => l
  | .change call => { l with db := l.db.step call }

def run (dir : Nat) (l : Listing) (turns : List Turn) : Listing := runFrom (turn dir) l turns

def AllowedTurn (l : Listing) : Turn → Prop
  | .page _ => True
  | .change call => l.db.Allowed call

def finish (dir : Nat) (l : Listing) : Listing := l.turn dir (.page fun _ _ => false)

/-- `holds` is true of the store from the start of the listing to its end. -/
def Lasts (holds : Db → Prop) (dir : Nat) : Listing → List Turn → Prop
  | l, [] => holds l.db
  | l, t :: turns => holds l.db ∧ Lasts holds dir (l.turn dir t) turns

end Listing

/-- `e` is `.`, `..` or an entry of `dir` in `db`. -/
def Db.Lists (db : Db) (dir : Nat) (e : DbfsDirEntry) : Prop :=
  e = ⟨[46], dir, .directory, 1⟩ ∨
  (∃ parent, Dbfs.dotDot db dir = .ok parent ∧ e = ⟨[46, 46], parent, .directory, 2⟩) ∨
  ∃ d ∈ db.dirents, d.parentIno = dir ∧ e.name = d.name ∧ e.ino = d.childIno ∧
    db.kindOf d.childIno = some e.kind ∧ e.offset = d.id + 2
namespace Db

structure EntryIds (db : Db) : Prop where
  nodup : (db.dirents.map Dirent.id).Nodup
  pos : ∀ d ∈ db.dirents, 0 < d.id

variable {db db' : Db} {now : Timestamp}

theorem EntryIds.of_sublist (h : db.EntryIds)
    (hsub : (db'.dirents.map Dirent.id).Sublist (db.dirents.map Dirent.id)) : db'.EntryIds := by
  refine ⟨h.nodup.sublist hsub, fun d hd => ?_⟩
  obtain ⟨e, he, heq⟩ := List.mem_map.mp (hsub.subset (List.mem_map_of_mem hd))
  exact heq ▸ h.pos e he

private theorem EntryIds.addEntry (h : db.EntryIds) {parent child : Nat} {name : Name}
    (hdirents : db'.dirents = (db.addEntry parent name child).dirents) : db'.EntryIds := by
  have hnew : db'.dirents = db.dirents ++
    [⟨nextRowid (db.dirents.map Dirent.id), parent, name, child⟩] := hdirents
  refine ⟨?_, fun d hd => ?_⟩
  · rw [hnew]
    exact Keyed.nodup_append_singleton h.nodup fun d hd =>
      Nat.ne_of_lt (lt_nextRowid (List.mem_map_of_mem hd))
  · rw [hnew] at hd
    rcases List.mem_append.mp hd with hd | hd
    · exact h.pos d hd
    · rw [List.mem_singleton.mp hd]
      exact Nat.succ_pos _

private theorem dirents_dropUnlinkedInode (target : Inode) (isOpen : Bool) :
    (db.dropUnlinkedInode target now isOpen).dirents.Sublist db.dirents := by
  unfold dropUnlinkedInode
  split_ifs
  · exact List.filter_sublist
  · exact List.Sublist.refl _
  · exact List.filter_sublist

private theorem dirents_sweep (inos : List Nat) :
    (inos.foldl Db.deleteInodeRows db).dirents.Sublist db.dirents := by
  induction inos generalizing db with
  | nil => exact List.Sublist.refl _
  | cons ino inos ih => exact ih.trans List.filter_sublist

private theorem dirents_initializeTables (mountUid mountGid : UInt32) :
    (db.initializeTables mountUid mountGid now).dirents.Sublist db.dirents := by
  refine (dirents_sweep _).trans ?_
  have hroot : (db.insertRoot mountUid mountGid now).dirents = db.dirents := by
    unfold insertRoot
    dsimp only
    split <;> rfl
  exact hroot ▸ List.Sublist.refl _

private theorem ids_moveEntry (parent : Nat) (name : Name) (newParent : Nat) (newName : Name)
    (sourceIsDir targetIsDir : Bool) :
    (db.moveEntry parent name newParent newName sourceIsDir targetIsDir now).dirents.map Dirent.id =
      db.dirents.map Dirent.id := by
  rw [dirents_moveEntry, moveDirent, List.map_map]
  refine List.map_congr_left fun d _ => ?_
  simp only [Function.comp_apply]
  split <;> rfl

private theorem ids_renameTx (parent : Nat) (name : Name) (newParent : Nat) (newName : Name)
    (source : Inode) (existing : Option Inode) (isOpen : Nat → Bool) :
    ((db.renameTx parent name newParent newName source existing isOpen now).dirents.map
      Dirent.id).Sublist (db.dirents.map Dirent.id) := by
  unfold renameTx
  rcases existing with _ | target
  · dsimp only
    rw [ids_moveEntry]
  · dsimp only
    rw [ids_moveEntry]
    exact ((dirents_dropUnlinkedInode target _).trans List.filter_sublist).map _

theorem EntryIds.perform (h : db.EntryIds) (hs : db.Sound) {call : StoreCall}
    (hperform : db.perform now call = .ok db') : db'.EntryIds := by
  cases call with
  | createNode parent name node uid gid =>
    obtain ⟨⟨inode, db''⟩, hcreate, ⟨⟩⟩ := except_bind_eq_ok.mp hperform
    obtain ⟨-, -, -, -, -, hdb⟩ := createNode_cases hcreate
    have hdirents : db'.dirents = (db.addEntry parent name db.nextIno).dirents := by
      rw [hdb]
      split <;> rfl
    exact h.addEntry hdirents
  | link ino newParent newName =>
    obtain ⟨⟨inode, db''⟩, hlink, ⟨⟩⟩ := except_bind_eq_ok.mp hperform
    obtain ⟨-, r, -, -, -, -, -, rfl⟩ := link_cases hlink
    exact h.addEntry rfl
  | unlinkEntry parent name isOpen =>
    obtain ⟨target, hlookup, hunlink⟩ := except_bind_eq_ok.mp hperform
    obtain ⟨-, rfl⟩ := unlinkEntry_cases hunlink
    exact h.of_sublist (((dirents_dropUnlinkedInode target isOpen).trans
      List.filter_sublist).map _)
  | removeDir parent name =>
    obtain ⟨d, r, -, -, -, -, -, -, rfl⟩ := removeDir_cases hperform
    exact h.of_sublist ((List.filter_sublist.trans List.filter_sublist).map _)
  | renameEntry parent name newParent newName noreplace isOpen =>
    obtain ⟨⟨replaced, db''⟩, hrename, ⟨⟩⟩ := except_bind_eq_ok.mp hperform
    obtain ⟨source, -, -, -, hcase⟩ := renameEntry_ok hrename
    rcases hcase with ⟨-, -, rfl⟩ | ⟨-, -, -, -, rfl⟩
    · exact h
    · exact h.of_sublist (ids_renameTx parent name newParent newName source replaced isOpen)
  | deleteInode ino =>
    cases hperform
    exact h.of_sublist (List.filter_sublist.map _)
  | writeFileBatch ino writes =>
    obtain ⟨⟨written, db''⟩, hwrite, ⟨⟩⟩ := except_bind_eq_ok.mp hperform
    have hnames : db'.names = db.names := by
      rcases writeFileBatchAt_cases hs.keys hs.owned hwrite with rfl | ⟨-, mid, size, hbatch, rfl⟩
      · rfl
      · exact names_setSize.trans hbatch.names
    have hids := congrArg (fun n => n.entries.map Dirent.id) hnames
    exact h.of_sublist (hids ▸ List.Sublist.refl _)
  | truncateFile ino size =>
    obtain ⟨-, -, rfl⟩ := truncateFile_cases hperform
    have hdirents : (db.cutAt ino size).dirents = db.dirents := (cutAt_rows db ino size).2.1
    exact h.of_sublist (hdirents ▸ List.Sublist.refl _)
  | updateMetadata ino update =>
    obtain ⟨-, f, rfl, -⟩ := updateMetadata_cases hperform
    exact h.of_sublist (List.Sublist.refl _)
  | reopen mountUid mountGid =>
    cases hperform
    exact h.of_sublist ((dirents_initializeTables mountUid mountGid).map _)

theorem EntryIds.step (h : db.EntryIds) (hs : db.Sound) {call : Timestamp × StoreCall} :
    (db.step call).EntryIds := by
  unfold Db.step
  split
  · next hperform => exact h.perform hs hperform
  · exact h

end Db

namespace Dbfs

section Stream

variable {db : Db} {dir : Nat} {offset : Int} {full : List DbfsDirEntry → DbfsDirEntry → Bool}

/-- Everything that a request at `offset` could deliver. -/
def entriesAfter (db : Db) (dir parent : Nat) (offset : Int) : List DbfsDirEntry :=
  (if offset < 1 then [⟨[46], dir, .directory, 1⟩] else []) ++
    (if offset < 2 then [⟨[46, 46], parent, .directory, 2⟩] else []) ++
    (db.rowsAfter dir (max (offset - 2) 0)).map fun row =>
      ⟨row.name, row.child, row.kind, row.id + 2⟩

private theorem feed_cons {α σ : Type} (emit : α → σ → Bool × σ) (item : α)
    (items : List α) (state : σ) :
    feed emit (item :: items) state =
      if (emit item state).1 then (emit item state).2 else feed emit items (emit item state).2 := by
  rw [feed]
  rcases emit item state with ⟨stop, state'⟩
  cases stop <;> rfl

private theorem feed_addTo_cons (e : DbfsDirEntry) (entries taken : List DbfsDirEntry) :
    feed (addTo full) (e :: entries) taken =
      if full taken e then taken else feed (addTo full) entries (taken ++ [e]) := by
  rw [feed_cons, addTo]
  rcases full taken e <;> rfl

/-- A buffer gets the first entries, and all of them if it is never full. -/
theorem feed_addTo (full : List DbfsDirEntry → DbfsDirEntry → Bool)
    (entries taken : List DbfsDirEntry) :
    ∃ more, feed (addTo full) entries taken = taken ++ more ∧ more <+: entries ∧
      ((∀ es e, full es e = false) → more = entries) := by
  induction entries generalizing taken with
  | nil => exact ⟨[], (List.append_nil taken).symm, List.prefix_rfl, fun _ => rfl⟩
  | cons e entries ih =>
    rw [feed_addTo_cons]
    rcases hfull : full taken e
    · obtain ⟨more, hfeed, hstart, hall⟩ := ih (taken ++ [e])
      refine ⟨e :: more, ?_, List.cons_prefix_cons.mpr ⟨rfl, hstart⟩, fun h => congrArg _ (hall h)⟩
      rw [if_neg Bool.false_ne_true, hfeed, List.append_assoc]
      rfl
    · refine ⟨[], ?_, List.nil_prefix, fun h => nomatch hfull.symm.trans (h taken e)⟩
      rw [if_pos rfl, List.append_nil]

private theorem feed_map {α β σ : Type} (f : α → β) (emit : β → σ → Bool × σ)
    (items : List α) (state : σ) :
    feed (fun a => emit (f a)) items state = feed emit (items.map f) state := by
  induction items generalizing state with
  | nil => rfl
  | cons a items ih => rw [List.map_cons, feed_cons, feed_cons, ih]

private theorem feedRows_ok {σ : Type} {emit : DirRow → σ → Bool × σ} {rows : List DirRow}
    {state state' : σ}
    (h : Db.feedRows emit rows state = .ok state') : state' = feed emit rows state := by
  induction rows generalizing state with
  | nil => exact (Except.ok.inj h).symm
  | cons row rows ih =>
    rw [Db.feedRows] at h
    rw [feed_cons]
    split at h
    · cases h
    · split at h
      · next heq =>
        rw [heq]
        exact (Except.ok.inj h).symm
      · next heq =>
        rw [heq]
        exact ih h

private theorem feedRows_intact {σ : Type} (emit : DirRow → σ → Bool × σ) {rows : List DirRow}
    (h : ∀ row ∈ rows, row.damaged = false) (state : σ) :
    ∃ state', Db.feedRows emit rows state = .ok state' := by
  induction rows generalizing state with
  | nil => exact ⟨state, rfl⟩
  | cons row rows ih =>
    rw [Db.feedRows, h row List.mem_cons_self, if_neg Bool.false_ne_true]
    split
    · exact ⟨_, rfl⟩
    · exact ih (fun other hother => h other (List.mem_cons_of_mem _ hother)) _

private theorem readDirAfter_ok {σ : Type} {after : Int} {emit : DirRow → σ → Bool × σ}
    {state state' : σ} (h : db.readDirAfter dir after emit state = .ok state') :
    db.kindOf dir = some .directory ∧ state' = feed emit (db.rowsAfter dir after) state := by
  obtain ⟨kind, hkind, h⟩ := except_bind_eq_ok.mp h
  split at h
  · cases h
  · next hdir =>
    rw [not_not] at hdir
    exact ⟨hdir ▸ Db.kindOf_of_read hkind, feedRows_ok h⟩

private theorem offer_ok {wanted : Prop} [Decidable wanted] {e : DbfsDirEntry}
    {taken entries more : List DbfsDirEntry}
    {rest : List DbfsDirEntry → Except Errno (List DbfsDirEntry)}
    (hrest : ∀ taken, rest taken = .ok entries → entries = feed (addTo full) more taken)
    (h : offer wanted (addTo full) e taken rest = .ok entries) :
    entries = feed (addTo full) ((if wanted then [e] else []) ++ more) taken := by
  unfold offer at h
  split at h
  · next hwanted =>
    rw [if_pos hwanted, List.singleton_append, feed_addTo_cons]
    unfold addTo at h
    split at h
    · next heq =>
      split at heq
      · next hfull =>
        rw [if_pos hfull]
        cases heq
        exact (Except.ok.inj h).symm
      · cases heq
    · next heq =>
      split at heq
      · cases heq
      · next hroom =>
        rw [if_neg hroom]
        cases heq
        exact hrest _ h
  · next hskip =>
    rw [if_neg hskip, List.nil_append]
    exact hrest _ h

theorem readPage_ok {entries : List DbfsDirEntry} (h : readPage db dir offset full = .ok entries) :
    ∃ parent, dotDot db dir = .ok parent ∧
      entries = feed (addTo full) (entriesAfter db dir parent offset) [] := by
  obtain ⟨parent, hparent, h⟩ := except_bind_eq_ok.mp h
  refine ⟨parent, hparent, ?_⟩
  rw [entriesAfter, List.append_assoc]
  refine offer_ok (fun taken hdot => offer_ok (fun taken hrows => ?_) hdot) h
  rcases hread : db.readDirAfter dir (max (offset - 2) 0)
    (fun row => addTo full ⟨row.name, row.child, row.kind, row.id + 2⟩) taken with error | state
  · rw [hread] at hrows
    cases hrows
  · rw [hread] at hrows
    cases hrows
    rw [(readDirAfter_ok hread).2]
    exact feed_map _ (addTo full) _ _

theorem mem_rowsAfter {after : Int} {row : DirRow} :
    row ∈ db.rowsAfter dir after ↔ ∃ d ∈ db.dirents, d.parentIno = dir ∧ after < d.id ∧
      ∃ r, db.findInode d.childIno = some r ∧ row =
        ⟨d.id, d.name, d.childIno, r.kind, r.damaged⟩ := by
  rw [Db.rowsAfter, List.mem_insertionSort, List.mem_filterMap]
  constructor
  · rintro ⟨d, hd, hrow⟩
    obtain ⟨r, hr, rfl⟩ := Option.map_eq_some_iff.mp hrow
    obtain ⟨hmem, hkeep⟩ := List.mem_filter.mp hd
    have hkeep := of_decide_eq_true hkeep
    exact ⟨d, hmem, hkeep.1, hkeep.2, r, hr, rfl⟩
  · rintro ⟨d, hd, hparent, hafter, r, hr, rfl⟩
    exact ⟨d, List.mem_filter.mpr ⟨hd, decide_eq_true ⟨hparent, hafter⟩⟩,
      Option.map_eq_some_iff.mpr ⟨r, hr, rfl⟩⟩

private theorem rows_sublist (dirents : List Dirent) :
    ((dirents.filterMap fun d => (db.findInode d.childIno).map fun r =>
      (⟨d.id, d.name, d.childIno, r.kind, r.damaged⟩ : DirRow)).map DirRow.id).Sublist
        (dirents.map Dirent.id) := by
  induction dirents with
  | nil => exact List.Sublist.refl _
  | cons d dirents ih =>
    rw [List.filterMap_cons]
    rcases db.findInode d.childIno with _ | r
    · exact ih.cons _
    · exact ih.cons_cons _

private theorem rowsAfter_sorted (hids : db.EntryIds) (after : Int) :
    (db.rowsAfter dir after).Pairwise fun a b => a.id < b.id := by
  have hnodup : ((db.rowsAfter dir after).map DirRow.id).Nodup :=
    (((List.perm_insertionSort _ _).map _).nodup_iff).mpr
      (hids.nodup.sublist ((rows_sublist _).trans (List.filter_sublist.map _)))
  have hle : (db.rowsAfter dir after).Pairwise fun a b => a.id ≤ b.id :=
    List.pairwise_insertionSort _ _
  refine (hle.and (List.pairwise_map.mp hnodup)).imp fun h => ?_
  exact Nat.lt_of_le_of_ne h.1 h.2

theorem entriesAfter_sorted (hids : db.EntryIds) (parent : Nat) :
    ((entriesAfter db dir parent offset).map DbfsDirEntry.offset).Pairwise (· < ·) := by
  have hrows : (((db.rowsAfter dir (max (offset - 2) 0)).map fun row =>
      (⟨row.name, row.child, row.kind, row.id + 2⟩ : DbfsDirEntry)).map
        DbfsDirEntry.offset).Pairwise (· < ·) := by
    rw [List.map_map, List.pairwise_map]
    refine (rowsAfter_sorted hids _).imp fun hlt => ?_
    simp only [Function.comp_apply]
    omega
  have habove : ∀ k ∈ ((db.rowsAfter dir (max (offset - 2) 0)).map fun row =>
      (⟨row.name, row.child, row.kind, row.id + 2⟩ : DbfsDirEntry)).map DbfsDirEntry.offset,
      2 < k := by
    intro k hk
    rw [List.map_map] at hk
    obtain ⟨row, hrow, rfl⟩ := List.mem_map.mp hk
    obtain ⟨d, -, -, hafter, r, -, rfl⟩ := mem_rowsAfter.mp hrow
    simp only [Function.comp_apply]
    omega
  rw [entriesAfter, List.map_append, List.map_append, List.append_assoc]
  refine List.pairwise_append.mpr ⟨?_, List.pairwise_append.mpr ⟨?_, hrows, ?_⟩, ?_⟩
  · split_ifs <;> simp
  · split_ifs <;> simp
  · intro k hk l hl
    have hk' : k = 2 := by split_ifs at hk <;> simp_all
    exact hk' ▸ habove l hl
  · intro k hk l hl
    have hk' : k = 1 := by split_ifs at hk <;> simp_all
    rcases List.mem_append.mp hl with hl | hl
    · have hl' : l = 2 := by split_ifs at hl <;> simp_all
      omega
    · have := habove l hl
      omega

/-- The cookies of directory `dir`. -/
def Cookie (db : Db) (dir : Nat) (k : Int) : Prop :=
  k = 1 ∨ k = 2 ∨ ∃ d ∈ db.dirents, d.parentIno = dir ∧ k = d.id + 2

private theorem mem_entriesAfter (ht : db.names.Tree) (hids : db.EntryIds)
    (parent : Nat) (k : Int) :
    k ∈ (entriesAfter db dir parent offset).map DbfsDirEntry.offset ↔
      offset < k ∧ Cookie db dir k := by
  have hrows : k ∈ ((db.rowsAfter dir (max (offset - 2) 0)).map fun row =>
      (⟨row.name, row.child, row.kind, row.id + 2⟩ : DbfsDirEntry)).map DbfsDirEntry.offset ↔
      offset < k ∧ ∃ d ∈ db.dirents, d.parentIno = dir ∧ k = d.id + 2 := by
    rw [List.map_map, List.mem_map]
    constructor
    · rintro ⟨row, hrow, rfl⟩
      obtain ⟨d, hd, hparent, hafter, r, -, rfl⟩ := mem_rowsAfter.mp hrow
      refine ⟨?_, d, hd, hparent, rfl⟩
      simp only [Function.comp_apply]
      omega
    · rintro ⟨hlt, d, hd, hparent, rfl⟩
      have hchild := ht.child d hd
      change (db.kindOf d.childIno).isSome at hchild
      rw [← Db.findInode_isSome, Option.isSome_iff_exists] at hchild
      obtain ⟨r, hr⟩ := hchild
      have hpos := hids.pos d hd
      exact ⟨_, mem_rowsAfter.mpr ⟨d, hd, hparent, by omega, r, hr, rfl⟩, rfl⟩
  have hdot : k ∈ (if offset < 1 then [(⟨[46], dir, .directory, 1⟩ : DbfsDirEntry)] else []).map
      DbfsDirEntry.offset ↔ offset < k ∧ k = 1 := by
    split_ifs <;> simp <;> omega
  have hdotDot : k ∈ (if offset < 2 then
      [(⟨[46, 46], parent, .directory, 2⟩ : DbfsDirEntry)] else []).map
      DbfsDirEntry.offset ↔ offset < k ∧ k = 2 := by
    split_ifs <;> simp <;> omega
  rw [entriesAfter, List.map_append, List.map_append, List.mem_append, List.mem_append, hdot,
    hdotDot, hrows, Cookie, and_or_left, and_or_left, or_assoc]

private theorem lists_entriesAfter {parent : Nat} (hparent : dotDot db dir = .ok parent)
    {e : DbfsDirEntry} (he : e ∈ entriesAfter db dir parent offset) : db.Lists dir e := by
  rw [entriesAfter, List.mem_append, List.mem_append] at he
  rcases he with (he | he) | he
  · split_ifs at he
    · exact .inl (List.mem_singleton.mp he)
    · cases he
  · split_ifs at he
    · exact .inr (.inl ⟨parent, hparent, List.mem_singleton.mp he⟩)
    · cases he
  · obtain ⟨row, hrow, rfl⟩ := List.mem_map.mp he
    obtain ⟨d, hd, hin, -, r, hr, rfl⟩ := mem_rowsAfter.mp hrow
    exact .inr (.inr ⟨d, hd, hin, rfl, rfl, Db.kindOf_of_find hr, rfl⟩)

theorem dotDot_ok (db : Db) (dir : Nat) : ∃ parent, dotDot db dir = .ok parent := by
  unfold dotDot Db.parentOfDir
  split_ifs
  · exact ⟨1, rfl⟩
  · rcases hfind : db.dirents.find? fun d => d.childIno = dir with _ | d
    · exact ⟨dir, by rw [hfind]⟩
    · exact ⟨d.parentIno, by rw [hfind]⟩

private theorem offer_isOk {σ : Type} {wanted : Prop} [Decidable wanted]
    {emit : DbfsDirEntry → σ → Bool × σ}
    {e : DbfsDirEntry} {state : σ} {rest : σ → Except Errno σ} (hrest : ∀ s, ∃ r, rest s = .ok r) :
    ∃ r, offer wanted emit e state rest = .ok r := by
  unfold offer
  split
  · split
    · exact ⟨_, rfl⟩
    · exact hrest _
  · exact hrest _

theorem readPage_isOk (hk : db.Keys) (hdir : db.kindOf dir = some .directory) :
    ∃ entries, readPage db dir offset full = .ok entries := by
  obtain ⟨parent, hparent⟩ := dotDot_ok db dir
  have hrows : ∀ taken, ∃ r, (db.readDirAfter dir (max (offset - 2) 0)
      (fun row => addTo full ⟨row.name, row.child, row.kind, row.id + 2⟩) taken).mapError
        errnoFromDbError = .ok r := fun taken => by
    have hintact : ∀ row ∈ db.rowsAfter dir (max (offset - 2) 0), row.damaged = false := by
      intro row hrow
      obtain ⟨d, -, -, -, r, hr, rfl⟩ := mem_rowsAfter.mp hrow
      exact hk.undamaged hr
    obtain ⟨state, hfeed⟩ := feedRows_intact
      (fun row => addTo full ⟨row.name, row.child, row.kind, row.id + 2⟩) hintact taken
    refine ⟨state, ?_⟩
    rw [Db.readDirAfter, hk.inodeKindOf_eq_ok.mpr hdir]
    exact congrArg (Except.mapError errnoFromDbError) hfeed
  have hpage : readPage db dir offset full =
      offer (offset < 1) (addTo full) ⟨[46], dir, .directory, 1⟩ [] fun taken =>
        offer (offset < 2) (addTo full) ⟨[46, 46], parent, .directory, 2⟩ taken fun taken =>
          (db.readDirAfter dir (max (offset - 2) 0)
            (fun row => addTo full ⟨row.name, row.child, row.kind, row.id + 2⟩) taken).mapError
              errnoFromDbError := by
    rw [readPage, readdirStream, hparent]
    rfl
  rw [hpage]
  exact offer_isOk fun s => offer_isOk hrows

end Stream

end Dbfs

namespace Listing

open Dbfs Page

variable {dir : Nat} {l : Listing}

def ListedPage.toPage (dir : Nat) (p : ListedPage) : Page Int :=
  ⟨Cookie p.db dir, p.entries.map DbfsDirEntry.offset⟩

private theorem delivered_pages (dir : Nat) (l : Listing) :
    delivered (l.pages.map (ListedPage.toPage dir)) = l.accepted.map DbfsDirEntry.offset := by
  rw [delivered, accepted, List.flatMap_map, List.map_flatMap]
  rfl

/-- The pages so far are those of a listing, and the store is sound. -/
structure Good (dir : Nat) (l : Listing) : Prop where
  sound : l.db.Sound
  ids : l.db.EntryIds
  pages : ∀ p ∈ l.pages, p.db.EntryIds ∧ ∀ e ∈ p.entries, p.db.Lists dir e
  listing : Page.Listing 0 (l.pages.map (ListedPage.toPage dir))

private theorem Good.readPage (h : Good dir l) {full : List DbfsDirEntry → DbfsDirEntry → Bool}
    {entries : List DbfsDirEntry} (hread : Dbfs.readPage l.db dir l.nextOffset full = .ok entries) :
    Good dir { l with pages := l.pages ++ [⟨l.db, entries⟩] } ∧
      ((∀ es e, full es e = false) →
        (ListedPage.toPage dir ⟨l.db, entries⟩).Complete l.nextOffset) := by
  obtain ⟨parent, hparent, rfl⟩ := readPage_ok hread
  obtain ⟨more, hfeed, hstart, hall⟩ :=
    feed_addTo full (entriesAfter l.db dir parent l.nextOffset) []
  rw [List.nil_append] at hfeed
  have hmem : ∀ k, k ∈ (entriesAfter l.db dir parent l.nextOffset).map DbfsDirEntry.offset ↔
      l.nextOffset < k ∧ Cookie l.db dir k := mem_entriesAfter h.sound.tree h.ids parent
  have hcontinues : Continues l.nextOffset (ListedPage.toPage dir ⟨l.db, more⟩) :=
    .of_start (entriesAfter_sorted h.ids parent) hmem (hstart.map _)
  rw [hfeed]
  refine ⟨⟨h.sound, h.ids, fun p hp => ?_, ?_⟩, fun hnever k hpresent hk => ?_⟩
  · rcases List.mem_append.mp hp with hp | hp
    · exact h.pages p hp
    · rw [List.mem_singleton.mp hp]
      exact ⟨h.ids, fun e he => lists_entriesAfter hparent (hstart.subset he)⟩
  · rw [List.map_append]
    refine listing_append.mpr ⟨h.listing, ?_⟩
    rw [delivered_pages]
    exact hcontinues
  · rw [hall hnever]
    exact (hmem k).mpr ⟨hk, hpresent⟩

private theorem Good.turn (h : Good dir l) {t : Turn} (ht : AllowedTurn l t) :
    Good dir (l.turn dir t) := by
  cases t with
  | page full =>
    unfold Listing.turn
    dsimp only
    split
    · next entries hread => exact (h.readPage hread).1
    · exact h
  | change call => exact ⟨h.sound.step ht, h.ids.step h.sound, h.pages, h.listing⟩

private theorem mem_turn {t : Turn} {p : ListedPage} (hp : p ∈ (l.turn dir t).pages) :
    p ∈ l.pages ∨ p.db = l.db := by
  cases t with
  | page full =>
    unfold Listing.turn at hp
    dsimp only at hp
    split at hp
    · refine (List.mem_append.mp hp).imp_right fun hp => ?_
      rw [List.mem_singleton.mp hp]
    · exact .inl hp
  | change call => exact .inl hp

private theorem Lasts.pages {holds : Db → Prop} {turns : List Turn} (h : Lasts holds dir l turns)
    (hpages : ∀ p ∈ l.pages, holds p.db) :
    (∀ p ∈ (run dir l turns).pages, holds p.db) ∧ holds (run dir l turns).db := by
  induction turns generalizing l with
  | nil => exact ⟨hpages, h⟩
  | cons t turns ih =>
    refine ih h.2 fun p hp => ?_
    rcases mem_turn hp with hp | hdb
    · exact hpages p hp
    · exact hdb ▸ h.1

/-- An entry of the directory, under whatever name. -/
def HasEntry (dir id child : Nat) (db : Db) : Prop :=
  ∃ d ∈ db.dirents, d.id = id ∧ d.parentIno = dir ∧ d.childIno = child

private theorem Good.run {turns : List Turn} (h : Good dir l)
    (hturns : LegalRun (Listing.turn dir) AllowedTurn l turns) : Good dir (run dir l turns) :=
  runFrom_induction (fun _ _ ht hl => hl.turn ht) h hturns

private theorem count_offset {k : Int} (h : (l.accepted.map DbfsDirEntry.offset).count k = 1) :
    (l.accepted.countP fun e => e.offset = k) = 1 := by
  rw [List.count, List.countP_map] at h
  refine Eq.trans (List.countP_congr fun e _ => ?_) h
  simp

private theorem Good.finish (h : Good dir l) (hdir : l.db.kindOf dir = some .directory) :
    Good dir (l.finish dir) ∧ ∀ k, 0 < k → (∀ p ∈ l.pages, Cookie p.db dir k) → Cookie l.db dir k →
      ((l.finish dir).accepted.countP fun e => e.offset = k) = 1 := by
  have hok : ∃ entries, Dbfs.readPage l.db dir l.nextOffset (fun _ _ => false) = .ok entries :=
    readPage_isOk h.sound.keys hdir
  obtain ⟨entries, hread⟩ := hok
  obtain ⟨hgood, hcomplete⟩ := h.readPage hread
  have hfinish : l.finish dir = { l with pages := l.pages ++ [⟨l.db, entries⟩] } := by
    rw [Listing.finish, Listing.turn, hread]
  rw [hfinish]
  refine ⟨hgood, fun k hk hpages hdb => count_offset ?_⟩
  have hlisting := hgood.listing
  rw [← delivered_pages dir]
  rw [List.map_append] at hlisting ⊢
  refine hlisting.once hk (fun q hq => ?_) ?_
  · rcases List.mem_append.mp hq with hq | hq
    · obtain ⟨p, hp, rfl⟩ := List.mem_map.mp hq
      exact hpages p hp
    · rw [List.mem_singleton.mp hq]
      exact hdb
  · rw [delivered_pages]
    exact hcomplete fun _ _ => rfl

private theorem lists_name {db : Db} {e : DbfsDirEntry} (hids : db.EntryIds) (h : db.Lists dir e) :
    (e.offset = 1 → e.name = [46]) ∧ (e.offset = 2 → e.name = [46, 46]) := by
  rcases h with rfl | ⟨parent, -, rfl⟩ | ⟨d, hd, -, -, -, -, hoffset⟩
  · exact ⟨fun _ => rfl, nofun⟩
  · exact ⟨nofun, fun _ => rfl⟩
  · have hpos := hids.pos d hd
    exact ⟨fun heq => by omega, fun heq => by omega⟩

private theorem lists_child {db : Db} {e : DbfsDirEntry} {id child : Nat} (hids : db.EntryIds)
    (h : db.Lists dir e) (hentry : HasEntry dir id child db) (hoffset : e.offset = id + 2) :
    e.ino = child := by
  obtain ⟨d, hd, rfl, -, rfl⟩ := hentry
  have hpos := hids.pos d hd
  rcases h with rfl | ⟨parent, -, rfl⟩ | ⟨d', hd', -, -, hino, -, hoffset'⟩
  · change (1 : Int) = _ at hoffset
    omega
  · change (2 : Int) = _ at hoffset
    omega
  · obtain rfl : d' = d := List.inj_on_of_nodup_map hids.nodup hd' hd (by omega)
    exact hino

private theorem entryIds_runCalls {db : Db} {calls : List (Timestamp × StoreCall)} (hs : db.Sound)
    (hids : db.EntryIds) (h : db.AllowedCalls calls) : (db.runCalls calls).EntryIds := by
  have hboth : (db.runCalls calls).Sound ∧ (db.runCalls calls).EntryIds :=
    runFrom_induction (I := fun db => db.Sound ∧ db.EntryIds)
      (fun _ _ hallowed hdb => ⟨hdb.1.step hallowed, hdb.2.step hdb.1⟩) ⟨hs, hids⟩ h
  exact hboth.2

/-- A listing of a directory that ends with a page up to its end, with changes anywhere between the
pages: the offsets increase, every entry that was there throughout is accepted once, and so are `.`
and `..`, and each page accepts only what the directory held when it was read. -/
theorem listing_of_run (mountUid mountGid : UInt32) (now : Timestamp)
    (before : List (Timestamp × StoreCall))
    (hbefore : (Db.fresh mountUid mountGid now).AllowedCalls before) (dir : Nat) (turns : List Turn)
    (hturns : LegalRun (Listing.turn dir) AllowedTurn
      ⟨(Db.fresh mountUid mountGid now).runCalls before, []⟩ turns)
    (hdir : (run dir ⟨(Db.fresh mountUid mountGid now).runCalls before, []⟩ turns).db.kindOf dir =
      some .directory) :
    let start : Listing := ⟨(Db.fresh mountUid mountGid now).runCalls before, []⟩
    let final := (start.run dir turns).finish dir
    (final.accepted.map DbfsDirEntry.offset).Pairwise (· < ·) ∧
    (∀ id child : Nat, Lasts (HasEntry dir id child) dir start turns →
      (final.accepted.countP fun e => e.offset = (id : Int) + 2) = 1 ∧
      ∀ e ∈ final.accepted, e.offset = (id : Int) + 2 → e.ino = child) ∧
    ((final.accepted.countP fun e => e.offset = 1) = 1 ∧
      ∀ e ∈ final.accepted, e.offset = 1 → e.name = [46]) ∧
    ((final.accepted.countP fun e => e.offset = 2) = 1 ∧
      ∀ e ∈ final.accepted, e.offset = 2 → e.name = [46, 46]) ∧
    ∀ p ∈ final.pages, ∀ e ∈ p.entries, p.db.Lists dir e := by
  intro start final
  have hfresh := Db.Sound.fresh mountUid mountGid now
  have hstart : Good dir start := by
    refine ⟨hfresh.runCalls hbefore, entryIds_runCalls hfresh ?_ hbefore, nofun, listing_nil⟩
    rw [Db.fresh_eq]
    exact ⟨List.nodup_nil, nofun⟩
  obtain ⟨hgood, honce⟩ := (hstart.run hturns).finish hdir
  have hincreasing := hgood.listing.increasing.1
  rw [delivered_pages] at hincreasing
  have hlists : ∀ e ∈ final.accepted, ∃ p ∈ final.pages, p.db.EntryIds ∧ p.db.Lists dir e := by
    intro e he
    obtain ⟨p, hp, hin⟩ := List.mem_flatMap.mp he
    exact ⟨p, hp, (hgood.pages p hp).1, (hgood.pages p hp).2 e hin⟩
  refine ⟨hincreasing, fun id child hlasts => ⟨?_, fun e he hoffset => ?_⟩,
    ⟨honce 1 (by omega) (fun _ _ => .inl rfl) (.inl rfl), fun e he => ?_⟩,
    ⟨honce 2 (by omega) (fun _ _ => .inr (.inl rfl)) (.inr (.inl rfl)), fun e he => ?_⟩,
    fun p hp => (hgood.pages p hp).2⟩
  · obtain ⟨hpages, hend⟩ := hlasts.pages nofun
    have hcookie : ∀ db, HasEntry dir id child db → Cookie db dir (id + 2) := by
      rintro db ⟨d, hd, rfl, hparent, -⟩
      exact .inr (.inr ⟨d, hd, hparent, rfl⟩)
    exact honce _ (by omega) (fun p hp => hcookie _ (hpages p hp)) (hcookie _ hend)
  · obtain ⟨hpages, hend⟩ := hlasts.pages nofun
    obtain ⟨p, hp, hids, hl⟩ := hlists e he
    rcases mem_turn hp with hp | hdb
    · exact lists_child hids hl (hpages p hp) hoffset
    · exact lists_child hids hl (hdb ▸ hend) hoffset
  · obtain ⟨p, -, hids, hl⟩ := hlists e he
    exact (lists_name hids hl).1
  · obtain ⟨p, -, hids, hl⟩ := hlists e he
    exact (lists_name hids hl).2

/-- The root with two files, one of which is removed after the first page, as another comes. -/
def changedRoot : List Turn := [
  .page fun entries _ => entries.length = 3,
  .change (⟨3, 0⟩, .unlinkEntry 1 [97] false),
  .change (⟨4, 0⟩, .createNode 1 [99] (.file 0o644) 0 0),
  .change (⟨5, 0⟩, .renameEntry 1 [98] 1 [97] false fun _ => false)]

def twoFiles : List (Timestamp × StoreCall) := [
  (⟨1, 0⟩, .createNode 1 [97] (.file 0o644) 0 0),
  (⟨2, 0⟩, .createNode 1 [98] (.file 0o644) 0 0)]

theorem listing_of_changedRoot :
    let start : Listing := ⟨(Db.fresh 0 0 ⟨0, 0⟩).runCalls twoFiles, []⟩
    Lasts (HasEntry 1 2 3) 1 start changedRoot ∧
      (((start.run 1 changedRoot).finish 1).accepted.countP fun e =>
        e.offset = ((2 : Nat) : Int) + 2) = 1 := by
  have hlasts : Lasts (HasEntry 1 2 3) 1 ⟨(Db.fresh 0 0 ⟨0, 0⟩).runCalls twoFiles, []⟩
      changedRoot :=
    ⟨⟨⟨2, 1, [98], 3⟩, by decide, rfl, rfl, rfl⟩, ⟨⟨2, 1, [98], 3⟩, by decide, rfl, rfl, rfl⟩,
      ⟨⟨2, 1, [98], 3⟩, by decide, rfl, rfl, rfl⟩, ⟨⟨2, 1, [98], 3⟩, by decide, rfl, rfl, rfl⟩,
      ⟨⟨2, 1, [97], 3⟩, by decide, rfl, rfl, rfl⟩⟩
  exact ⟨hlasts, ((listing_of_run 0 0 ⟨0, 0⟩ twoFiles (by decide) 1 changedRoot
    ⟨trivial, trivial, trivial, trivial, trivial⟩ (by decide)).2.1 2 3 hlasts).1⟩

end Listing

end VibeDbfs
