import VibeDbfs.Fuse.Flusher

/-!
`getattr` and `lookup` with a flush on the other thread. The row is read in one section and the
overlay is put over it in another, so the flush can write the row and clear the overlay in between.
-/

set_option autoImplicit false
set_option relaxedAutoImplicit false

namespace VibeDbfs

open Lib Shared

def FileAttr.shown (attr : FileAttr) : Nat × SystemTime × SystemTime :=
  (attr.size, attr.mtime, attr.ctime)

def InodeRow.shownTime (ns : Int) : SystemTime := (Timestamp.fromNs ns).toSystemTime

namespace Look

variable {l l' l'' l₀ l₁ l₂ l₃ : Look} {r : InodeRow}

def Flushed (l : Look) : Prop := ∀ size modified, l.overlay ≠ some (size, some modified)

/-- If the data of `l` is written by `l'`, then the row of `l` has the times of the data already,
and its size unless the slot stays. -/
def Whole (l l' : Look) : Prop := ∀ r size modified, l = ⟨some r, some (size, some modified)⟩ →
  l'.Flushed → (r.size = size ∨ l'.overlay.isSome) ∧
    ∃ shown, (shown = modified.toSystemTime ∨ shown = InodeRow.shownTime modified.toNs) ∧
      InodeRow.shownTime r.mtimeNs = shown ∧ InodeRow.shownTime r.ctimeNs = shown

/-- The row of `l` under the overlay of `l'`. -/
def mixed (l l' : Look) : Option FileAttr :=
  l.row.map fun r => (fileAttrFromInode r.inode).under l'.overlay

theorem Settles.cases (h : l.Settles l') : l' = l ∨
    (∃ r : InodeRow, l = ⟨some r, some (r.size, none)⟩ ∧ l' = ⟨some r, none⟩) ∨
    ∃ r size modified, l = ⟨some r, some (size, some modified)⟩ ∧
      (l' = ⟨some (saved r size modified), some (size, none)⟩ ∨
        l' = ⟨some (saved r size modified), none⟩) := by
  induction h with
  | refl l => exact .inl rfl
  | save r size modified => exact .inr (.inr ⟨r, size, modified, rfl, .inl rfl⟩)
  | free r => exact .inr (.inl ⟨r, rfl, rfl⟩)
  | trans _ _ ih ih' =>
    rcases ih with rfl | ⟨r, rfl, rfl⟩ | ⟨r, size, modified, rfl, rfl | rfl⟩
    · exact ih'
    · rcases ih' with rfl | ⟨r', hfree, -⟩ | ⟨r', size', modified', hsave, -⟩
      · exact .inr (.inl ⟨r, rfl, rfl⟩)
      · cases hfree
      · cases hsave
    · rcases ih' with rfl | ⟨r', hfree, rfl⟩ | ⟨r', size', modified', hsave, -⟩
      · exact .inr (.inr ⟨r, size, modified, rfl, .inl rfl⟩)
      · cases hfree
        exact .inr (.inr ⟨r, size, modified, rfl, .inr rfl⟩)
      · cases hsave
    · rcases ih' with rfl | ⟨r', hfree, -⟩ | ⟨r', size', modified', hsave, -⟩
      · exact .inr (.inr ⟨r, size, modified, rfl, .inr rfl⟩)
      · cases hfree
      · cases hsave

private theorem flushed_gone (row : Option InodeRow) : Flushed ⟨row, none⟩ := by
  intro size modified heq
  cases heq

private theorem flushed_kept (row : Option InodeRow) (size : Nat) :
    Flushed ⟨row, some (size, none)⟩ := by
  intro size' modified heq
  cases heq

/-- Data that is still unflushed was not touched. -/
private theorem Settles.eq_of_unflushed (h : l.Settles l') (hdirty : ¬l'.Flushed) : l = l' := by
  rcases h.cases with rfl | ⟨r, rfl, rfl⟩ | ⟨r, size, modified, rfl, rfl | rfl⟩
  · rfl
  · exact (hdirty (flushed_gone _)).elim
  · exact (hdirty (flushed_kept _ _)).elim
  · exact (hdirty (flushed_gone _)).elim

private theorem whole_of_eq (h : l' = l) : l.Whole l' := by
  intro r size modified hl hflushed
  subst h
  exact (hflushed size modified (by rw [hl])).elim

private theorem whole_of_flushed (h : l.Flushed) : l.Whole l' := by
  intro r size modified hl
  exact (h size modified (by rw [hl])).elim

private theorem shown_iff {size size' : Nat} {buffered stored mtime ctime : SystemTime} :
    (some (size, buffered, buffered) = some (size', mtime, ctime) ∨
        some (size, stored, stored) = some (size', mtime, ctime)) ↔
      size' = size ∧
        ∃ shown, (shown = buffered ∨ shown = stored) ∧ mtime = shown ∧ ctime = shown := by
  simp only [Option.some.injEq, Prod.mk.injEq]
  constructor
  · rintro (⟨hsize, hmtime, hctime⟩ | ⟨hsize, hmtime, hctime⟩)
    · exact ⟨hsize.symm, buffered, .inl rfl, hmtime.symm, hctime.symm⟩
    · exact ⟨hsize.symm, stored, .inr rfl, hmtime.symm, hctime.symm⟩
  · rintro ⟨hsize, shown, rfl | rfl, hmtime, hctime⟩
    · exact .inl ⟨hsize.symm, hmtime.symm, hctime.symm⟩
    · exact .inr ⟨hsize.symm, hmtime.symm, hctime.symm⟩

private theorem shown_buffered (r : InodeRow) (size : Nat) (modified : Timestamp) :
    (attr ⟨some r, some (size, some modified)⟩).map FileAttr.shown =
      some (size, modified.toSystemTime, modified.toSystemTime) := rfl

private theorem shown_kept (r : InodeRow) (size : Nat) :
    (attr ⟨some r, some (size, none)⟩).map FileAttr.shown =
      some (size, InodeRow.shownTime r.mtimeNs, InodeRow.shownTime r.ctimeNs) := rfl

private theorem shown_gone (r : InodeRow) :
    (attr ⟨some r, none⟩).map FileAttr.shown =
      some (r.size, InodeRow.shownTime r.mtimeNs, InodeRow.shownTime r.ctimeNs) := rfl

private theorem mixed_eq (row row' : Option InodeRow) (overlay overlay' : Overlay) :
    mixed ⟨row, overlay⟩ ⟨row', overlay'⟩ = attr ⟨row, overlay'⟩ := rfl

/-- What is shown of a row whose data was written after the row was read. -/
private theorem torn_iff {size : Nat} {modified : Timestamp}
    (hl₂ : l₂ = ⟨some (saved r size modified), some (size, none)⟩ ∨
      l₂ = ⟨some (saved r size modified), none⟩) :
    ((attr ⟨some r, some (size, some modified)⟩).map FileAttr.shown =
        (mixed ⟨some r, some (size, some modified)⟩ l₂).map FileAttr.shown ∨
      l₂.attr.map FileAttr.shown =
        (mixed ⟨some r, some (size, some modified)⟩ l₂).map FileAttr.shown) ↔
      Whole ⟨some r, some (size, some modified)⟩ l₂ := by
  have hflushed : l₂.Flushed := by
    rcases hl₂ with rfl | rfl
    · exact flushed_kept _ _
    · exact flushed_gone _
  have hwhole : Whole ⟨some r, some (size, some modified)⟩ l₂ ↔
      (r.size = size ∨ l₂.overlay.isSome) ∧
        ∃ shown, (shown = modified.toSystemTime ∨ shown = InodeRow.shownTime modified.toNs) ∧
          InodeRow.shownTime r.mtimeNs = shown ∧ InodeRow.shownTime r.ctimeNs = shown := by
    constructor
    · intro h
      exact h r size modified rfl hflushed
    · intro h r' size' modified' heq _
      cases heq
      exact h
  rw [hwhole]
  rcases hl₂ with rfl | rfl
  · rw [mixed_eq, shown_buffered, shown_kept, shown_kept, saved, shown_iff]
    exact and_congr_left fun _ => ⟨fun _ => .inr rfl, fun _ => rfl⟩
  · rw [mixed_eq, shown_buffered, shown_gone, shown_gone, saved, shown_iff]
    exact and_congr_left fun _ => ⟨.inl, fun h => h.resolve_right Bool.false_ne_true⟩

private theorem mixed_iff (h₀ : l₀.Settles l₁) (h₁ : l₁.Settles l₂)
    (hlock : l₁ = l₀ ∧ l₂ = l₁ ∨ l₃ = l₂) :
    (l₀.attr.map FileAttr.shown = (mixed l₁ l₂).map FileAttr.shown ∨
      l₃.attr.map FileAttr.shown = (mixed l₁ l₂).map FileAttr.shown) ↔ l₁.Whole l₂ := by
  rcases hlock with ⟨rfl, rfl⟩ | rfl
  · exact ⟨fun _ => whole_of_eq rfl, fun _ => .inl rfl⟩
  · rcases h₁.cases with rfl | ⟨r, rfl, rfl⟩ | ⟨r, size, modified, rfl, hl₃⟩
    · exact ⟨fun _ => whole_of_eq rfl, fun _ => .inr rfl⟩
    · exact ⟨fun _ => whole_of_flushed (flushed_kept _ _), fun _ => .inr rfl⟩
    · have hl₀ : l₀ = ⟨some r, some (size, some modified)⟩ := by
        apply h₀.eq_of_unflushed
        intro hflushed
        exact hflushed size modified rfl
      rw [hl₀]
      exact torn_iff hl₃

end Look

inductive AttrQuery where
  | getattr (ino : Nat)
  | lookup (parent : Nat) (name : Name)

namespace AttrQuery

def call (env : Env) : AttrQuery → Fs FileAttr
  | .getattr ino => Fs.getattr env ino
  | .lookup parent name => Fs.lookup env parent name

def row (env : Env) : AttrQuery → Fs FileAttr
  | .getattr ino => Fs.getattrRow env ino
  | .lookup parent name => Fs.lookupRow env parent name

def find (query : AttrQuery) (db : Db) : Except DbError Inode :=
  match query with
  | .getattr ino => db.getInode ino
  | .lookup parent name => db.lookup parent name

/-- What the call returns in `s`, unless SQLite fails. -/
def answer (query : AttrQuery) (s : Shared) : Option FileAttr :=
  (query.find s.db).toOption.map fun inode => s.table.overlayAttr (fileAttrFromInode inode)

variable {env : Env} {s s' : Shared} {query : AttrQuery} {attr : FileAttr}

private theorem row_eq (query : AttrQuery) : query.row env =
    Fs.query env query.find >>= fun inode => pure (fileAttrFromInode inode) := by
  cases query <;> rfl

theorem call_eq (query : AttrQuery) : query.call env = query.row env >>= Fs.overlayAttr := by
  cases query <;> rfl

private theorem row_ok (h : query.row env s = (.ok attr, s')) : s' = { s with tick := s.tick + 1 } ∧
    ∃ inode, query.find s.db = .ok inode ∧ attr = fileAttrFromInode inode := by
  rw [row_eq] at h
  obtain ⟨inode, s₁, hquery, hattr⟩ := Prog.bind_eq_ok.mp h
  cases hattr
  have hresult : Prog.wp (Fs.query env query.find) (fun r s' => ∀ inode, r = .ok inode →
      s' = { s with tick := s.tick + 1 } ∧ query.find s.db = .ok inode) s := by
    apply Fs.wp_query
    · intro _ _ inode hr
      cases hr
    · intro _ _ inode hr
      cases hr
    · intro inode hfind inode' hr
      cases hr
      exact ⟨rfl, hfind⟩
  unfold Prog.wp at hresult
  rw [hquery] at hresult
  obtain ⟨hs, hfind⟩ := hresult inode rfl
  exact ⟨hs, inode, hfind, rfl⟩

theorem find_ok {db db' : Db} {inode : Inode} (h : query.find db = .ok inode) :
    ∃ r, db.findInode inode.ino = some r ∧ inode = r.inode ∧
      (db'.Keys → db'.dirents = db.dirents → ∀ r', db'.findInode inode.ino = some r' →
        query.find db' = .ok r'.inode) := by
  cases query with
  | getattr ino =>
    obtain ⟨r, hr, rfl⟩ := Db.find_of_getInode h
    have hino : r.inode.ino = ino := Db.findInode_ino hr
    rw [hino]
    refine ⟨r, hr, rfl, ?_⟩
    intro hk _ r' hr'
    exact hk.getInode hr'
  | lookup parent name =>
    obtain ⟨u, hname, hentry⟩ := except_bind_eq_ok.mp h
    rcases hd : db.findEntry parent name with _ | d
    · rw [hd] at hentry
      cases hentry
    · rcases hr : db.findInode d.childIno with _ | r
      · rw [hd, Option.bind_some, hr] at hentry
        cases hentry
      · rw [hd, Option.bind_some, hr] at hentry
        obtain rfl := Db.inodeFromRow_ok hentry
        have hino : r.inode.ino = d.childIno := Db.findInode_ino hr
        rw [hino]
        refine ⟨r, hr, rfl, ?_⟩
        intro hk hdirents r' hr'
        have hd' : db'.findEntry parent name = some d := by
          rw [Db.findEntry, hdirents]
          exact hd
        exact Db.lookup_of_entry hk (Db.checkName_eq_ok.mp hname) hd' hr'

private theorem find_row {db : Db} {inode : Inode} (h : query.find db = .ok inode) :
    ∃ r, db.findInode inode.ino = some r ∧ inode = r.inode := by
  obtain ⟨r, hr, hinode, -⟩ := @find_ok query db db inode h
  exact ⟨r, hr, hinode⟩

end AttrQuery

/-- A run of one query with a flush on the other thread: how many sections of the flush come before
the row is read, between the row and the overlay, and after that. The overlay waits for the table
lock, and at the end the flush has returned. -/
structure Interleaved (env : Env) (query : AttrQuery) (start : Flusher) (first : Shared) where
  beforeRow : Nat
  beforeOverlay : Nat
  rest : Nat
  attr : FileAttr
  afterRow : Shared
  read : query.row env (Flusher.advance env beforeRow (start, first)).2 = (.ok attr, afterRow)
  unlocked : (Flusher.advance env beforeOverlay
    ((Flusher.advance env beforeRow (start, first)).1, afterRow)).1.holdsLock = false
  finished : (Flusher.advance env rest (Flusher.advance env beforeOverlay
    ((Flusher.advance env beforeRow (start, first)).1, afterRow))).1.finished = true

namespace Interleaved

variable {env : Env} {query : AttrQuery} {start : Flusher} {first : Shared}
  {held : List ArenaSlot} {busy : Nat → Prop}

def atRow (run : Interleaved env query start first) : Flusher × Shared :=
  Flusher.advance env run.beforeRow (start, first)

def atOverlay (run : Interleaved env query start first) : Flusher × Shared :=
  Flusher.advance env run.beforeOverlay (run.atRow.1, run.afterRow)

def last (run : Interleaved env query start first) : Flusher × Shared :=
  Flusher.advance env run.rest run.atOverlay

def answer (run : Interleaved env query start first) : FileAttr :=
  run.atOverlay.2.table.overlayAttr run.attr

/-- The query shows what it would show before the flush, or after it. -/
def Consistent (run : Interleaved env query start first) : Prop :=
  (query.answer first).map FileAttr.shown = some run.answer.shown ∨
    (query.answer run.last.2).map FileAttr.shown = some run.answer.shown

/-- No data of the inode is written between the two sections, or the row agrees with the data. -/
def Whole (run : Interleaved env query start first) : Prop :=
  (run.atRow.2.look run.attr.ino).Whole (run.atOverlay.2.look run.attr.ino)

/-- The row and the overlay of `ino` in `s`, read by `query` before, at, or after a moment at which
the query found `ino`. -/
private theorem answer_look {s s' : Shared} {inode : Inode} (hk : s'.db.Keys)
    (hfind : query.find s.db = .ok inode) (hdirents : s'.db.dirents = s.db.dirents)
    (hrows : (s'.db.findInode inode.ino).isSome = (s.db.findInode inode.ino).isSome) :
    query.answer s' = (s'.look inode.ino).attr := by
  obtain ⟨r, hr, rfl, hsame⟩ := AttrQuery.find_ok hfind
  rw [hr, Option.isSome_some, Option.isSome_iff_exists] at hrows
  obtain ⟨r', hr'⟩ := hrows
  have hino : (fileAttrFromInode r'.inode).ino = r.inode.ino :=
    Db.findInode_ino hr'
  have hoverlay := s'.table.overlayAttr_eq (fileAttrFromInode r'.inode)
  rw [hino] at hoverlay
  rw [AttrQuery.answer, hsame hk hdirents r' hr', Look.attr, Shared.look, hr']
  exact congrArg some hoverlay

/-- What the flush does around the two sections of the query. -/
private theorem kept_sections (h : first.Inv held busy) (hstart : start.early = true)
    (run : Interleaved env query start first) :
    Flusher.Kept held busy (start, first) run.atRow ∧
      Flusher.Kept held busy (run.atRow.1, run.afterRow) run.atOverlay ∧
      Flusher.Kept held busy run.atOverlay run.last := by
  have hvisits : start.Visits first := by
    cases start with
    | visiting slots firstError => cases hstart
    | _ => trivial
  have hrow : Flusher.Kept held busy (start, first) run.atRow :=
    Flusher.kept_advance run.beforeRow h hvisits
  obtain ⟨hafter, -⟩ := AttrQuery.row_ok run.read
  have hinv : run.afterRow.Inv held busy := by
    rw [hafter]
    exact hrow.inv.of_eq rfl rfl rfl
  have hvisits' : run.atRow.1.Visits run.afterRow := by
    apply hrow.visits.of_table
    rw [hafter]
    rfl
  have hoverlay : Flusher.Kept held busy (run.atRow.1, run.afterRow) run.atOverlay :=
    Flusher.kept_advance run.beforeOverlay hinv hvisits'
  exact ⟨hrow, hoverlay, Flusher.kept_advance run.rest hoverlay.inv hoverlay.visits⟩

private theorem look_congr {s s' : Shared} (hdb : s'.db = s.db)
    (hinodes : s'.table.inodes = s.table.inodes) (ino : Nat) : s'.look ino = s.look ino := by
  rw [Shared.look, Shared.look, OpenTable.overlay, OpenTable.overlay, hdb, hinodes]

private theorem consistent_iff (h : first.Inv held busy) (hstart : start.early = true)
    (run : Interleaved env query start first) : run.Consistent ↔ run.Whole := by
  obtain ⟨hrow, hoverlay, hlast⟩ := kept_sections h hstart run
  obtain ⟨hafter, inode, hfind, hattr⟩ := AttrQuery.row_ok run.read
  have hino : run.attr.ino = inode.ino := by
    rw [hattr]
    rfl
  have hlook : run.afterRow.look inode.ino = run.atRow.2.look inode.ino := by
    rw [hafter]
    rfl
  have hfirst : query.answer first = (first.look inode.ino).attr :=
    answer_look h.sound.keys hfind hrow.hidden.dirents.symm (hrow.hidden.rows inode.ino).symm
  have hend : query.answer run.last.2 = (run.last.2.look inode.ino).attr := by
    have hrest := hoverlay.hidden.trans hlast.hidden
    rw [hafter] at hrest
    exact answer_look hlast.inv.sound.keys hfind hrest.dirents (hrest.rows inode.ino)
  have hanswer : some run.answer =
      (run.atRow.2.look inode.ino).mixed (run.atOverlay.2.look inode.ino) := by
    obtain ⟨r, hr, hinode⟩ := AttrQuery.find_row hfind
    have hlookRow : (run.atRow.2.look inode.ino).row = some r := hr
    rw [answer, OpenTable.overlayAttr_eq, hino, hattr, Look.mixed, hlookRow, hinode]
    rfl
  have hlock : run.atRow.2.look inode.ino = first.look inode.ino ∧
        run.atOverlay.2.look inode.ino = run.atRow.2.look inode.ino ∨
      run.last.2.look inode.ino = run.atOverlay.2.look inode.ino := by
    rcases Flusher.early_or_late run.unlocked with hearly | hlate
    · left
      obtain ⟨hearly₁, hdb, hinodes⟩ := hoverlay.early hearly
      obtain ⟨-, hdb₀, hinodes₀⟩ := hrow.early hearly₁
      exact ⟨look_congr hdb₀ hinodes₀ _, (look_congr hdb hinodes _).trans hlook⟩
    · right
      obtain ⟨-, hdb, htable⟩ := hlast.late hlate
      exact look_congr hdb (congrArg OpenTable.inodes htable) _
  have hsettles : (run.atRow.2.look inode.ino).Settles (run.atOverlay.2.look inode.ino) :=
    hlook ▸ hoverlay.hidden.look inode.ino not_false
  unfold Consistent Whole
  rw [hfirst, hend, hino]
  change (_ = (some run.answer).map FileAttr.shown ∨ _ = (some run.answer).map FileAttr.shown) ↔ _
  rw [hanswer]
  exact Look.mixed_iff (hrow.hidden.look inode.ino not_false) hsettles hlock

end Interleaved

namespace Dbfs

/-- With a flush on the other thread, a query in a reachable state shows the size and times of
before or after the flush if and only if no data of its inode is written between its two sections,
or the row agrees with the data already. -/
theorem consistent_of_run {db : Db} (hdb : db.Reached) (writeBuffer : Nat) (env : Env)
    (calls : List Call) (hcalls : LegalCalls env (.withWriteBuffer db writeBuffer) calls)
    (query : AttrQuery) {start : Flusher} (hstart : start.early = true)
    (race : Interleaved env query start (run env (.withWriteBuffer db writeBuffer) calls)) :
    race.Consistent ↔ race.Whole :=
  Interleaved.consistent_iff (inv_of_run hdb writeBuffer hcalls).1 hstart race

def bufferedFile : List Call := [.createOpen 1 [97] 0o644 0 0 0, .writeFh 0 0 [1, 2, 3]]

def buffered : Shared := run calm (.withWriteBuffer (.fresh 0 0 ⟨0, 0⟩) 65536) bufferedFile

def emptyAttr : FileAttr :=
  ⟨2, 0, 0, 0, 0, 0, 0, .regularFile, 0o644, 1, 0, 0, 0, 65536, 0⟩

/-- The row is read before the flush, and the overlay put over it when the data is written. -/
def torn : Interleaved calm (.getattr 2) .waiting buffered where
  beforeRow := 0
  beforeOverlay := 3
  rest := 1
  attr := emptyAttr
  afterRow := { buffered with tick := buffered.tick + 1 }
  read := rfl
  unlocked := by decide
  finished := by decide

/-- The query shows the size of the data with the times of the empty file. -/
theorem torn_inconsistent :
    LegalCalls calm (.withWriteBuffer (.fresh 0 0 ⟨0, 0⟩) 65536) bufferedFile ∧
      torn.answer.shown = (3, 0, 0) ∧ ¬torn.Consistent := by
  refine ⟨by decide, by decide, ?_⟩
  unfold Interleaved.Consistent
  decide

def undisturbed : Interleaved calm (.getattr 2) .waiting buffered where
  beforeRow := 0
  beforeOverlay := 0
  rest := 4
  attr := emptyAttr
  afterRow := { buffered with tick := buffered.tick + 1 }
  read := rfl
  unlocked := by decide
  finished := by decide

theorem consistent_of_undisturbed : undisturbed.Consistent := by
  have hlegal : LegalCalls calm (.withWriteBuffer (.fresh 0 0 ⟨0, 0⟩) 65536) bufferedFile := by
    decide
  apply (consistent_of_run (.fresh 0 0 ⟨0, 0⟩) 65536 calm bufferedFile hlegal (.getattr 2) rfl
    undisturbed).mpr
  intro r size modified _ hflushed
  exact (hflushed 3 ⟨2, 0⟩ rfl).elim

end Dbfs

end VibeDbfs
