import VibeDbfs.Fuse.Slots
import VibeDbfs.Fuse.StoredFile

/-!
The invariant of the file system behind its lock: database and table agree on every file, and each
named file can be recovered as it was at some moment since it was last saved.
-/

set_option autoImplicit false
set_option relaxedAutoImplicit false

namespace VibeDbfs

open Lib Lib.Bytes

def StoredFile.bytes (f : StoredFile) : Bytes := glue chunkSize f.size f.chunk

def Db.Named (db : Db) (ino : Nat) : Prop := db.kindOf ino = some .regularFile ∧ 0 < db.nlinkOf ino

def Moment.file (m : Moment) (ino : Nat) : File := ⟨m.db.file ino, m.table.file ino⟩

def Shared.file (s : Shared) (ino : Nat) : File := ⟨s.db.file ino, s.table.file ino⟩

/-- The file `ino` had the content `bytes` at one of the moments, and was not saved since. -/
def Since (ino : Nat) (bytes : Bytes) : List Moment → Prop
  | [] => False
  | m :: ms => m.db.Named ino ∧
      ((m.file ino).bytes = bytes ∨ m.saves ino = false ∧ Since ino bytes ms)

/-- A history whose every moment could be a crash: the store is sound, and its named files have
the content of a moment since they were last saved. -/
def Chronicle : List Moment → Prop
  | [] => True
  | m :: ms => m.db.Sound ∧ (∀ ino, m.db.Named ino → Since ino (m.db.file ino).bytes (m :: ms)) ∧
      Chronicle ms

namespace Shared

/-- Database and table agree. No directory that could be removed has a slot, except those that the
running call has in use, `busy`. -/
structure Core (held : List ArenaSlot) (busy : Nat → Prop) (s : Shared) : Prop where
  sound : s.db.Sound
  table : s.table.WF held
  live : ∀ ino o, s.table.file ino = some o → o.Agrees (s.db.file ino)
  directory : ∀ ino o, s.table.file ino = some o → o.kind = .directory → ino = 1 ∨ busy ino
  chronicle : Chronicle s.moments

/-- The invariant. -/
structure Inv (held : List ArenaSlot) (busy : Nat → Prop) (s : Shared) : Prop
    extends s.Core held busy where
  since : ∀ ino, s.db.Named ino → Since ino (s.db.file ino).bytes s.moments

/-- From `s` to `s'` names, handles and counts are the same, and so is the content of each file
that is not `touched`. -/
structure Frame (touched : Nat → Prop) (s s' : Shared) : Prop where
  names : s'.db.names = s.db.names
  symlinks : s'.db.symlinkTargets = s.db.symlinkTargets
  bytes : ∀ ino, ¬touched ino → (s'.file ino).bytes = (s.file ino).bytes
  clean : ∀ ino, ¬touched ino → (s.file ino).Clean → (s'.file ino).Clean
  refs : ∀ ino, (s'.file ino).refs = (s.file ino).refs
  unlinked : ∀ ino, (s'.file ino).unlinked = (s.file ino).unlinked
  handles : ∀ fh, s'.table.handleIno fh = s.table.handleIno fh
  closing : s'.table.closing = s.table.closing
  maxSlots : s'.table.arena.maxSlots = s.table.arena.maxSlots

abbrev Quiet (s s' : Shared) : Prop := Frame (fun _ => False) s s'

variable {s s' s'' : Shared} {held : List ArenaSlot} {busy touched : Nat → Prop} {ino : Nat}

theorem Frame.refl (s : Shared) : Frame touched s s :=
  ⟨rfl, rfl, fun _ _ => rfl, fun _ _ h => h, fun _ => rfl, fun _ => rfl, fun _ => rfl, rfl, rfl⟩

theorem Frame.of_eq (hdb : s'.db = s.db) (htable : s'.table = s.table) : Frame touched s s' := by
  have hfile : ∀ ino, s'.file ino = s.file ino := fun ino => by rw [file, file, hdb, htable]
  refine ⟨by rw [hdb], by rw [hdb], fun ino _ => by rw [hfile], fun ino _ => ?_, fun ino => by
    rw [hfile], fun ino => by rw [hfile], fun fh => by rw [htable], by rw [htable], by rw [htable]⟩
  rw [hfile]
  exact fun h => h

theorem Frame.trans (h : Frame touched s s') (h' : Frame touched s' s'') : Frame touched s s'' where
  names := h'.names.trans h.names
  symlinks := h'.symlinks.trans h.symlinks
  bytes ino hino := (h'.bytes ino hino).trans (h.bytes ino hino)
  clean ino hino hc := h'.clean ino hino (h.clean ino hino hc)
  refs ino := (h'.refs ino).trans (h.refs ino)
  unlinked ino := (h'.unlinked ino).trans (h.unlinked ino)
  handles fh := (h'.handles fh).trans (h.handles fh)
  closing := h'.closing.trans h.closing
  maxSlots := h'.maxSlots.trans h.maxSlots

theorem Frame.after_eq {s₁ : Shared} (h : Frame touched s₁ s') (hdb : s₁.db = s.db)
    (htable : s₁.table = s.table) : Frame touched s s' :=
  (Frame.of_eq hdb htable).trans h

theorem Frame.mono {touched' : Nat → Prop} (h : Frame touched s s')
    (hsub : ∀ ino, touched ino → touched' ino) : Frame touched' s s' :=
  { h with
    bytes := fun ino hino => h.bytes ino fun ht => hino (hsub ino ht)
    clean := fun ino hino => h.clean ino fun ht => hino (hsub ino ht) }

theorem Quiet.frame (h : Quiet s s') : Frame touched s s' := h.mono fun _ => False.elim

theorem Frame.of_file (hnames : s'.db.names = s.db.names)
    (hsymlinks : s'.db.symlinkTargets = s.db.symlinkTargets)
    (hother : ∀ j, j ≠ ino → s'.file j = s.file j)
    (hbytes : ¬touched ino → (s'.file ino).bytes = (s.file ino).bytes ∧
      ((s.file ino).Clean → (s'.file ino).Clean))
    (hrefs : (s'.file ino).refs = (s.file ino).refs)
    (hunlinked : (s'.file ino).unlinked = (s.file ino).unlinked)
    (hhandles : ∀ fh, s'.table.handleIno fh = s.table.handleIno fh)
    (hclosing : s'.table.closing = s.table.closing)
    (hslots : s'.table.arena.maxSlots = s.table.arena.maxSlots) : Frame touched s s' := by
  refine ⟨hnames, hsymlinks, fun j hj => ?_, fun j hj => ?_, fun j => ?_, fun j => ?_, hhandles,
    hclosing, hslots⟩
  · by_cases heq : j = ino
    · subst heq
      exact (hbytes hj).1
    · rw [hother j heq]
  · by_cases heq : j = ino
    · subst heq
      exact (hbytes hj).2
    · rw [hother j heq]
      exact fun h => h
  · by_cases heq : j = ino
    · rw [heq, hrefs]
    · rw [hother j heq]
  · by_cases heq : j = ino
    · rw [heq, hunlinked]
    · rw [hother j heq]

theorem Core.file_ok (h : s.Core held busy) (ino : Nat) : (s.file ino).Ok :=
  ⟨h.sound.file_ok ino, h.live ino⟩

theorem Core.kindOf (h : s.Core held busy) {o : OpenFile} (ho : s.table.file ino = some o) :
    s.db.kindOf ino = some o.kind :=
  (h.live ino o ho).kind

theorem Core.nlink_of_unlinked (h : s.Core held busy) (hunlinked : (s.file ino).unlinked = true) :
    s.db.nlinkOf ino = 0 := by
  rcases ho : s.table.file ino with _ | o
  · rw [file, ho] at hunlinked
    cases hunlinked
  · rw [file, ho] at hunlinked
    exact ((h.live ino o ho).unlinked hunlinked).2

private theorem Core.mono {busy' : Nat → Prop} (h : s.Core held busy)
    (hbusy : ∀ ino o, s.table.file ino = some o → o.kind = .directory → busy ino →
      ino = 1 ∨ busy' ino) : s.Core held busy' :=
  { h with directory := fun ino o ho hd => (h.directory ino o ho hd).elim .inl (hbusy ino o ho hd) }

theorem Inv.mono {busy' : Nat → Prop} (h : s.Inv held busy)
    (hbusy : ∀ ino o, s.table.file ino = some o → o.kind = .directory → busy ino →
      ino = 1 ∨ busy' ino) : s.Inv held busy' :=
  ⟨h.toCore.mono hbusy, h.since⟩

theorem Core.bytes_of_clean (h : s.Core held busy) (hc : (s.file ino).Clean) :
    (s.file ino).bytes = (s.db.file ino).bytes :=
  File.bytes_of_clean (h.file_ok ino) hc

theorem Core.record (h : s.Core held busy) (saves : Nat → Bool)
    (hsince : ∀ ino, s.db.Named ino → (s.file ino).bytes = (s.db.file ino).bytes ∨
      saves ino = false ∧ Since ino (s.db.file ino).bytes s.moments) :
    (s.record saves).Inv held busy := by
  have hnew : ∀ ino, s.db.Named ino →
      Since ino (s.db.file ino).bytes (⟨s.db, s.table, saves⟩ :: s.moments) :=
    fun ino hnamed => ⟨hnamed, hsince ino hnamed⟩
  exact ⟨⟨h.sound, h.table, h.live, h.directory, h.sound, hnew, h.chronicle⟩, hnew⟩

theorem Inv.record (h : s.Inv held busy) (saves : Nat → Bool)
    (hsaves : ∀ ino, s.db.Named ino → saves ino = true →
      (s.file ino).bytes = (s.db.file ino).bytes) : (s.record saves).Inv held busy := by
  refine h.toCore.record saves fun ino hnamed => ?_
  rcases hino : saves ino
  · exact .inr ⟨rfl, h.since ino hnamed⟩
  · exact .inl (hsaves ino hnamed hino)

theorem Inv.of_core (h : s.Inv held busy) {held' : List ArenaSlot} {busy' : Nat → Prop}
    (hcore : s'.Core held' busy') (hmoments : s'.moments = s.moments)
    (hstored : ∀ ino, s'.db.Named ino →
      s.db.Named ino ∧ (s'.db.file ino).bytes = (s.db.file ino).bytes) : s'.Inv held' busy' := by
  refine ⟨hcore, fun ino hnamed => ?_⟩
  obtain ⟨hold, hbytes⟩ := hstored ino hnamed
  rw [hmoments, hbytes]
  exact h.since ino hold

theorem Inv.of_eq (h : s.Inv held busy) (hdb : s'.db = s.db) (htable : s'.table = s.table)
    (hmoments : s'.moments = s.moments) : s'.Inv held busy := by
  refine ⟨⟨hdb ▸ h.sound, htable ▸ h.table, fun ino o ho => ?_,
    htable ▸ h.directory, hmoments ▸ h.chronicle⟩, fun ino hnamed => ?_⟩
  · rw [hdb]
    exact h.live ino o (htable ▸ ho)
  · rw [hdb] at hnamed ⊢
    rw [hmoments]
    exact h.since ino hnamed

theorem Core.of_table (h : s.Core held busy) {held' : List ArenaSlot} {busy' : Nat → Prop}
    (hdb : s'.db = s.db) (hmoments : s'.moments = s.moments) (htable : s'.table.WF held')
    (hlive : ∀ ino o, s'.table.file ino = some o → o.Agrees (s.db.file ino))
    (hdirectory : ∀ ino o, s'.table.file ino = some o → o.kind = .directory → ino = 1 ∨ busy' ino) :
    s'.Core held' busy' :=
  ⟨hdb ▸ h.sound, htable, fun ino o ho => hdb ▸ hlive ino o ho, hdirectory, hmoments ▸ h.chronicle⟩

theorem Inv.of_table (h : s.Inv held busy) {held' : List ArenaSlot} {busy' : Nat → Prop}
    (hcore : s'.Core held' busy') (hdb : s'.db = s.db) (hmoments : s'.moments = s.moments) :
    s'.Inv held' busy' :=
  h.of_core hcore hmoments fun ino hnamed => by
    rw [hdb] at hnamed ⊢
    exact ⟨hnamed, rfl⟩

end Shared

end VibeDbfs
