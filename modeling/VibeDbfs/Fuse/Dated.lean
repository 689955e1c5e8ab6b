import VibeDbfs.Fuse.Invisible

/-!
The times that an inode can show, between two bounds: the `ctime` of its row, or the time of its
unflushed data where there is any. Flushes carry the one into the other, and every other step gives
them readings of the clock.
-/

set_option autoImplicit false
set_option relaxedAutoImplicit false

namespace VibeDbfs

open Lib Lib.Bytes Shared

/-- The time lies between the bounds, as it is and as its column gives it back. -/
structure Timestamp.Between (lo hi : SystemTime) (t : Timestamp) : Prop where
  shown : lo ≤ t.toSystemTime ∧ t.toSystemTime ≤ hi
  stored : lo ≤ Timestamp.load t.toNs ∧ Timestamp.load t.toNs ≤ hi

/-- The clock stays between the bounds from access `first` to before access `last`. -/
def Env.Between (env : Env) (lo hi : SystemTime) (first last : Nat) : Prop :=
  ∀ n, first ≤ n → n < last → Timestamp.Between lo hi (.fromSystemTime (env.clock n))

private theorem Env.Between.mono {env : Env} {lo hi : SystemTime} {first first' last last' : Nat}
    (h : env.Between lo hi first last) (hfirst : first ≤ first') (hlast : last' ≤ last) :
    env.Between lo hi first' last' :=
  fun n hn hn' => h n (hfirst.trans hn) (hn'.trans_le hlast)

/-- No slot of `ino` has unflushed data. -/
def OpenTable.Saved (t : OpenTable) (ino : Nat) : Prop :=
  ∀ j, (t.inodes.get j).ino = ino → (t.inodes.get j).dirty.isEmpty = true

private theorem OpenTable.KeepsSlots.saved {t t' : OpenTable} {ino : Nat} (h : t.KeepsSlots t')
    (hsaved : t'.Saved ino) : t.Saved ino := by
  intro j hj
  obtain ⟨hino, -, hdirty⟩ := h j
  rw [← hdirty]
  exact hsaved j (hino.trans hj)

def Look.stamp (l : Look) : Option Timestamp := l.overlay.bind Prod.snd

theorem Shared.stamp_of_dirty {s : Shared} {ino : Nat} {slot : Slot}
    (hf : s.table.inodes.find ino = some slot)
    (hdirty : (s.table.inodes.get slot).dirty.isEmpty = false) :
    (s.look ino).stamp = some (s.table.inodes.get slot).mtime := by
  rw [Look.stamp, look, OpenTable.overlay_of_find hf, OpenInode.overlay, hdirty]
  rfl

namespace Shared

/-- What `ino` shows lies between the bounds, and no row of it is later. The slot that a call is
`writing` to has its new time before it has the data. -/
structure Dated (writing : Option Slot) (lo hi : SystemTime) (ino : Nat) (s : Shared) : Prop where
  slots : ∀ j, (s.table.inodes.get j).ino = ino →
    (s.table.inodes.get j).dirty.isEmpty = false ∨ writing = some j →
      (s.table.inodes.get j).mtime.Between lo hi
  late : ∀ r ∈ s.db.inodes, r.ino = ino → Timestamp.load r.ctimeNs ≤ hi
  early : s.table.Saved ino → ∀ r ∈ s.db.inodes, r.ino = ino → lo ≤ Timestamp.load r.ctimeNs

/-- From `s` to `s'` nothing gets a time but from the clock, or the one that was `given`. -/
structure Redates (env : Env) (given : Option Timestamp) (writing : Option Slot)
    (s s' : Shared) : Prop where
  tick : s.tick ≤ s'.tick
  dated : ∀ lo hi ino, (∀ m, given = some m → m.Between lo hi) →
    env.Between lo hi s.tick s'.tick → s.Dated writing lo hi ino → s'.Dated writing lo hi ino

variable {env : Env} {given : Option Timestamp} {writing : Option Slot} {s s' s'' : Shared}
  {lo hi : SystemTime} {ino : Nat}

theorem Dated.mono {hi' : SystemTime} (h : s.Dated writing lo hi ino) (hle : hi ≤ hi') :
    s.Dated writing lo hi' ino := by
  refine ⟨fun j hino hj => ?_, fun r hr hino => (h.late r hr hino).trans hle, h.early⟩
  obtain ⟨hshown, hstored⟩ := h.slots j hino hj
  exact ⟨⟨hshown.1, hshown.2.trans hle⟩, ⟨hstored.1, hstored.2.trans hle⟩⟩

private theorem Dated.slots_of_keeps (h : s.Dated writing lo hi ino)
    (htable : s.table.KeepsSlots s'.table) (j : Slot) (hino : (s'.table.inodes.get j).ino = ino)
    (hj : (s'.table.inodes.get j).dirty.isEmpty = false ∨ writing = some j) :
    (s'.table.inodes.get j).mtime.Between lo hi := by
  obtain ⟨hino', hmtime, hdirty⟩ := htable j
  rw [hino'] at hino
  rw [hdirty] at hj
  rw [hmtime]
  exact h.slots j hino hj

private theorem Redates.refl (s : Shared) : Redates env given writing s s :=
  ⟨Nat.le_refl _, fun _ _ _ _ _ h => h⟩

theorem Redates.trans (h : Redates env given writing s s') (h' : Redates env given writing s' s'') :
    Redates env given writing s s'' := by
  refine ⟨h.tick.trans h'.tick, fun lo hi ino hgiven hclock hdated => ?_⟩
  apply h'.dated lo hi ino hgiven (hclock.mono h.tick (Nat.le_refl _))
  exact h.dated lo hi ino hgiven (hclock.mono (Nat.le_refl _) h'.tick) hdated

instance : IsPreorder Shared (Redates env given writing) where
  refl := Redates.refl
  trans _ _ _ := Redates.trans

private theorem Redates.of_rows {m : Timestamp} (htick : s.tick ≤ s'.tick)
    (hrows : s.db.Restamps m s'.db) (htable : s.table.KeepsSlots s'.table) :
    Redates env (some m) writing s s' := by
  refine ⟨htick, fun lo hi ino hgiven _ hdated => ?_⟩
  have hm := (hgiven m rfl).stored
  constructor
  · exact hdated.slots_of_keeps htable
  · intro r' hr' hino
    rcases hrows r' hr' with ⟨r, hr, hstamped⟩ | hmade
    · rcases hstamped.ctime with hsame | hnow
      · rw [hsame]
        exact hdated.late r hr (hstamped.ino.symm.trans hino)
      · rw [hnow]
        exact hm.2
    · rw [hmade.ctime]
      exact hm.2
  · intro hsaved r' hr' hino
    rcases hrows r' hr' with ⟨r, hr, hstamped⟩ | hmade
    · rcases hstamped.ctime with hsame | hnow
      · rw [hsame]
        exact hdated.early (htable.saved hsaved) r hr (hstamped.ino.symm.trans hino)
      · rw [hnow]
        exact hm.1
    · rw [hmade.ctime]
      exact hm.1

private theorem Redates.of_keepsSlots (htick : s.tick ≤ s'.tick) (hdb : s'.db.inodes ⊆ s.db.inodes)
    (htable : s.table.KeepsSlots s'.table) : Redates env given writing s s' := by
  refine ⟨htick, fun lo hi ino _ _ hdated => ?_⟩
  constructor
  · exact hdated.slots_of_keeps htable
  · intro r hr
    exact hdated.late r (hdb hr)
  · intro hsaved r hr
    exact hdated.early (htable.saved hsaved) r (hdb hr)

theorem Redates.of_eq (htick : s.tick ≤ s'.tick) (hdb : s'.db = s.db)
    (htable : s'.table = s.table) : Redates env given writing s s' :=
  .of_keepsSlots htick (by rw [hdb]; exact List.Subset.refl _) (.of_eq (by rw [htable]))

private theorem Redates.of_now (h : Redates env (some (.fromSystemTime (env.clock s.tick))) writing
    { s with tick := s.tick + 1 } s') : Redates env given writing s s' := by
  have htick : s.tick + 1 ≤ s'.tick := h.tick
  refine ⟨(Nat.le_succ _).trans htick, fun lo hi ino _ hclock hdated => ?_⟩
  apply h.dated lo hi ino
  · rintro m ⟨⟩
    exact hclock s.tick (Nat.le_refl _) htick
  · exact hclock.mono (Nat.le_succ _) (Nat.le_refl _)
  · exact ⟨hdated.slots, hdated.late, hdated.early⟩

end Shared

namespace Db

variable {db : Db} {ino : Nat}

private theorem no_row (h : db.kindOf ino = none) {r : InodeRow} (hr : r ∈ db.inodes) :
    r.ino ≠ ino := by
  have hnone : db.findInode ino = none := Option.map_eq_none_iff.mp h
  simpa using List.find?_eq_none.mp hnone r hr

private theorem kindOf_dropUnlinkedInode {target : Inode} {now : Timestamp}
    (hfile : target.kind ≠ .directory) (hlast : target.nlink ≤ 1) :
    (db.dropUnlinkedInode target now false).kindOf target.ino = none := by
  have hkept : ¬(target.nlink > 1 ∨ false = true) := by
    simpa using hlast
  rw [dropUnlinkedInode, if_neg hfile, if_neg hkept, kindOf_deleteInodeRows, if_pos rfl]

end Db

namespace Fs

variable {α : Type} {env : Env} {given : Option Timestamp} {writing : Option Slot} {s : Shared}
  {held : List ArenaSlot} {busy : Nat → Prop} {ino : Nat} {slot : Slot}

section Steps

private theorem redates_access {m : Timestamp} {f : Db → Except DbError (α × Db)}
    (hf : ∀ db a db', f db = .ok (a, db') → db.Restamps m db') :
    Prog.Within (Redates env (some m) writing) (access env f) := by
  intro s
  change Prog.wp (access env f) (fun _ s' => Redates env (some m) writing s s') s
  apply wp_access
  · intro failure _
    exact .of_eq (Nat.le_succ _) rfl rfl
  · intro error _
    exact .of_eq (Nat.le_succ _) rfl rfl
  · intro a db hok
    exact .of_rows (Nat.le_succ _) (hf _ _ _ hok) (.of_eq rfl)

private theorem redates_query (f : Db → Except DbError α) :
    Prog.Within (Redates env given writing) (query env f) := by
  intro s
  change Prog.wp (query env f) (fun _ s' => Redates env given writing s s') s
  apply wp_query
  · intro failure _
    exact .of_eq (Nat.le_succ _) rfl rfl
  · intro error _
    exact .of_eq (Nat.le_succ _) rfl rfl
  · intro a _
    exact .of_eq (Nat.le_succ _) rfl rfl

private theorem redates_now {x : Timestamp → Fs α}
    (hx : ∀ m, Prog.Within (Redates env (some m) writing) (x m)) :
    Prog.Within (Redates env given writing) (now env >>= x) := fun _ => .of_now (hx _ _)

private theorem redates_table {f : OpenTable → OpenTable} (hf : ∀ t, OpenTable.KeepsSlots t (f t)) :
    Prog.Within (Redates env given writing) (updateTable f) := fun s =>
  .of_keepsSlots (Nat.le_refl _) (List.Subset.refl _) (hf s.table)

private theorem redates_save {s' : Shared} {chunks : List (Nat × Bytes)} (htick : s.tick ≤ s'.tick)
    (hdirty : (s.table.inodes.get slot).dirty.isEmpty = false)
    (hdb : s'.db = (s.db.upsertAll (s.table.inodes.get slot).ino chunks).setSize
      (s.table.inodes.get slot).ino (s.table.inodes.get slot).size (s.table.inodes.get slot).mtime)
    (htable : s'.table = s.table.releaseDirty slot) : Redates env given writing s s' := by
  refine ⟨htick, fun lo hi ino _ _ hdated => ?_⟩
  have hslots : s'.table.inodes.slots = s.table.inodes.slots.modify slot fun o =>
      { o with dirty := .empty } := by
    rw [htable, inodes_releaseDirty]
    rfl
  -- each row is as it was, or has the time of the slot
  have hrows : ∀ r' ∈ s'.db.inodes, (∃ r ∈ s.db.inodes, r'.ino = r.ino ∧
      r'.ctimeNs = r.ctimeNs ∧ r.ino ≠ (s.table.inodes.get slot).ino) ∨
      r'.ino = (s.table.inodes.get slot).ino ∧
        r'.ctimeNs = (s.table.inodes.get slot).mtime.toNs := by
    intro r' hr'
    rw [hdb] at hr'
    obtain ⟨r, hr, rfl⟩ := List.mem_map.mp hr'
    rw [Db.upsertAll_rows.1] at hr
    split
    · next heq => exact .inr ⟨heq, rfl⟩
    · next hne => exact .inl ⟨r, hr, rfl, rfl, hne⟩
  constructor
  · intro j hino hj
    rcases OpenTable.get_modify hslots j with hsame | ⟨rfl, hset⟩
    · rw [hsame] at hino hj ⊢
      exact hdated.slots j hino hj
    · rw [hset] at hino ⊢
      exact hdated.slots j hino (.inl hdirty)
  · intro r' hr' hino
    rcases hrows r' hr' with ⟨r, hr, hino', hctime, -⟩ | ⟨hino', hctime⟩
    · rw [hctime]
      exact hdated.late r hr (hino'.symm.trans hino)
    · rw [hctime]
      exact (hdated.slots slot (hino'.symm.trans hino) (.inl hdirty)).stored.2
  · intro hsaved r' hr' hino
    rcases hrows r' hr' with ⟨r, hr, hino', hctime, hne⟩ | ⟨hino', hctime⟩
    · rw [hctime]
      refine hdated.early (fun j hj => ?_) r hr (hino'.symm.trans hino)
      rcases OpenTable.get_modify hslots j with hsame | ⟨rfl, -⟩
      · rw [← hsame]
        exact hsaved j (hsame ▸ hj)
      · exact (hne ((hino'.symm.trans hino).trans hj.symm)).elim
    · rw [hctime]
      exact (hdated.slots slot (hino'.symm.trans hino) (.inl hdirty)).stored.1

private theorem redates_flushSlot (slot : Slot) (unlinked : Unlinked) :
    Prog.Within (Redates env given writing) (flushSlot env slot unlinked) := by
  intro s
  change Prog.wp (flushSlot env slot unlinked) (fun _ s' => Redates env given writing s s') s
  rw [flushSlot, wp_table_bind]
  dsimp only
  split
  · exact .refl s
  · next hflush =>
    have hdirty : (s.table.inodes.get slot).dirty.isEmpty = false := by
      rw [Bool.or_eq_true, not_or] at hflush
      exact Bool.eq_false_iff.mpr hflush.1
    rw [Prog.wp_bind_iff]
    apply wp_exec
    · intro failure _
      exact .of_eq (Nat.le_succ _) rfl rfl
    · intro error _
      exact .of_eq (Nat.le_succ _) rfl rfl
    · intro db hdb
      rw [wp_updateTable_bind, wp_record]
      exact redates_save (Nat.le_succ _) hdirty (Db.replaceChunks_eq hdb) rfl

theorem redates_routine (env : Env) (given : Option Timestamp) (writing : Option Slot) :
    Routine env (Redates env given writing) where
  query := redates_query
  stamped _ hf := redates_now fun m => redates_access (hf m)
  order _ := .of_eq (Nat.le_succ _) rfl rfl
  sync := by
    apply within_syncDurable
    · intro s
      exact .of_eq (Nat.le_succ _) rfl rfl
    · intro s
      exact .of_eq (Nat.le_succ _) rfl rfl
  record _ := .of_eq (Nat.le_refl _) rfl rfl
  flush := redates_flushSlot
  table _ hf := redates_table fun t => (hf t).keeps

end Steps

section Writes

private theorem isEmpty_of_insert {idx : DirtyIdx} {position c : Nat} {a : ArenaSlot}
    (h : (idx.insert position c a).isEmpty = true) : idx.isEmpty = true := by
  rw [DirtyIdx.isEmpty_iff, ← List.length_eq_zero_iff] at h ⊢
  change (idx.entries.insertIdx position (c, a)).length = 0 at h
  rw [List.length_insertIdx] at h
  split at h
  · omega
  · exact h

private theorem redates_insert {s' : Shared} {kind : FileKind} {size : Nat} (h : s.table.WF held)
    (hnone : s.table.inodes.find ino = none) (htick : s.tick ≤ s'.tick) (hdb : s'.db = s.db)
    (hinodes : s'.table.inodes = (s.table.inodes.insert ino kind size).2) :
    Redates env given none s s' := by
  refine ⟨htick, fun lo hi i _ _ hdated => ?_⟩
  obtain ⟨slot, inodes, hi⟩ :
    ∃ slot inodes, s.table.inodes.insert ino kind size = (slot, inodes) := ⟨_, _, rfl⟩
  obtain ⟨hnew, -, -, hget, -⟩ := h.insert_cases hnone hi
  have hinserted : s'.table.inodes = inodes := hinodes.trans (congrArg Prod.snd hi)
  rw [← hinserted] at hget
  constructor
  · intro j hino hj
    rw [hget] at hino hj ⊢
    split
    · next heq =>
      rw [if_pos heq] at hj
      rcases hj with hj | hj
      · cases hj
      · cases hj
    · next hne =>
      rw [if_neg hne] at hino hj
      exact hdated.slots j hino hj
  · rw [hdb]
    exact hdated.late
  · intro hsaved
    rw [hdb]
    apply hdated.early
    intro j hino
    by_cases heq : j = slot
    · rw [heq, (h.unused slot hnew).2]
      rfl
    · have hsame := hget j
      rw [if_neg heq] at hsame
      rw [← hsame]
      exact hsaved j (hsame ▸ hino)

/-- The slot that is written to has its time already, so it may get data. -/
private theorem redates_fill {s' : Shared} {f : OpenInode → OpenInode} (htick : s.tick ≤ s'.tick)
    (hdb : s'.db = s.db) (hslots : s'.table.inodes.slots = s.table.inodes.slots.modify slot f)
    (hf : ∀ o, (f o).ino = o.ino ∧ (f o).mtime = o.mtime ∧
      ((f o).dirty.isEmpty = true → o.dirty.isEmpty = true)) :
    Redates env given (some slot) s s' := by
  refine ⟨htick, fun lo hi ino _ _ hdated => ?_⟩
  constructor
  · intro j hino hj
    rcases OpenTable.get_modify hslots j with hsame | ⟨rfl, hset⟩
    · rw [hsame] at hino hj ⊢
      exact hdated.slots j hino hj
    · rw [hset] at hino ⊢
      rw [(hf _).2.1]
      exact hdated.slots j ((hf _).1.symm.trans hino) (.inr rfl)
  · rw [hdb]
    exact hdated.late
  · intro hsaved
    rw [hdb]
    apply hdated.early
    intro j hino
    rcases OpenTable.get_modify hslots j with hsame | ⟨rfl, hset⟩
    · rw [← hsame]
      exact hsaved j (hsame ▸ hino)
    · apply (hf _).2.2
      rw [← hset]
      apply hsaved
      rw [hset]
      exact (hf _).1.trans hino

private theorem redates_writeChunk (ino : Nat) (span : ChunkSpan) (data : Bytes) (c : Nat) :
    Prog.Within (Redates env given (some slot)) (writeChunk env slot ino span data c) := by
  apply (redates_routine env given (some slot)).writeChunk
  intro c a s
  exact redates_fill (Nat.le_refl _) rfl rfl fun _ => ⟨rfl, rfl, isEmpty_of_insert⟩

private theorem dated_stamp {s' : Shared} {m : Timestamp} {lo hi : SystemTime}
    (h : s.Dated none lo hi ino) (hm : m.Between lo hi) (hlt : slot < s.table.inodes.slots.length)
    (hdb : s'.db = s.db)
    (hinodes : s'.table.inodes = s.table.inodes.update slot fun o => { o with mtime := m }) :
    s'.Dated (some slot) lo hi ino := by
  have hget : ∀ j, s'.table.inodes.get j =
      if j = slot then { s.table.inodes.get j with mtime := m } else s.table.inodes.get j := by
    intro j
    rw [hinodes]
    exact OpenTable.get_update hlt j
  constructor
  · intro j hino hj
    rw [hget] at hino hj ⊢
    split
    · exact hm
    · next hne =>
      rw [if_neg hne] at hino hj
      refine h.slots j hino (hj.imp_right fun hwriting => ?_)
      cases hwriting
      exact (hne rfl).elim
  · rw [hdb]
    exact h.late
  · intro hsaved
    rw [hdb]
    apply h.early
    intro j hino
    have hsame : (s'.table.inodes.get j).ino = (s.table.inodes.get j).ino ∧
        (s'.table.inodes.get j).dirty = (s.table.inodes.get j).dirty := by
      rw [hget]
      split
      · exact ⟨rfl, rfl⟩
      · exact ⟨rfl, rfl⟩
    rw [← hsame.2]
    exact hsaved j (hsame.1.trans hino)

private theorem redates_stamp {s' : Shared} (hlt : slot < s.table.inodes.slots.length)
    (h : Redates env given (some slot) { s with
      tick := s.tick + 1
      table := s.table.updateSlot slot fun o =>
        { o with mtime := .fromSystemTime (env.clock s.tick) } } s') :
    Redates env given none s s' := by
  have htick : s.tick + 1 ≤ s'.tick := h.tick
  refine ⟨(Nat.le_succ _).trans htick, fun lo hi ino hgiven hclock hdated => ?_⟩
  have hstamped : Dated (some slot) lo hi ino { s with
      tick := s.tick + 1
      table := s.table.updateSlot slot fun o =>
        { o with mtime := .fromSystemTime (env.clock s.tick) } } :=
    dated_stamp hdated (hclock s.tick (Nat.le_refl _) htick) hlt rfl rfl
  obtain ⟨hslots, hlate, hearly⟩ :=
    h.dated lo hi ino hgiven (hclock.mono (Nat.le_succ _) (Nat.le_refl _)) hstamped
  refine ⟨fun j hino hj => hslots j hino (hj.imp_right fun hnone => ?_), hlate, hearly⟩
  cases hnone

private theorem redates_writeSlot {offset : Nat} {data : Bytes}
    (hlt : slot < s.table.inodes.slots.length) :
    Prog.wp (writeSlot env slot offset data) (fun _ s' => Redates env given none s s') s := by
  rw [writeSlot, wp_table_bind]
  dsimp only
  rcases hregular : (s.table.inodes.get slot).kind.regularFileError with _ | error
  · rw [errnoOfKind, hregular, Prog.wp_pure_bind]
    split
    · exact .refl s
    · rcases ChunkSpan.new offset data.length with _ | span
      · exact .refl s
      · dsimp only
        split
        · exact .refl s
        · rw [wp_now_bind, wp_updateTable_bind]
          apply Prog.wp_mono (P := fun _ s' => Redates env given (some slot) _ s')
          · exact Prog.Within.bind (.each (redates_writeChunk _ span data) _) (fun _ => .pure _) _
          · intro _ s' hs'
            exact redates_stamp hlt hs'
  · rw [errnoOfKind, hregular]
    exact .refl s

private theorem redates_slotFor (h : s.Inv held busy) :
    Prog.wp (slotFor env ino) (fun _ s' => Redates env given none s s') s := by
  rw [slotFor, wp_table_bind]
  rcases hf : s.table.inodes.find ino with _ | slot
  · dsimp only
    rw [Prog.wp_bind_iff]
    apply wp_query
    · intro failure _
      exact .of_eq (Nat.le_succ _) rfl rfl
    · intro error _
      exact .of_eq (Nat.le_succ _) rfl rfl
    · intro head _
      exact redates_insert h.table hf (Nat.le_succ _) rfl rfl
  · exact .refl s

end Writes

section Removals

/-- The slot goes with its data, unless a row would show an older time then. -/
private theorem redates_discard (slot : Slot) {s' : Shared}
    (hrow : (s.table.inodes.get slot).dirty.isEmpty = false → ∀ r ∈ s.db.inodes,
      r.ino = (s.table.inodes.get slot).ino →
        (s.table.inodes.get slot).mtime.toSystemTime ≤ Timestamp.load r.ctimeNs)
    (htick : s.tick ≤ s'.tick) (hdb : s'.db = s.db)
    (htable : s'.table = s.table.discardSlot slot) : Redates env given none s s' := by
  refine ⟨htick, fun lo hi ino _ _ hdated => ?_⟩
  have hslots : s'.table.inodes.slots = s.table.inodes.slots.modify slot fun o =>
      { o with dirty := .empty, refs := 0, unlinked := false } := by
    rw [htable, OpenTable.discardSlot]
    dsimp only
    rw [inodes_releaseDirty, OpenInodes.remove, OpenInodes.update, List.modify_modify_eq]
    rfl
  constructor
  · intro j hino hj
    rcases OpenTable.get_modify hslots j with hsame | ⟨-, hset⟩
    · rw [hsame] at hino hj ⊢
      exact hdated.slots j hino hj
    · rw [hset] at hj
      rcases hj with hj | hj
      · cases hj
      · cases hj
  · rw [hdb]
    exact hdated.late
  · intro hsaved r hr hino
    rw [hdb] at hr
    by_cases hdirty : (s.table.inodes.get slot).ino = ino ∧
        (s.table.inodes.get slot).dirty.isEmpty = false
    · have hshown := (hdated.slots slot hdirty.1 (.inl hdirty.2)).shown.1
      exact hshown.trans (hrow hdirty.2 r hr (hino.trans hdirty.1.symm))
    · refine hdated.early (fun j hj => ?_) r hr hino
      rcases OpenTable.get_modify hslots j with hsame | ⟨rfl, -⟩
      · rw [← hsame]
        exact hsaved j (hsame ▸ hj)
      · rw [not_and, Bool.not_eq_false] at hdirty
        exact hdirty hj

private theorem redates_entryRemoved {s' : Shared} {m : Timestamp} {target : Inode}
    (h : s.table.WF held) (htick : s.tick ≤ s'.tick) (hrows : s.db.Restamps m s'.db)
    (hgone : target.kind ≠ .directory → target.nlink ≤ 1 → s.table.isOpen target.ino = false →
      s'.db.kindOf target.ino = none)
    (htable : s'.table = s.table.entryRemoved target) :
    Redates env (some m) none s s' := by
  have hkept : s.table.KeepsSlots s'.table → Redates env (some m) none s s' :=
    .of_rows htick hrows
  unfold OpenTable.entryRemoved at htable
  split at htable
  · exact hkept (htable ▸ .of_eq rfl)
  · next hfile =>
    rw [not_or, not_lt] at hfile
    split at htable
    · exact hkept (htable ▸ .of_eq rfl)
    · next slot hf =>
      split at htable
      · exact hkept (htable ▸ OpenTable.keepsSlots_modify rfl fun _ => ⟨rfl, rfl, rfl⟩)
      · next hclosed =>
        have hisOpen : s.table.isOpen target.ino = false := by
          rw [OpenTable.isOpen, hf]
          exact Bool.eq_false_iff.mpr hclosed
        have hnone := hgone hfile.1 hfile.2 hisOpen
        have hdeleted : Redates env (some m) none s { s with tick := s'.tick, db := s'.db } :=
          .of_rows htick hrows (.of_eq rfl)
        refine hdeleted.trans (redates_discard slot (fun _ r hr hino => ?_)
          (Nat.le_refl _) rfl htable)
        rw [h.find_ino hf] at hino
        exact (Db.no_row hnone hr hino).elim

private theorem redates_unlinkLocked {parent : Nat} {name : Name} {inode : Inode}
    (h : s.Inv held busy) :
    Prog.wp (unlinkLocked env parent name inode) (fun _ s' => Redates env given none s s') s := by
  rw [unlinkLocked, wp_table_bind, wp_now_bind, Prog.wp_bind_iff]
  apply wp_exec
  · intro failure _
    exact .of_eq (Nat.le_add_right _ 2) rfl rfl
  · intro error _
    exact .of_eq (Nat.le_add_right _ 2) rfl rfl
  · intro db hdb
    rw [wp_updateTable]
    refine .of_now (redates_entryRemoved h.table (Nat.le_succ _) (Db.restamps_unlinkEntry hdb) ?_
      rfl)
    intro hfile hlast hclosed
    obtain ⟨-, rfl⟩ := Db.unlinkEntry_cases hdb
    rw [hclosed]
    exact (Db.kindOf_touchDir _).trans (Db.kindOf_dropUnlinkedInode hfile hlast)

theorem redates_unlink {parent : Nat} {name : Name} (h : s.Inv held busy) :
    Prog.wp (unlink env parent name) (fun _ s' => Redates env given none s s') s := by
  have hread : Prog.wp (query env fun db => db.lookup parent name) (fun _ s₁ =>
      s₁.Inv held busy ∧ Redates env given none s s₁) s := by
    apply wp_query
    · intro failure _
      exact ⟨h.of_eq rfl rfl rfl, .of_eq (Nat.le_succ _) rfl rfl⟩
    · intro error _
      exact ⟨h.of_eq rfl rfl rfl, .of_eq (Nat.le_succ _) rfl rfl⟩
    · intro inode _
      exact ⟨h.of_eq rfl rfl rfl, .of_eq (Nat.le_succ _) rfl rfl⟩
  apply Prog.wp_bind hread
  · intro inode s₁ hs₁
    exact Prog.wp_mono (redates_unlinkLocked hs₁.1) fun _ _ hs' => hs₁.2.trans hs'
  · intro e s₁ hs₁
    exact hs₁.2

theorem redates_rename {parent newParent : Nat} {name newName : Name} {flags : UInt32}
    (h : s.Inv held busy) :
    Prog.wp (rename env parent name newParent newName flags)
      (fun _ s' => Redates env given none s s') s := by
  unfold rename
  split
  · exact .refl s
  · rw [wp_table_bind, wp_now_bind, Prog.wp_bind_iff]
    apply wp_access
    · intro failure _
      exact .of_eq (Nat.le_add_right _ 2) rfl rfl
    · intro error _
      exact .of_eq (Nat.le_add_right _ 2) rfl rfl
    · intro replaced db hdb
      have hrows := Db.restamps_renameEntry hdb
      cases replaced with
      | none => exact .of_now (.of_rows (Nat.le_succ _) hrows (.of_eq rfl))
      | some target =>
        refine .of_now (redates_entryRemoved h.table (Nat.le_succ _) hrows ?_ rfl)
        intro hfile hlast hclosed
        obtain ⟨source, -, -, -, hcase⟩ := Db.renameEntry_ok hdb
        rcases hcase with ⟨-, hnone, -⟩ | ⟨-, -, -, -, rfl⟩
        · cases hnone
        · change s.table.isOpen target.ino = false at hclosed
          change (Db.renameTx _ _ _ _ _ _ _ _ _).kindOf target.ino = none
          rw [Db.renameTx, Db.kindOf_moveEntry]
          dsimp only
          rw [hclosed]
          exact Db.kindOf_dropUnlinkedInode hfile hlast

/-- A file without a name goes with its last handle. If its row cannot be deleted, the row stays
without the data that was not flushed. -/
private theorem redates_dropHandle
    (hlast : (s.table.inodes.get slot).refs = 0 ∧ (s.table.inodes.get slot).unlinked = true →
      env.fault s.tick = none ∨ ((s.table.inodes.get slot).dirty.isEmpty = false →
        ∀ r ∈ s.db.inodes, r.ino = (s.table.inodes.get slot).ino →
          (s.table.inodes.get slot).mtime.toSystemTime ≤ Timestamp.load r.ctimeNs)) :
    Prog.wp (dropHandle env slot) (fun _ s' => Redates env given none s s') s := by
  rw [dropHandle, wp_table_bind]
  dsimp only
  split
  · next hgone =>
    rw [wp_updateTable_bind]
    apply wp_exec
    · intro failure hfault
      have hrow := (hlast hgone).resolve_left fun hnone => by cases hnone.symm.trans hfault
      exact redates_discard slot hrow (Nat.le_succ _) rfl rfl
    · intro error herror
      cases herror
    · rintro db ⟨⟩
      have hdeleted : Redates env given none s { s with
          tick := s.tick + 1, db := s.db.deleteInodeRows (s.table.inodes.get slot).ino } :=
        .of_keepsSlots (Nat.le_succ _) (List.filter_subset_self _) (.of_eq rfl)
      refine hdeleted.trans (redates_discard slot (fun _ r hr hino => ?_)
        (Nat.le_refl _) rfl rfl)
      exact (of_decide_eq_true (List.mem_filter.mp hr).2 hino).elim
  · exact (redates_routine env given none).flushFree slot .skip s

theorem redates_releaseFh {fh : Nat} (h : s.Inv held busy)
    (hdeletes : Deletes s fh → ∀ ino, s.table.handleIno fh = some ino → env.fault s.tick = none ∨
      ∀ m, (s.look ino).stamp = some m → ∀ r, (s.look ino).row = some r →
        m.toSystemTime ≤ Timestamp.load r.ctimeNs) :
    Prog.wp (releaseFh env fh) (fun _ s' => Redates env given none s s') s := by
  rw [releaseFh, wp_table_bind]
  rcases hr : s.table.handles.release fh with _ | ⟨slot, handles⟩
  · exact .refl s
  · have hget : s.table.handles.get fh = some slot := by
      obtain ⟨slot', hget, heq⟩ := Option.map_eq_some_iff.mp hr
      cases heq
      exact hget
    obtain ⟨hf, hpos, -⟩ := h.table.closeHandle hr
    rw [orErrno, Prog.wp_pure_bind, wp_updateTable_bind, wp_updateTable_bind]
    have hslot : ({ s.table with handles := handles }.updateSlot slot fun o =>
        { o with refs := o.refs - 1 }).inodes.get slot =
          { s.table.inodes.get slot with refs := (s.table.inodes.get slot).refs - 1 } :=
      (OpenTable.get_update (h.table.find_lt hf) slot).trans (if_pos rfl)
    apply Prog.wp_mono (P := fun _ s' => Redates env given none _ s') (redates_dropHandle ?_)
    · intro _ s' hs'
      refine Redates.trans ?_ hs'
      exact .of_keepsSlots (Nat.le_refl _) (List.Subset.refl _)
        (OpenTable.keepsSlots_modify rfl fun _ => ⟨rfl, rfl, rfl⟩)
    · rw [hslot]
      intro hgone
      have hone : (s.table.inodes.get slot).refs = 1 :=
        Nat.le_antisymm (Nat.sub_eq_zero_iff_le.mp hgone.1) hpos
      refine (hdeletes ⟨slot, hget, hone, hgone.2⟩ _ (congrArg _ hget)).imp_right ?_
      intro hkept hdirty r hr' hino
      exact hkept _ (stamp_of_dirty hf hdirty) r (h.sound.keys.mem_iff.mpr ⟨hr', hino⟩)

end Removals

section Calls

theorem redates_write {offset : Nat} {data : Bytes} (h : s.Inv [] busy) :
    Prog.wp (write env ino offset data) (fun _ s' => Redates env given none s s') s := by
  unfold write
  split
  · exact .refl s
  · apply Prog.wp_bind (Prog.wp_and (slotFor_spec h) (redates_slotFor h))
    · intro slot s₁ hs₁
      obtain ⟨⟨-, -, -, hinv₁, -, hf₁, -⟩, hfirst⟩ := hs₁
      rw [Prog.wp_bind_iff, Prog.wp_attempt]
      apply Prog.wp_mono (P := fun _ s₂ => Redates env given none s₁ s₂)
        (redates_writeSlot (hinv₁.table.find_lt hf₁))
      intro result s₂ hwritten
      have hrest : Prog.Within (Redates env given none)
          (Fs.freeIfIdle slot >>= fun _ => liftExcept result) := by
        apply Prog.Within.bind ((redates_routine env given none).freeIfIdle slot)
        intro _
        cases result with
        | ok n => exact .pure n
        | error e => exact .throw e
      exact (hfirst.trans hwritten).trans (hrest s₂)
    · intro e s₁ hs₁
      exact hs₁.2

theorem redates_writeFh {fh offset : Nat} {data : Bytes} (h : s.Inv held busy) :
    Prog.wp (writeFh env fh offset data) (fun _ s' => Redates env given none s s') s := by
  rw [writeFh, wp_table_bind]
  rcases hfh : s.table.handles.get fh with _ | slot
  · exact .refl s
  · exact redates_writeSlot (h.table.find_lt (h.table.find_of_handle hfh))

theorem redates_openFile (h : s.Inv held busy) :
    Prog.wp (openFile env ino) (fun _ s' => Redates env given none s s') s := by
  apply Prog.wp_bind (redates_slotFor h)
  · intro slot s₁ hs₁
    exact hs₁.trans ((redates_routine env given none).openSlot slot s₁)
  · intro e s₁ hs₁
    exact hs₁

theorem redates_createOpen {parent : Nat} {name : Name} {mode umask uid gid : UInt32}
    (h : s.Inv held busy) :
    Prog.wp (createOpen env parent name mode umask uid gid)
      (fun _ s' => Redates env given none s s') s := by
  have hcreate : Prog.wp (createNode env parent name (.file (mode &&& ~~~umask)) uid gid)
      (fun _ s₁ => Redates env given none s s₁) s :=
    (redates_routine env given none).createNode parent name _ uid gid s
  rw [createOpen, create]
  apply Prog.wp_bind (Prog.wp_and (createNode_spec h) hcreate)
  · intro attr s₁ hs₁
    obtain ⟨⟨hinv₁, htable, -, -, inode, now, hdb, rfl⟩, hfirst⟩ := hs₁
    have hino := (Db.relinked_createNode h.sound hdb).2.1
    have hnone : s₁.table.inodes.find (fileAttrFromInode inode).ino = none := by
      rw [← OpenTable.file_eq_none, htable, show (fileAttrFromInode inode).ino = _ from hino]
      exact Core.nextIno_closed h.toCore
    rw [createOpenLocked, wp_table_bind]
    dsimp only
    rw [wp_updateTable_bind]
    have hinserted : Redates env given none s₁ { s₁ with
        table := { s₁.table with
          inodes := (s₁.table.inodes.insert (fileAttrFromInode inode).ino .regularFile 0).2 } } :=
      redates_insert hinv₁.table hnone (Nat.le_refl _) rfl rfl
    refine (hfirst.trans hinserted).trans ?_
    exact Prog.Within.bind ((redates_routine env given none).openSlot _) (fun _ => .pure _) _
  · intro e s₁ hs₁
    exact hs₁.2

end Calls

end Fs

end VibeDbfs
