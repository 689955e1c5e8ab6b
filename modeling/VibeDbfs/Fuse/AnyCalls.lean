import VibeDbfs.Fuse.Resizing
import VibeDbfs.Fuse.Calls
import VibeDbfs.Open.TidyTable
import VibeDbfs.Storage.Limits

/-!
What holds after any calls, legal or not: the store is within its limits, the table is tidy, and a
slot that nothing needs is live only where a truncate failed.
-/

set_option autoImplicit false
set_option relaxedAutoImplicit false

namespace VibeDbfs

open Lib Lib.Bytes

structure Shared.Tidy (lost : Prop) (spare : Slot → Prop) (s : Shared) : Prop where
  table : s.table.Tidy lost spare
  limits : s.db.Limits

namespace Shared

theorem Tidy.of_table {lost : Prop} {spare : Slot → Prop} {s s' : Shared} (h : s.Tidy lost spare)
    (hdb : s'.db = s.db)
    (htable : s'.table = s.table) : s'.Tidy lost spare := ⟨htable ▸ h.table, hdb ▸ h.limits⟩

end Shared

namespace Fs

variable {α : Type} {env : Env} {s s' : Shared} {lost : Prop} {spare : Slot → Prop} {slot : Slot}
  {ino size : Nat} {handles : Handles}

private theorem besides_self {j : Slot} (h : besides (besides spare slot) slot j) :
    besides spare slot j :=
  h.elim id .inr

private theorem access_tidy {f : Db → Except DbError (α × Db)} (h : s.db.Limits)
    (hf : ∀ a db, f s.db = .ok (a, db) → db.Limits) :
    Prog.wp (access env f) (fun _ s' => s'.table = s.table ∧ s'.db.Limits) s := by
  apply wp_access
  · intro failure _
    exact ⟨rfl, h⟩
  · intro error _
    exact ⟨rfl, h⟩
  · intro a db hok
    exact ⟨rfl, hf a db hok⟩

private theorem exec_tidy {f : Db → Except DbError Db} (h : s.db.Limits)
    (hf : ∀ db, f s.db = .ok db → db.Limits) :
    Prog.wp (exec env f) (fun _ s' => s'.table = s.table ∧ s'.db.Limits) s := by
  apply wp_exec
  · intro failure _
    exact ⟨rfl, h⟩
  · intro error _
    exact ⟨rfl, h⟩
  · intro db hok
    exact ⟨rfl, hf db hok⟩

theorem query_tidy (env : Env) (f : Db → Except DbError α) (s : Shared) :
    Prog.wp (query env f) (fun r s' => s'.table = s.table ∧ s'.db = s.db ∧
      ∀ a, r = .ok a → f s.db = .ok a) s := by
  apply wp_query
  · intro failure _
    exact ⟨rfl, rfl, fun a ha => by cases ha⟩
  · intro error _
    exact ⟨rfl, rfl, fun a ha => by cases ha⟩
  · intro a hok
    refine ⟨rfl, rfl, fun b hb => ?_⟩
    cases hb
    exact hok

section Flushing

theorem flushSlot_tidy (unlinked : Unlinked) (h : s.Tidy lost spare) :
    Prog.wp (flushSlot env slot unlinked) (fun r s' => s'.db.Limits ∧
      match r with
      | .ok _ => s'.table.Tidy lost (besides spare slot) ∧ (∀ j, s'.table.Uses j ↔ s.table.Uses j) ∧
          s'.table.handles = s.table.handles ∧ s'.table.inodes.byIno = s.table.inodes.byIno ∧
          (∀ j, (s'.table.inodes.get j).kind = (s.table.inodes.get j).kind) ∧
          ∃ dirty, s'.table.inodes.get slot = { s.table.inodes.get slot with dirty := dirty } ∧
            (dirty = (s.table.inodes.get slot).dirty ∨ dirty = .empty) ∧
            (unlinked = .persist → dirty = .empty)
      | .error _ => s'.table = s.table ∧ (s.table.inodes.get slot).dirty ≠ .empty) s := by
  rw [flushSlot, wp_table_bind]
  dsimp only
  split
  · next hskip =>
    refine ⟨h.limits, h.table.besides slot, fun _ => Iff.rfl, rfl, rfl, fun _ => rfl,
      (s.table.inodes.get slot).dirty, rfl, .inl rfl, fun hpersist => ?_⟩
    rw [hpersist] at hskip
    apply OpenTable.isEmpty_iff_eq_empty.mp
    simpa using hskip
  · next hflush =>
    have hdirty : (s.table.inodes.get slot).dirty ≠ .empty := by
      intro hempty
      apply hflush
      rw [hempty]
      rfl
    have hbounded := h.table.bounded slot
    have hsize : (s.table.inodes.get slot).size ≤ maxFileSize := by
      apply hbounded.size
      by_contra hkind
      exact hdirty (hbounded.kind hkind)
    have huses : s.table.Uses slot := h.table.uses_of_needed fun hidle => hdirty hidle.2
    refine Prog.wp_bind (exec_tidy h.limits fun db hok => h.limits.replaceChunks hsize hok)
      (fun _ s₁ hs₁ => ?_) fun e s₁ hs₁ => ⟨hs₁.2, hs₁.1, hdirty⟩
    obtain ⟨htable, hlimits⟩ := hs₁
    rw [wp_updateTable_bind, wp_record]
    obtain ⟨htidy, -, -⟩ := h.table.releaseDirty huses
    have hinodes : (s.table.releaseDirty slot).inodes =
        s.table.inodes.update slot fun o => { o with dirty := .empty } := by
      unfold OpenTable.releaseDirty
      rw [DirtyIdx.releaseInto_eq]
    refine ⟨hlimits, ?_⟩
    change (s₁.table.releaseDirty slot).Tidy _ _ ∧ (∀ j, (s₁.table.releaseDirty slot).Uses j ↔ _) ∧
      (s₁.table.releaseDirty slot).handles = _ ∧ (s₁.table.releaseDirty slot).inodes.byIno = _ ∧
        (∀ j, ((s₁.table.releaseDirty slot).inodes.get j).kind = _) ∧
          ∃ dirty, (s₁.table.releaseDirty slot).inodes.get slot = _ ∧ _
    rw [htable]
    refine ⟨htidy, OpenTable.uses_update hinodes, rfl, ?_,
      OpenTable.kind_update hinodes fun _ => rfl, .empty, ?_, .inr rfl, fun _ => rfl⟩
    · rw [hinodes]
      rfl
    · rw [hinodes, OpenTable.get_update huses.1, if_pos rfl]

private theorem freeIfIdle_tidy (h : s.Tidy lost (besides spare slot)) (huses : s.table.Uses slot) :
    Prog.wp (freeIfIdle slot) (fun _ s' => s'.Tidy lost spare ∧ s'.table.handles = s.table.handles ∧
      (∀ j, j ≠ slot → s.table.Uses j → s'.table.Uses j) ∧
      ∀ j, (s'.table.inodes.get j).kind = (s.table.inodes.get j).kind) s := by
  obtain ⟨htidy, hother, hhandles, -⟩ := h.table.freeIfIdle huses
  exact ⟨⟨htidy, h.limits⟩, hhandles, hother, OpenTable.kind_freeIfIdle⟩

private theorem flushFree_tidy (unlinked : Unlinked) (h : s.Tidy lost (besides spare slot))
    (huses : s.table.Uses slot) :
    Prog.wp (flushSlot env slot unlinked >>= fun _ => freeIfIdle slot)
      (fun _ s' => s'.Tidy lost spare ∧
      s'.table.handles = s.table.handles ∧ ∀ j, j ≠ slot → s.table.Uses j → s'.table.Uses j) s := by
  refine Prog.wp_bind (flushSlot_tidy unlinked h) (fun _ s₁ hs₁ => ?_) fun e s₁ hs₁ => ?_
  · obtain ⟨hlimits, htidy, huses₁, hhandles, -⟩ := hs₁
    have hs₁ : s₁.Tidy lost (besides spare slot) := ⟨htidy.mono fun _ => besides_self, hlimits⟩
    refine Prog.wp_mono (freeIfIdle_tidy hs₁ ((huses₁ slot).mpr huses)) ?_
    intro r s₂ hs₂
    exact ⟨hs₂.1, hs₂.2.1.trans hhandles, fun j hj hu => hs₂.2.2.1 j hj ((huses₁ j).mpr hu)⟩
  · obtain ⟨hlimits, htable, hdirty⟩ := hs₁
    rw [htable]
    refine ⟨⟨htable ▸ h.table.of_besides fun hidle => hdirty hidle.2, hlimits⟩, rfl,
      fun _ _ hu => hu⟩

private theorem flushEach_tidy (slots : List Slot) (firstError : Option Errno)
    (h : s.Tidy lost spare) (huses : ∀ slot ∈ slots, s.table.Uses slot) (hnodup : slots.Nodup) :
    Prog.wp (flushEach env slots firstError) (fun _ s' => s'.Tidy lost spare) s := by
  induction slots generalizing s firstError with
  | nil => exact h
  | cons slot slots ih =>
    obtain ⟨hnew, hnodup⟩ := List.nodup_cons.mp hnodup
    have hslot := huses slot List.mem_cons_self
    have hrest : ∀ j ∈ slots, s.table.Uses j := fun j hj => huses j (List.mem_cons_of_mem _ hj)
    rw [flushEach, Prog.wp_bind_iff, Prog.wp_attempt]
    refine Prog.wp_mono (flushSlot_tidy .skip h) ?_
    rintro (e | ⟨⟩) s₁ hs₁
    · obtain ⟨hlimits, htable, -⟩ := hs₁
      exact ih _ ⟨htable ▸ h.table, hlimits⟩ (htable ▸ hrest) hnodup
    · obtain ⟨hlimits, htidy, huses₁, -⟩ := hs₁
      dsimp only
      have hworking : s₁.Tidy lost (besides spare slot) := ⟨htidy, hlimits⟩
      refine Prog.wp_bind (freeIfIdle_tidy hworking ((huses₁ slot).mpr hslot)) (fun _ s₂ hs₂ => ?_)
        fun e s₂ hs₂ => hs₂.1
      refine ih _ hs₂.1 (fun j hj => hs₂.2.2.1 j ?_ ((huses₁ j).mpr (hrest j hj))) hnodup
      rintro rfl
      exact hnew hj

private theorem syncDurable_tidy (h : s.Tidy lost spare) :
    Prog.wp (syncDurable env) (fun _ s' => s'.Tidy lost spare) s := by
  apply wp_syncDurable
  · intro _ _
    exact ⟨h.table, h.limits⟩
  · intro _
    exact ⟨h.table, h.limits⟩

private theorem flushAll_tidy (h : s.Tidy lost spare) :
    Prog.wp (flushAll env) (fun _ s' => s'.Tidy lost spare) s := by
  have hperm := env.order_perm s.tick s.table.inodes.values
  have hlocked : Prog.wp (flushAllLocked env) (fun _ s' => s'.Tidy lost spare) s := by
    rw [flushAllLocked, wp_order_bind, wp_table_bind]
    refine flushEach_tidy _ none (s := { s with tick := s.tick + 1 }) ⟨h.table, h.limits⟩ ?_ ?_
    · intro slot hslot
      exact h.table.uses_of_mem (hperm.mem_iff.mp hslot)
    · exact hperm.nodup_iff.mpr h.table.distinct
  refine Prog.wp_bind hlocked (fun firstError s₁ hs₁ => ?_) fun e s₁ hs₁ => hs₁
  exact wp_flushAllSync (syncDurable_tidy hs₁)

end Flushing

section Writing

variable {c : Nat} {span : ChunkSpan} {data : Bytes} {a : ArenaSlot}

/-- A write to `slot`, which is a regular file, is under way. -/
structure Working (lost : Prop) (spare : Slot → Prop) (slot : Slot) (handles : Handles)
    (s : Shared) : Prop where
  tidy : s.Tidy lost (besides spare slot)
  uses : s.table.Uses slot
  regular : (s.table.inodes.get slot).kind = .regularFile
  handles : s.table.handles = handles

private theorem Working.of_arena (h : Working lost spare slot handles s) (hdb : s'.db = s.db)
    (hinodes : s'.table.inodes = s.table.inodes) (hhandles : s'.table.handles = s.table.handles) :
    Working lost spare slot handles s' := by
  refine ⟨⟨h.tidy.table.congr hinodes hhandles, hdb ▸ h.tidy.limits⟩, ?_, ?_,
    hhandles.trans h.handles⟩
  · rw [OpenTable.Uses, hinodes]
    exact h.uses
  · rw [hinodes]
    exact h.regular

private theorem Working.updateSlot (h : Working lost spare slot handles s)
    {f : OpenInode → OpenInode} (hrefs : ∀ o, (f o).refs = o.refs) (hino : ∀ o, (f o).ino = o.ino)
    (hkind : ∀ o, (f o).kind = o.kind) (hsize : (f (s.table.inodes.get slot)).size ≤ maxFileSize) :
    Working lost spare slot handles { s with table := s.table.updateSlot slot f } := by
  have hregular : (f (s.table.inodes.get slot)).kind = .regularFile := (hkind _).trans h.regular
  refine ⟨⟨?_, h.tidy.limits⟩, (OpenTable.uses_update rfl slot).mpr h.uses,
    (OpenTable.kind_update rfl hkind slot).trans h.regular, h.handles⟩
  refine (h.tidy.table.updateSlot h.uses (hrefs _) (hino _) ⟨fun _ => hsize, fun hne => ?_⟩).mono
    fun _ => besides_self
  exact (hne hregular).elim

private theorem allocChunk_working (fuel : Nat) (h : Working lost spare slot handles s) :
    Prog.wp (allocChunk env slot fuel) (fun _ s' => Working lost spare slot handles s') s := by
  induction fuel generalizing s with
  | zero => exact h
  | succ fuel ih =>
    rw [allocChunk, wp_table_bind]
    rcases s.table.arena.alloc with _ | ⟨a, arena⟩
    · dsimp only
      rw [wp_order_bind]
      have hs₀ : Working lost spare slot handles { s with tick := s.tick + 1 } :=
        h.of_arena rfl rfl rfl
      rcases hvictim : s.table.inodes.largestDirty (env.order s.tick) with _ | victim
      · exact hs₀
      · rw [orErrno, Prog.wp_pure_bind]
        have hlive := OpenTable.mem_of_largestDirty (env.order_perm s.tick) hvictim
        have hvictimUses := h.tidy.table.uses_of_mem hlive
        refine Prog.wp_bind (flushSlot_tidy .persist hs₀.tidy)
          (fun _ s₁ hs₁ => ?_) fun e s₁ hs₁ => ?_
        · obtain ⟨hlimits, htidy, huses, hhandles, -, hkind, -⟩ := hs₁
          have hregular := (hkind slot).trans h.regular
          rw [onlyIf]
          split
          · next hne =>
            refine Prog.wp_bind (freeIfIdle_tidy ⟨htidy, hlimits⟩ ((huses victim).mpr hvictimUses))
              (fun _ s₂ hs₂ => ?_) fun e s₂ hs₂ => ?_
            · exact ih ⟨hs₂.1, hs₂.2.2.1 slot (Ne.symm hne) ((huses slot).mpr h.uses),
                (hs₂.2.2.2 slot).trans hregular, hs₂.2.1.trans (hhandles.trans h.handles)⟩
            · exact ⟨hs₂.1, hs₂.2.2.1 slot (Ne.symm hne) ((huses slot).mpr h.uses),
                (hs₂.2.2.2 slot).trans hregular, hs₂.2.1.trans (hhandles.trans h.handles)⟩
          · next heq =>
            rw [not_not.mp heq] at htidy
            exact ih ⟨⟨htidy.mono fun _ => besides_self, hlimits⟩,
              (huses slot).mpr h.uses, hregular,
              hhandles.trans h.handles⟩
        · obtain ⟨hlimits, htable, -⟩ := hs₁
          exact ⟨⟨htable ▸ h.tidy.table, hlimits⟩, htable ▸ h.uses, htable ▸ h.regular,
            htable ▸ h.handles⟩
    · exact h.of_arena rfl rfl rfl

private theorem loadChunk_working (h : Working lost spare slot handles s) :
    Prog.wp (loadChunk env ino c a) (fun _ s' => Working lost spare slot handles s') s := by
  rw [loadChunk, Prog.wp_bind_iff, Prog.wp_attempt]
  refine Prog.wp_mono (query_tidy env _ s) ?_
  rintro r s₁ ⟨htable, hdb, -⟩
  have hs₁ : Working lost spare slot handles s₁ :=
    h.of_arena hdb (congrArg OpenTable.inodes htable) (congrArg OpenTable.handles htable)
  rcases r with e | data
  · exact hs₁.of_arena rfl rfl rfl
  · exact hs₁.of_arena rfl rfl rfl

private theorem chunkSlot_working (piece : ChunkPiece) (h : Working lost spare slot handles s) :
    Prog.wp (chunkSlot env slot ino c piece)
      (fun _ s' => Working lost spare slot handles s') s := by
  rw [chunkSlot, wp_table_bind]
  rcases (s.table.inodes.get slot).dirty.find c with position | position
  · refine Prog.wp_bind (allocChunk_working allocFuel h) (fun a s₁ hs₁ => ?_) fun e s₁ hs₁ => hs₁
    have hload : Prog.wp (onlyIf (¬piece.isFullChunk) (loadChunk env ino c a))
        (fun _ s' => Working lost spare slot handles s') s₁ := by
      rw [onlyIf]
      split
      · exact loadChunk_working hs₁
      · exact hs₁
    refine Prog.wp_bind hload (fun _ s₂ hs₂ => ?_) fun e s₂ hs₂ => hs₂
    rw [wp_updateTable_bind, Prog.wp_pure]
    exact hs₂.updateSlot (fun _ => rfl) (fun _ => rfl) (fun _ => rfl)
      ((hs₂.tidy.table.bounded slot).size hs₂.regular)
  · exact h

private theorem chunkEnd_le (hstop : span.stop ≤ maxFileSize) :
    u64Add (u64Mul c chunkSize) (span.piece c).chunk.stop ≤ maxFileSize := by
  have hstart : u64Mul c chunkSize < u64Size := Nat.mod_lt _ (by decide)
  simp only [ChunkSpan.piece, u64Add, u64Sub]
  generalize u64Mul c chunkSize = start at *
  generalize (start + chunkSize) % u64Size = next
  simp only [u64Size, maxFileSize] at *
  omega

private theorem writeChunk_working (hstop : span.stop ≤ maxFileSize)
    (h : Working lost spare slot handles s) :
    Prog.wp (writeChunk env slot ino span data c)
      (fun _ s' => Working lost spare slot handles s') s := by
  rw [writeChunk]
  refine Prog.wp_bind (chunkSlot_working _ h) (fun a s₁ hs₁ => ?_) fun e s₁ hs₁ => hs₁
  rw [wp_updateTable_bind, wp_updateTable_bind, wp_record]
  have hwritten : Working lost spare slot handles { s₁ with table := { s₁.table with
      arena := s₁.table.arena.write a (span.piece c).chunk (slice (span.piece c).buf.start
        ((span.piece c).buf.stop - (span.piece c).buf.start) data) } } := hs₁.of_arena rfl rfl rfl
  have hsize := (hs₁.tidy.table.bounded slot).size hs₁.regular
  have hgrown := hwritten.updateSlot (f := fun o => { o with
    size := max o.size (u64Add (u64Mul c chunkSize) (span.piece c).chunk.stop) }) (fun _ => rfl)
    (fun _ => rfl) (fun _ => rfl) (Nat.max_le.mpr ⟨hsize, chunkEnd_le hstop⟩)
  exact hgrown.of_arena rfl rfl rfl

private theorem writeSlot_tidy {offset : Nat} (h : s.Tidy lost (besides spare slot))
    (huses : s.table.Uses slot) :
    Prog.wp (writeSlot env slot offset data) (fun _ s' => s'.Tidy lost (besides spare slot) ∧
      s'.table.Uses slot ∧ s'.table.handles = s.table.handles) s := by
  rw [writeSlot, wp_table_bind]
  dsimp only
  rcases hregular : (s.table.inodes.get slot).kind.regularFileError with _ | error
  · rw [errnoOfKind, hregular, Prog.wp_pure_bind]
    split
    · exact ⟨h, huses, rfl⟩
    · rcases ChunkSpan.new offset data.length with _ | span
      · exact ⟨h, huses, rfl⟩
      · dsimp only
        split
        · exact ⟨h, huses, rfl⟩
        · next hstop =>
          have hkind := FileKind.regularFileError_eq_none.mp hregular
          have hworking : Working lost spare slot s.table.handles { s with tick := s.tick + 1 } :=
            ⟨⟨h.table, h.limits⟩, huses, hkind, rfl⟩
          rw [wp_now_bind, wp_updateTable_bind]
          have hstart := hworking.updateSlot (f := fun o =>
            { o with mtime := .fromSystemTime (env.clock s.tick) }) (fun _ => rfl) (fun _ => rfl)
            (fun _ => rfl) ((h.table.bounded slot).size hkind)
          refine Prog.wp_bind (Prog.wp_each (I := fun _ s' => Working lost spare slot
            s.table.handles s')
            (Q := fun _ s' => Working lost spare slot s.table.handles s') (fun c cs s₁ hs₁ => ?_)
            (fun s₁ hs₁ => hs₁) span.chunks _ hstart) (fun _ s₁ hs₁ => ?_) fun e s₁ hs₁ => ?_
          · refine Prog.wp_mono (writeChunk_working (Nat.not_lt.mp hstop) hs₁) ?_
            rintro (e | ⟨⟩) s₂ hs₂
            · exact hs₂
            · exact hs₂
          · exact ⟨hs₁.tidy, hs₁.uses, hs₁.handles⟩
          · exact ⟨hs₁.tidy, hs₁.uses, hs₁.handles⟩
  · rw [errnoOfKind, hregular]
    exact ⟨h, huses, rfl⟩

end Writing

section Calls

variable {offset fh : Nat} {data : Bytes} {parent newParent : Nat} {name newName : Name}

def ReadsOnly (x : Fs α) (s : Shared) : Prop :=
  Prog.wp x (fun _ s' => s'.table = s.table ∧ s'.db = s.db) s

private theorem ReadsOnly.tidy {x : Fs α} (hx : ReadsOnly x s) (h : s.Tidy lost spare) :
    Prog.wp x (fun _ s' => s'.Tidy lost spare) s :=
  Prog.wp_mono hx fun _ _ hs' => h.of_table hs'.2 hs'.1

private theorem readsOnly_query (f : Db → Except DbError α) : ReadsOnly (query env f) s :=
  Prog.wp_mono (query_tidy env f s) fun _ _ hs' => ⟨hs'.1, hs'.2.1⟩

private theorem ReadsOnly.bind {β : Type} {x : Fs α} {f : α → Fs β} (hx : ReadsOnly x s)
    (hf : ∀ a s', ReadsOnly (f a) s') : ReadsOnly (x >>= f) s := by
  refine Prog.wp_bind hx (fun a s₁ hs₁ => ?_) fun e s₁ hs₁ => hs₁
  exact Prog.wp_mono (hf a s₁) fun _ _ hs' => ⟨hs'.1.trans hs₁.1, hs'.2.trans hs₁.2⟩

private theorem readsOnly_readSlot (slot : Slot) (offset size : Nat) :
    ReadsOnly (readSlot env slot offset size) s := by
  rw [readSlot]
  refine .bind (x := table) ⟨rfl, rfl⟩ fun t s₁ => ?_
  refine .bind ?_ fun _ s₂ => ?_
  · rw [errnoOfKind]
    rcases (t.inodes.get slot).kind.regularFileError with _ | error
    · exact ⟨rfl, rfl⟩
    · exact ⟨rfl, rfl⟩
  · split
    · exact ⟨rfl, rfl⟩
    · exact .bind (readsOnly_query _) fun _ _ => ⟨rfl, rfl⟩

private theorem readsOnly_read (ino offset size : Nat) :
    ReadsOnly (read env ino offset size) s := by
  refine .bind ?_ fun data s₁ => ?_
  · refine .bind (x := table) ⟨rfl, rfl⟩ fun t s₁ => ?_
    rcases t.inodes.find ino with _ | slot
    · exact ⟨rfl, rfl⟩
    · exact (Prog.wp_map ..).mpr (readsOnly_readSlot slot offset size)
  · rcases data with _ | data
    · exact readsOnly_query _
    · exact ⟨rfl, rfl⟩

private theorem readsOnly_readFh (fh offset size : Nat) :
    ReadsOnly (readFh env fh offset size) s := by
  refine .bind (x := table) ⟨rfl, rfl⟩ fun t s₁ => ?_
  rcases t.handles.get fh with _ | slot
  · exact ⟨rfl, rfl⟩
  · exact readsOnly_readSlot slot offset size

private theorem slotFor_tidy (h : s.Tidy lost spare) :
    Prog.wp (slotFor env ino) (fun r s' => match r with
      | .ok slot => s'.Tidy lost (besides spare slot) ∧ s'.table.Uses slot
      | .error _ => s'.Tidy lost spare) s := by
  rw [slotFor, wp_table_bind]
  rcases hf : s.table.inodes.find ino with _ | slot
  · dsimp only
    refine Prog.wp_bind (query_tidy env _ s) (fun head s₁ hs₁ => ?_) fun e s₁ hs₁ => ?_
    · obtain ⟨kind, size⟩ := head
      obtain ⟨htable, hdb, hhead⟩ := hs₁
      have hsize : kind = .regularFile → size ≤ maxFileSize := by
        obtain ⟨r, hr, rfl, rfl⟩ := Db.head_of_read (hhead _ rfl)
        exact (h.limits r (List.mem_of_find?_eq_some hr)).size
      rcases hi : s.table.inodes.insert ino kind size with ⟨slot, inodes⟩
      obtain ⟨htidy, huses⟩ := h.table.insert hsize (.inr hf) hi
      dsimp only
      rw [wp_updateTable_bind, Prog.wp_pure]
      change Shared.Tidy lost _ { s₁ with table := { s₁.table with inodes := inodes } } ∧
        ({ s₁.table with inodes := inodes } : OpenTable).Uses slot
      rw [htable]
      exact ⟨⟨htidy, hdb ▸ h.limits⟩, huses⟩
    · exact h.of_table hs₁.2.1 hs₁.1
  · exact ⟨⟨h.table.besides slot, h.limits⟩, h.table.uses_of_find hf⟩

private theorem write_tidy (h : s.Tidy lost spare) :
    Prog.wp (write env ino offset data) (fun _ s' => s'.Tidy lost spare) s := by
  unfold write
  split
  · exact h
  · refine Prog.wp_bind (slotFor_tidy h) (fun slot s₁ hs₁ => ?_) fun e s₁ hs₁ => hs₁
    rw [Prog.wp_bind_iff, Prog.wp_attempt]
    refine Prog.wp_mono (writeSlot_tidy hs₁.1 hs₁.2) ?_
    rintro r s₂ ⟨htidy, huses, -⟩
    dsimp only
    refine Prog.wp_bind (freeIfIdle_tidy htidy huses) (fun _ s₃ hs₃ => ?_) fun e s₃ hs₃ => hs₃.1
    rcases r with e | n
    · exact hs₃.1
    · exact hs₃.1

private theorem writeFh_tidy (h : s.Tidy lost spare) :
    Prog.wp (writeFh env fh offset data) (fun _ s' => s'.Tidy lost spare) s := by
  rw [writeFh, wp_table_bind]
  rcases hfh : s.table.handles.get fh with _ | slot
  · exact h
  · refine Prog.wp_mono (writeSlot_tidy ⟨h.table.besides slot, h.limits⟩
      (h.table.uses_of_handle hfh)) ?_
    rintro r s' ⟨htidy, -, hhandles⟩
    -- the handle still needs the slot
    have hrefs := htidy.table.refs_of_handle ((congrArg (fun h => h.get fh) hhandles).trans hfh)
    exact ⟨htidy.table.of_besides fun hidle => hrefs hidle.1, htidy.limits⟩

private theorem openFile_tidy (h : s.Tidy lost spare) :
    Prog.wp (openFile env ino) (fun _ s' => s'.Tidy lost spare) s := by
  refine Prog.wp_bind (slotFor_tidy h) (fun slot s₁ hs₁ => ?_) fun e s₁ hs₁ => hs₁
  exact ⟨hs₁.1.table.openSlot hs₁.2, hs₁.1.limits⟩

private theorem flushFile_tidy (h : s.Tidy lost spare) :
    Prog.wp (flushFile env ino) (fun _ s' => s'.Tidy lost spare) s := by
  rw [flushFile, wp_table_bind]
  rcases hf : s.table.inodes.find ino with _ | slot
  · exact h
  · refine Prog.wp_mono (flushFree_tidy .skip ⟨h.table.besides slot, h.limits⟩
      (h.table.uses_of_find hf)) ?_
    exact fun _ _ hs' => hs'.1

private theorem flushFh_tidy (h : s.Tidy lost spare) :
    Prog.wp (flushFh env fh) (fun _ s' => s'.Tidy lost spare) s := by
  rw [flushFh, wp_table_bind]
  rcases hfh : s.table.handles.get fh with _ | slot
  · exact h
  · refine Prog.wp_mono (flushSlot_tidy .skip h) ?_
    rintro (e | ⟨⟩) s' hs'
    · exact ⟨hs'.2.1 ▸ h.table, hs'.1⟩
    · obtain ⟨hlimits, htidy, -, hhandles, -⟩ := hs'
      have hrefs := htidy.refs_of_handle ((congrArg (fun h => h.get fh) hhandles).trans hfh)
      exact ⟨htidy.of_besides fun hidle => hrefs hidle.1, hlimits⟩

private theorem releaseFh_tidy (h : s.Tidy lost spare) :
    Prog.wp (releaseFh env fh) (fun _ s' => s'.Tidy lost spare) s := by
  rw [releaseFh, wp_table_bind]
  rcases hrelease : s.table.handles.release fh with _ | ⟨slot, handles⟩
  · exact h
  · rw [orErrno, Prog.wp_pure_bind, wp_updateTable_bind, wp_updateTable_bind]
    obtain ⟨huses, htidy⟩ := h.table.closeHandle hrelease
    let t : OpenTable := { s.table with handles := handles }
    have huses' : (t.updateSlot slot fun o => { o with refs := o.refs - 1 }).Uses slot :=
      (OpenTable.uses_update (t := s.table) rfl slot).mpr huses
    rw [dropHandle, wp_table_bind]
    dsimp only
    split
    · next hlast =>
      rw [wp_updateTable_bind]
      have hdiscarded := htidy.discardSlot huses' hlast.1
      refine Prog.wp_mono (exec_tidy h.limits fun db hok => ?_) fun _ s₁ hs₁ => ?_
      · exact Except.ok.inj hok ▸ h.limits.of_drawn Db.drawn_deleteInodeRows
      · exact ⟨hs₁.1 ▸ hdiscarded, hs₁.2⟩
    · refine Prog.wp_mono (flushFree_tidy .skip (s := { s with table :=
        ({ s.table with handles := handles } : OpenTable).updateSlot slot fun o =>
          { o with refs := o.refs - 1 } }) ⟨htidy, h.limits⟩ huses') ?_
      exact fun _ _ hs' => hs'.1

private theorem entryRemoved_tidy {t : OpenTable} (h : t.Tidy lost spare) (target : Inode) :
    (t.entryRemoved target).Tidy lost spare := by
  unfold OpenTable.entryRemoved
  split
  · exact h
  · rcases hf : t.inodes.find target.ino with _ | slot
    · exact h
    · have huses := h.uses_of_find hf
      dsimp only
      split
      · next hopen =>
        have hbounded := h.bounded slot
        have htidy := h.updateSlot (f := fun o => { o with unlinked := true }) huses rfl rfl
          ⟨hbounded.size, hbounded.kind⟩
        apply htidy.of_besides
        change ¬((t.inodes.update slot _).get slot).Idle
        rw [OpenTable.get_update huses.1, if_pos rfl]
        intro hidle
        have hrefs : 0 < (t.inodes.get slot).refs := of_decide_eq_true hopen
        exact Nat.lt_irrefl 0 (hidle.1 ▸ hrefs)
      · next hclosed =>
        apply (h.besides slot).discardSlot huses
        have hrefs : ¬0 < (t.inodes.get slot).refs := fun hpos => hclosed (decide_eq_true hpos)
        omega

private theorem createNode_tidy {node : NewNode} {uid gid : UInt32} (h : s.Tidy lost spare) :
    Prog.wp (createNode env parent name node uid gid) (fun r s' => s'.Tidy lost spare ∧
      s'.table = s.table ∧ ∀ attr, r = .ok attr → attr.ino = s.db.nextIno) s := by
  rw [createNode, wp_now_bind, Prog.wp_bind_iff]
  refine wp_access (fun failure _ => ?_) (fun error _ => ?_) fun inode db hok => ?_
  · exact ⟨⟨h.table, h.limits⟩, rfl, nofun⟩
  · exact ⟨⟨h.table, h.limits⟩, rfl, nofun⟩
  · refine ⟨⟨h.table, h.limits.createNode hok⟩, rfl, fun attr hattr => ?_⟩
    rw [← Except.ok.inj hattr]
    obtain ⟨rfl, -⟩ := Db.createNode_rows hok
    rfl

private theorem link_tidy (h : s.Tidy lost spare) :
    Prog.wp (link env ino newParent newName) (fun _ s' => s'.Tidy lost spare) s := by
  rw [link, wp_now_bind]
  refine Prog.wp_bind (access_tidy (s := { s with tick := s.tick + 1 }) h.limits fun inode db hok =>
    h.limits.link hok) (fun inode s₁ hs₁ => ?_) fun e s₁ hs₁ => ?_
  · exact ⟨hs₁.1 ▸ h.table, hs₁.2⟩
  · exact ⟨hs₁.1 ▸ h.table, hs₁.2⟩

private theorem unlink_tidy (h : s.Tidy lost spare) :
    Prog.wp (unlink env parent name) (fun _ s' => s'.Tidy lost spare) s := by
  refine Prog.wp_bind (query_tidy env _ s) (fun inode s₁ hs₁ => ?_) fun e s₁ hs₁ => ?_
  · have h₁ : s₁.Tidy lost spare := h.of_table hs₁.2.1 hs₁.1
    rw [unlinkLocked, wp_table_bind, wp_now_bind]
    refine Prog.wp_bind (exec_tidy (s := { s₁ with tick := s₁.tick + 1 }) h₁.limits fun db hok =>
      h₁.limits.unlinkEntry hok) (fun _ s₂ hs₂ => ?_) fun e s₂ hs₂ => ?_
    · exact ⟨entryRemoved_tidy (hs₂.1 ▸ h₁.table) inode, hs₂.2⟩
    · exact ⟨hs₂.1 ▸ h₁.table, hs₂.2⟩
  · exact h.of_table hs₁.2.1 hs₁.1

private theorem rmdir_tidy (h : s.Tidy lost spare) :
    Prog.wp (rmdir env parent name) (fun _ s' => s'.Tidy lost spare) s := by
  rw [rmdir, wp_now_bind]
  refine Prog.wp_mono (exec_tidy (s := { s with tick := s.tick + 1 }) h.limits fun db hok =>
    h.limits.removeDir hok) fun _ s₁ hs₁ => ?_
  exact ⟨hs₁.1 ▸ h.table, hs₁.2⟩

private theorem rename_tidy {flags : UInt32} (h : s.Tidy lost spare) :
    Prog.wp (rename env parent name newParent newName flags)
      (fun _ s' => s'.Tidy lost spare) s := by
  unfold rename
  split
  · exact h
  · rw [wp_table_bind, wp_now_bind]
    refine Prog.wp_bind (access_tidy (s := { s with tick := s.tick + 1 }) h.limits
      fun replaced db hok => h.limits.renameEntry hok)
        (fun replaced s₁ hs₁ => ?_) fun e s₁ hs₁ => ?_
    · rcases replaced with _ | target
      · exact ⟨hs₁.1 ▸ h.table, hs₁.2⟩
      · exact ⟨entryRemoved_tidy (hs₁.1 ▸ h.table) target, hs₁.2⟩
    · exact ⟨hs₁.1 ▸ h.table, hs₁.2⟩

private theorem createOpen_tidy {mode umask uid gid : UInt32} (h : s.Tidy lost spare)
    (hnext : lost ∨ s.table.inodes.find s.db.nextIno = none) :
    Prog.wp (createOpen env parent name mode umask uid gid) (fun _ s' => s'.Tidy lost spare) s := by
  refine Prog.wp_bind (createNode_tidy h) (fun attr s₁ hs₁ => ?_) fun e s₁ hs₁ => hs₁.1
  obtain ⟨hs₁, htable, hattr⟩ := hs₁
  rw [createOpenLocked, wp_table_bind]
  rcases hi : s₁.table.inodes.insert attr.ino .regularFile 0 with ⟨slot, inodes⟩
  rw [← hattr attr rfl, ← htable] at hnext
  obtain ⟨htidy, huses⟩ := hs₁.table.insert (fun _ => Nat.zero_le _) hnext hi
  rw [wp_updateTable_bind]
  exact ⟨htidy.openSlot huses, hs₁.limits⟩

end Calls

section Truncating

variable {mode uid gid : Option UInt32} {size? : Option Nat} {atime mtime : Option SystemTime}

/-- The flush of a slot with dirty data is one statement. -/
theorem flushSlot_run (hdirty : (s.table.inodes.get slot).dirty ≠ .empty) :
    Prog.wp (flushSlot env slot .persist) (fun r s' => s'.tick = s.tick + 1 ∧
      (∀ j, s'.db.kindOf j = s.db.kindOf j) ∧ (r = .ok () ↔ env.fault s.tick = none)) s := by
  have hflush : ¬((s.table.inodes.get slot).dirty.isEmpty ||
      ((s.table.inodes.get slot).unlinked && Unlinked.persist == .skip)) = true := by
    intro hskip
    apply hdirty
    apply OpenTable.isEmpty_iff_eq_empty.mp
    simpa using hskip
  rw [flushSlot, wp_table_bind]
  dsimp only
  rw [if_neg hflush]
  refine Prog.wp_bind (exec_outcome env _ s) (fun _ s₁ hs₁ => ?_) fun e s₁ hs₁ => ?_
  · obtain ⟨htick, -, hfault, hok⟩ := hs₁
    refine ⟨htick, fun j => ?_, fun _ => hfault, fun _ => rfl⟩
    change s₁.db.kindOf j = s.db.kindOf j
    rw [Db.replaceChunks_eq hok, Db.kindOf_setSize, Db.kindOf_upsertAll]
  · obtain ⟨htick, -, hdb, hfailed⟩ := hs₁
    refine ⟨htick, fun j => by rw [hdb], fun h => ?_, fun hnone => ?_⟩
    · cases h
    · rcases hfailed with hfault | ⟨error, herror⟩
      · exact (hfault hnone).elim
      · cases herror

/-- The truncate of `ino` fails after the flush of its slot, which has no handles. -/
structure Abandons (env : Env) (s : Shared) (ino size : Nat) (slot : Slot) : Prop where
  find : s.table.inodes.find ino = some slot
  refs : (s.table.inodes.get slot).refs = 0
  flushed : (s.table.inodes.get slot).dirty ≠ .empty → env.fault s.tick = none
  failed : (s.table.inodes.get slot).dirty ≠ .empty → s.db.sizeErrno ino size = none →
    env.fault (s.tick + 2) ≠ none

private theorem truncate_tidy (h : s.Tidy lost spare) (modified : Timestamp) :
    Prog.wp (exec env fun db => db.truncateFile ino size modified) (fun r s' =>
      s'.table = s.table ∧ s'.db.Limits ∧ match r with
        | .ok _ => size ≤ maxFileSize
        | .error _ => s.db.sizeErrno ino size = none → env.fault s.tick ≠ none) s := by
  refine Prog.wp_mono (Prog.wp_and (exec_tidy h.limits fun db hok => h.limits.truncateFile hok)
    (exec_outcome env _ s)) ?_
  rintro (e | ⟨⟩) s' ⟨⟨htable, hlimits⟩, -, -, houtcome⟩
  · refine ⟨htable, hlimits, fun hsize => ?_⟩
    obtain ⟨-, hfault | ⟨error, herror⟩⟩ := houtcome
    · exact hfault
    · obtain ⟨hkind, hmax⟩ := Db.sizeErrno_eq_none.mp hsize
      rw [Db.truncateFile, h.limits.inodeKindOf_of_regular hkind] at herror
      replace herror : (if size > maxFileSize then _ else _) = _ := herror
      rw [if_neg (Nat.not_lt.mpr hmax)] at herror
      cases herror
  · exact ⟨htable, hlimits, (Db.truncateFile_cases houtcome.2).2.1⟩

private theorem truncateLocked_tidy (h : s.Tidy lost spare) :
    Prog.wp (truncateLocked env ino size) (fun _ s' => s'.Tidy lost spare ∨
      ∃ slot, Abandons env s ino size slot ∧ s'.Tidy lost (besides spare slot)) s := by
  rw [truncateLocked, wp_table_bind]
  dsimp only
  rcases hf : s.table.inodes.find ino with _ | slot
  · rw [ifSome, Prog.wp_pure_bind, wp_now_bind]
    refine Prog.wp_bind (truncate_tidy (s := { s with tick := s.tick + 1 })
      ⟨h.table, h.limits⟩ _) (fun _ s₁ hs₁ => ?_) fun e s₁ hs₁ => ?_
    · exact .inl ⟨hs₁.1 ▸ h.table, hs₁.2.1⟩
    · exact .inl ⟨hs₁.1 ▸ h.table, hs₁.2.1⟩
  · have huses := h.table.uses_of_find hf
    have hrun : Prog.wp (flushSlot env slot .persist) (fun r s' =>
        (s.table.inodes.get slot).dirty ≠ .empty → s'.tick = s.tick + 1 ∧
          (∀ j, s'.db.kindOf j = s.db.kindOf j) ∧ (r = .ok () ↔ env.fault s.tick = none)) s :=
      fun hdirty => flushSlot_run hdirty
    rw [ifSome]
    refine Prog.wp_bind (Prog.wp_and (flushSlot_tidy .persist h) hrun) (fun _ s₁ hs₁ => ?_)
      fun e s₁ hs₁ => ?_
    · obtain ⟨⟨hlimits, htidy, huses₁, -, -, -, dirty, hget, -, hempty⟩, hrun⟩ := hs₁
      rw [wp_now_bind]
      refine Prog.wp_bind (truncate_tidy (s := { s₁ with tick := s₁.tick + 1 }) ⟨htidy, hlimits⟩ _)
        (fun _ s₂ hs₂ => ?_) fun e s₂ hs₂ => ?_
      · obtain ⟨htable, hlimits₂, hmax⟩ := hs₂
        have hs₂ : s₂.Tidy lost (besides spare slot) := ⟨htable ▸ htidy, hlimits₂⟩
        have huses₂ : s₂.table.Uses slot := htable ▸ (huses₁ slot).mpr huses
        have hclean : (s₂.table.inodes.get slot).dirty = .empty := by
          rw [htable]
          change (s₁.table.inodes.get slot).dirty = .empty
          rw [hget]
          exact hempty rfl
        have hsized := hs₂.table.updateSlot (f := fun o => { o with size := size }) huses₂ rfl rfl
          ⟨fun _ => hmax, fun _ => hclean⟩
        rw [ifSome, Prog.wp_bind_iff, wp_updateTable_bind]
        have hs₃ : Shared.Tidy lost (besides spare slot) { s₂ with
            table := s₂.table.updateSlot slot fun o => { o with size := size } } :=
          ⟨hsized.mono fun _ => besides_self, hs₂.limits⟩
        refine Prog.wp_mono (freeIfIdle_tidy hs₃
          ((OpenTable.uses_update rfl slot).mpr huses₂)) ?_
        rintro (e | ⟨⟩) s₃ hs₃
        · exact .inl hs₃.1
        · exact .inl ⟨hs₃.1.table, hs₃.1.limits⟩
      · obtain ⟨htable, hlimits₂, herror⟩ := hs₂
        have hs₂ : s₂.Tidy lost (besides spare slot) := ⟨htable ▸ htidy, hlimits₂⟩
        by_cases hrefs : (s.table.inodes.get slot).refs = 0
        · refine .inr ⟨slot, ⟨hf, hrefs, fun hdirty => ?_, fun hdirty hsize => ?_⟩, hs₂⟩
          · exact (hrun hdirty).2.2.mp rfl
          · obtain ⟨htick, hkind, -⟩ := hrun hdirty
            have hnone := herror ((Db.sizeErrno_congr (hkind ino)).trans hsize)
            change env.fault (s₁.tick + 1) ≠ none at hnone
            rwa [htick] at hnone
        · refine .inl ⟨hs₂.table.of_besides fun hidle => hrefs ?_, hs₂.limits⟩
          have hrefs₁ := hidle.1
          rw [htable] at hrefs₁
          change (s₁.table.inodes.get slot).refs = 0 at hrefs₁
          rwa [hget] at hrefs₁
    · obtain ⟨⟨hlimits, htable, -⟩, -⟩ := hs₁
      exact .inl ⟨htable ▸ h.table, hlimits⟩

private theorem updateMetadata_tidy {update : MetadataUpdate} (h : s.Tidy lost spare) :
    Prog.wp (updateMetadata env ino update) (fun _ s' => s'.Tidy lost spare) s := by
  rw [updateMetadata, wp_now_bind]
  refine Prog.wp_bind (exec_tidy (s := { s with tick := s.tick + 1 }) h.limits fun db hok =>
    h.limits.updateMetadata hok) (fun _ s₁ hs₁ => ?_) fun e s₁ hs₁ => ?_
  · exact (readsOnly_query _).tidy ⟨hs₁.1 ▸ h.table, hs₁.2⟩
  · exact ⟨hs₁.1 ▸ h.table, hs₁.2⟩

private theorem setattr_flush_tidy (h : s.Tidy lost spare) :
    Prog.wp (ifSome (s.table.inodes.find ino) fun slot => do
        flushSlot env slot .persist
        freeIfIdle slot) (fun r s' => s'.Tidy lost spare ∧ (r = .ok () → ∀ slot,
      s'.table.inodes.find ino = some slot → (s'.table.inodes.get slot).refs ≠ 0)) s := by
  rcases hf : s.table.inodes.find ino with _ | slot
  · refine ⟨h, fun _ slot hslot => ?_⟩
    cases hf.symm.trans hslot
  · have huses := h.table.uses_of_find hf
    refine Prog.wp_bind (flushSlot_tidy .persist h) (fun _ s₁ hs₁ => ?_) fun e s₁ hs₁ => ?_
    · obtain ⟨hlimits, htidy, huses₁, -, hbyIno, -, dirty, hget, -, hempty⟩ := hs₁
      obtain ⟨hfree, -, -, hstays⟩ := htidy.freeIfIdle ((huses₁ slot).mpr huses)
      refine ⟨⟨hfree, hlimits⟩, fun _ j hj => ?_⟩
      have hf₁ : s₁.table.inodes.find ino = some slot := by
        rw [OpenInodes.find, hbyIno]
        exact hf
      have hino := htidy.ino_of_find hf₁
      rw [hino] at hstays
      obtain ⟨hfj, hsame, hneeded⟩ := hstays j hj
      obtain rfl := Option.some.inj (hf₁.symm.trans hfj)
      change ((s₁.table.freeIfIdle slot).inodes.get slot).refs ≠ 0
      rw [hsame]
      refine fun hrefs => hneeded ⟨hrefs, ?_⟩
      rw [hget]
      exact hempty rfl
    · obtain ⟨hlimits, htable, -⟩ := hs₁
      refine ⟨⟨htable ▸ h.table, hlimits⟩, fun hok => ?_⟩
      cases hok

private theorem setattr_tidy (h : s.Tidy lost spare) :
    Prog.wp (setattr env ino mode uid gid size? atime mtime)
      (fun _ s' => s'.Tidy lost spare) s := by
  rw [setattr, wp_table_bind]
  refine Prog.wp_bind (setattr_flush_tidy h) (fun done s₁ hs₁ => ?_) fun e s₁ hs₁ => hs₁.1
  have htruncate : Prog.wp (ifSome size? fun size => truncateLocked env ino size)
      (fun _ s' => s'.Tidy lost spare) s₁ := by
    rcases size? with _ | size
    · exact hs₁.1
    · refine Prog.wp_mono (truncateLocked_tidy hs₁.1) ?_
      rintro r s₂ (hs₂ | ⟨slot, habandons, -⟩)
      · exact hs₂
      · exact (hs₁.2 rfl slot habandons.find habandons.refs).elim
  refine Prog.wp_bind htruncate (fun _ s₂ hs₂ => ?_) fun e s₂ hs₂ => hs₂
  refine Prog.wp_bind (updateMetadata_tidy hs₂) (fun inode s₃ hs₃ => ?_) fun e s₃ hs₃ => hs₃
  exact hs₃

end Truncating

section Fallocate

variable {offset length : Int} {mode : UInt32}

private theorem query_tick (env : Env) (f : Db → Except DbError α) (s : Shared) :
    Prog.wp (query env f) (fun r s' => ∀ a, r = .ok a →
      env.fault s.tick = none ∧ s'.tick = s.tick + 1) s := by
  unfold Prog.wp
  intro a ha
  rcases hfault : env.fault s.tick with _ | failure
  · refine ⟨rfl, ?_⟩
    change Prog.wp (query env f) (fun _ s' => s'.tick = s.tick + 1) s
    exact wp_query (fun _ _ => rfl) (fun _ _ => rfl) fun _ _ => rfl
  · unfold query access at ha
    dsimp only at ha
    rw [hfault] at ha
    cases ha

private theorem fallocateCheck_tick : Prog.wp (fallocateCheck env ino offset length mode)
    (fun r s' => ∀ stop, r = .ok stop → env.fault s.tick = none ∧ s'.tick = s.tick + 1) s := by
  unfold fallocateCheck
  split
  · intro stop hok
    cases hok
  · split
    · intro stop hok
      cases hok
    · refine Prog.wp_bind (query_tick env _ s) (fun kind s₁ hs₁ => ?_) fun e s₁ _ stop hok => ?_
      · have htick := hs₁ kind rfl
        split
        · intro stop hok
          cases hok
        · split
          · intro stop hok
            cases hok
          · dsimp only
            split
            · intro stop hok
              cases hok
            · split
              · exact fun _ _ => htick
              · exact fun _ _ => htick
      · cases hok

theorem currentSize_tidy : Prog.wp (currentSize env ino) (fun r s' =>
    s'.table = s.table ∧ s'.db = s.db ∧ ∀ slot, s.table.inodes.find ino = some slot →
      r = .ok (s.table.inodes.get slot).size ∧ s' = s) s := by
  rw [currentSize, wp_table_bind]
  rcases hf : s.table.inodes.find ino with _ | slot
  · have hquery : Prog.wp (query env fun db => db.inodeHead ino) (fun _ s' => s'.table = s.table ∧
        s'.db = s.db) s := readsOnly_query fun db => db.inodeHead ino
    refine Prog.wp_bind hquery (fun head s₁ hs₁ => ?_) fun e s₁ hs₁ => ?_
    · exact ⟨hs₁.1, hs₁.2, fun slot hslot => by cases hslot⟩
    · exact ⟨hs₁.1, hs₁.2, fun slot hslot => by cases hslot⟩
  · refine ⟨rfl, rfl, fun slot' hslot => ?_⟩
    cases hslot
    exact ⟨rfl, rfl⟩

/-- The call `fallocate` abandons the slot of `ino`: it has no handles, its flush succeeds, and the
truncate after it fails in SQLite. -/
structure FallocateAbandons (env : Env) (s : Shared) (ino : Nat) (offset length : Int)
    (mode : UInt32) (slot : Slot) : Prop where
  accepted : Fallocates s.db ino offset length mode
  grows : mode &&& fallocFlKeepSize = 0
  find : s.table.inodes.find ino = some slot
  refs : (s.table.inodes.get slot).refs = 0
  size : (s.table.inodes.get slot).size < (offset + length).toNat
  checked : env.fault s.tick = none
  flushed : env.fault (s.tick + 1) = none
  failed : env.fault (s.tick + 3) ≠ none

private theorem fallocate_tidy (h : s.Tidy lost spare) :
    Prog.wp (fallocate env ino offset length mode) (fun _ s' => s'.Tidy lost spare ∨
      ∃ slot, ((s.table.inodes.get slot).dirty ≠ .empty →
        FallocateAbandons env s ino offset length mode slot) ∧
          (s.table.inodes.get slot).refs = 0 ∧ slot ∈ s.table.inodes.values ∧
            s'.Tidy lost (besides spare slot)) s := by
  rw [fallocate]
  refine Prog.wp_bind (Prog.wp_and (fallocateCheck_spec h.limits.inodeKindOf_of_regular)
    fallocateCheck_tick)
    (fun stop s₁ hs₁ => ?_) fun e s₁ hs₁ => ?_
  · obtain ⟨⟨hdb, htable, -, -, haccepted, hstop⟩, hrun⟩ := hs₁
    obtain ⟨hchecked, htick⟩ := hrun stop rfl
    have h₁ : s₁.Tidy lost spare := h.of_table hdb htable
    rcases stop with _ | stop
    · exact .inl h₁
    · rw [fallocateStop] at hstop
      split at hstop
      · cases hstop
      · next hgrows =>
        obtain rfl := Option.some.inj hstop
        refine Prog.wp_bind currentSize_tidy (fun size s₂ hs₂ => ?_) fun e s₂ hs₂ => ?_
        · obtain ⟨htable₂, hdb₂, hsize⟩ := hs₂
          have h₂ : s₂.Tidy lost spare := h₁.of_table hdb₂ htable₂
          split
          · exact .inl h₂
          · next hgrown =>
            refine Prog.wp_mono (truncateLocked_tidy h₂) ?_
            rintro r s₃ (hs₃ | ⟨slot, habandons, hs₃⟩)
            · exact .inl hs₃
            · have hfind := habandons.find
              have hrefs := habandons.refs
              have hflushed := habandons.flushed
              have hfailed := habandons.failed
              rw [htable₂] at hfind hrefs hflushed hfailed
              obtain ⟨hsize, rfl⟩ := hsize slot hfind
              obtain rfl := Except.ok.inj hsize
              rw [htable] at hfind hrefs hflushed hfailed
              rw [htable] at hgrown
              have hsmall : s₂.db.sizeErrno ino (offset + length).toNat = none := by
                rw [hdb, Db.sizeErrno_eq_none]
                have hmax := haccepted.max
                exact ⟨haccepted.kind, by omega⟩
              rw [htick] at hflushed hfailed
              refine .inr ⟨slot, fun hdirty => ?_, hrefs, OpenTable.mem_values_of_find hfind, hs₃⟩
              exact ⟨haccepted, not_not.mp hgrows, hfind, hrefs, Nat.lt_of_not_le hgrown, hchecked,
                hflushed hdirty, hfailed hdirty hsmall⟩
        · exact .inl (h₁.of_table hs₂.2.1 hs₂.1)
  · exact .inl (h.of_table hs₁.1.1 hs₁.1.2.1)

end Fallocate

end Fs

namespace Dbfs

variable {env : Env} {s : Shared} {lost : Prop} {spare : Slot → Prop} {c : Call}

def Abandons (env : Env) (s : Shared) : Call → Slot → Prop
  | .fallocate ino offset length mode, slot =>
    Fs.FallocateAbandons env s ino offset length mode slot
  | _, _ => False

/-- Any call keeps the invariant, but for a slot without handles that a `fallocate` may leave, and
for one that is lost if the number of a new file has a slot already. -/
theorem call_tidy (h : s.Tidy lost spare)
    (hnext : lost ∨ s.table.inodes.find s.db.nextIno = none) :
    Prog.wp (call env c) (fun _ s' => s'.Tidy lost spare ∨
      ∃ slot, ((s.table.inodes.get slot).dirty ≠ .empty → Abandons env s c slot) ∧
        (s.table.inodes.get slot).refs = 0 ∧ slot ∈ s.table.inodes.values ∧
          s'.Tidy lost (besides spare slot)) s := by
  have hkept : ∀ {α : Type} (f : α → Reply) (x : Fs α),
      Prog.wp x (fun _ s' => s'.Tidy lost spare) s →
      Prog.wp (f <$> x) (fun _ s' => s'.Tidy lost spare ∨
        ∃ slot, ((s.table.inodes.get slot).dirty ≠ .empty → Abandons env s c slot) ∧
          (s.table.inodes.get slot).refs = 0 ∧ slot ∈ s.table.inodes.values ∧
            s'.Tidy lost (besides spare slot)) s :=
    fun f x hx => (Prog.wp_map ..).mpr (Prog.wp_mono hx fun _ _ => .inl)
  have hcreated : ∀ {parent name uid gid} (node : NewNode), Prog.wp
      (Fs.createNode env parent name node uid gid) (fun _ s' => s'.Tidy lost spare) s :=
    fun _ => Prog.wp_mono (Fs.createNode_tidy h) fun _ _ hs' => hs'.1
  cases c with
  | getattr ino =>
    exact hkept _ _ (Fs.ReadsOnly.tidy (.bind (.bind (Fs.readsOnly_query _) fun _ _ => ⟨rfl, rfl⟩)
      fun _ _ => ⟨rfl, rfl⟩) h)
  | lookup parent name =>
    exact hkept _ _ (Fs.ReadsOnly.tidy (.bind (.bind (Fs.readsOnly_query _) fun _ _ => ⟨rfl, rfl⟩)
      fun _ _ => ⟨rfl, rfl⟩) h)
  | mkdir parent name mode umask uid gid => exact hkept _ _ (hcreated _)
  | create parent name mode umask uid gid => exact hkept _ _ (hcreated _)
  | symlink parent name target uid gid => exact hkept _ _ (hcreated _)
  | link ino newParent newName => exact hkept _ _ (Fs.link_tidy h)
  | setattr ino mode uid gid size atime mtime => exact hkept _ _ (Fs.setattr_tidy h)
  | openFile ino => exact hkept _ _ (Fs.openFile_tidy h)
  | read ino offset size => exact hkept _ _ ((Fs.readsOnly_read ino offset size).tidy h)
  | readFh fh offset size => exact hkept _ _ ((Fs.readsOnly_readFh fh offset size).tidy h)
  | write ino offset data => exact hkept _ _ (Fs.write_tidy h)
  | writeFh fh offset data => exact hkept _ _ (Fs.writeFh_tidy h)
  | fallocate ino offset length mode => exact (Prog.wp_map ..).mpr (Fs.fallocate_tidy h)
  | flushFile ino => exact hkept _ _ (Fs.flushFile_tidy h)
  | flushFh fh => exact hkept _ _ (Fs.flushFh_tidy h)
  | syncFh fh =>
    exact hkept _ _ (Prog.wp_bind (Fs.flushFh_tidy h) (fun _ _ hs' => Fs.syncDurable_tidy hs')
      fun _ _ hs' => hs')
  | flushAll => exact hkept _ _ (Fs.flushAll_tidy h)
  | releaseFile fh => exact hkept _ _ (Fs.releaseFh_tidy h)
  | unlink parent name => exact hkept _ _ (Fs.unlink_tidy h)
  | rmdir parent name => exact hkept _ _ (Fs.rmdir_tidy h)
  | rename parent name newParent newName flags => exact hkept _ _ (Fs.rename_tidy h)
  | createOpen parent name mode umask uid gid => exact hkept _ _ (Fs.createOpen_tidy h hnext)

end Dbfs

end VibeDbfs
