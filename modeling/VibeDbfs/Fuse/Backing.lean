import VibeDbfs.Fuse.Failures
import VibeDbfs.Fuse.Undo

/-!
What the store has of a named file after a call: what it had before, or a content that the file has
in the course of the call.
-/

set_option autoImplicit false
set_option relaxedAutoImplicit false

namespace VibeDbfs

open Lib Lib.Bytes Shared

variable {s s' s'' : Shared} {env : Env} {held : List ArenaSlot} {busy : Nat → Prop}
  {ino offset fh : Nat} {slot : Slot} {data : Bytes}

namespace Shared

/-- The store has of each named file what it had, or the content before or after the step. -/
def Backs (s s' : Shared) : Prop := ∀ i, s.db.Named i → s'.db.Named i →
  (s'.db.file i).bytes = (s.db.file i).bytes ∨ (s'.db.file i).bytes = (s.file i).bytes ∨
    (s'.db.file i).bytes = (s'.file i).bytes

private theorem Backs.of_db (h : s'.db = s.db) : Backs s s' := fun i _ _ => .inl (by rw [h])

private theorem Backs.after {s₁ : Shared} (h : Backs s s₁) (hquiet : Quiet s s₁)
    (h' : Backs s₁ s') :
    Backs s s' := by
  intro i hnamed hnamed'
  have hnamed₁ : s₁.db.Named i := (Db.named_congr hquiet.names).mpr hnamed
  have hbytes := hquiet.bytes i not_false
  rcases h' i hnamed₁ hnamed' with hstored | hbefore | hafter
  · rw [hstored]
    rcases h i hnamed hnamed₁ with hold | hnew | hnew
    · exact .inl hold
    · exact .inr (.inl hnew)
    · exact .inr (.inl (hnew.trans hbytes))
  · exact .inr (.inl (hbefore.trans hbytes))
  · exact .inr (.inr hafter)

private theorem Backs.followed {s₁ : Shared} (h : Backs s s₁) (hquiet : Quiet s₁ s')
    (h' : Backs s₁ s') :
    Backs s s' := by
  intro i hnamed hnamed'
  have hnamed₁ : s₁.db.Named i := (Db.named_congr hquiet.names).mp hnamed'
  have hbytes := hquiet.bytes i not_false
  rcases h' i hnamed₁ hnamed' with hstored | hbefore | hafter
  · rw [hstored]
    rcases h i hnamed hnamed₁ with hold | hbefore | hafter
    · exact .inl hold
    · exact .inr (.inl hbefore)
    · exact .inr (.inr (hafter.trans hbytes.symm))
  · exact .inr (.inr (hbefore.trans hbytes.symm))
  · exact .inr (.inr hafter)

private theorem Backs.of_relinked (h : s.db.Relinked s'.db) : Backs s s' := by
  intro i hnamed hnamed'
  refine .inl ?_
  rw [h.file i (Option.isSome_of_eq_some hnamed.1) (Option.isSome_of_eq_some hnamed'.1)]
  rfl

private theorem Backs.of_settled (hcore : s'.Core held busy)
    (hother : ∀ j, j ≠ ino → s'.file j = s.file j)
    (hself : Fs.Settled (s'.file ino) ∨ s'.file ino = s.file ino) : Backs s s' := by
  have hsame : ∀ j, s'.file j = s.file j → (s'.db.file j).bytes = (s.db.file j).bytes := by
    intro j h
    exact congrArg (fun f => StoredFile.bytes f.stored) h
  intro i _ hnamed'
  by_cases hi : i = ino
  · subst hi
    rcases hself with hsettled | heq
    · exact .inr (.inr (Fs.stored_of_settled hcore hsettled hnamed').symm)
    · exact .inl (hsame i heq)
  · exact .inl (hsame i (hother i hi))

end Shared

namespace Fs

section Flushes

private theorem flushSlot_backs (mode : Unlinked) (h : s.Inv held busy)
    (hf : s.table.inodes.find ino = some slot) :
    Prog.wp (flushSlot env slot mode) (fun _ s' => Backs s s') s := by
  refine Prog.wp_mono (flushSlot_spec mode h hf) ?_
  rintro (e | ⟨⟩) s' ⟨hinv, -, -, hother, hresult⟩
  · exact .of_settled hinv.toCore hother (.inr hresult.2.2)
  · exact .of_settled hinv.toCore hother (.inl (hresult.2.imp_right And.left))

private theorem flushFree_backs (mode : Unlinked) (h : s.Inv held busy)
    (hf : s.table.inodes.find ino = some slot) :
    Prog.wp (do
      flushSlot env slot mode
      freeIfIdle slot) (fun _ s' => Backs s s') s := by
  refine Prog.wp_mono (flushFree_spec mode h hf) ?_
  rintro (e | ⟨⟩) s' ⟨hinv, -, -, hother, hresult⟩
  · exact .of_settled hinv.toCore hother (.inr hresult.2.2)
  · exact .of_settled hinv.toCore hother (.inl (hresult.2.imp_right And.left))

private theorem flushEach_backs (slots : List Slot) (firstError : Option Errno)
    (h : s.Inv held busy)
    (hnodup : slots.Nodup) (hlive : ∀ slot ∈ slots, ∃ ino, s.table.inodes.find ino = some slot) :
    Prog.wp (flushEach env slots firstError) (fun _ s' => Backs s s') s := by
  induction slots generalizing s firstError with
  | nil => exact .of_db rfl
  | cons slot slots ih =>
    rw [List.nodup_cons] at hnodup
    obtain ⟨ino, hf⟩ := hlive slot List.mem_cons_self
    -- the other slots belong to other files, and stay live
    have hne : ∀ slot' ∈ slots, ∀ i, s.table.inodes.find i = some slot' → i ≠ ino := by
      rintro slot' hin i hi rfl
      rw [hf] at hi
      exact hnodup.1 (Option.some.inj hi ▸ hin)
    rw [flushEach, Prog.wp_bind_iff, Prog.wp_attempt]
    refine Prog.wp_mono (Prog.wp_and (flushSlot_spec .skip h hf) (flushSlot_backs .skip h hf)) ?_
    rintro (errno | ⟨⟩) s₁ ⟨⟨hinv, hquiet, hfind, -, -⟩, hbacks⟩
    · refine Prog.wp_mono (ih (firstError <|> some errno) hinv hnodup.2 fun slot' hin => ?_)
        fun _ _ => hbacks.after hquiet
      obtain ⟨i, hi⟩ := hlive slot' (List.mem_cons_of_mem _ hin)
      exact ⟨i, (hfind i).trans hi⟩
    · refine (Prog.wp_bind_iff (freeIfIdle slot) _ _ _).mpr ?_
      obtain ⟨hcore₂, hquiet₂, hfind₂, -⟩ := freeIfIdle_core hinv.toCore ((hfind ino).trans hf)
      rw [freeIfIdle, wp_updateTable]
      refine Prog.wp_mono (ih firstError (hinv.of_table hcore₂ rfl rfl) hnodup.2
        fun slot' hin => ?_) fun _ _ => (hbacks.followed hquiet₂ (.of_db rfl)).after
          (hquiet.trans hquiet₂)
      obtain ⟨i, hi⟩ := hlive slot' (List.mem_cons_of_mem _ hin)
      exact ⟨i, (hfind₂ i (hne slot' hin i hi)).trans ((hfind i).trans hi)⟩

theorem flushAll_backs (h : s.Inv held busy) :
    Prog.wp (flushAll env) (fun _ s' => Backs s s') s := by
  have hperm := env.order_perm s.tick s.table.inodes.values
  have hinv : Shared.Inv held busy { s with tick := s.tick + 1 } := h.of_eq rfl rfl rfl
  have hnodup := (List.nodup_append.mp h.table.slots).1
  have hlocked : Prog.wp (flushAllLocked env) (fun _ s' => Backs s s') s := by
    rw [flushAllLocked, wp_order_bind, wp_table_bind]
    refine Prog.wp_mono (flushEach_backs _ none hinv (hperm.nodup_iff.mpr hnodup) fun slot hin =>
      ⟨_, h.table.find_of_mem (hperm.mem_iff.mp hin)⟩) fun _ _ hbacks => ?_
    exact Backs.after (.of_db rfl) (Frame.of_eq rfl rfl) hbacks
  rw [flushAll, Prog.wp_bind_iff]
  refine Prog.wp_mono (Prog.wp_and (flushAllLocked_spec h) hlocked) ?_
  rintro r s₁ ⟨⟨result, rfl, hinv₁, -⟩, hbacks⟩
  refine Prog.wp_mono (flushAllSync_spec result hinv₁) ?_
  rintro r s' ⟨hdb, htable, -⟩
  exact hbacks.followed (Frame.of_eq hdb htable) (.of_db hdb)

private theorem flushFile_backs (h : s.Inv held busy) :
    Prog.wp (flushFile env ino) (fun _ s' => Backs s s') s := by
  rw [flushFile, wp_table_bind]
  rcases hf : s.table.inodes.find ino with _ | slot
  · exact .of_db rfl
  · exact flushFree_backs .skip h hf

private theorem flushFh_backs (h : s.Inv held busy) :
    Prog.wp (flushFh env fh) (fun _ s' => Backs s s') s := by
  rw [flushFh, wp_table_bind]
  rcases hfh : s.table.handles.get fh with _ | slot
  · exact .of_db rfl
  · exact flushSlot_backs .skip h (h.table.find_of_handle hfh)

private theorem syncFh_backs (h : s.Inv held busy) :
    Prog.wp (syncFh env fh) (fun _ s' => Backs s s') s := by
  refine Prog.wp_bind (flushFh_backs h) (fun _ s₁ hbacks => ?_) fun e s₁ hbacks => hbacks
  apply wp_syncDurable
  · intro _ _
    exact hbacks.followed (Frame.of_eq rfl rfl) (.of_db rfl)
  · intro _
    exact hbacks.followed (Frame.of_eq rfl rfl) (.of_db rfl)

end Flushes

section Resizing

variable {size : Nat}

private theorem flushIfOpen_backs (h : s.Inv held busy) :
    Prog.wp (ifSome (s.table.inodes.find ino) fun slot => flushSlot env slot .persist)
      (fun _ s' => Backs s s') s := by
  rcases hf : s.table.inodes.find ino with _ | slot
  · exact .of_db rfl
  · exact flushSlot_backs .persist h hf

private theorem persist_backs (h : s.Inv held busy) :
    Prog.wp (ifSome (s.table.inodes.find ino) fun slot => do
      flushSlot env slot .persist
      freeIfIdle slot) (fun _ s' => Backs s s') s := by
  rcases hf : s.table.inodes.find ino with _ | slot
  · exact .of_db rfl
  · exact flushFree_backs .persist h hf

private theorem truncateLocked_flushes (h : s.Inv held busy) :
    Prog.wp (truncateLocked env ino size) (fun r s' => ∃ s₁, Quiet s s₁ ∧ Backs s s₁ ∧
      (s'.db = s₁.db ∨ r = .ok () ∧ ∀ j, j ≠ ino → s'.db.file j = s₁.db.file j)) s := by
  rw [truncateLocked, wp_table_bind]
  refine Prog.wp_bind (Prog.wp_and (flushIfOpen_spec h) (flushIfOpen_backs h))
    (fun _ s₁ hs₁ => ?_) fun e s₁ hs₁ => ⟨s₁, hs₁.1.2.1, hs₁.2, .inl rfl⟩
  obtain ⟨⟨hinv, hquiet, -⟩, hbacks⟩ := hs₁
  rw [wp_now_bind, Prog.wp_bind_iff]
  refine wp_exec (fun failure _ => ?_) (fun error _ => ?_) fun db hdb => ?_
  · exact ⟨s₁, hquiet, hbacks, .inl rfl⟩
  · exact ⟨s₁, hquiet, hbacks, .inl rfl⟩
  · obtain ⟨hkind, hmax, rfl⟩ := Db.truncateFile_cases hdb
    have hother : ∀ j, j ≠ ino → ((s₁.db.cutAt ino size).setSize ino size
        (.fromSystemTime (env.clock s₁.tick))).file j = s₁.db.file j := fun j hj =>
      (Db.file_cutAt hinv.sound hkind hmax j).trans (if_neg hj)
    rcases s.table.inodes.find ino with _ | slot
    · exact ⟨s₁, hquiet, hbacks, .inr ⟨rfl, hother⟩⟩
    · exact ⟨s₁, hquiet, hbacks, .inr ⟨rfl, hother⟩⟩

private theorem truncateLocked_backs (h : s.Inv held busy) :
    Prog.wp (truncateLocked env ino size) (fun _ s' => Backs s s') s := by
  refine Prog.wp_mono (Prog.wp_and (truncateLocked_spec h) (truncateLocked_flushes h)) ?_
  rintro r s' ⟨⟨hinv, hresult⟩, s₁, hquiet, hbacks, hdb | ⟨rfl, hother⟩⟩
  · exact hbacks.after hquiet (.of_db hdb)
  · refine hbacks.after hquiet fun i _ _ => ?_
    by_cases hi : i = ino
    · exact .inr (.inr (hi ▸ (hinv.bytes_of_clean hresult.2.2.2.1).symm))
    · exact .inl (congrArg StoredFile.bytes (hother i hi))

private theorem updateMetadata_backs (update : MetadataUpdate) :
    Prog.wp (updateMetadata env ino update) (fun _ s' => Backs s s') s := by
  rw [updateMetadata, wp_now_bind, Prog.wp_bind_iff]
  refine wp_exec (fun failure _ => .of_db rfl) (fun error _ => .of_db rfl) fun db hdb => ?_
  obtain ⟨hsame, hnames⟩ := Db.sameData_updateMetadata hdb
  have hbacks : ∀ s' : Shared, s'.db = db → Backs s s' := by
    rintro s' rfl i _ _
    exact .inl (congrArg StoredFile.bytes (Db.file_of_same hsame hnames i))
  exact wp_query (fun _ _ => hbacks _ rfl) (fun _ _ => hbacks _ rfl) fun _ _ => hbacks _ rfl

private theorem setattr_backs (mode uid gid : Option UInt32) (size : Option Nat)
    (atime mtime : Option SystemTime) (h : s.Inv held busy) :
    Prog.wp (setattr env ino mode uid gid size atime mtime) (fun _ s' => Backs s s') s := by
  rw [setattr, wp_table_bind]
  refine Prog.wp_bind (Prog.wp_and (persist_spec h) (persist_backs h)) (fun _ s₁ hs₁ => ?_)
    fun e s₁ hs₁ => hs₁.2
  obtain ⟨⟨hinv, hquiet, -, hclean⟩, hbacks⟩ := hs₁
  have hresize : Prog.wp (ifSome size fun size => truncateLocked env ino size)
      (fun _ s₂ => Backs s₁ s₂) s₁ := by
    rcases size with _ | size
    · exact .of_db rfl
    · exact truncateLocked_backs hinv
  refine Prog.wp_bind (Prog.wp_and (resize_spec size hinv hclean) hresize) (fun _ s₂ hs₂ => ?_)
    fun e s₂ hs₂ => hbacks.after hquiet hs₂.2
  obtain ⟨⟨hinv₂, -, -, -, hclean₂, -⟩, hbacks₂⟩ := hs₂
  have hresized := hbacks.after hquiet hbacks₂
  refine Prog.wp_bind (Prog.wp_and (updateMetadata_spec _ hinv₂ hclean₂)
    (updateMetadata_backs _)) (fun inode s' hs' => ?_) fun e s' hs' => ?_
  · exact hresized.followed hs'.1.2.1 hs'.2
  · exact hresized.followed hs'.1.2.1 hs'.2

private theorem fallocate_backs {length : Int} {offset : Int} {mode : UInt32}
    (h : s.Inv held busy) :
    Prog.wp (fallocate env ino offset length mode) (fun _ s' => Backs s s') s := by
  refine Prog.wp_bind (fallocateCheck_spec h.sound.keys.inodeKindOf_eq_ok.mpr)
    (fun stop s₁ hs₁ => ?_)
    fun e s₁ hs₁ => .of_db hs₁.1
  obtain ⟨hdb₁, htable₁, hmoments₁, -⟩ := hs₁
  have hquiet₁ : Quiet s s₁ := Frame.of_eq hdb₁ htable₁
  have hinv₁ := h.of_eq hdb₁ htable₁ hmoments₁
  rcases stop with _ | stop
  · exact .of_db hdb₁
  · refine Prog.wp_bind (currentSize_spec hinv₁.sound.keys)
      (fun size s₂ hs₂ => ?_) fun e s₂ hs₂ => ?_
    · obtain ⟨hdb₂, htable₂, hmoments₂, -⟩ := hs₂
      have hquiet₂ : Quiet s s₂ := hquiet₁.trans (Frame.of_eq hdb₂ htable₂)
      have hbacks₂ : Backs s s₂ := .of_db (hdb₂.trans hdb₁)
      split
      · exact hbacks₂
      · exact Prog.wp_mono (truncateLocked_backs (hinv₁.of_eq hdb₂ htable₂ hmoments₂))
          fun _ _ hbacks => hbacks₂.after hquiet₂ hbacks
    · exact .of_db (hs₂.1.trans hdb₁)

end Resizing

section Writes

def Flushes (s s' : Shared) : Prop := ∃ s₁, Quiet s s₁ ∧ Backs s s₁ ∧ s'.db = s₁.db

private theorem allocChunk_backs (writing : Slot) (fuel : Nat) (h : s.Inv [] busy) :
    Prog.wp (allocChunk env writing fuel) (fun _ s' => Backs s s') s := by
  induction fuel generalizing s with
  | zero => exact .of_db rfl
  | succ fuel ih =>
    rw [allocChunk, wp_table_bind]
    rcases s.table.arena.alloc with _ | ⟨a, arena⟩
    · dsimp only
      rw [wp_order_bind]
      obtain ⟨-, hsome⟩ := h.table.largestDirty (env.order_perm s.tick)
      rcases hvictim : s.table.inodes.largestDirty (env.order s.tick) with _ | victim
      · exact .of_db rfl
      · obtain ⟨hf, -⟩ := hsome victim hvictim
        have hinv : Shared.Inv [] busy { s with tick := s.tick + 1 } := h.of_eq rfl rfl rfl
        rw [orErrno, Prog.wp_pure_bind]
        refine Prog.wp_bind (Prog.wp_and (flushSlot_spec .persist hinv hf)
          (flushSlot_backs .persist hinv hf)) (fun _ s₁ hs₁ => ?_) fun e s₁ hs₁ => ?_
        · obtain ⟨⟨hinv₁, hquiet₁, hfind₁, -⟩, hbacks₁⟩ := hs₁
          have hquiet : Quiet s s₁ := hquiet₁.after_eq rfl rfl
          have hbacks : Backs s s₁ := Backs.after (.of_db rfl) (Frame.of_eq rfl rfl) hbacks₁
          rw [onlyIf]
          split
          · obtain ⟨hcore₂, hquiet₂, -⟩ := freeIfIdle_core hinv₁.toCore ((hfind₁ _).trans hf)
            rw [freeIfIdle, wp_updateTable_bind]
            refine Prog.wp_mono (ih (hinv₁.of_table hcore₂ rfl rfl)) fun _ _ => ?_
            exact (hbacks.followed hquiet₂ (.of_db rfl)).after (hquiet.trans hquiet₂)
          · rw [Prog.wp_pure_bind]
            exact Prog.wp_mono (ih hinv₁) fun _ _ => hbacks.after hquiet
        · exact Backs.after (.of_db rfl) (Frame.of_eq rfl rfl) hs₁.2
    · exact .of_db rfl

private theorem loadChunk_db (ino c : Nat) (a : ArenaSlot) :
    Prog.wp (loadChunk env ino c a) (fun _ s' => s'.db = s.db) s := by
  rw [loadChunk, Prog.wp_bind_iff, Prog.wp_attempt]
  exact wp_query (fun _ _ => rfl) (fun _ _ => rfl) fun _ _ => rfl

private theorem chunkSlot_flushes {c : Nat} (piece : ChunkPiece) (h : s.Inv [] busy)
    (hf : s.table.inodes.find ino = some slot) :
    Prog.wp (chunkSlot env slot ino c piece) (fun _ s' => Flushes s s') s := by
  rw [chunkSlot, wp_table_bind]
  rcases (s.table.inodes.get slot).dirty.find c with position | position
  · dsimp only
    refine Prog.wp_bind (Prog.wp_and (allocChunk_spec h hf) (allocChunk_backs slot allocFuel h))
      (fun a s₁ hs₁ => ?_) fun e s₁ hs₁ => ⟨s₁, hs₁.1.2.1, hs₁.2, rfl⟩
    obtain ⟨⟨-, hquiet, -⟩, hbacks⟩ := hs₁
    have hload : Prog.wp (onlyIf (¬piece.isFullChunk) (loadChunk env ino c a))
        (fun _ s₂ => s₂.db = s₁.db) s₁ := by
      rw [onlyIf]
      split
      · exact loadChunk_db ino c a
      · rfl
    exact Prog.wp_bind hload (fun _ s₂ hdb => ⟨s₁, hquiet, hbacks, hdb⟩)
      fun _ s₂ hdb => ⟨s₁, hquiet, hbacks, hdb⟩
  · exact ⟨s, Frame.refl s, .of_db rfl, rfl⟩

private theorem writeChunk_backs {c : Nat} (span : ChunkSpan) (data : Bytes) (h : s.Inv [] busy)
    (hf : s.table.inodes.find ino = some slot) :
    Prog.wp (writeChunk env slot ino span data c) (fun _ s' => Flushes s s') s := by
  rw [writeChunk]
  refine Prog.wp_bind (chunkSlot_flushes _ h hf) (fun a s₁ hflushes => ?_)
    fun _ s₁ hflushes => hflushes
  exact hflushes

/-- The store has what it had, or a content before the write; of the written file it may have some
pieces of the write, the first ones. -/
def BacksPieces (s s' : Shared) (ino offset : Nat) (data : Bytes) : Prop :=
  ∀ i, s.db.Named i → s'.db.Named i → (s'.db.file i).bytes = (s.db.file i).bytes ∨
    (s'.db.file i).bytes = (s.file i).bytes ∨
      i = ino ∧ PartlyWritten offset data (s.file i).bytes (s'.db.file i).bytes

private theorem BacksPieces.of_db (h : s'.db = s.db) : BacksPieces s s' ino offset data :=
  fun i _ _ => .inl (by rw [h])

private theorem BacksPieces.after {s₁ : Shared} (h : BacksPieces s₁ s' ino offset data)
    (hdb : s₁.db = s.db) (hquiet : Quiet s s₁) : BacksPieces s s' ino offset data := by
  intro i hnamed hnamed'
  have hpieces := h i (hdb ▸ hnamed) hnamed'
  rwa [hdb, hquiet.bytes i not_false] at hpieces

private theorem BacksPieces.followed {s₁ : Shared} (h : BacksPieces s s₁ ino offset data)
    (hdb : s'.db = s₁.db) : BacksPieces s s' ino offset data := by
  intro i hnamed hnamed'
  rw [hdb] at hnamed' ⊢
  exact h i hnamed hnamed'

private theorem BacksPieces.flushes {s₁ : Shared} (h : BacksPieces s s₁ ino offset data)
    (hframe : Frame (fun i => i = ino) s s₁)
    (hpartly : PartlyWritten offset data (s.file ino).bytes (s₁.file ino).bytes)
    (hflushes : Flushes s₁ s') : BacksPieces s s' ino offset data := by
  obtain ⟨s₂, hquiet, hbacks, hdb⟩ := hflushes
  refine .followed (fun i hnamed hnamed₂ => ?_ : BacksPieces s s₂ ino offset data) hdb
  have hnamed₁ : s₁.db.Named i := (Db.named_congr hframe.names).mpr hnamed
  have hbytes : ∀ bytes, bytes = (s₁.file i).bytes → bytes = (s.file i).bytes ∨
      i = ino ∧ PartlyWritten offset data (s.file i).bytes bytes := by
    rintro bytes rfl
    by_cases hi : i = ino
    · subst hi
      exact .inr ⟨rfl, hpartly⟩
    · exact .inl (hframe.bytes i hi)
  rcases hbacks i hnamed₁ hnamed₂ with hstored | hbefore | hafter
  · rw [hstored]
    exact h i hnamed hnamed₁
  · exact .inr (hbytes _ hbefore)
  · exact .inr (hbytes _ (hafter.trans (hquiet.bytes i not_false)))

private theorem writeChunks_backs (hlen : 0 < data.length)
    (hmax : offset + data.length ≤ maxFileSize)
    (h : s.Inv [] busy) (hf : s.table.inodes.find ino = some slot)
    (hkind : s.db.kindOf ino = some .regularFile) :
    Prog.wp (Prog.each (writeChunk env slot ino (ChunkSpan.ofRange offset data.length) data)
      (ChunkSpan.ofRange offset data.length).chunks)
      (fun _ s' => BacksPieces s s' ino offset data) s := by
  -- `done` are the chunks of the turns so far
  refine Prog.wp_each (I := fun cs s₁ => ∃ done,
    (ChunkSpan.ofRange offset data.length).chunks = done ++ cs ∧ s₁.Inv [] busy ∧
      Frame (fun i => i = ino) s s₁ ∧ s₁.table.inodes.find ino = some slot ∧
      (s₁.file ino).bytes =
        done.foldl ((ChunkSpan.ofRange offset data.length).put data) (s.file ino).bytes ∧
      BacksPieces s s₁ ino offset data)
    (fun c cs s₁ hs₁ => ?_) (fun s₁ hs₁ => ?_) _ s ⟨[], rfl, h, Frame.refl s, hf, rfl, .of_db rfl⟩
  · obtain ⟨done, hchunks, hinv, hframe, hf₁, hbytes, hpieces⟩ := hs₁
    have hc : c ∈ (ChunkSpan.ofRange offset data.length).chunks := by simp [hchunks]
    have hpartly : PartlyWritten offset data (s.file ino).bytes (s₁.file ino).bytes :=
      ⟨done.length, by rw [hbytes, hchunks, List.take_left]⟩
    refine Prog.wp_mono (Prog.wp_and
      (writeChunk_spec hlen hmax hc hinv hf₁ (hframe.kind.trans hkind))
      (writeChunk_backs _ data hinv hf₁)) ?_
    rintro (e | ⟨⟩) s₂ ⟨⟨hinv₂, hframe₂, hf₂, hresult⟩, hflushes⟩
    · exact hpieces.flushes hframe hpartly hflushes
    · refine ⟨done ++ [c], by rw [hchunks, List.append_assoc]; rfl, hinv₂, hframe.trans hframe₂,
        hf₂, ?_, hpieces.flushes hframe hpartly hflushes⟩
      rw [List.foldl_append, ← hbytes, hresult.2]
      rfl
  · obtain ⟨done, -, -, -, -, -, hpieces⟩ := hs₁
    exact hpieces

private theorem writeSlot_backs (hfit : offset + data.length < u64Size) (h : s.Inv [] busy)
    (hf : s.table.inodes.find ino = some slot) :
    Prog.wp (writeSlot env slot offset data) (fun _ s' => BacksPieces s s' ino offset data) s := by
  rw [writeSlot, wp_table_bind]
  dsimp only
  rcases hregular : (s.table.inodes.get slot).kind.regularFileError with _ | error
  · rw [errnoOfKind, hregular, Prog.wp_pure_bind]
    have hkind : s.db.kindOf ino = some .regularFile :=
      (h.kindOf (OpenTable.file_of_find hf)).trans
        (congrArg some (FileKind.regularFileError_eq_none.mp hregular))
    split
    · exact .of_db rfl
    · rcases Nat.eq_zero_or_pos data.length with hzero | hpos
      · rw [hzero, ChunkSpan.new_zero]
        exact .of_db rfl
      · rw [ChunkSpan.new_eq hpos hfit]
        dsimp only
        split
        · exact .of_db rfl
        · next hsmall =>
          rw [wp_now_bind, wp_updateTable_bind, h.table.find_ino hf]
          obtain ⟨hinv, hquiet⟩ := touch_core h hf (s.tick + 1)
            (.fromSystemTime (env.clock s.tick))
          refine Prog.wp_bind (writeChunks_backs hpos (Nat.le_of_not_lt hsmall) hinv hf
            (hquiet.kind.trans hkind)) (fun done s' hpieces => ?_) fun e s' hpieces => ?_
          · exact hpieces.after rfl hquiet
          · exact hpieces.after rfl hquiet
  · rw [errnoOfKind, hregular]
    exact .of_db rfl

private theorem write_backs (hfit : offset + data.length < u64Size) (h : s.Inv [] busy) :
    Prog.wp (write env ino offset data) (fun _ s' => BacksPieces s s' ino offset data) s := by
  unfold write
  split
  · exact .of_db rfl
  · refine Prog.wp_bind (slotFor_spec h) (fun slot s₁ hs₁ => ?_) fun e s₁ hs₁ => .of_db hs₁.2.1
    obtain ⟨hquiet₁, hdb₁, -, hinv₁, -, hf₁, -⟩ := hs₁
    rw [Prog.wp_bind_iff, Prog.wp_attempt]
    refine Prog.wp_mono (writeSlot_backs hfit hinv₁ hf₁) fun r s₂ hpieces => ?_
    have hresult := hpieces.after hdb₁ hquiet₁
    dsimp only
    rw [freeIfIdle, wp_updateTable_bind]
    rcases r with e | n
    · exact hresult
    · exact hresult

private theorem writeFh_backs (hfit : offset + data.length < u64Size) (h : s.Inv [] busy) :
    Prog.wp (writeFh env fh offset data) (fun _ s' => s'.db = s.db ∨
      ∃ ino, s.table.handleIno fh = some ino ∧ BacksPieces s s' ino offset data) s := by
  rw [writeFh, wp_table_bind]
  rcases hfh : s.table.handles.get fh with _ | slot
  · exact .inl rfl
  · refine Prog.wp_mono (writeSlot_backs hfit h (h.table.find_of_handle hfh)) fun r s' hpieces => ?_
    exact .inr ⟨_, congrArg (Option.map _) hfh, hpieces⟩

end Writes

section Releases

/-- The close of a handle changes no content, so the flush after it stores one from before. -/
private theorem releaseFh_backs (h : s.Inv held busy) :
    Prog.wp (releaseFh env fh) (fun _ s' => Backs s s') s := by
  rw [releaseFh, wp_table_bind]
  rcases hr : s.table.handles.release fh with _ | ⟨slot, handles⟩
  · exact .of_db rfl
  · obtain ⟨hf, hpos, -⟩ := h.table.closeHandle hr
    have hslot : ({ s.table with handles := handles }.updateSlot slot fun o =>
        { o with refs := o.refs - 1 }).inodes.get slot =
          { s.table.inodes.get slot with refs := (s.table.inodes.get slot).refs - 1 } :=
      (OpenTable.get_update (h.table.find_lt hf) slot).trans (if_pos rfl)
    generalize hino : (s.table.inodes.get slot).ino = ino at hf
    rw [orErrno, Prog.wp_pure_bind, wp_updateTable_bind, wp_updateTable_bind, dropHandle,
      wp_table_bind]
    dsimp only
    rw [hslot]
    by_cases hlast : (s.table.fileAt slot).refs = 1 ∧ (s.table.fileAt slot).unlinked = true
    · have hzero : (s.table.inodes.get slot).refs - 1 = 0 := Nat.sub_eq_zero_of_le hlast.1.le
      rw [if_pos ⟨hzero, hlast.2⟩, wp_updateTable_bind]
      obtain ⟨-, hnlink, hsome, -⟩ := discard_core h hr hino hlast.1 hlast.2
      rw [hino]
      refine wp_exec (fun failure _ => .of_db rfl) (fun error _ => .of_db rfl) fun db hdb => ?_
      obtain rfl := Except.ok.inj hdb
      have hrange := (h.sound.keys.range hsome).2
      intro i hnamed _
      have hne : i ≠ ino := fun hi => Nat.ne_of_gt hnamed.2 (hi ▸ hnlink)
      exact .inl (congrArg StoredFile.bytes
        ((Db.file_deleteInodeRows h.sound.keys hrange i).trans (if_neg hne)))
    · have hstays : ¬((s.table.inodes.get slot).refs - 1 = 0 ∧
          (s.table.inodes.get slot).unlinked = true) := by
        rintro ⟨hzero, hunlinked⟩
        exact hlast ⟨Nat.le_antisymm (Nat.sub_eq_zero_iff_le.mp hzero) hpos, hunlinked⟩
      rw [if_neg hstays]
      obtain ⟨hinv, -, hf', hbytes, -⟩ := close_core h hr hino hlast
      refine Prog.wp_mono (flushFree_backs .skip hinv hf') fun r s' hbacks i hnamed hnamed' => ?_
      exact (hbacks i hnamed hnamed').imp_right (.imp_left fun hbefore => hbefore.trans (hbytes i))

end Releases

section Names

variable {parent newParent : Nat} {name newName : Name}

private theorem createNode_backs {node : NewNode} {uid gid : UInt32} (h : s.Inv held busy) :
    Prog.wp (createNode env parent name node uid gid) (fun _ s' => Backs s s') s := by
  refine Prog.wp_mono (createNode_spec h) ?_
  rintro (e | attr) s' ⟨-, -, -, hresult⟩
  · exact .of_db hresult.1
  · obtain ⟨-, inode, now, hdb, -⟩ := hresult
    exact .of_relinked (Db.relinked_createNode h.sound hdb).1

private theorem createOpen_backs {mode umask uid gid : UInt32} (h : s.Inv held busy) :
    Prog.wp (createOpen env parent name mode umask uid gid) (fun _ s' => Backs s s') s := by
  refine Prog.wp_mono (createOpen_spec h) ?_
  rintro (e | ⟨attr, k⟩) s' ⟨-, hresult⟩
  · exact .of_db hresult.1
  · obtain ⟨-, -, -, -, inode, now, hdb, -⟩ := hresult
    exact .of_relinked (Db.relinked_createNode h.sound hdb).1

private theorem link_backs (hnamed : ∀ r ∈ s.db.findInode ino, 0 < r.nlink) (h : s.Inv held busy) :
    Prog.wp (link env ino newParent newName) (fun _ s' => Backs s s') s := by
  refine Prog.wp_mono (link_spec hnamed h) ?_
  rintro (e | attr) s' ⟨-, -, -, hresult⟩
  · exact .of_db hresult.1
  · obtain ⟨-, inode, now, hdb, -⟩ := hresult
    obtain ⟨-, r, hr, -⟩ := Db.link_cases hdb
    have hpos : 0 < s.db.nlinkOf ino := (Db.nlinkOf_of_find hr).symm ▸ hnamed r hr
    exact .of_relinked (Db.relinked_link h.sound hpos hdb).1

private theorem unlink_backs (h : s.Inv held busy) :
    Prog.wp (unlink env parent name) (fun _ s' => Backs s s') s := by
  refine Prog.wp_mono (unlink_spec h) ?_
  rintro (e | ⟨⟩) s' ⟨-, -, hresult⟩
  · exact .of_db hresult.1
  · obtain ⟨-, target, now, hlookup, -, hdb⟩ := hresult
    exact .of_relinked (Db.relinked_unlinkEntry h.sound hlookup hdb)

private theorem rmdir_backs (hclear : RmdirClear s parent name) (h : s.Inv held busy) :
    Prog.wp (rmdir env parent name) (fun _ s' => Backs s s') s := by
  refine Prog.wp_mono (rmdir_spec hclear h) ?_
  rintro (e | ⟨⟩) s' ⟨-, -, -, hresult⟩
  · exact .of_db hresult.1
  · obtain ⟨-, now, hdb⟩ := hresult
    exact .of_relinked (Db.relinked_removeDir h.sound hdb)

private theorem rename_backs {flags : UInt32}
    (hclear : RenameClear s parent name newParent newName flags) (h : s.Inv held busy) :
    Prog.wp (rename env parent name newParent newName flags) (fun _ s' => Backs s s') s := by
  refine Prog.wp_mono (rename_spec hclear h) ?_
  rintro (e | ⟨⟩) s' ⟨-, -, hresult⟩
  · exact .of_db hresult.1
  · obtain ⟨-, replaced, now, -, hdb⟩ := hresult
    exact .of_relinked (Db.relinked_renameEntry h.sound hdb)

end Names

end Fs

namespace Dbfs

variable {c : Call}

def Backed (s : Shared) (c : Call) (s' : Shared) : Prop :=
  Backs s s' ∨ ∃ ino offset data, writeOf s c = some (ino, offset, data) ∧
    Fs.BacksPieces s s' ino offset data

theorem call_backed (h : s.Inv [] busy) (hadm : Admissible busy s c) :
    Prog.wp (call env c) (fun _ s' => Backed s c s') s := by
  have hquiet : ∀ {α : Type} {g : α → Reply} {x : Fs α}, Prog.wp x (fun _ s' => Backs s s') s →
      Prog.wp (g <$> x) (fun _ s' => Backed s c s') s := by
    intro α g x hx
    exact (Prog.wp_map ..).mpr (Prog.wp_mono hx fun _ _ => .inl)
  have hidle : ∀ {α : Type} {g : α → Reply} {x : Fs α}, Prog.wp x (fun _ s' => s'.db = s.db) s →
      Prog.wp (g <$> x) (fun _ s' => Backed s c s') s := by
    intro α g x hx
    exact hquiet (Prog.wp_mono hx fun _ _ => .of_db)
  cases c with
  | getattr ino => exact hidle (Prog.wp_mono (Fs.getattr_spec h.toCore) fun _ _ hr => hr.1.db)
  | lookup parent name =>
    exact hidle (Prog.wp_mono (Fs.lookup_spec h.toCore) fun _ _ hr => hr.1.db)
  | read ino offset size =>
    exact hidle (Prog.wp_mono (Fs.read_spec h.toCore) fun _ _ hr => hr.1.db)
  | readFh fh offset size =>
    refine hidle (Prog.wp_mono (Fs.readFh_spec h.toCore) fun r s' hr => ?_)
    rcases hfh : s.table.handleIno fh with _ | ino
    · rw [hfh] at hr
      rw [hr.2]
    · rw [hfh] at hr
      exact hr.1.db
  | openFile ino =>
    exact hidle (Prog.wp_mono (Fs.openFile_spec h hadm) fun _ _ hr => hr.2.1)
  | mkdir | create | symlink => exact hquiet (Fs.createNode_backs h)
  | createOpen => exact hquiet (Fs.createOpen_backs h)
  | link => exact hquiet (Fs.link_backs hadm h)
  | unlink => exact hquiet (Fs.unlink_backs h)
  | rmdir => exact hquiet (Fs.rmdir_backs hadm h)
  | rename => exact hquiet (Fs.rename_backs hadm h)
  | setattr ino mode uid gid size atime mtime => exact hquiet (Fs.setattr_backs _ _ _ _ _ _ h)
  | fallocate => exact hquiet (Fs.fallocate_backs h)
  | flushFile => exact hquiet (Fs.flushFile_backs h)
  | flushFh => exact hquiet (Fs.flushFh_backs h)
  | syncFh => exact hquiet (Fs.syncFh_backs h)
  | flushAll => exact hquiet (Fs.flushAll_backs h)
  | releaseFile => exact hquiet (Fs.releaseFh_backs h)
  | write ino offset data =>
    refine (Prog.wp_map ..).mpr (Prog.wp_mono (Fs.write_backs hadm h) fun _ s' hpieces => ?_)
    exact .inr ⟨ino, offset, data, rfl, hpieces⟩
  | writeFh fh offset data =>
    refine (Prog.wp_map ..).mpr (Prog.wp_mono (Fs.writeFh_backs hadm h) ?_)
    rintro _ s' (hdb | ⟨ino, hfh, hpieces⟩)
    · exact .inl (.of_db hdb)
    · exact .inr ⟨ino, offset, data, congrArg (Option.map fun ino => (ino, offset, data)) hfh,
        hpieces⟩

end Dbfs

end VibeDbfs
