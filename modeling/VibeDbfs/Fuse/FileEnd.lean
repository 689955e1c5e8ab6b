import VibeDbfs.Fuse.Failures
import VibeDbfs.Storage.ExactSpans

/-!
Writes that end past the largest file: refused by both write paths, unless their end wraps.
-/

set_option autoImplicit false
set_option relaxedAutoImplicit false

namespace VibeDbfs

open Lib Lib.Bytes Shared ChunkSpan

/-- Nothing wraps in `read_slot`: in `read_into`, or where the dirty chunks are laid over it. -/
def Shared.ReadSlotExact (s : Shared) (slot : Slot) (offset size : Nat) : Prop :=
  let o := s.table.inodes.get slot
  ¬(offset ≥ o.size ∨ size = 0) → offset ≤ o.size ∧
    s.db.ReadIntoExact o.ino offset (min size (o.size - offset)) ∧
      ∀ span, ChunkSpan.new offset (min size (o.size - offset)) = some span →
        ∀ e ∈ o.dirty.range span.first span.last, span.CopyExact e.1 (s.table.arena.chunk e.2)

/-- Nothing wraps in `write_slot`: in the span, or in the turns of a write that passes the check of
its end. -/
def WriteSlotExact (offset len : Nat) : Prop :=
  NewExact offset len ∧ ∀ span, ChunkSpan.new offset len = some span →
    ¬span.stop > maxFileSize → ∀ c ∈ span.chunks, span.PieceExact c ∧
      c * chunkSize + (span.piece c).chunk.stop < u64Size

private theorem writeSlotExact_iff {offset len : Nat} (hlen : 0 < len) :
    WriteSlotExact offset len ↔ offset + len < u64Size := by
  constructor
  · intro h
    exact h.1.1
  · intro hfit
    refine ⟨⟨hfit, by omega⟩, fun span hspan hstop c hc => ?_⟩
    rw [ChunkSpan.new_eq hlen hfit] at hspan
    obtain rfl := Option.some.inj hspan
    have hmax : offset + len ≤ maxFileSize := Nat.not_lt.mp hstop
    have h63 : offset + len ≤ 2 ^ 63 := by
      simp only [maxFileSize] at hmax
      omega
    have hmem := (mem_chunks hlen).mp hc
    refine ⟨pieceExact_of_le hlen hmax hc, ?_⟩
    rw [piece_ofRange h63 hc hlen]
    have hpiece := pieceStop_le offset len c
    simp only [chunkSize, u64Size, maxFileSize] at *
    omega

private theorem Shared.Inv.readSlotExact {s : Shared} {busy : Nat → Prop} {ino offset size : Nat}
    {slot : Slot} (h : s.Inv [] busy) (hf : s.table.inodes.find ino = some slot)
    (hkind : s.db.kindOf ino = some .regularFile) : s.ReadSlotExact slot offset size := by
  intro hsome
  have hagrees := h.live ino _ (OpenTable.file_of_find hf)
  have hregular : (s.table.fileAt slot).kind = .regularFile :=
    Option.some.inj (hagrees.kind.symm.trans hkind)
  have hmax : (s.table.inodes.get slot).size ≤ maxFileSize := hagrees.max hregular
  have hlen : 0 < min size ((s.table.inodes.get slot).size - offset) := by omega
  have hend : offset + min size ((s.table.inodes.get slot).size - offset) ≤ maxFileSize := by omega
  have hino : (s.table.inodes.get slot).ino ≤ maxIno := by
    rw [h.table.find_ino hf]
    exact h.sound.keys.le_maxIno hkind
  refine ⟨by omega, Db.readIntoExact hino hlen hend, fun span hspan e he => ?_⟩
  rw [ChunkSpan.new_eq hlen (newExact_of_le hlen hend).1] at hspan
  obtain rfl := Option.some.inj hspan
  obtain ⟨-, hfirst, hlast⟩ := (DirtyIdx.mem_range (h.table.sorted slot)).mp he
  apply copyExact_of_le hlen hend
  rw [chunks, List.mem_range'_1]
  omega

namespace Fs

section Errors

variable {α : Type} {env : Env} {slot : Slot} {ino c : Nat} {span : ChunkSpan} {data : Bytes}

private theorem errnoFromDbError_sqlFailure (failure : SqlFailure) :
    errnoFromDbError failure.toDbError ≠ .EFBIG := by
  intro h
  cases failure <;> cases h

/-- A database method that never reports `FileTooLarge`. -/
private theorem never_access {f : Db → Except DbError (α × Db)}
    (hf : ∀ db error, f db = .error error → errnoFromDbError error ≠ .EFBIG) :
    Prog.Never .EFBIG (access env f) := by
  intro s
  change Prog.wp (access env f) (fun r _ => r ≠ .error .EFBIG) s
  refine wp_access (fun failure _ hefbig => ?_) (fun error herror hefbig => ?_) fun _ _ _ => ?_
  · exact errnoFromDbError_sqlFailure failure (Except.error.inj hefbig)
  · exact hf s.db error herror (Except.error.inj hefbig)
  · intro hefbig
    cases hefbig

private theorem never_updateTable (f : OpenTable → OpenTable) : Prog.Never .EFBIG (updateTable f) :=
  .of_ok fun _ => ⟨(), rfl⟩

private theorem never_flushSlot (unlinked : Unlinked) :
    Prog.Never .EFBIG (flushSlot env slot unlinked) := by
  refine .bind (.of_ok fun s => ⟨s.table, rfl⟩) fun t => ?_
  dsimp only
  split
  · exact .pure _ ()
  · refine .bind (never_access fun _ _ herror => by cases herror) fun _ => ?_
    exact .bind (never_updateTable _) fun _ => .of_ok fun _ => ⟨(), rfl⟩

private theorem never_onlyIf {p : Prop} [Decidable p] {x : Fs Unit} (hx : Prog.Never .EFBIG x) :
    Prog.Never .EFBIG (onlyIf p x) := by
  rw [onlyIf]
  split
  · exact hx
  · exact .pure _ ()

private theorem never_allocChunk (fuel : Nat) : Prog.Never .EFBIG (allocChunk env slot fuel) := by
  induction fuel with
  | zero => exact .throw fun h => by cases h
  | succ fuel ih =>
    refine .bind (.of_ok fun s => ⟨s.table, rfl⟩) fun t => ?_
    rcases t.arena.alloc with _ | ⟨a, arena⟩
    · refine .bind (.of_ok fun s => ⟨env.order s.tick, rfl⟩) fun order => ?_
      refine .bind ?_ fun victim => ?_
      · rcases t.inodes.largestDirty order with _ | victim
        · exact .throw fun h => by cases h
        · exact .pure _ victim
      · exact .bind (never_flushSlot .persist) fun _ =>
          .bind (never_onlyIf (never_updateTable _)) fun _ => ih
    · exact .bind (never_updateTable _) fun _ => .pure _ a

private theorem never_loadChunk (a : ArenaSlot) : Prog.Never .EFBIG (loadChunk env ino c a) := by
  intro s
  change Prog.wp (loadChunk env ino c a) (fun r _ => r ≠ .error .EFBIG) s
  rw [loadChunk, Prog.wp_bind_iff, Prog.wp_attempt]
  refine wp_query (fun failure _ hefbig => ?_) (fun error herror => ?_) fun _ _ hefbig => ?_
  · exact errnoFromDbError_sqlFailure failure (Except.error.inj hefbig)
  · cases herror
  · cases hefbig

private theorem never_chunkSlot (piece : ChunkPiece) :
    Prog.Never .EFBIG (chunkSlot env slot ino c piece) := by
  refine .bind (.of_ok fun s => ⟨s.table, rfl⟩) fun t => ?_
  rcases (t.inodes.get slot).dirty.find c with position | position
  · refine .bind (never_allocChunk allocFuel) fun a => ?_
    refine .bind (never_onlyIf (never_loadChunk a)) fun _ => ?_
    exact .bind (never_updateTable _) fun _ => .pure _ a
  · exact .pure _ _

private theorem never_writeChunk : Prog.Never .EFBIG (writeChunk env slot ino span data c) := by
  refine .bind (never_chunkSlot _) fun a => ?_
  refine .bind (never_updateTable _) fun _ => ?_
  exact .bind (never_updateTable _) fun _ => .of_ok fun _ => ⟨(), rfl⟩

end Errors

section Calls

variable {env : Env} {s : Shared} {busy : Nat → Prop} {slot : Slot} {ino offset : Nat}
  {data : Bytes}

/-- A write is refused if its end, as computed, is past the largest file. Then no content has
changed. -/
def Refusal (s : Shared) (ino offset : Nat) (data : Bytes) (r : Except Errno Nat) (s' : Shared) :
    Prop :=
  (r = .error .EFBIG ↔ maxFileSize < u64Add offset data.length) ∧
    (r = .error .EFBIG → s'.db = s.db ∧ (s'.file ino).bytes = (s.file ino).bytes)

private theorem writeSlot_refusal (hkind : (s.table.inodes.get slot).kind = .regularFile)
    (hrunning : s.table.closing = false) (hne : data ≠ []) :
    Prog.wp (writeSlot env slot offset data) (fun r s' =>
      (r = .error .EFBIG ↔ maxFileSize < u64Add offset data.length) ∧
        (r = .error .EFBIG → s' = s)) s := by
  obtain ⟨span, hspan, hstop⟩ : ∃ span, ChunkSpan.new offset data.length = some span ∧
      span.stop = u64Add offset data.length :=
    ⟨_, if_neg fun h => hne (List.length_eq_zero_iff.mp h), rfl⟩
  have hregular : (s.table.inodes.get slot).kind.regularFileError = none := by
    rw [hkind]
    rfl
  rw [writeSlot, wp_table_bind]
  dsimp only
  rw [errnoOfKind, hregular, Prog.wp_pure_bind, if_neg (hrunning ▸ Bool.false_ne_true), hspan]
  dsimp only
  rw [← hstop]
  split
  · next hbig => exact ⟨⟨fun _ => hbig, fun _ => rfl⟩, fun _ => rfl⟩
  · next hsmall =>
    have hnever : Prog.Never .EFBIG (Prog.each (writeChunk env slot
        (s.table.inodes.get slot).ino span data) span.chunks >>= fun _ =>
          (pure (data.length % 4294967296) : Fs Nat)) :=
      .bind (.each (fun c => never_writeChunk) span.chunks) fun _ => .pure _ _
    rw [wp_now_bind, wp_updateTable_bind]
    have hend := hnever { s with
      tick := s.tick + 1
      table := s.table.updateSlot slot fun o =>
        { o with mtime := .fromSystemTime (env.clock s.tick) } }
    exact ⟨⟨fun h => (hend h).elim, fun h => (hsmall h).elim⟩, fun h => (hend h).elim⟩

/-- The slot of a file whose row can be read. -/
private theorem slotFor_ok (hk : s.db.Keys) (hkind : s.db.kindOf ino = some .regularFile)
    (hload : (s.table.inodes.find ino).isSome ∨ env.fault s.tick = none) :
    Prog.wp (slotFor env ino) (fun r _ => ∃ slot, r = .ok slot) s := by
  rw [slotFor, wp_table_bind]
  rcases hf : s.table.inodes.find ino with _ | slot
  · have hhealthy : env.fault s.tick = none := by
      apply hload.resolve_left
      rw [hf]
      exact Bool.false_ne_true
    dsimp only
    rw [Prog.wp_bind_iff]
    refine wp_query (fun failure hfault => ?_) (fun error herror => ?_) fun head _ => ?_
    · cases hhealthy.symm.trans hfault
    · rw [hk.inodeHead_of_kind hkind] at herror
      cases herror
    · exact ⟨_, rfl⟩
  · exact ⟨slot, rfl⟩

private theorem write_refusal (h : s.Inv [] busy) (hkind : s.db.kindOf ino = some .regularFile)
    (hrunning : s.table.closing = false) (hne : data ≠ [])
    (hload : (s.table.inodes.find ino).isSome ∨ env.fault s.tick = none) :
    Prog.wp (write env ino offset data) (Refusal s ino offset data) s := by
  rw [write, if_neg fun hempty => hne (List.isEmpty_iff.mp hempty)]
  refine Prog.wp_bind (Prog.wp_and (slotFor_spec h) (slotFor_ok h.sound.keys hkind hload))
    (fun slot s₁ hs₁ => ?_) fun e s₁ hs₁ => ?_
  · obtain ⟨⟨hquiet₁, hdb₁, -, hinv₁, -, hf₁, -⟩, -⟩ := hs₁
    have hregular : (s₁.table.inodes.get slot).kind = .regularFile := by
      have hkind₁ := hinv₁.kindOf (OpenTable.file_of_find hf₁)
      rw [hdb₁, hkind] at hkind₁
      exact (Option.some.inj hkind₁).symm
    rw [Prog.wp_bind_iff, Prog.wp_attempt]
    refine Prog.wp_mono (writeSlot_refusal hregular (hquiet₁.closing.trans hrunning) hne) ?_
    intro r s₂ hrefusal
    dsimp only
    rw [freeIfIdle, wp_updateTable_bind]
    have hunchanged : r = .error .EFBIG → s₂.db = s.db ∧
        (({ s₂ with table := s₂.table.freeIfIdle slot } : Shared).file ino).bytes =
          (s.file ino).bytes := by
      intro hr
      obtain rfl := hrefusal.2 hr
      obtain ⟨-, hquiet₂, -⟩ := freeIfIdle_core hinv₁.toCore hf₁
      exact ⟨hdb₁, (hquiet₂.bytes ino not_false).trans (hquiet₁.bytes ino not_false)⟩
    rcases r with e | n
    · exact ⟨hrefusal.1, hunchanged⟩
    · exact ⟨hrefusal.1, hunchanged⟩
  · obtain ⟨-, slot, hok⟩ := hs₁
    cases hok

private theorem writeFh_refusal {fh : Nat} (h : s.Inv [] busy)
    (hfh : s.table.handleIno fh = some ino)
    (hkind : s.db.kindOf ino = some .regularFile) (hrunning : s.table.closing = false)
    (hne : data ≠ []) :
    Prog.wp (writeFh env fh offset data) (Refusal s ino offset data) s := by
  obtain ⟨slot, hslot, rfl⟩ := Option.map_eq_some_iff.mp hfh
  have hregular : (s.table.inodes.get slot).kind = .regularFile := by
    have hkind' := h.kindOf (OpenTable.file_of_find (h.table.find_of_handle hslot))
    exact Option.some.inj (hkind'.symm.trans hkind)
  rw [writeFh, wp_table_bind, hslot, orErrno, Prog.wp_pure_bind]
  refine Prog.wp_mono (writeSlot_refusal hregular hrunning hne) ?_
  intro r s' hrefusal
  refine ⟨hrefusal.1, fun hr => ?_⟩
  rw [hrefusal.2 hr]
  exact ⟨rfl, rfl⟩

end Calls

end Fs

namespace Dbfs

/-- The reply to `c`, a write of `data` at `offset` to `ino`: `EFBIG` and nothing else if the write
ends past the largest file, exactly where `write_file` says the same. -/
structure Refuses (env : Env) (s : Shared) (c : Call) (ino offset : Nat) (data : Bytes) : Prop where
  refused : maxFileSize < offset + data.length → reply env s c = .error .EFBIG ∧
    (step env s c).db = s.db ∧ ((step env s c).file ino).bytes = (s.file ino).bytes
  agrees : ∀ now, reply env s c = .error .EFBIG ↔
    s.db.writeFile ino offset data now = .error .fileTooLarge

/-- Nothing wraps in a write of `len` bytes at `offset`, on either path, or in a read of `ino`. -/
structure NothingWraps (s : Shared) (ino offset len : Nat) : Prop where
  buffered : WriteSlotExact offset len
  direct : DirectWriteExact offset len
  stored : ∀ offset size, s.db.ReadExact ino offset size
  opened : ∀ slot offset size, s.table.inodes.find ino = some slot →
    s.ReadSlotExact slot offset size

variable {env : Env} {s : Shared} {c : Call} {ino offset : Nat} {data : Bytes}

private theorem writeFile_fileTooLarge_iff (hk : s.db.Keys)
    (hkind : s.db.kindOf ino = some .regularFile)
    (hne : data ≠ []) (now : Timestamp) :
      s.db.writeFile ino offset data now = .error .fileTooLarge ↔
      maxFileSize < offset + data.length := by
  have hsome : ¬∀ w ∈ [(offset, data)], w.2 = [] := fun h => hne (h _ List.mem_cons_self)
  rw [Db.writeFile, DataCall.writeFileBatchAt_of_regular hk hkind, if_neg hsome]
  split
  · next hlarge =>
    obtain ⟨w, hw, hw'⟩ := hlarge
    obtain rfl := List.mem_singleton.mp hw
    exact ⟨fun _ => hw', fun _ => rfl⟩
  · next hsmall =>
    constructor
    · intro h
      cases h
    · intro hlarge
      exact (hsmall ⟨_, List.mem_cons_self, hlarge⟩).elim

private theorem reply_efbig {busy : Nat → Prop} (h : s.Inv [] busy)
    (hc : writeOf s c = some (ino, offset, data)) (hkind : s.db.kindOf ino = some .regularFile)
    (hrunning : s.table.closing = false) (hne : data ≠ [])
    (hload : (s.table.inodes.find ino).isSome ∨ env.fault s.tick = none) :
    (reply env s c = .error .EFBIG ↔ maxFileSize < u64Add offset data.length) ∧
      (reply env s c = .error .EFBIG → (step env s c).db = s.db ∧
        ((step env s c).file ino).bytes = (s.file ino).bytes) := by
  have hcall : ∀ x : Fs Nat, call env c = .written <$> x →
      Prog.wp x (Fs.Refusal s ino offset data) s → (reply env s c = .error .EFBIG ↔
        maxFileSize < u64Add offset data.length) ∧ (reply env s c = .error .EFBIG →
          (step env s c).db = s.db ∧ ((step env s c).file ino).bytes = (s.file ino).bytes) := by
    intro x hx hrefusal
    have hwp : Prog.wp (call env c) (fun r s' =>
        (r = .error .EFBIG ↔ maxFileSize < u64Add offset data.length) ∧
          (r = .error .EFBIG → s'.db = s.db ∧ (s'.file ino).bytes = (s.file ino).bytes)) s := by
      rw [hx, Prog.wp_map]
      refine Prog.wp_mono hrefusal ?_
      intro r s' hr
      rcases r with e | n
      · have hmap : (Except.error e : Except Errno Reply) = .error .EFBIG ↔
            (Except.error e : Except Errno Nat) = .error .EFBIG :=
          ⟨fun h => congrArg _ (Except.error.inj h), fun h => congrArg _ (Except.error.inj h)⟩
        exact ⟨hmap.trans hr.1, fun he => hr.2 (hmap.mp he)⟩
      · refine ⟨⟨fun he => ?_, fun hbig => ?_⟩, fun he => ?_⟩
        · cases he
        · cases hr.1.mpr hbig
        · cases he
    exact hwp
  cases c with
  | write i o d =>
    cases hc
    exact hcall _ rfl (Fs.write_refusal h hkind hrunning hne hload)
  | writeFh fh o d =>
    obtain ⟨i, hfh, hi⟩ := Option.map_eq_some_iff.mp hc
    cases hi
    exact hcall _ rfl (Fs.writeFh_refusal h hfh hkind hrunning hne)
  | _ => cases hc

/-- In every state that legal calls reach before the shutdown, a write to a regular file is refused
as it should be unless its end wraps and lands in the file,
  and nothing wraps exactly if the end fits
in 64 bits. -/
theorem refuses_iff_of_run {db : Db} (hdb : db.Reached) (writeBuffer : Nat) (env : Env)
    (calls : List Call) (hcalls : LegalCalls env (.withWriteBuffer db writeBuffer) calls)
    (c : Call) (ino offset : Nat) (data : Bytes) :
    let s := run env (.withWriteBuffer db writeBuffer) calls
    writeOf s c = some (ino, offset, data) → s.db.kindOf ino = some .regularFile →
    s.table.closing = false → data ≠ [] → offset < u64Size → data.length < u64Size →
    (s.table.inodes.find ino).isSome ∨ env.fault s.tick = none →
      (Refuses env s c ino offset data ↔
        offset + data.length < u64Size ∨ maxFileSize < (offset + data.length) % u64Size) ∧
      (Refuses env s c ino offset data ∧ NothingWraps s ino offset data.length ↔
        offset + data.length < u64Size) := by
  intro s hc hkind hrunning hne hoffset hlength hload
  have hinv : s.Inv [] fun _ => False := (inv_of_run hdb writeBuffer hcalls).1
  have hlen : 0 < data.length := List.length_pos_of_ne_nil hne
  obtain ⟨hefbig, hunchanged⟩ := reply_efbig hinv hc hkind hrunning hne hload
  have hrefuses : Refuses env s c ino offset data ↔
      offset + data.length < u64Size ∨ maxFileSize < (offset + data.length) % u64Size := by
    have hwrap : offset + data.length < u64Size ∨ maxFileSize < (offset + data.length) % u64Size ↔
        (maxFileSize < (offset + data.length) % u64Size ↔ maxFileSize < offset + data.length) := by
      simp only [u64Size, maxFileSize] at *
      omega
    rw [hwrap]
    constructor
    · intro h
      exact hefbig.symm.trans ((h.agrees ⟨0, 0⟩).trans
        (writeFile_fileTooLarge_iff hinv.sound.keys hkind hne _))
    · intro h
      refine ⟨fun hbig => ?_, fun now => ?_⟩
      · have hreply := hefbig.mpr (h.mpr hbig)
        exact ⟨hreply, hunchanged hreply⟩
      · exact hefbig.trans
          (h.trans (writeFile_fileTooLarge_iff hinv.sound.keys hkind hne now).symm)
  refine ⟨hrefuses, ?_⟩
  constructor
  · rintro ⟨-, hexact⟩
    exact hexact.buffered.1.1
  · intro hfit
    have hino := hinv.sound.keys.le_maxIno hkind
    refine ⟨hrefuses.mpr (.inl hfit), (writeSlotExact_iff hlen).mpr hfit, directWriteExact hlen,
      fun _ _ => Db.readExact hino (hinv.sound.owned.sizes ino hkind), fun slot _ _ hf => ?_⟩
    exact hinv.readSlotExact hf hkind

def oneFile : Shared :=
  run calm (.withWriteBuffer (.fresh 0 0 ⟨0, 0⟩) 65536) [.createOpen 1 [97] 0o644 0 0 0]

theorem refuses_iff_of_oneFile : Refuses calm oneFile (.writeFh 0 1099511627775 [1, 2]) 2
    1099511627775 [1, 2] := by
  refine (refuses_iff_of_run (.fresh 0 0 ⟨0, 0⟩) 65536 calm [.createOpen 1 [97] 0o644 0 0 0]
    (by decide) (.writeFh 0 1099511627775 [1, 2]) 2 1099511627775 [1, 2] (by decide) (by decide)
    (by decide) (by decide) (by decide) (by decide) (.inl (by decide))).1.mpr (.inl (by decide))

/-- Two bytes, of which the second would be past the last offset: the write succeeds, and nothing
is stored. -/
theorem refuses_false : reply calm oneFile (.writeFh 0 18446744073709551615 [1, 2]) =
    .ok (.written 2) ∧
    reply calm (step calm oneFile (.writeFh 0 18446744073709551615 [1, 2])) (.read 2 0 65536) =
      .ok (.data []) ∧
    ¬Refuses calm oneFile (.writeFh 0 18446744073709551615 [1, 2]) 2
      18446744073709551615 [1, 2] := by
  have hreply : reply calm oneFile (.writeFh 0 18446744073709551615 [1, 2]) = .ok (.written 2) := by
    decide
  refine ⟨hreply, by decide, fun h => ?_⟩
  have hrefused := (h.refused (by decide)).1
  cases hreply.symm.trans hrefused

end Dbfs

end VibeDbfs
