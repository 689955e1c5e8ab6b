import VibeDbfs.Fuse.Failures

/-!
Eviction: where a write needs a chunk, at most one flush makes room for it.
-/

set_option autoImplicit false
set_option relaxedAutoImplicit false

namespace VibeDbfs

open Lib Lib.Bytes Shared

namespace Fs

section Reaching

variable {env : Env} {s s' : Shared} {busy : Nat → Prop} {slot : Slot} {ino c offset : Nat}
  {data : Bytes}

/-- The state in which the loop of `write_slot` starts. -/
def stamped (env : Env) (s : Shared) (slot : Slot) : Shared :=
  { s with
    tick := s.tick + 1
    table := s.table.updateSlot slot fun o =>
      { o with mtime := .fromSystemTime (env.clock s.tick) } }

/-- `write_slot`, started in `s`, comes to the turn of chunk `c` in state `s'`. -/
structure Reaches (env : Env) (s : Shared) (slot : Slot) (offset : Nat) (data : Bytes) (c : Nat)
    (s' : Shared) : Prop where
  regular : (s.table.inodes.get slot).kind.regularFileError = none
  running : s.table.closing = false
  turn : ∃ span, ChunkSpan.new offset data.length = some span ∧ span.stop ≤ maxFileSize ∧
    Prog.Arrives (writeChunk env slot (s.table.inodes.get slot).ino span data) span.chunks
      (stamped env s slot) c s'

private theorem writeSlot_eq {span : ChunkSpan}
    (hregular : (s.table.inodes.get slot).kind.regularFileError = none)
    (hrunning : s.table.closing = false) (hspan : ChunkSpan.new offset data.length = some span)
    (hstop : span.stop ≤ maxFileSize) :
    writeSlot env slot offset data s = (Prog.each (writeChunk env slot
      (s.table.inodes.get slot).ino span data) span.chunks >>= fun _ =>
        pure (data.length % 4294967296)) (stamped env s slot) := by
  have hchecked : errnoOfKind (s.table.inodes.get slot).kind s = (.ok (), s) := by
    rw [errnoOfKind, hregular]
    exact rfl
  have hopen : ¬s.table.closing = true := by
    rw [hrunning]
    exact Bool.false_ne_true
  have hsmall : ¬span.stop > maxFileSize := Nat.not_lt.mpr hstop
  rw [writeSlot, Prog.bind_ok (show table s = (.ok s.table, s) from rfl)]
  refine (Prog.bind_ok hchecked).trans ?_
  rw [if_neg hopen, hspan]
  refine (congrFun (if_neg hsmall) s).trans ?_
  exact rfl

theorem Reaches.writeSlot_eq (h : Reaches env s slot offset data c s') :
    ∃ span rest, ChunkSpan.new offset data.length = some span ∧
      writeSlot env slot offset data s = (Prog.each (writeChunk env slot
        (s.table.inodes.get slot).ino span data) (c :: rest) >>= fun _ =>
          pure (data.length % 4294967296)) s' := by
  obtain ⟨span, hspan, hstop, harrives⟩ := h.turn
  obtain ⟨rest, heq⟩ := harrives.each_eq
  refine ⟨span, rest, hspan, ?_⟩
  rw [Fs.writeSlot_eq h.regular h.running hspan hstop]
  exact Prog.bind_congr heq _

private theorem Reaches.inv (hfit : offset + data.length < u64Size) (h : s.Inv [] busy)
    (hf : s.table.inodes.find ino = some slot) (hturn : Reaches env s slot offset data c s') :
    s'.Inv [] busy ∧ s'.table.inodes.find ino = some slot := by
  obtain ⟨span, hspan, hstop, harrives⟩ := hturn.turn
  rcases Nat.eq_zero_or_pos data.length with hzero | hpos
  · rw [hzero, ChunkSpan.new_zero] at hspan
    cases hspan
  rw [ChunkSpan.new_eq hpos hfit] at hspan
  obtain rfl := Option.some.inj hspan
  have hkind : s.db.kindOf ino = some .regularFile := by
    rw [h.kindOf (OpenTable.file_of_find hf)]
    exact congrArg some (FileKind.regularFileError_eq_none.mp hturn.regular)
  obtain ⟨hinv, hquiet⟩ := touch_core h hf (s.tick + 1) (.fromSystemTime (env.clock s.tick))
  rw [h.table.find_ino hf] at harrives
  have hend := harrives.induction (I := fun s₁ => s₁.Inv [] busy ∧
      s₁.table.inodes.find ino = some slot ∧ s₁.db.kindOf ino = some .regularFile)
    (fun d hd s₁ s₂ hs₁ hrun => ?_) ⟨hinv, hf, hquiet.kind.trans hkind⟩
  · exact ⟨hend.1, hend.2.1⟩
  · obtain ⟨hinv₁, hf₁, hkind₁⟩ := hs₁
    obtain ⟨hinv₂, hframe, hf₂, -⟩ :=
      Prog.wp_of_run (writeChunk_spec hpos hstop hd hinv₁ hf₁ hkind₁) hrun
    exact ⟨hinv₂, hf₂, hframe.kind.trans hkind₁⟩

end Reaching

section Room

variable {env : Env} {s s' s₁ : Shared} {busy : Nat → Prop} {slot victim : Slot} {ino c : Nat}

/-- The table after `victim` was flushed to make room for `slot`. -/
def evicted (slot victim : Slot) (t : OpenTable) : OpenTable :=
  if victim = slot then t else t.freeIfIdle victim

/-- The flush of `victim` ends the search: its error is the result, or the next turn succeeds. -/
def EvictsOnce (env : Env) (slot victim : Slot) (s : Shared) (fuel : Nat) : Prop :=
  match flushSlot env victim .persist { s with tick := s.tick + 1 } with
  | (.error e, s₁) => allocChunk env slot fuel s = (.error e, s₁)
  | (.ok _, s₁) => ∃ a arena, (evicted slot victim s₁.table).arena.alloc = some (a, arena) ∧
      allocChunk env slot fuel s =
        (.ok a, { s₁ with table := { evicted slot victim s₁.table with arena := arena } })

/-- Chunk `c` can be indexed in `slot`, which still is the slot of `ino`. -/
def Awaits (ino : Nat) (slot : Slot) (c : Nat) (s : Shared) : Prop :=
  s.table.inodes.find ino = some slot ∧
    ∃ position, (s.table.inodes.get slot).dirty.find c = .error position

/-- What `alloc_chunk` and `load_chunk` do where chunk `c` of the file in `slot` is needed. Two
turns of the loop are enough. -/
structure MakesRoom (env : Env) (slot : Slot) (c : Nat) (s : Shared) : Prop where
  ends : ∀ fuel, allocChunk env slot (fuel + 2) s = allocChunk env slot allocFuel s
  takes : ∀ a arena, s.table.arena.alloc = some (a, arena) →
    allocChunk env slot allocFuel s = (.ok a, { s with table := { s.table with arena := arena } })
  evicts : s.table.arena.alloc = none → ∃ victim,
    s.table.inodes.largestDirty (env.order s.tick) = some victim ∧
      EvictsOnce env slot victim s allocFuel
  awaits : ∀ a s₁, allocChunk env slot allocFuel s = (.ok a, s₁) →
    Awaits (s.table.inodes.get slot).ino slot c s₁ ∧
      ∀ s₂, loadChunk env (s.table.inodes.get slot).ino c a s₁ = (.ok (), s₂) →
        Awaits (s.table.inodes.get slot).ino slot c s₂

private theorem allocChunk_some {a : ArenaSlot} {arena : ChunkArena}
    (h : s.table.arena.alloc = some (a, arena)) (fuel : Nat) : allocChunk env slot (fuel + 1) s =
      (.ok a, { s with table := { s.table with arena := arena } }) := by
  rw [allocChunk, Prog.bind_ok (show table s = (.ok s.table, s) from rfl), h]
  exact rfl

private theorem allocChunk_none (h : s.table.arena.alloc = none)
    (hvictim : s.table.inodes.largestDirty (env.order s.tick) = some victim) (fuel : Nat) :
    allocChunk env slot (fuel + 1) s = (flushSlot env victim .persist >>= fun _ =>
      onlyIf (victim ≠ slot) (freeIfIdle victim) >>= fun _ => allocChunk env slot fuel)
        { s with tick := s.tick + 1 } := by
  rw [allocChunk, Prog.bind_ok (show table s = (.ok s.table, s) from rfl), h]
  dsimp only
  rw [Prog.bind_ok (show order env s = (.ok (env.order s.tick), { s with tick := s.tick + 1 })
    from rfl), hvictim]
  exact rfl

private theorem evictsOnce (h : s.table.arena.alloc = none)
    (hvictim : s.table.inodes.largestDirty (env.order s.tick) = some victim)
    (hfrees : Prog.wp (flushSlot env victim .persist)
      (fun r s₁ => r = .ok () → s₁.table.arena.alloc ≠ none) { s with tick := s.tick + 1 })
    (fuel : Nat) : EvictsOnce env slot victim s (fuel + 2) := by
  unfold EvictsOnce
  rw [allocChunk_none h hvictim]
  rcases hflush : flushSlot env victim .persist { s with tick := s.tick + 1 } with ⟨e | ⟨⟩, s₁⟩
  · exact Prog.bind_error hflush
  · have hroom : (evicted slot victim s₁.table).arena.alloc ≠ none := by
      have harena : (evicted slot victim s₁.table).arena = s₁.table.arena := by
        unfold evicted
        split
        · rfl
        · exact alloc_freeIfIdle
      rw [harena]
      exact Prog.wp_of_run hfrees hflush rfl
    obtain ⟨⟨a, arena⟩, halloc⟩ := Option.ne_none_iff_exists'.mp hroom
    refine ⟨a, arena, halloc, ?_⟩
    have hfree : onlyIf (victim ≠ slot) (freeIfIdle victim) s₁ =
        (.ok (), { s₁ with table := evicted slot victim s₁.table }) := by
      rw [onlyIf, evicted]
      by_cases heq : victim = slot
      · rw [if_neg (not_not.mpr heq), if_pos heq]
        exact rfl
      · rw [if_pos heq, if_neg heq]
        exact rfl
    rw [Prog.bind_ok hflush, Prog.bind_ok hfree]
    exact allocChunk_some (s := { s₁ with table := evicted slot victim s₁.table }) halloc fuel

private theorem EvictsOnce.unique {fuel fuel' : Nat} (h : EvictsOnce env slot victim s fuel)
    (h' : EvictsOnce env slot victim s fuel') :
    allocChunk env slot fuel s = allocChunk env slot fuel' s := by
  unfold EvictsOnce at h h'
  rcases hflush : flushSlot env victim .persist { s with tick := s.tick + 1 } with ⟨e | ⟨⟩, s₁⟩
  · rw [hflush] at h h'
    exact h.trans h'.symm
  · rw [hflush] at h h'
    obtain ⟨a, arena, halloc, heq⟩ := h
    obtain ⟨a', arena', halloc', heq'⟩ := h'
    rw [heq, heq']
    cases halloc.symm.trans halloc'
    rfl

private theorem loadChunk_inodes {a : ArenaSlot} : (loadChunk env ino c a s).2.table.inodes =
    s.table.inodes := by
  change Prog.wp (loadChunk env ino c a) (fun _ s' => s'.table.inodes = s.table.inodes) s
  rw [loadChunk, Prog.wp_bind_iff, Prog.wp_attempt]
  refine wp_query (fun _ _ => rfl) (fun error herror => ?_) fun _ _ => rfl
  cases herror

private theorem makesRoom (h : s.Inv [] busy) (hf : s.table.inodes.find ino = some slot)
    {position : Nat} (hneeded : (s.table.inodes.get slot).dirty.find c = .error position) :
    MakesRoom env slot c s := by
  -- a full arena has a victim, and its flush makes room
  have hevicts : s.table.arena.alloc = none → ∃ victim,
      s.table.inodes.largestDirty (env.order s.tick) = some victim ∧
        ∀ fuel, EvictsOnce env slot victim s (fuel + 2) := by
    intro halloc
    obtain ⟨hnone, hsome⟩ := h.table.largestDirty (env.order_perm s.tick)
    rcases hvictim : s.table.inodes.largestDirty (env.order s.tick) with _ | victim
    · obtain ⟨i, o, ho, hdirty⟩ := h.table.dirty_of_full halloc
      exact (hdirty (hnone hvictim i o ho)).elim
    · exact ⟨victim, rfl, evictsOnce halloc hvictim
        (flushSlot_frees (s := { s with tick := s.tick + 1 }) (hsome victim hvictim).2)⟩
  have hawaits : ∀ s₁ held, s₁.table.WF held → s₁.table.inodes.find ino = some slot →
      NotDirty s₁ ino c → Awaits ino slot c s₁ := by
    intro s₁ held hwf hf₁ hclean
    refine ⟨hf₁, ?_⟩
    rcases hfind : (s₁.table.inodes.get slot).dirty.find c with position | position
    · exact ⟨position, rfl⟩
    · have hlookup := Option.map_eq_none_iff.mp (hclean _ (OpenTable.file_of_find hf₁))
      rw [DirtyIdx.lookup_of_find (hwf.sorted slot) hfind] at hlookup
      cases hlookup
  have hclean : NotDirty s ino c := by
    intro o ho
    rw [OpenTable.file_of_find hf] at ho
    exact Option.some.inj ho ▸ Option.map_eq_none_iff.mpr
      (DirtyIdx.lookup_of_find_error (h.table.sorted slot) hneeded)
  refine ⟨fun fuel => ?_, fun a arena halloc => allocChunk_some halloc 2, fun halloc => ?_,
    fun a s₁ hrun => ?_⟩
  · rcases halloc : s.table.arena.alloc with _ | ⟨a, arena⟩
    · obtain ⟨victim, -, honce⟩ := hevicts halloc
      exact (honce fuel).unique (honce 1)
    · rw [allocChunk_some halloc]
      exact (allocChunk_some halloc 2).symm
  · obtain ⟨victim, hvictim, honce⟩ := hevicts halloc
    exact ⟨victim, hvictim, honce 1⟩
  · obtain ⟨hinv₁, -, hf₁, -, -, hdirty₁⟩ := Prog.wp_of_run (allocChunk_spec h hf) hrun
    rw [h.table.find_ino hf]
    have hwaits := hawaits s₁ [a] hinv₁.table hf₁ (hdirty₁ c hclean)
    refine ⟨hwaits, fun s₂ hload => ?_⟩
    have hinodes : s₂.table.inodes = s₁.table.inodes := by
      have hkeeps : (loadChunk env ino c a s₁).2.table.inodes = s₁.table.inodes := loadChunk_inodes
      rw [hload] at hkeeps
      exact hkeeps
    rw [Awaits, hinodes]
    exact hwaits

end Room

end Fs

namespace Dbfs

/-- The call `c` of a run, made in state `s`, is a write that comes to the turn of chunk `chunk` of
the file in `slot`, in state `s'`. -/
def WriteReaches (env : Env) (s : Shared) (slot : Slot) (chunk : Nat) (s' : Shared) : Call → Prop
  | .write ino offset data => data.isEmpty = false ∧ ∃ s₀,
      Fs.slotFor env ino s = (.ok slot, s₀) ∧ Fs.Reaches env s₀ slot offset data chunk s'
  | .writeFh fh offset data =>
      s.table.handles.get fh = some slot ∧ Fs.Reaches env s slot offset data chunk s'
  | _ => False

/-- After any legal run, whatever chunk a write needs, one flush at most makes room for it. -/
theorem makesRoom_of_run {db : Db} (hdb : db.Reached) (writeBuffer : Nat) (env : Env)
    (calls : List Call) (c : Call)
    (hlegal : LegalCalls env (.withWriteBuffer db writeBuffer) (calls ++ [c])) (slot : Slot)
    (chunk position : Nat) (s' : Shared)
    (hreach : WriteReaches env (run env (.withWriteBuffer db writeBuffer) calls) slot chunk s' c)
    (hneeded : (s'.table.inodes.get slot).dirty.find chunk = .error position) :
    Fs.MakesRoom env slot chunk s' := by
  obtain ⟨hcalls, hfits, -⟩ := legalRun_append.mp hlegal
  have hinv : (run env (.withWriteBuffer db writeBuffer) calls).Inv [] fun _ => False :=
    (inv_of_run hdb writeBuffer hcalls).1
  cases c with
  | write ino offset data =>
    obtain ⟨-, s₀, hslot, hturn⟩ := hreach
    obtain ⟨-, -, -, hinv₀, -, hf₀, -⟩ := Prog.wp_of_run (Fs.slotFor_spec hinv) hslot
    obtain ⟨hinv', hf'⟩ := hturn.inv hfits hinv₀ hf₀
    exact Fs.makesRoom hinv' hf' hneeded
  | writeFh fh offset data =>
    obtain ⟨hfh, hturn⟩ := hreach
    obtain ⟨hinv', hf'⟩ := hturn.inv hfits hinv (hinv.table.find_of_handle hfh)
    exact Fs.makesRoom hinv' hf' hneeded
  | _ => exact hreach.elim

/-- The second chunk of a file, when the budget is one chunk: the file being written is evicted. -/
theorem makesRoom_of_oneChunk :
    let s := run calm (.withWriteBuffer (.fresh 0 0 ⟨0, 0⟩) 65536)
      [.createOpen 1 [97] 0o644 0 0 0, .writeFh 0 0 [1]]
    s.table.arena.alloc = none ∧ Fs.MakesRoom calm 0 1 (Fs.stamped calm s 0) := by
  intro s
  have hspan : ∃ span, ChunkSpan.new 65536 1 = some span ∧ span.stop ≤ maxFileSize ∧
      span.chunks = [1] := ⟨⟨65536, 65537, 1, 1⟩, by decide, by decide, by decide⟩
  obtain ⟨span, hnew, hstop, hchunks⟩ := hspan
  refine ⟨by decide, makesRoom_of_run (.fresh 0 0 ⟨0, 0⟩) 65536 calm
    [.createOpen 1 [97] 0o644 0 0 0, .writeFh 0 0 [1]] (.writeFh 0 65536 [2]) (by decide) 0 1 1 _
    ⟨by decide, ?_⟩ (by decide)⟩
  exact ⟨by decide, by decide, span, hnew, hstop, [], [], hchunks, rfl⟩

end Dbfs

end VibeDbfs
