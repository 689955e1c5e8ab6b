import VibeDbfs.Fuse.Resizing

/-!
Buffered writes: each turn of the loop splices one piece into the content, and an eviction between
two turns changes no content.
-/

set_option autoImplicit false
set_option relaxedAutoImplicit false

namespace VibeDbfs

open Lib Lib.Bytes Shared

namespace ChunkSpan

/-- The part of `data` that goes into chunk `c`. -/
def input (span : ChunkSpan) (data : Bytes) (c : Nat) : Bytes :=
  slice (span.piece c).buf.start ((span.piece c).buf.stop - (span.piece c).buf.start) data

/-- The content after the piece of chunk `c` was written. -/
def put (span : ChunkSpan) (data bytes : Bytes) (c : Nat) : Bytes :=
  splice (c * chunkSize + (span.piece c).chunk.start) (span.input data c) bytes

variable {offset c : Nat} {data : Bytes}

theorem piece_spec (hlen : 0 < data.length) (hmax : offset + data.length ≤ maxFileSize)
    (hc : c ∈ (ofRange offset data.length).chunks) :
    let piece := (ofRange offset data.length).piece c
    let input := (ofRange offset data.length).input data c
    c < maxChunks ∧ 0 < input.length ∧ piece.chunk.start + input.length = piece.chunk.stop ∧
      piece.chunk.stop ≤ chunkSize ∧ c * chunkSize + piece.chunk.stop ≤ offset + data.length ∧
      (piece.isFullChunk = true → piece.chunk.start = 0 ∧ input.length = chunkSize) := by
  have h63 : offset + data.length ≤ 2 ^ 63 := by simp only [maxFileSize] at hmax; omega
  have hpiece := piece_ofRange h63 hc hlen
  have hfull := isFullChunk_iff h63 hc hlen
  have hmem := (mem_chunks hlen).mp hc
  intro piece input
  have hinput : input.length = pieceStop offset data.length c - pieceStart offset c := by
    simp only [input, ChunkSpan.input, hpiece, length_slice]
    simp only [pieceStart, pieceStop, chunkSize] at *
    omega
  have hlt := pieceStart_lt_pieceStop hlen hc
  simp only [piece, hpiece, hinput]
  refine ⟨?_, by omega, by omega, pieceStop_le _ _ _, ?_, fun hf => ?_⟩
  · simp only [maxFileSize, maxChunks, chunkSize] at *
    omega
  · simp only [pieceStop, chunkSize] at *
    omega
  · rw [← hpiece] at hf
    obtain ⟨hstart, hstop⟩ := hfull.mp hf
    exact ⟨hstart, by omega⟩

private theorem sub_max_le {len a b : Nat} (h : b < offset + len) :
    b - max offset a ≤ len - (max offset a - offset) := by omega

private theorem foldl_put_from (hlen : 0 < data.length)
    (hmax : offset + data.length ≤ maxFileSize) :
    ∀ n c bytes, c + n = (ofRange offset data.length).last + 1 → 0 < n →
      (ofRange offset data.length).first ≤ c →
      (List.range' c n).foldl ((ofRange offset data.length).put data) bytes =
        splice (max offset (c * chunkSize))
          (data.drop (max offset (c * chunkSize) - offset)) bytes := by
  have h63 : offset + data.length ≤ 2 ^ 63 := by simp only [maxFileSize] at hmax; omega
  -- one piece: what it splices in, and where
  have hput : ∀ c bytes, c ∈ (ofRange offset data.length).chunks →
      (ofRange offset data.length).put data bytes c = splice (max offset (c * chunkSize))
        ((data.drop (max offset (c * chunkSize) - offset)).take
          (pieceStop offset data.length c - pieceStart offset c)) bytes := by
    intro c bytes hc
    have hmem := (mem_chunks hlen).mp hc
    rw [put, input, piece_ofRange h63 hc hlen, slice]
    dsimp only
    have hstart : c * chunkSize + pieceStart offset c = max offset (c * chunkSize) := by
      simp only [pieceStart]
      omega
    have hlt := pieceStart_lt_pieceStop hlen hc
    rw [hstart]
    congr 2
    omega
  intro n
  induction n with
  | zero => exact fun _ _ _ hn => absurd hn (Nat.lt_irrefl 0)
  | succ n ih =>
    intro c bytes hcn _ hfirst
    have hc : c ∈ (ofRange offset data.length).chunks := by
      rw [chunks, List.mem_range'_1]
      omega
    have hmem := (mem_chunks hlen).mp hc
    rw [List.range'_succ, List.foldl_cons, hput c bytes hc]
    rcases Nat.eq_zero_or_pos n with rfl | hn
    · rw [List.range'_zero, List.foldl_nil, List.take_of_length_le]
      have hlast : c = (offset + data.length - 1) / chunkSize := by
        change c + 1 = (offset + data.length - 1) / chunkSize + 1 at hcn
        omega
      rw [List.length_drop]
      simp only [pieceStart, pieceStop, chunkSize] at *
      omega
    · rw [ih (c + 1) _ (by omega) hn (by omega)]
      have hnext : (c + 1) * chunkSize < offset + data.length := by
        have hle : c + 1 ≤ (offset + data.length - 1) / chunkSize := by
          change c + (n + 1) = (offset + data.length - 1) / chunkSize + 1 at hcn
          omega
        simp only [chunkSize] at *
        omega
      have hstop : pieceStop offset data.length c = chunkSize := by
        simp only [pieceStop, chunkSize] at *
        omega
      have hafter : max offset ((c + 1) * chunkSize) = (c + 1) * chunkSize := by
        simp only [chunkSize] at *
        omega
      have hcount : pieceStop offset data.length c - pieceStart offset c =
          (c + 1) * chunkSize - max offset (c * chunkSize) := by
        rw [hstop]
        simp only [pieceStart, chunkSize] at *
        omega
      have htake : (data.drop (max offset (c * chunkSize) - offset)).take
          ((c + 1) * chunkSize - max offset (c * chunkSize)) ++
            data.drop ((c + 1) * chunkSize - offset) =
            data.drop (max offset (c * chunkSize) - offset) := by
        have hsplit : (c + 1) * chunkSize - offset = max offset (c * chunkSize) - offset +
            ((c + 1) * chunkSize - max offset (c * chunkSize)) := by
          simp only [chunkSize] at *
          omega
        rw [hsplit, ← List.drop_drop, List.take_append_drop]
      have hlength : ((data.drop (max offset (c * chunkSize) - offset)).take
          ((c + 1) * chunkSize - max offset (c * chunkSize))).length =
            (c + 1) * chunkSize - max offset (c * chunkSize) := by
        rw [List.length_take, List.length_drop]
        exact Nat.min_eq_left (sub_max_le hnext)
      rw [hafter, hcount]
      conv_rhs => rw [← htake, splice_append, hlength]
      congr 1
      simp only [chunkSize] at *
      omega

private theorem foldl_put (hlen : 0 < data.length) (hmax : offset + data.length ≤ maxFileSize)
    (bytes : Bytes) : (ofRange offset data.length).chunks.foldl
      ((ofRange offset data.length).put data) bytes = splice offset data bytes := by
  have hle : offset / chunkSize ≤ (offset + data.length - 1) / chunkSize :=
    Nat.div_le_div_right (by omega)
  have hcount : (ofRange offset data.length).first + ((ofRange offset data.length).last + 1 -
      (ofRange offset data.length).first) = (ofRange offset data.length).last + 1 := by
    change offset / chunkSize + ((offset + data.length - 1) / chunkSize + 1 - offset / chunkSize) =
      (offset + data.length - 1) / chunkSize + 1
    omega
  have hpos : 0 < (ofRange offset data.length).last + 1 - (ofRange offset data.length).first :=
    Nat.sub_pos_of_lt (Nat.lt_succ_of_le hle)
  have hstart : max offset (offset / chunkSize * chunkSize) = offset :=
    Nat.max_eq_left (Nat.div_mul_le_self offset chunkSize)
  refine (foldl_put_from hlen hmax _ _ bytes hcount hpos (Nat.le_refl _)).trans ?_
  change splice (max offset (offset / chunkSize * chunkSize))
    (data.drop (max offset (offset / chunkSize * chunkSize) - offset)) bytes = _
  rw [hstart, Nat.sub_self, List.drop_zero]

end ChunkSpan

section Arena

variable {s s' : Shared} {env : Env} {busy : Nat → Prop} {ino c : Nat} {slot : Slot} {a : ArenaSlot}

namespace Fs

private theorem arena_core {held held' : List ArenaSlot} (h : s.Inv held busy) {arena : ChunkArena}
    (hwf : OpenTable.WF held' { s.table with arena := arena })
    (hfile : ∀ j, { s.table with arena := arena }.file j = s.table.file j)
    (hmax : arena.maxSlots = s.table.arena.maxSlots) :
    let s' := { s with table := { s.table with arena := arena } }
    s'.Inv held' busy ∧ Quiet s s' ∧ ∀ j, s'.file j = s.file j := by
  intro s'
  have hfiles : ∀ j, s'.file j = s.file j := fun j => by
    rw [Shared.file, show s'.table.file j = s.table.file j from hfile j]
    rfl
  refine ⟨h.of_table (h.toCore.of_table rfl rfl hwf (fun j o ho => ?_) fun j o ho => ?_) rfl rfl,
    ⟨rfl, rfl, fun j _ => by rw [hfiles], fun j _ => ?_, fun j => by rw [hfiles],
      fun j => by rw [hfiles], fun _ => rfl, rfl, hmax⟩, hfiles⟩
  · exact h.live j o ((hfile j).symm.trans ho)
  · exact h.directory j o ((hfile j).symm.trans ho)
  · rw [hfiles]
    exact fun hc => hc

theorem flushSlot_frees (hdirty : ¬(s.table.fileAt slot).Clean) :
    Prog.wp (flushSlot env slot .persist) (fun r s' =>
      r = .ok () → s'.table.arena.alloc ≠ none) s := by
  have hentries : (s.table.inodes.get slot).dirty.isEmpty = false :=
    Bool.eq_false_iff.mpr fun hempty => hdirty (OpenTable.clean_iff.mpr hempty)
  rw [flushSlot, wp_table_bind]
  dsimp only
  rw [hentries, if_neg (by simp), Prog.wp_bind_iff]
  refine wp_exec (fun _ _ hok => ?_) (fun _ _ hok => ?_) fun db _ => ?_
  · cases hok
  · cases hok
  dsimp only
  rw [wp_updateTable_bind, wp_record]
  intro _ hnone
  have hfree := (ChunkArena.alloc_eq_none.mp hnone).1
  change (s.table.releaseDirty slot).arena.free = [] at hfree
  unfold OpenTable.releaseDirty at hfree
  rw [DirtyIdx.releaseInto_eq] at hfree
  have hslots := List.reverse_eq_nil_iff.mp (List.append_eq_nil_iff.mp hfree).1
  rw [DirtyIdx.slots, List.map_eq_nil_iff] at hslots
  rw [DirtyIdx.isEmpty, hslots] at hentries
  cases hentries

theorem alloc_freeIfIdle {t : OpenTable} : (t.freeIfIdle slot).arena = t.arena := by
  unfold OpenTable.freeIfIdle
  dsimp only
  split <;> rfl

/-- Chunk `c` of `ino` is not dirty. -/
def NotDirty (s : Shared) (ino c : Nat) : Prop := ∀ o, s.table.file ino = some o → o.dirty c = none

/-- What an allocation leaves: an empty arena slot for the caller, or a failed flush. -/
def Allocated (env : Env) (s : Shared) (ino : Nat) (busy : Nat → Prop) (slot : Slot) :
    Except Errno ArenaSlot → Shared → Prop
  | .ok a, s' => s'.Inv [a] busy ∧ Quiet s s' ∧ s'.table.inodes.find ino = some slot ∧
      s'.failures = s.failures ∧ s'.table.arena.chunk a = [] ∧
      ∀ c, NotDirty s ino c → NotDirty s' ino c
  | .error _, s' => s'.Inv [] busy ∧ Quiet s s' ∧ s'.table.inodes.find ino = some slot ∧
      env.Failed s s'

private theorem allocChunk_of_some (fuel : Nat) (h : s.Inv [] busy)
    (hf : s.table.inodes.find ino = some slot) (halloc : s.table.arena.alloc ≠ none) :
    Prog.wp (allocChunk env slot (fuel + 1)) (Allocated env s ino busy slot) s := by
  obtain ⟨⟨a, arena⟩, halloc⟩ := Option.ne_none_iff_exists'.mp halloc
  rw [allocChunk, wp_table_bind, halloc]
  dsimp only
  obtain ⟨hwf, hchunk, hfile⟩ := h.table.allocChunk halloc
  obtain ⟨hinv, hquiet, -⟩ := arena_core h hwf hfile (ChunkArena.alloc_maxSlots halloc)
  exact ⟨hinv, hquiet, hf, rfl, hchunk, fun c hc o ho => hc o ((hfile ino).symm.trans ho)⟩

private theorem Allocated.of_quiet {s₁ : Shared} (hquiet : Quiet s s₁)
    (hfailures : s₁.failures = s.failures)
    (hdirty : ∀ c, NotDirty s ino c → NotDirty s₁ ino c) {r : Except Errno ArenaSlot}
      (h : Allocated env s₁ ino busy slot r s') :
    Allocated env s ino busy slot r s' := by
  rcases r with e | a
  · obtain ⟨hinv, hquiet', hf, hfailed⟩ := h
    exact ⟨hinv, hquiet.trans hquiet', hf, hfailures ▸ hfailed.1, hfailed.2⟩
  · obtain ⟨hinv, hquiet', hf, hfailures', hchunk, hdirty'⟩ := h
    exact ⟨hinv, hquiet.trans hquiet', hf, hfailures'.trans hfailures, hchunk,
      fun c hc => hdirty' c (hdirty c hc)⟩

theorem allocChunk_spec (h : s.Inv [] busy) (hf : s.table.inodes.find ino = some slot) :
    Prog.wp (allocChunk env slot allocFuel) (Allocated env s ino busy slot) s := by
  by_cases halloc : s.table.arena.alloc = none
  · rw [allocFuel, allocChunk, wp_table_bind, halloc]
    dsimp only
    rw [wp_order_bind]
    obtain ⟨hnone, hsome⟩ := h.table.largestDirty (env.order_perm s.tick)
    rcases hvictim : s.table.inodes.largestDirty (env.order s.tick) with _ | victim
    · obtain ⟨i, o, ho, hdirty⟩ := h.table.dirty_of_full halloc
      exact (hdirty (hnone hvictim i o ho)).elim
    · obtain ⟨hfv, hdirty⟩ := hsome victim hvictim
      have hinv : Shared.Inv [] busy { s with tick := s.tick + 1 } := h.of_eq rfl rfl rfl
      rw [orErrno, Prog.wp_pure_bind]
      refine Prog.wp_bind (Prog.wp_and (flushSlot_spec .persist hinv hfv)
        (flushSlot_frees (s := { s with tick := s.tick + 1 }) hdirty)) (fun ⟨⟩ s₁ hs₁ => ?_)
        fun e s₁ hs₁ => ?_
      · obtain ⟨⟨hinv₁, hquiet₁, hfind₁, hother₁, hfailures₁, hclean₁⟩, hfrees⟩ := hs₁
        have hquiet : Quiet s s₁ := hquiet₁.after_eq rfl rfl
        have hdirty₁ : ∀ c, NotDirty s ino c → NotDirty s₁ ino c := fun c hc o ho => by
          by_cases heq : ino = (s.table.inodes.get victim).ino
          · rw [← heq] at hclean₁
            exact hclean₁.resolve_right (fun hskip => nomatch hskip.2) o ho c
          · exact hc o ((congrArg File.live (hother₁ ino heq)).symm.trans ho)
        have hf₁ : s₁.table.inodes.find ino = some slot := (hfind₁ ino).trans hf
        rw [onlyIf]
        split
        · next hne =>
          -- the victim is another file, whose slot may go
          rw [Prog.wp_bind_iff]
          have hfv₁ := (hfind₁ _).trans hfv
          refine Prog.wp_mono (Prog.wp_and (freeIfIdle_spec hinv₁ hfv₁)
            (show Prog.wp (freeIfIdle victim) (fun _ s' => s'.table.arena = s₁.table.arena) s₁ from
              alloc_freeIfIdle)) ?_
          rintro r s₂ ⟨⟨rfl, hfailures₂, hinv₂, hquiet₂, hfind₂, hother₂⟩, harena⟩
          have hino : ino ≠ (s.table.inodes.get victim).ino := fun heq =>
            hne (Option.some.inj (hfv.symm.trans (heq ▸ hf)))
          have hf₂ : s₂.table.inodes.find ino = some slot := (hfind₂ ino hino).trans hf₁
          refine Prog.wp_mono (allocChunk_of_some 1 hinv₂ hf₂ (harena ▸ hfrees rfl)) ?_
          exact fun r s' hr => hr.of_quiet (hquiet.trans hquiet₂) (hfailures₂.trans hfailures₁)
            fun c hc o ho => hdirty₁ c hc o ((congrArg File.live (hother₂ ino hino)).symm.trans ho)
        · rw [Prog.wp_pure_bind]
          refine Prog.wp_mono (allocChunk_of_some 1 hinv₁ hf₁ (hfrees rfl)) ?_
          exact fun r s' hr => hr.of_quiet hquiet hfailures₁ hdirty₁
      · obtain ⟨⟨hinv₁, hquiet₁, hfind₁, -, hfailed, hunhealthy, -⟩, -⟩ := hs₁
        exact ⟨hinv₁, hquiet₁.after_eq rfl rfl, (hfind₁ ino).trans hf, hfailed, hunhealthy⟩
  · exact allocChunk_of_some 2 h hf halloc

private theorem loadChunk_spec (h : s.Inv [a] busy) (hkind : s.db.kindOf ino = some .regularFile)
    (hc : c < maxChunks) :
    Prog.wp (loadChunk env ino c a) (fun r s' => Quiet s s' ∧ (∀ j, s'.file j = s.file j) ∧
      s'.table.inodes = s.table.inodes ∧
      match r with
      | .ok _ => s'.Inv [a] busy ∧ s'.failures = s.failures ∧
          s'.table.arena.chunk a = (s.db.file ino).chunk c
      | .error _ => s'.Inv [] busy ∧ env.Failed s s') s := by
  have hino := h.sound.keys.le_maxIno hkind
  have hlen := h.sound.owned.chunk_length h.sound.keys hino hc
  have hstored : s.db.readChunkInto ino c = (s.db.file ino).chunk c := by
    rw [Db.chunk_file hkind hc, Db.readChunkInto]
    exact List.take_of_length_le hlen
  rw [loadChunk, Prog.wp_bind_iff, Prog.wp_attempt]
  refine wp_query (fun failure hfault => ?_) (fun error herror => nomatch herror) fun data hdata =>
    ?_
  · dsimp only
    rw [wp_updateTable_bind, Prog.wp_throw]
    obtain ⟨hinv, hquiet, hfile⟩ := arena_core (s := { s with
      tick := s.tick + 1, failures := s.failures + 1 }) (h.of_eq rfl rfl rfl) h.table.releaseHeld
      (fun j => OpenTable.file_congr rfl (fun _ _ => rfl) fun _ _ _ _ => rfl) rfl
    exact ⟨hquiet.after_eq rfl rfl, hfile, rfl, hinv, Nat.lt_succ_self _, env.not_healthy hfault⟩
  · obtain rfl := Except.ok.inj hdata
    dsimp only
    rw [wp_updateTable]
    have hdata : (s.db.readChunkInto ino c).length ≤ chunkSize := by
      rw [hstored, Db.chunk_file hkind hc]
      exact hlen
    obtain ⟨hwf, hchunk, hfile⟩ := h.table.fillHeld hdata
    obtain ⟨hinv, hquiet, hfiles⟩ := arena_core (s := { s with tick := s.tick + 1 })
      (h.of_eq rfl rfl rfl) hwf hfile rfl
    exact ⟨hquiet.after_eq rfl rfl, hfiles, rfl, hinv, rfl, hchunk.trans hstored⟩

end Fs

end Arena

section Turn

variable {s s' : Shared} {env : Env} {busy : Nat → Prop} {ino c : Nat} {slot : Slot}
  {span : ChunkSpan} {data : Bytes}

namespace Fs

/-- What indexing chunk `c` leaves: the file as it was, but with `c` among its dirty chunks. A chunk
that is to be overwritten as a whole was not loaded. -/
def Indexed (env : Env) (s : Shared) (ino : Nat) (busy : Nat → Prop) (slot : Slot) (c : Nat)
    (full : Prop) : Except Errno ArenaSlot → Shared → Prop
  | .ok a, s' => ∃ held s₁ o, Shared.Inv held busy s₁ ∧ Quiet s s₁ ∧ s'.db = s₁.db ∧
      s'.moments = s₁.moments ∧ s'.failures = s.failures ∧ s'.table.WF [] ∧
      s'.table.inodes.find ino = some slot ∧
      (s'.table.inodes.get slot).dirty.lookup c = some a ∧ s₁.table.file ino = some o ∧
      (∀ j, s'.table.file j =
        if j = ino then some (o.withChunk c (s'.table.arena.chunk a)) else s₁.table.file j) ∧
      (∀ fh, s'.table.handleIno fh = s₁.table.handleIno fh) ∧
      s'.table.closing = s₁.table.closing ∧
      s'.table.arena.maxSlots = s₁.table.arena.maxSlots ∧
      (s'.table.arena.chunk a = (⟨s₁.db.file ino, some o⟩ : File).chunk c ∨
        s'.table.arena.chunk a = [] ∧ full)
  | .error _, s' => s'.Inv [] busy ∧ Quiet s s' ∧ s'.table.inodes.find ino = some slot ∧
      env.Failed s s'

/-- The last step of indexing: the held arena slot, loaded unless it need not be. -/
private theorem index_spec {s₁ : Shared} {a : ArenaSlot} {full : Prop} (h : s₁.Inv [a] busy)
    (hquiet : Quiet s s₁) (hfailures : s₁.failures = s.failures)
    (hf : s₁.table.inodes.find ino = some slot)
    (hnone : NotDirty s₁ ino c)
    (hbase : s₁.table.arena.chunk a = (s₁.db.file ino).chunk c ∨
      s₁.table.arena.chunk a = [] ∧ full) :
    Indexed env s ino busy slot c full (.ok a)
      { s₁ with table := s₁.table.updateSlot slot fun o =>
          { o with dirty := o.dirty.insert (unwrapErr (o.dirty.find c)) c a } } := by
  have hclean : (s₁.table.fileAt slot).dirty c = none := hnone _ (OpenTable.file_of_find hf)
  have hlookup : (s₁.table.inodes.get slot).dirty.lookup c = none :=
    Option.map_eq_none_iff.mp hclean
  obtain ⟨position, hposition⟩ : ∃ position,
      (s₁.table.inodes.get slot).dirty.find c = .error position := by
    rcases hfind : (s₁.table.inodes.get slot).dirty.find c with position | position
    · exact ⟨position, rfl⟩
    · rw [DirtyIdx.lookup_of_find (h.table.sorted slot) hfind] at hlookup
      cases hlookup
  obtain ⟨hwf, hhandles, hlookup', hfiles⟩ := h.table.indexChunk
    (f := fun o => { o with dirty := o.dirty.insert (unwrapErr (o.dirty.find c)) c a }) hf hposition
    (by rw [hposition]; rfl)
  refine ⟨[a], s₁, s₁.table.fileAt slot, h, hquiet, rfl, rfl, hfailures, hwf, hf, hlookup',
    OpenTable.file_of_find hf, hfiles, hhandles, rfl, rfl, ?_⟩
  refine hbase.imp_left fun hloaded => hloaded.trans ?_
  rw [File.chunk, Option.bind_some, hclean]
  rfl

theorem chunkSlot_spec (piece : ChunkPiece) (h : s.Inv [] busy)
    (hf : s.table.inodes.find ino = some slot) (hkind : s.db.kindOf ino = some .regularFile)
    (hc : c < maxChunks) :
    Prog.wp (chunkSlot env slot ino c piece)
      (Indexed env s ino busy slot c (piece.isFullChunk = true)) s := by
  have hsorted := h.table.sorted slot
  rw [chunkSlot, wp_table_bind]
  rcases hfind : (s.table.inodes.get slot).dirty.find c with position | position
  · dsimp only
    have hlookup : (s.table.inodes.get slot).dirty.lookup c = none :=
      DirtyIdx.lookup_of_find_error hsorted hfind
    have hclean : NotDirty s ino c := fun o ho => by
      rw [OpenTable.file_of_find hf] at ho
      exact Option.some.inj ho ▸ Option.map_eq_none_iff.mpr hlookup
    refine Prog.wp_bind (allocChunk_spec h hf) (fun a s₁ hs₁ => ?_) fun e s₁ hs₁ => hs₁
    obtain ⟨hinv₁, hquiet₁, hf₁, hfailures₁, hempty, hdirty₁⟩ := hs₁
    have hkind₁ : s₁.db.kindOf ino = some .regularFile := hquiet₁.kind.trans hkind
    rw [onlyIf]
    split
    · refine Prog.wp_bind (loadChunk_spec hinv₁ hkind₁ hc) (fun ⟨⟩ s₂ hs₂ => ?_) fun e s₂ hs₂ => ?_
      · obtain ⟨hquiet₂, hfile₂, hinodes₂, hinv₂, hfailures₂, hchunk₂⟩ := hs₂
        rw [wp_updateTable_bind, Prog.wp_pure]
        refine index_spec hinv₂ (hquiet₁.trans hquiet₂) (hfailures₂.trans hfailures₁)
          (hinodes₂ ▸ hf₁) (fun o ho => ?_) (.inl ?_)
        · exact hdirty₁ c hclean o ((congrArg File.live (hfile₂ ino)).symm.trans ho)
        · exact hchunk₂.trans (congrArg (fun f => f.stored.chunk c) (hfile₂ ino)).symm
      · obtain ⟨hquiet₂, -, hinodes₂, hinv₂, hfailed⟩ := hs₂
        exact ⟨hinv₂, hquiet₁.trans hquiet₂, hinodes₂ ▸ hf₁, hfailures₁ ▸ hfailed.1, hfailed.2⟩
    · next hfull =>
      rw [Prog.wp_pure_bind, wp_updateTable_bind, Prog.wp_pure]
      exact index_spec hinv₁ hquiet₁ hfailures₁ hf₁ (hdirty₁ c hclean)
        (.inr ⟨hempty, not_not.mp hfull⟩)
  · dsimp only
    have hlookup := DirtyIdx.lookup_of_find hsorted hfind
    have hdirty : (s.table.fileAt slot).dirty c = some (s.table.arena.chunk
        ((s.table.inodes.get slot).dirty.slotAt position)) := by
      change Option.map _ _ = _
      rw [hlookup]
      rfl
    rw [Prog.wp_pure]
    refine ⟨[], s, s.table.fileAt slot, h, Frame.refl s, rfl, rfl, rfl, h.table, hf, hlookup,
      OpenTable.file_of_find hf, fun j => ?_, fun _ => rfl, rfl, rfl, .inl ?_⟩
    · split
      · next heq =>
        rw [heq, OpenTable.file_of_find hf, OpenFile.withChunk]
        congr 1
        have hsame : (fun d => if d = c then some (s.table.arena.chunk
            ((s.table.inodes.get slot).dirty.slotAt position)) else (s.table.fileAt slot).dirty d) =
              (s.table.fileAt slot).dirty := by
          funext d
          split
          · next hd => rw [hd, hdirty]
          · rfl
        rw [hsame]
      · rfl
    · rw [File.chunk, Option.bind_some, hdirty]
      rfl

private theorem indexed_write {s₂ : Shared} {a : ArenaSlot} {range : Range}
    {input : Bytes} {full : Prop} (h : Indexed env s ino busy slot c full (.ok a) s₂)
    (hkind : s.db.kindOf ino = some .regularFile) (hc : c < maxChunks) (hinput : 0 < input.length)
    (hrange : range.start + input.length = range.stop) (hstop : range.stop ≤ chunkSize)
    (hmax : c * chunkSize + range.stop ≤ maxFileSize)
    (hfull : full → range.start = 0 ∧ input.length = chunkSize) {t : OpenTable}
    (ht : t = { s₂.table with arena := s₂.table.arena.write a range input }) :
    let s' := { s₂ with table := t.updateSlot slot fun o =>
      { o with size := max o.size (u64Add (u64Mul c chunkSize) range.stop) } }
    s'.Inv [] busy ∧ Frame (fun i => i = ino) s s' ∧ s'.table.inodes.find ino = some slot ∧
      (s'.file ino).bytes = splice (c * chunkSize + range.start) input (s.file ino).bytes := by
  intro s'
  obtain ⟨held, s₁, o, hinv, hquiet, hdb, hmoments, -, hwf, hf, hlookup, hlive, hfiles, hhandles,
    hclosing, hslots, hbase⟩ := h
  obtain ⟨hwf', hfiles'⟩ := hwf.writeChunk hf hlookup hrange hstop
  rw [← ht] at hwf'
  simp only [← ht] at hfiles'
  have hf' : t.inodes.find ino = some slot := by rw [ht]; exact hf
  have hclosing' : t.closing = s₁.table.closing := by rw [ht]; exact hclosing
  have hslots' : t.arena.maxSlots = s₁.table.arena.maxSlots := by rw [ht]; exact hslots
  have hhandles' : ∀ fh, t.handleIno fh = s₁.table.handleIno fh := fun fh => by
    rw [ht]
    exact hhandles fh
  have hend : u64Add (u64Mul c chunkSize) range.stop = c * chunkSize + range.stop := by
    have hmul : u64Mul c chunkSize = c * chunkSize :=
      u64Mul_of_lt (by simp only [chunkSize, u64Size, maxFileSize] at *; omega)
    rw [hmul]
    exact u64Add_of_lt (by simp only [chunkSize, u64Size, maxFileSize] at *; omega)
  -- the open file before and after
  have hfileAt : s₂.table.fileAt slot = o.withChunk c (s₂.table.arena.chunk a) :=
    Option.some.inj ((OpenTable.file_of_find hf).symm.trans ((hfiles ino).trans (if_pos rfl)))
  have hsplice : t.fileAt slot =
      o.withChunk c (splice range.start input (s₂.table.arena.chunk a)) := by
    have hpick := (hfiles' ino).trans (if_pos rfl)
    rw [OpenTable.file_of_find hf'] at hpick
    rw [Option.some.inj hpick, hfileAt, OpenFile.withChunk, OpenFile.withChunk]
    congr 1
    funext d
    split
    · rfl
    · next hd => exact if_neg hd
  have hlast : ∀ j, s'.table.file j = if j = ino then
      some { o.withChunk c (splice range.start input (s₂.table.arena.chunk a)) with
        size := max o.size (c * chunkSize + (range.start + input.length)) }
      else s₁.table.file j := fun j => by
    refine (hwf'.file_updateSlot hf' j).trans ?_
    split
    · have hsize : o.size = (t.fileAt slot).size := by rw [hsplice]; rfl
      rw [hrange, ← hend, ← hsplice, hsize]
      rfl
    · next hne => rw [hfiles', if_neg hne, hfiles, if_neg hne]
  have hregular : o.kind = .regularFile := by
    have hkind₁ := hinv.kindOf hlive
    rw [hquiet.kind, hkind] at hkind₁
    exact (Option.some.inj hkind₁).symm
  have hbefore : s₁.file ino = ⟨s₁.db.file ino, some o⟩ := by rw [Shared.file, hlive]
  obtain ⟨hagrees, hbytes⟩ := File.write_spec (hinv.sound.file_ok ino) (hinv.live ino o hlive)
    hregular hc hinput (hrange.trans_le hstop) (hrange.symm ▸ hmax) (hbase.imp_right fun hempty =>
      ⟨hempty.1, hfull hempty.2⟩)
  have hwf'' : s'.table.WF [] := hwf'.updateSlot hf' (fun _ => rfl) (fun _ => rfl) fun _ => rfl
  have hself : s'.file ino = ⟨s₁.db.file ino,
      some { o.withChunk c (splice range.start input (s₂.table.arena.chunk a)) with
        size := max o.size (c * chunkSize + (range.start + input.length)) }⟩ := by
    rw [Shared.file, hlast, if_pos rfl, show s'.db = s₁.db from hdb]
  have hother : ∀ j, j ≠ ino → s'.file j = s₁.file j := fun j hj => by
    rw [Shared.file, hlast, if_neg hj, show s'.db = s₁.db from hdb]
    rfl
  refine ⟨hinv.of_table (hinv.toCore.of_table hdb hmoments hwf'' (fun j p hp => ?_)
      fun j p hp hd => ?_) hdb hmoments, hquiet.frame.trans ?_, hf', ?_⟩
  · rw [hlast] at hp
    split at hp
    · next heq =>
      cases hp
      exact heq ▸ hagrees
    · exact hinv.live j p hp
  · rw [hlast] at hp
    split at hp
    · next heq =>
      cases hp
      exact heq ▸ hinv.directory ino o hlive hd
    · exact hinv.directory j p hp hd
  · refine Frame.of_file (congrArg Db.names hdb) (congrArg Db.symlinkTargets hdb) hother
      (fun hne => (hne rfl).elim) ?_ ?_ (fun fh => ?_) hclosing' hslots'
    · rw [hself, hbefore]
      rfl
    · rw [hself, hbefore]
      rfl
    · exact (hwf'.handleIno_updateSlot (f := fun o => { o with
        size := max o.size (u64Add (u64Mul c chunkSize) range.stop) }) hf' (fun _ => rfl) fh).trans
          (hhandles' fh)
  · rw [hself, hbytes, ← hbefore, hquiet.bytes ino not_false]

theorem writeChunk_spec {offset : Nat} (hlen : 0 < data.length)
    (hmax : offset + data.length ≤ maxFileSize)
    (hc : c ∈ (ChunkSpan.ofRange offset data.length).chunks) (h : s.Inv [] busy)
    (hf : s.table.inodes.find ino = some slot) (hkind : s.db.kindOf ino = some .regularFile) :
    Prog.wp (writeChunk env slot ino (ChunkSpan.ofRange offset data.length) data c) (fun r s' =>
      s'.Inv [] busy ∧ Frame (fun i => i = ino) s s' ∧ s'.table.inodes.find ino = some slot ∧
      match r with
      | .ok _ => s'.failures = s.failures ∧ (s'.file ino).bytes =
          (ChunkSpan.ofRange offset data.length).put data (s.file ino).bytes c
      | .error _ => (s'.file ino).bytes = (s.file ino).bytes ∧ env.Failed s s') s := by
  obtain ⟨hindex, hinput, hrange, hstop, hend, hfull⟩ := ChunkSpan.piece_spec hlen hmax hc
  rw [writeChunk]
  refine Prog.wp_bind (chunkSlot_spec _ h hf hkind hindex) (fun a s₂ hs₂ => ?_) fun e s₂ hs₂ => ?_
  · obtain ⟨hinv, hframe, hf', hbytes⟩ := indexed_write hs₂ hkind hindex hinput hrange hstop
      (hend.trans hmax) hfull rfl
    have hfailures : s₂.failures = s.failures := by
      obtain ⟨-, -, -, -, -, -, -, hfailures, -⟩ := hs₂
      exact hfailures
    rw [wp_updateTable_bind, wp_updateTable_bind, wp_record]
    exact ⟨hinv.record _ (fun _ _ => nofun), hframe.trans (Frame.of_eq rfl rfl), hf', hfailures,
      hbytes⟩
  · obtain ⟨hinv, hquiet, hf', hfailed⟩ := hs₂
    exact ⟨hinv, hquiet.frame, hf', hquiet.bytes ino not_false, hfailed⟩

end Fs

end Turn

section Write

variable {s s' : Shared} {env : Env} {busy : Nat → Prop} {ino offset : Nat} {slot : Slot}
  {data : Bytes}

/-- Why a write of `length` bytes at `offset` is refused. -/
def Shared.writeErrno (s : Shared) (ino offset length : Nat) : Option Errno :=
  (s.db.fileErrno ino).orElse fun _ =>
    if s.table.closing then some Errno.EIO
    else if length ≠ 0 ∧ maxFileSize < offset + length then some .EFBIG
    else none

def written (offset : Nat) (data bytes : Bytes) : Bytes :=
  if data = [] then bytes else splice offset data bytes

/-- The content after a write that failed: some pieces were written, in order. -/
def PartlyWritten (offset : Nat) (data bytes bytes' : Bytes) : Prop :=
  ∃ k, bytes' = ((ChunkSpan.ofRange offset data.length).chunks.take k).foldl
    ((ChunkSpan.ofRange offset data.length).put data) bytes

theorem PartlyWritten.none (offset : Nat) (data bytes : Bytes) :
    PartlyWritten offset data bytes bytes := ⟨0, rfl⟩

namespace Fs

theorem touch_core {held : List ArenaSlot} (h : s.Inv held busy)
    (hf : s.table.inodes.find ino = some slot) (tick : Nat) (modified : Timestamp) :
    let s' := { s with
      tick := tick, table := s.table.updateSlot slot fun o => { o with mtime := modified } }
    s'.Inv held busy ∧ Quiet s s' := by
  intro s'
  have hfile : ∀ j, s'.table.file j = s.table.file j := fun j => by
    refine (h.table.file_updateSlot hf j).trans ?_
    split
    · next heq => rw [heq, OpenTable.file_of_find hf]; rfl
    · rfl
  have hfiles : ∀ j, s'.file j = s.file j := fun j => by
    rw [Shared.file, hfile]
    rfl
  have hwf : s'.table.WF held :=
    h.table.updateSlot hf (fun _ => rfl) (fun _ => rfl) fun _ => rfl
  refine ⟨h.of_table (h.toCore.of_table rfl rfl hwf (fun j o ho => ?_) fun j o ho => ?_) rfl rfl,
    ⟨rfl, rfl, fun j _ => by rw [hfiles], fun j _ => ?_, fun j => by rw [hfiles],
      fun j => by rw [hfiles], h.table.handleIno_updateSlot hf fun _ => rfl, rfl, rfl⟩⟩
  · exact h.live j o ((hfile j).symm.trans ho)
  · exact h.directory j o ((hfile j).symm.trans ho)
  · rw [hfiles]
    exact fun hc => hc

private theorem writeChunks_spec (hlen : 0 < data.length)
    (hmax : offset + data.length ≤ maxFileSize)
    (h : s.Inv [] busy) (hf : s.table.inodes.find ino = some slot)
    (hkind : s.db.kindOf ino = some .regularFile) :
    Prog.wp (Prog.each (writeChunk env slot ino (ChunkSpan.ofRange offset data.length) data)
      (ChunkSpan.ofRange offset data.length).chunks) (fun r s' =>
      s'.Inv [] busy ∧ Frame (fun i => i = ino) s s' ∧ s'.table.inodes.find ino = some slot ∧
      match r with
      | .ok _ => s'.failures = s.failures ∧
          (s'.file ino).bytes = splice offset data (s.file ino).bytes
      | .error _ => env.Failed s s' ∧
          PartlyWritten offset data (s.file ino).bytes (s'.file ino).bytes) s := by
  -- `done` are the chunks of the turns so far
  refine Prog.wp_each (I := fun cs s₁ => ∃ done,
    (ChunkSpan.ofRange offset data.length).chunks = done ++ cs ∧ s₁.Inv [] busy ∧
      Frame (fun i => i = ino) s s₁ ∧ s₁.table.inodes.find ino = some slot ∧
      s₁.failures = s.failures ∧ (s₁.file ino).bytes =
        done.foldl ((ChunkSpan.ofRange offset data.length).put data) (s.file ino).bytes)
    (fun c cs s₁ hs₁ => ?_) (fun s₁ hs₁ => ?_) _ s ⟨[], rfl, h, Frame.refl s, hf, rfl, rfl⟩
  · obtain ⟨done, hchunks, hinv, hframe, hf₁, hfailures, hbytes⟩ := hs₁
    have hc : c ∈ (ChunkSpan.ofRange offset data.length).chunks := by simp [hchunks]
    refine Prog.wp_mono (writeChunk_spec hlen hmax hc hinv hf₁ (hframe.kind.trans hkind)) ?_
    rintro r s₂ ⟨hinv₂, hframe₂, hf₂, hresult⟩
    rcases r with e | ⟨⟩
    · refine ⟨hinv₂, hframe.trans hframe₂, hf₂, ⟨hfailures ▸ hresult.2.1, hresult.2.2⟩,
        done.length, ?_⟩
      rw [hresult.1, hbytes, hchunks, List.take_left]
    · refine ⟨done ++ [c], by rw [hchunks, List.append_assoc]; rfl, hinv₂, hframe.trans hframe₂,
        hf₂, hresult.1.trans hfailures, ?_⟩
      rw [List.foldl_append, ← hbytes, List.foldl_cons, List.foldl_nil]
      exact hresult.2
  · obtain ⟨done, hchunks, hinv, hframe, hf₁, hfailures, hbytes⟩ := hs₁
    rw [List.append_nil] at hchunks
    refine ⟨hinv, hframe, hf₁, hfailures, ?_⟩
    rw [hbytes, ← hchunks, ChunkSpan.foldl_put hlen hmax]

/-- The outcome of a buffered write. A write that is refused changes nothing. -/
def WriteResult (env : Env) (s s' : Shared) (ino offset : Nat) (data : Bytes)
    (r : Except Errno Nat) : Prop :=
  Frame (fun i => i = ino) s s' ∧ (Quiet s s' ∨ s.writeErrno ino offset data.length = none) ∧
    match r with
    | .ok n => s'.failures = s.failures ∧ n = data.length % 4294967296 ∧
        (s'.file ino).bytes = written offset data (s.file ino).bytes ∧
        (data ≠ [] → s.writeErrno ino offset data.length = none)
    | .error e =>
        env.Failed s s' ∧ PartlyWritten offset data (s.file ino).bytes (s'.file ino).bytes ∨
        s'.failures = s.failures ∧ Quiet s s' ∧ s.writeErrno ino offset data.length = some e

private theorem WriteResult.trans {s'' : Shared} {r : Except Errno Nat} (hquiet : Quiet s s')
    (hfailures : s'.failures = s.failures) (h : WriteResult env s' s'' ino offset data r) :
    WriteResult env s s'' ino offset data r := by
  have herrno : s'.writeErrno ino offset data.length = s.writeErrno ino offset data.length := by
    rw [Shared.writeErrno, Shared.writeErrno, Db.fileErrno_congr hquiet.kind, hquiet.closing]
  obtain ⟨hframe, hor, hresult⟩ := h
  refine ⟨hquiet.frame.trans hframe, herrno ▸ hor.imp_left hquiet.trans, ?_⟩
  rw [herrno, hquiet.bytes ino not_false, hfailures] at hresult
  rcases r with e | n
  · exact hresult.imp (fun h => ⟨⟨hfailures ▸ h.1.1, h.1.2⟩, h.2⟩)
      fun h => ⟨h.1, hquiet.trans h.2.1, h.2.2⟩
  · exact hresult

private theorem WriteResult.append {s'' : Shared} {r : Except Errno Nat}
    (h : WriteResult env s s' ino offset data r) (hquiet : Quiet s' s'')
    (hfailures : s''.failures = s'.failures) : WriteResult env s s'' ino offset data r := by
  obtain ⟨hframe, hor, hresult⟩ := h
  refine ⟨hframe.trans hquiet.frame, hor.imp_left fun hq => hq.trans hquiet, ?_⟩
  rcases r with e | n
  · refine hresult.imp (fun h => ⟨⟨hfailures ▸ h.1.1, h.1.2⟩, ?_⟩)
      fun h => ⟨hfailures.trans h.1, h.2.1.trans hquiet, h.2.2⟩
    rw [hquiet.bytes ino not_false]
    exact h.2
  · refine ⟨hfailures.trans hresult.1, hresult.2.1, ?_, hresult.2.2.2⟩
    rw [hquiet.bytes ino not_false]
    exact hresult.2.2.1

private theorem WriteResult.refused {e : Errno}
    (he : s.writeErrno ino offset data.length = some e) :
    WriteResult env s s ino offset data (.error e) :=
  ⟨Frame.refl s, .inl (Frame.refl s), .inr ⟨rfl, Frame.refl s, he⟩⟩

theorem writeSlot_spec (hfit : offset + data.length < u64Size) (h : s.Inv [] busy)
    (hf : s.table.inodes.find ino = some slot) :
    Prog.wp (writeSlot env slot offset data) (fun r s' =>
      s'.Inv [] busy ∧ s'.table.inodes.find ino = some slot ∧
      WriteResult env s s' ino offset data r) s := by
  have hkind : s.db.kindOf ino = some (s.table.inodes.get slot).kind :=
    h.kindOf (OpenTable.file_of_find hf)
  have herrno : s.db.fileErrno ino =
      (s.table.inodes.get slot).kind.regularFileError.map errnoFromDbError := by
    rw [Db.fileErrno, hkind]
  rw [writeSlot, wp_table_bind]
  dsimp only
  rcases hregular : (s.table.inodes.get slot).kind.regularFileError with _ | error
  · rw [hregular] at herrno
    rw [errnoOfKind, hregular, Prog.wp_pure_bind]
    have hregular' := FileKind.regularFileError_eq_none.mp hregular
    rw [hregular'] at hkind
    split
    · next hclosing =>
      refine ⟨h, hf, WriteResult.refused ?_⟩
      rw [Shared.writeErrno, herrno]
      exact if_pos hclosing
    · next hclosing =>
      have hopen : ¬s.table.closing = true := hclosing
      rcases Nat.eq_zero_or_pos data.length with hzero | hpos
      · rw [hzero, ChunkSpan.new_zero]
        have hnil := List.length_eq_zero_iff.mp hzero
        exact ⟨h, hf, Frame.refl s, .inl (Frame.refl s), rfl, by rw [hzero], (if_pos hnil).symm,
          fun hne => (hne hnil).elim⟩
      · rw [ChunkSpan.new_eq hpos hfit]
        dsimp only
        split
        · next hbig =>
          refine ⟨h, hf, WriteResult.refused ?_⟩
          rw [Shared.writeErrno, herrno]
          exact (if_neg hopen).trans (if_pos ⟨Nat.pos_iff_ne_zero.mp hpos, hbig⟩)
        · next hsmall =>
          have hmax : offset + data.length ≤ maxFileSize := Nat.le_of_not_lt hsmall
          have hnone : s.writeErrno ino offset data.length = none := by
            rw [Shared.writeErrno, herrno]
            exact (if_neg hopen).trans (if_neg fun hbig => hsmall hbig.2)
          have hne : data ≠ [] := List.ne_nil_of_length_pos hpos
          rw [wp_now_bind, wp_updateTable_bind, h.table.find_ino hf]
          obtain ⟨hinv, hquiet⟩ := touch_core h hf (s.tick + 1)
            (.fromSystemTime (env.clock s.tick))
          refine Prog.wp_bind (writeChunks_spec hpos hmax hinv hf (hquiet.kind.trans hkind))
            (fun done s' hs' => ?_) fun e s' hs' => ?_
          · obtain ⟨hinv', hframe, hf', hfailures, hbytes⟩ := hs'
            cases done
            rw [Prog.wp_pure]
            refine ⟨hinv', hf', hquiet.frame.trans hframe, .inr hnone, hfailures, rfl, ?_,
              fun _ => hnone⟩
            rw [hbytes, written, if_neg hne, hquiet.bytes ino not_false]
          · obtain ⟨hinv', hframe, hf', hfailed, hbytes⟩ := hs'
            rw [hquiet.bytes ino not_false] at hbytes
            exact ⟨hinv', hf', hquiet.frame.trans hframe, .inr hnone, .inl ⟨hfailed, hbytes⟩⟩
  · rw [hregular] at herrno
    rw [errnoOfKind, hregular]
    refine ⟨h, hf, WriteResult.refused ?_⟩
    rw [Shared.writeErrno, herrno]
    rfl

theorem insert_core {held : List ArenaSlot} (h : s.Inv held busy)
    (hnone : s.table.inodes.find ino = none) {kind : FileKind} {size : Nat} {inodes : OpenInodes}
    (hkind : s.db.kindOf ino = some kind) (hsize : size = s.db.storedSize ino)
    (hi : s.table.inodes.insert ino kind size = (slot, inodes)) :
    let s' := { s with table := { s.table with inodes := inodes } }
    s'.Inv held (fun i => busy i ∨ i = ino) ∧ Quiet s s' ∧
      s'.table.inodes.find ino = some slot := by
  intro s'
  obtain ⟨hwf, hf, hhandles, hfiles⟩ := h.table.insert hnone hi
  have hold : s.table.file ino = none := OpenTable.file_eq_none.mpr hnone
  have hbefore : s.file ino = ⟨s.db.file ino, none⟩ := by rw [Shared.file, hold]
  have hself : s'.file ino = ⟨s.db.file ino, some ⟨kind, size, 0, false, fun _ => none⟩⟩ := by
    rw [Shared.file, show s'.table.file ino = _ from (hfiles ino).trans (if_pos rfl)]
  have hagrees : OpenFile.Agrees (s.db.file ino) ⟨kind, size, 0, false, fun _ => none⟩ := by
    refine ⟨hkind, hsize.ge, fun hregular => ?_, (fun _ _ hdirty => by cases hdirty),
      fun hlt => ?_, fun hunlinked => by cases hunlinked⟩
    · exact hsize.trans_le (h.sound.owned.sizes ino (hkind.trans (congrArg some hregular)))
    · exact (Nat.lt_irrefl _ (hsize ▸ hlt)).elim
  have hclean : (s'.file ino).Clean := by
    rw [hself]
    rintro o ⟨⟩ c
    rfl
  refine ⟨h.of_table (h.toCore.of_table rfl rfl hwf (fun j o ho => ?_) fun j o ho hd => ?_) rfl rfl,
    Frame.of_file rfl rfl (show ∀ j, j ≠ ino → s'.file j = s.file j from fun j hj => ?_)
      (fun _ => ⟨?_, fun _ => hclean⟩) ?_ ?_ hhandles rfl rfl, hf⟩
  · rw [show s'.table.file j = _ from hfiles j] at ho
    split at ho
    · next heq =>
      cases ho
      exact heq ▸ hagrees
    · exact h.live j o ho
  · rw [show s'.table.file j = _ from hfiles j] at ho
    split at ho
    · next heq => exact .inr (.inr heq)
    · exact (h.directory j o ho hd).imp_right .inl
  · rw [Shared.file, show s'.table.file j = _ from (hfiles j).trans (if_neg hj)]
    rfl
  · rw [hself, hbefore, File.bytes, File.size_some, hsize]
    rfl
  · rw [hself, hbefore]
    rfl
  · rw [hself, hbefore]
    rfl

theorem slotFor_spec {held : List ArenaSlot} (h : s.Inv held busy) :
    Prog.wp (slotFor env ino) (fun r s' => Quiet s s' ∧ s'.db = s.db ∧ s'.moments = s.moments ∧
      match r with
      | .ok slot => s'.Inv held (fun i => busy i ∨ i = ino) ∧ s'.failures = s.failures ∧
          s'.table.inodes.find ino = some slot ∧ (s.db.kindOf ino).isSome
      | .error e => s'.Inv held busy ∧ (env.Failed s s' ∨
          s'.failures = s.failures ∧ s.db.kindOf ino = none ∧ e = .ENOENT)) s := by
  rw [slotFor, wp_table_bind]
  rcases hf : s.table.inodes.find ino with _ | slot
  · dsimp only
    rw [Prog.wp_bind_iff]
    refine wp_query (fun failure hfault => ?_) (fun error herror => ?_) fun head hhead => ?_
    · exact ⟨Frame.of_eq rfl rfl, rfl, rfl, h.of_eq rfl rfl rfl, .inl ⟨Nat.lt_succ_self _,
        env.not_healthy hfault⟩⟩
    · obtain ⟨hnone, rfl⟩ := h.sound.keys.inodeHead_error herror
      exact ⟨Frame.of_eq rfl rfl, rfl, rfl, h.of_eq rfl rfl rfl, .inr ⟨rfl, hnone, rfl⟩⟩
    · obtain ⟨kind, size⟩ := head
      obtain ⟨hkind, hsize⟩ := inodeHead_eq_ok hhead
      rcases hi : s.table.inodes.insert ino kind size with ⟨slot, inodes⟩
      obtain ⟨hinv, hquiet, hf'⟩ := insert_core (s := { s with tick := s.tick + 1 })
        (h.of_eq rfl rfl rfl) hf hkind hsize hi
      dsimp only
      rw [hi]
      exact ⟨hquiet.after_eq rfl rfl, rfl, rfl, hinv, rfl, hf', by rw [hkind]; rfl⟩
  · refine ⟨Frame.refl s, rfl, rfl, h.mono fun _ _ _ _ hb => .inr (.inl hb), rfl, hf, ?_⟩
    rw [h.kindOf (OpenTable.file_of_find hf)]
    rfl

private theorem freeWritten_core {s₁ : Shared} {r : Except Errno Nat} (h : s.Inv [] busy)
    (hquiet : Quiet s s₁) (hinv : s'.Inv [] fun i => busy i ∨ i = ino)
    (hf : s'.table.inodes.find ino = some slot) (hwrite : WriteResult env s₁ s' ino offset data r) :
    let s'' := { s' with table := s'.table.freeIfIdle slot }
    s''.Inv [] busy ∧ Quiet s' s'' := by
  intro s''
  obtain ⟨hcore, hquiet', -, -, hfree⟩ := freeIfIdle_core hinv.toCore hf
  refine ⟨(hinv.of_table hcore rfl rfl).mono fun i o ho hd hb => ?_, hquiet'⟩
  rcases hb with hb | rfl
  · exact .inr hb
  · have hkind : s.db.kindOf i = some .directory := by
      rw [← hquiet.kind, ← hwrite.1.kind, ← hquiet'.kind, ← hd]
      exact hcore.kindOf ho
    rcases hold : s.table.file i with _ | p
    · rcases hfree with ⟨hgone, -, -⟩ | ⟨hstays, -⟩
      · rw [show s''.table.file i = none from hgone] at ho
        cases ho
      · have hquiet₂ : Quiet s₁ s' := by
          refine hwrite.2.1.resolve_right fun hnone => ?_
          rw [Shared.writeErrno, Db.fileErrno, hquiet.kind, hkind] at hnone
          cases hnone
        refine (hstays ⟨?_, ?_⟩).elim
        · rw [hquiet₂.refs, hquiet.refs, Shared.file, hold]
          rfl
        · refine hquiet₂.clean i not_false (hquiet.clean i not_false fun q hq => ?_)
          exact (Option.some_ne_none q (hq.symm.trans hold)).elim
    · refine h.directory i p hold ?_
      rw [h.kindOf hold] at hkind
      exact Option.some.inj hkind

theorem write_spec (hfit : offset + data.length < u64Size) (h : s.Inv [] busy) :
    Prog.wp (write env ino offset data) (fun r s' =>
      s'.Inv [] busy ∧ WriteResult env s s' ino offset data r) s := by
  unfold write
  split
  · next hempty =>
    obtain rfl := List.isEmpty_iff.mp hempty
    exact ⟨h, Frame.refl s, .inl (Frame.refl s), rfl, rfl, rfl, fun hne => (hne rfl).elim⟩
  · refine Prog.wp_bind (slotFor_spec h) (fun slot s₁ hs₁ => ?_) fun e s₁ hs₁ => ?_
    · obtain ⟨hquiet₁, -, -, hinv₁, hfailures₁, hf₁, -⟩ := hs₁
      rw [Prog.wp_bind_iff, Prog.wp_attempt]
      refine Prog.wp_mono (writeSlot_spec hfit hinv₁ hf₁) ?_
      rintro r s₂ ⟨hinv₂, hf₂, hwrite⟩
      obtain ⟨hinv₃, hquiet₃⟩ := freeWritten_core h hquiet₁ hinv₂ hf₂ hwrite
      have hresult := (hwrite.trans hquiet₁ hfailures₁).append hquiet₃ rfl
      dsimp only
      rw [freeIfIdle, wp_updateTable_bind]
      rcases r with e | n
      · exact ⟨hinv₃, hresult⟩
      · exact ⟨hinv₃, hresult⟩
    · obtain ⟨hquiet₁, -, -, hinv₁, herror⟩ := hs₁
      refine ⟨hinv₁, hquiet₁.frame, .inl hquiet₁, ?_⟩
      rcases herror with hfailed | ⟨hfailures, hnone, rfl⟩
      · refine .inl ⟨hfailed, ?_⟩
        rw [hquiet₁.bytes ino not_false]
        exact PartlyWritten.none ..
      · refine .inr ⟨hfailures, hquiet₁, ?_⟩
        rw [Shared.writeErrno, Db.fileErrno, hnone]
        rfl

theorem writeFh_spec {fh : Nat} (hfit : offset + data.length < u64Size) (h : s.Inv [] busy) :
    Prog.wp (writeFh env fh offset data) (fun r s' =>
      s'.Inv [] busy ∧
      match s.table.handleIno fh with
      | some ino => WriteResult env s s' ino offset data r
      | none => r = .error .EBADF ∧ s' = s) s := by
  rw [writeFh, wp_table_bind]
  rcases hfh : s.table.handles.get fh with _ | slot
  · rw [show s.table.handleIno fh = none from congrArg _ hfh]
    exact ⟨h, rfl, rfl⟩
  · rw [show s.table.handleIno fh = some _ from congrArg _ hfh]
    refine Prog.wp_mono (writeSlot_spec hfit h (h.table.find_of_handle hfh)) ?_
    exact fun r s' hs' => ⟨hs'.1, hs'.2.2⟩

end Fs

end Write

end VibeDbfs
