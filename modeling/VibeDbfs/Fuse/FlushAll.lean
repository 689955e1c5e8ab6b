import VibeDbfs.Fuse.Accounting
import VibeDbfs.Fuse.Attributes

/-!
`flush_all` inode by inode. What a visit leaves of an inode depends on that inode alone and on
whether its transaction fails, so the order of the visits decides nothing.
-/

set_option autoImplicit false
set_option relaxedAutoImplicit false

namespace VibeDbfs

open Lib Lib.Bytes Shared

/-- All that the store and the table hold of one inode. -/
structure View where
  row : Option InodeRow
  chunk : Nat → Option Bytes
  live : Option OpenFile
  mtime : Option Timestamp

/-- The stored chunk `c` of an inode. -/
def Db.chunkRow (db : Db) (ino c : Nat) : Option Bytes :=
  if (db.kindOf ino).isSome ∧ c < maxChunks then db.findChunk (chunkKey ino c) else none

def OpenTable.mtimeOf (t : OpenTable) (ino : Nat) : Option Timestamp :=
  (t.inodes.find ino).map fun slot => (t.inodes.get slot).mtime

def Shared.view (s : Shared) (ino : Nat) : View :=
  ⟨s.db.findInode ino, s.db.chunkRow ino, s.table.file ino, s.table.mtimeOf ino⟩

/-- The inodes whose data is written when the slots are visited in this order. -/
def Shared.pending (s : Shared) (slots : List Slot) : List Nat :=
  (slots.filter fun slot => !(s.table.inodes.get slot).dirty.isEmpty &&
    !(s.table.inodes.get slot).unlinked).map fun slot => (s.table.inodes.get slot).ino

namespace View

/-- There is unflushed data, and the inode was not unlinked while open. -/
def Pending (v : View) : Prop := ∃ o, v.live = some o ∧ ¬o.Clean ∧ o.unlinked = false

def Idle (v : View) : Prop := ∃ o, v.live = some o ∧ o.refs = 0 ∧ o.Clean

def saved (v : View) : View :=
  match v.live, v.mtime with
  | some o, some modified =>
    { v with
      row := v.row.map fun r => Look.saved r o.size modified
      chunk := fun c => (o.dirty c).or (v.chunk c)
      live := some o.flushed }
  | _, _ => v

open Classical in
noncomputable def freed (v : View) : View :=
  if v.Idle then { v with live := none, mtime := none } else v

open Classical in
/-- What `flush_all` does to an inode whose transaction `fails`. -/
noncomputable def visited (fails : Prop) (v : View) : View :=
  if v.Pending ∧ ¬fails then v.saved.freed else v.freed

end View

namespace Fs

variable {env : Env} {s s' : Shared} {held : List ArenaSlot} {busy : Nat → Prop} {ino : Nat}
  {slot : Slot}

section Views

private theorem view_congr (hdb : s'.db = s.db) (htable : s'.table = s.table) (j : Nat) :
    s'.view j = s.view j := by
  rw [Shared.view, Shared.view, hdb, htable]

private theorem flush_view (h : s.Inv held busy) (hf : s.table.inodes.find ino = some slot)
    (hdirty : ¬(s.table.fileAt slot).Clean)
    (hdb : s'.db = (s.db.upsertAll ino (dirtyChunks s.table (s.table.inodes.get slot))).setSize ino
      (s.table.inodes.get slot).size (s.table.inodes.get slot).mtime)
    (htable : s'.table = s.table.releaseDirty slot) (j : Nat) :
    s'.view j = if j = ino then (s.view j).saved else s.view j := by
  have hfits := fits_dirtyChunks (h.table.sorted slot) (h.live ino _ (OpenTable.file_of_find hf))
    hdirty
  have hino : ino ≤ maxIno := h.sound.keys.le_maxIno hfits.kind
  have hlive : s'.table.file j =
      if j = ino then some (s.table.fileAt slot).flushed else s.table.file j := by
    rw [htable]
    exact (h.table.releaseDirty hf).2.2 j
  have hmtime : s'.table.mtimeOf j =
      if j = ino then some (s.table.inodes.get slot).mtime else s.table.mtimeOf j := by
    rw [htable]
    exact h.table.shown_update hf (inodes_releaseDirty s.table slot) j
  have hkind : s'.db.kindOf j = s.db.kindOf j := by
    rw [hdb, Db.kindOf_setSize, Db.kindOf_upsertAll]
  have hchunk : s'.db.chunkRow j = fun c =>
      if j = ino then ((s.table.fileAt slot).dirty c).or (s.db.chunkRow j c)
      else s.db.chunkRow j c := by
    funext c
    rw [Db.chunkRow, Db.chunkRow, hkind]
    by_cases hin : (s.db.kindOf j).isSome ∧ c < maxChunks
    · rw [if_pos hin, if_pos hin, hdb]
      have hj := (h.sound.keys.range hin.1).2
      refine (Db.findChunk_upsertAll hino hfits.index hfits.nodup hj hin.2).trans ?_
      rw [replacement_dirtyChunks]
      rfl
    · rw [if_neg hin, if_neg hin]
      split
      · next heq =>
        -- a dirty chunk has an index in range
        rcases hc : (s.table.fileAt slot).dirty c with _ | bytes
        · rfl
        · have hbound := ((h.live ino _ (OpenTable.file_of_find hf)).dirty c bytes hc).2.1
          refine (hin ⟨?_, hbound⟩).elim
          rw [heq, hfits.kind]
          rfl
      · rfl
  have hrow : s'.db.findInode j =
      if j = ino then (s.db.findInode j).map fun r =>
        Look.saved r (s.table.inodes.get slot).size (s.table.inodes.get slot).mtime
      else s.db.findInode j := by
    rw [hdb]
    exact findInode_setSize j
  rw [Shared.view, hrow, hlive, hmtime, hchunk]
  split
  · next heq =>
    subst heq
    rw [View.saved, Shared.view, OpenTable.file_of_find hf, OpenTable.mtimeOf, hf]
    rfl
  · rfl

private theorem free_view (h : s.Inv held busy) (hf : s.table.inodes.find ino = some slot)
    (hdb : s'.db = s.db) (htable : s'.table = s.table.freeIfIdle slot) (j : Nat) :
    s'.view j = if j = ino then (s.view j).freed else s.view j := by
  have hfile := OpenTable.file_of_find hf
  have hview : (s.view ino).live = some (s.table.fileAt slot) := hfile
  have hidle : (s.view ino).Idle ↔
      (s.table.fileAt slot).refs = 0 ∧ (s.table.fileAt slot).Clean := by
    constructor
    · rintro ⟨o, ho, hrefs, hclean⟩
      cases hview.symm.trans ho
      exact ⟨hrefs, hclean⟩
    · intro hneeded
      exact ⟨_, hview, hneeded⟩
  rcases h.table.freeIfIdle hf with ⟨hrefs, hclean, -, -, -, -, hfiles⟩ | ⟨hbusy, hsame⟩
  · have hremoved : s'.table = { s.table with inodes := s.table.inodes.remove slot } :=
      htable.trans (if_pos ⟨hrefs, OpenTable.clean_iff.mp hclean⟩)
    have hmtime : s'.table.mtimeOf j = if j = ino then none else s.table.mtimeOf j := by
      rw [hremoved]
      exact h.table.shown_remove hf j
    rw [Shared.view, hdb, hmtime, htable, hfiles]
    split
    · next heq =>
      subst heq
      rw [View.freed, if_pos (hidle.mpr ⟨hrefs, hclean⟩)]
      rfl
    · rfl
  · rw [view_congr hdb (htable.trans hsame)]
    split
    · next heq =>
      subst heq
      rw [View.freed, if_neg fun hneeded => hbusy (hidle.mp hneeded)]
    · rfl

end Views

section Visits

private theorem pending_iff (hf : s.table.inodes.find ino = some slot) :
    (s.view ino).Pending ↔ (s.table.inodes.get slot).dirty.isEmpty = false ∧
      (s.table.inodes.get slot).unlinked = false := by
  have hview : (s.view ino).live = some (s.table.fileAt slot) := OpenTable.file_of_find hf
  have hclean : ¬(s.table.fileAt slot).Clean ↔ ¬(s.table.inodes.get slot).dirty.isEmpty = true :=
    OpenTable.clean_iff.not
  rw [Bool.not_eq_true] at hclean
  constructor
  · rintro ⟨o, ho, hdirty, hlinked⟩
    cases hview.symm.trans ho
    exact ⟨hclean.mp hdirty, hlinked⟩
  · rintro ⟨hdirty, hlinked⟩
    exact ⟨_, hview, hclean.mpr hdirty, hlinked⟩

private theorem flushSlot_rest (hf : s.table.inodes.find ino = some slot)
    (hrest : ¬(s.view ino).Pending) :
    flushSlot env slot .skip s = (.ok (), s) := by
  have hskip : ((s.table.inodes.get slot).dirty.isEmpty ||
      ((s.table.inodes.get slot).unlinked && Unlinked.skip == .skip)) = true := by
    rw [pending_iff hf, not_and, Bool.not_eq_false] at hrest
    rcases hempty : (s.table.inodes.get slot).dirty.isEmpty
    · rw [hrest hempty]
      rfl
    · rfl
  rw [flushSlot, Prog.bind_ok (show table s = (.ok s.table, s) from rfl), if_pos hskip]
  rfl

private theorem flushSlot_view (h : s.Inv held busy) (hf : s.table.inodes.find ino = some slot)
    (hpending : (s.view ino).Pending) :
    Prog.wp (flushSlot env slot .skip) (fun r s' => s'.tick = s.tick + 1 ∧
      (∀ i, i ≠ slot → s'.table.inodes.get i = s.table.inodes.get i) ∧
      match r with
      | .ok _ => env.fault s.tick = none ∧
          ∀ j, s'.view j = if j = ino then (s.view j).saved else s.view j
      | .error e => (∃ failure, env.fault s.tick = some failure ∧
          e = errnoFromDbError failure.toDbError) ∧ ∀ j, s'.view j = s.view j) s := by
  obtain ⟨hempty, hlinked⟩ := (pending_iff hf).mp hpending
  have hdirty : ¬(s.table.fileAt slot).Clean := by
    intro hclean
    rw [OpenTable.clean_iff.mp hclean] at hempty
    cases hempty
  rw [flushSlot, wp_table_bind]
  dsimp only
  rw [hempty, hlinked, Bool.false_or, Bool.false_and, if_neg Bool.false_ne_true,
    h.table.find_ino hf]
  apply Prog.wp_bind (Prog.wp_and (exec_outcome env _ s) (exec_errno env _ s))
  · intro _ s₁ hs₁
    obtain ⟨⟨htick, htable, hfault, hdb⟩, -⟩ := hs₁
    rw [wp_updateTable_bind, wp_record]
    have htable' : ({ s₁ with table := s₁.table.releaseDirty slot } : Shared).table =
        s.table.releaseDirty slot := congrArg (fun t => t.releaseDirty slot) htable
    refine ⟨htick, fun i hi => ?_, hfault, flush_view h hf hdirty (Db.replaceChunks_eq hdb) htable'⟩
    change (s₁.table.releaseDirty slot).inodes.get i = _
    rw [htable, inodes_releaseDirty, OpenTable.get_update (h.table.find_lt hf), if_neg hi]
  · intro e s₁ hs₁
    obtain ⟨⟨htick, htable, hdb, -⟩, herror⟩ := hs₁
    refine ⟨htick, fun i _ => by rw [htable], ?_, view_congr hdb htable⟩
    rcases herror e rfl with hfailure | ⟨error, hrefused, -⟩
    · exact hfailure
    · cases hrefused

private theorem get_freeIfIdle (t : OpenTable) {i : Slot} (hi : i ≠ slot) :
    (t.freeIfIdle slot).inodes.get i = t.inodes.get i := by
  unfold OpenTable.freeIfIdle
  dsimp only
  split
  · let removed : OpenTable := { t with inodes := t.inodes.remove slot }
    have hslots : removed.inodes.slots = t.inodes.slots.modify slot fun o =>
      { o with refs := 0, unlinked := false } := rfl
    exact (OpenTable.get_modify hslots i).resolve_right fun hchanged => hi hchanged.1
  · rfl

private theorem pending_append (s : Shared) (slots slots' : List Slot) :
    s.pending (slots ++ slots') = s.pending slots ++ s.pending slots' := by
  rw [Shared.pending, List.filter_append, List.map_append]
  rfl

private theorem pending_congr {slots : List Slot}
    (h : ∀ i ∈ slots, s'.table.inodes.get i = s.table.inodes.get i) :
    s'.pending slots = s.pending slots := by
  unfold Shared.pending
  rw [List.filter_congr fun i hi => by rw [h i hi]]
  apply List.map_congr_left
  intro i hi
  rw [h i (List.mem_filter.mp hi).1]

private theorem pending_one (h : s.Inv held busy) (hf : s.table.inodes.find ino = some slot) :
    ((s.view ino).Pending ∧ s.pending [slot] = [ino]) ∨
      (¬(s.view ino).Pending ∧ s.pending [slot] = []) := by
  unfold Shared.pending
  by_cases hpending : (s.view ino).Pending
  · obtain ⟨hempty, hlinked⟩ := (pending_iff hf).mp hpending
    left
    rw [List.filter_cons_of_pos, List.filter_nil, List.map_singleton, h.table.find_ino hf]
    · exact ⟨hpending, rfl⟩
    · rw [hempty, hlinked]
      rfl
  · right
    rw [List.filter_cons_of_neg, List.filter_nil]
    · exact ⟨hpending, rfl⟩
    · intro hboth
      rw [Bool.and_eq_true, Bool.not_eq_true', Bool.not_eq_true'] at hboth
      exact hpending ((pending_iff hf).mpr hboth)

end Visits

/-- The transactions of the inodes, begun at `tick` one after the other, fail for those in `F`. -/
def Realizes (env : Env) (F : Nat → Prop) (tick : Nat) (inos : List Nat) : Prop :=
  ∀ k ino, inos[k]? = some ino → (env.fault (tick + k) ≠ none ↔ F ino)

def Refused (env : Env) (tick : Nat) (inos : List Nat) (e : Errno) : Prop :=
  ∃ k ino failure, inos[k]? = some ino ∧ env.fault (tick + k) = some failure ∧
    e = errnoFromDbError failure.toDbError

section Ticks

variable {F : Nat → Prop} {tick : Nat} {inos inos' : List Nat} {e : Errno}

private theorem Realizes.append_left (h : Realizes env F tick (inos ++ inos')) :
    Realizes env F tick inos := by
  intro k ino hk
  apply h
  rw [List.getElem?_append_left (List.getElem?_eq_some_iff.mp hk).1]
  exact hk

private theorem Realizes.append_right (h : Realizes env F tick (inos ++ inos')) :
    Realizes env F (tick + inos.length) inos' := by
  intro k ino hk
  rw [Nat.add_assoc]
  apply h
  rw [List.getElem?_append_right (Nat.le_add_right _ _), Nat.add_sub_cancel_left]
  exact hk

private theorem Refused.append_left (h : Refused env tick inos e) :
    Refused env tick (inos ++ inos') e := by
  obtain ⟨k, ino, failure, hk, hfailure⟩ := h
  refine ⟨k, ino, failure, ?_, hfailure⟩
  rw [List.getElem?_append_left (List.getElem?_eq_some_iff.mp hk).1]
  exact hk

private theorem Refused.append_right (h : Refused env (tick + inos.length) inos' e) :
    Refused env tick (inos ++ inos') e := by
  obtain ⟨k, ino, failure, hk, hfault, he⟩ := h
  refine ⟨inos.length + k, ino, failure, ?_, ?_, he⟩
  · rw [List.getElem?_append_right (Nat.le_add_right _ _), Nat.add_sub_cancel_left]
    exact hk
  · rw [← Nat.add_assoc]
    exact hfault

end Ticks

section Loop

variable {F : Nat → Prop}

/-- One turn of the loop of `flush_all`. -/
def visitSlot (env : Env) (slot : Slot) (firstError : Option Errno) : Fs (Option Errno) := do
  match ← Prog.attempt (flushSlot env slot .skip) with
  | .ok () => do
    freeIfIdle slot
    pure firstError
  | .error errno => pure (firstError <|> some errno)

private theorem flushEach_cons (slots : List Slot) (firstError : Option Errno) :
    flushEach env (slot :: slots) firstError s =
      (visitSlot env slot firstError >>= flushEach env slots) s := by
  rcases hflush : flushSlot env slot .skip s with ⟨r, s₁⟩
  have hattempt : Prog.attempt (flushSlot env slot .skip) s = (.ok r, s₁) := by
    unfold Prog.attempt
    rw [hflush]
  rw [flushEach, visitSlot, Prog.bind_assoc, Prog.bind_ok hattempt, Prog.bind_ok hattempt]
  rcases r with e | ⟨⟩
  · rfl
  · rfl

structure Visited (env : Env) (F : Nat → Prop) (slot : Slot) (ino : Nat)
    (firstError result : Option Errno) (s s' : Shared) : Prop where
  tick : s'.tick = s.tick + (s.pending [slot]).length
  slots : ∀ i, i ≠ slot → s'.table.inodes.get i = s.table.inodes.get i
  find : ∀ i, i ≠ ino → s'.table.inodes.find i = s.table.inodes.find i
  own : s'.table.inodes.find ino = .none ∨ s'.table.inodes.find ino = s.table.inodes.find ino
  view : ∀ j, s'.view j = if j = ino then (s.view j).visited (F j) else s.view j
  none : result = .none ↔ firstError = .none ∧ ∀ i ∈ s.pending [slot], ¬F i
  error : ∀ e, result = some e →
    firstError = some e ∨ firstError = .none ∧ Refused env s.tick (s.pending [slot]) e

private theorem view_pending_visited {v : View} (hpending : v.Pending) {fails : Prop}
    (hfails : fails) :
    v.visited fails = v := by
  rw [View.visited, if_neg fun h => h.2 hfails, View.freed, if_neg]
  rintro ⟨o, ho, -, hclean⟩
  obtain ⟨o', ho', hdirty, -⟩ := hpending
  cases ho.symm.trans ho'
  exact hdirty hclean

/-- A turn whose transaction failed. -/
private theorem visited_failed (firstError : Option Errno) {e : Errno}
    (hpending : (s.view ino).Pending)
    (hone : s.pending [slot] = [ino]) (hin : F ino) (htick : s'.tick = s.tick + 1)
    (hslots : ∀ i, i ≠ slot → s'.table.inodes.get i = s.table.inodes.get i)
    (hfind : ∀ i, s'.table.inodes.find i = s.table.inodes.find i)
    (hview : ∀ j, s'.view j = s.view j) (hrefused : Refused env s.tick [ino] e) :
    Visited env F slot ino firstError (firstError <|> some e) s s' := by
  refine ⟨?_, hslots, fun i _ => hfind i, .inr (hfind ino), fun j => ?_, ?_, fun e' he' => ?_⟩
  · rw [htick, hone]
    rfl
  · rw [hview]
    split
    · next heq =>
      subst heq
      exact (view_pending_visited hpending hin).symm
    · rfl
  · constructor
    · intro hnone
      rcases firstError with _ | first
      · cases hnone
      · cases hnone
    · rintro ⟨-, hall⟩
      rw [hone] at hall
      exact (hall ino List.mem_cons_self hin).elim
  · rcases firstError with _ | first
    · cases he'
      rw [hone]
      exact .inr ⟨rfl, hrefused⟩
    · exact .inl he'

private theorem visited_freed (firstError : Option Errno) {v : View} (hinv : s'.Inv held busy)
    (hf : s'.table.inodes.find ino = some slot)
    (htick : s'.tick = s.tick + (s.pending [slot]).length)
    (hslots : ∀ i, i ≠ slot → s'.table.inodes.get i = s.table.inodes.get i)
    (hfind : ∀ i, s'.table.inodes.find i = s.table.inodes.find i)
    (hview : ∀ j, s'.view j = if j = ino then v else s.view j)
    (hv : v.freed = (s.view ino).visited (F ino)) (hout : ∀ i ∈ s.pending [slot], ¬F i) :
    let freed : Shared := { s' with table := s'.table.freeIfIdle slot }
    freed.Inv held busy ∧ Visited env F slot ino firstError firstError s freed := by
  intro freed
  obtain ⟨-, -, hinv', -, hfind', -⟩ := freeIfIdle_spec hinv hf
  refine ⟨hinv', htick, fun i hi => (get_freeIfIdle s'.table hi).trans (hslots i hi), fun i hi =>
    (hfind' i hi).trans (hfind i), ?_, fun j => ?_, ⟨fun hfirst => ⟨hfirst, hout⟩, And.left⟩,
    fun e' he' => .inl he'⟩
  · rcases hinv.table.freeIfIdle hf with ⟨-, -, -, -, hnone, -⟩ | ⟨-, hsame⟩
    · exact .inl ((hnone ino).trans (if_pos rfl))
    · right
      rw [← hfind]
      exact congrArg (fun t => t.inodes.find ino) hsame
  have hfreed : freed.view j = if j = ino then (s'.view j).freed else s'.view j := by
    apply free_view hinv hf
    · rfl
    · rfl
  rw [hfreed, hview]
  split
  · next heq =>
    subst heq
    exact hv
  · rfl

private theorem visitSlot_view (firstError : Option Errno) (h : s.Inv held busy)
    (hf : s.table.inodes.find ino = some slot)
    (hF : Realizes env F s.tick (s.pending [slot])) :
    Prog.wp (visitSlot env slot firstError) (fun r s' => ∃ result, r = .ok result ∧
      s'.Inv held busy ∧ Visited env F slot ino firstError result s s') s := by
  rcases pending_one h hf with ⟨hpending, hone⟩ | ⟨hrest, hnone⟩
  · have hfails : env.fault s.tick ≠ none ↔ F ino := by
      apply hF 0 ino
      rw [hone]
      rfl
    rw [visitSlot, Prog.wp_bind_iff, Prog.wp_attempt]
    refine Prog.wp_mono (Prog.wp_and (flushSlot_spec .skip h hf) (flushSlot_view h hf hpending)) ?_
    rintro r s₁ ⟨⟨hinv, -, hfind, -⟩, htick, hslots, hresult⟩
    rcases r with e | ⟨⟩
    · obtain ⟨⟨failure, hfailure, he⟩, hview⟩ := hresult
      have hin : F ino := by
        rw [← hfails, hfailure]
        intro hnone
        cases hnone
      exact ⟨_, rfl, hinv, visited_failed firstError hpending hone hin htick hslots hfind hview
        ⟨0, ino, failure, rfl, hfailure, he⟩⟩
    · obtain ⟨hfault, hview⟩ := hresult
      have hout : ¬F ino := by
        rw [← hfails, not_not]
        exact hfault
      have hview' : ∀ j, s₁.view j = if j = ino then (s.view ino).saved else s.view j := by
        intro j
        rw [hview]
        split
        · next heq => rw [heq]
        · rfl
      refine ⟨firstError, rfl, visited_freed firstError hinv ((hfind ino).trans hf) ?_ hslots hfind
        hview' ?_ ?_⟩
      · rw [hone]
        exact htick
      · rw [View.visited, if_pos ⟨hpending, hout⟩]
      · intro i hi
        rw [hone] at hi
        rw [List.mem_singleton.mp hi]
        exact hout
  · have hattempt : Prog.attempt (flushSlot env slot .skip) s = (.ok (.ok ()), s) := by
      unfold Prog.attempt
      rw [flushSlot_rest hf hrest]
    have hview : ∀ j, s.view j = if j = ino then s.view ino else s.view j := by
      intro j
      split
      · next heq => rw [heq]
      · rfl
    rw [visitSlot, Prog.wp_bind_ok hattempt]
    refine ⟨firstError, rfl, visited_freed firstError h hf ?_ (fun i _ => rfl) (fun i => rfl) hview
      ?_ ?_⟩
    · rw [hnone]
      rfl
    · rw [View.visited, if_neg fun hboth => hrest hboth.1]
    · intro i hi
      rw [hnone] at hi
      cases hi

structure VisitedAll (env : Env) (F : Nat → Prop) (slots : List Slot)
    (firstError result : Option Errno) (s s' : Shared) : Prop where
  tick : s'.tick = s.tick + (s.pending slots).length
  visited : ∀ slot ∈ slots, ∀ j, s.table.inodes.find j = some slot →
    s'.view j = (s.view j).visited (F j)
  others : ∀ j, (∀ slot ∈ slots, s.table.inodes.find j ≠ some slot) → s'.view j = s.view j
  find : ∀ j, s'.table.inodes.find j = .none ∨ s'.table.inodes.find j = s.table.inodes.find j
  none : result = .none ↔ firstError = .none ∧ ∀ ino ∈ s.pending slots, ¬F ino
  error : ∀ e, result = some e →
    firstError = some e ∨ firstError = .none ∧ Refused env s.tick (s.pending slots) e

private theorem VisitedAll.nil (firstError : Option Errno) :
    VisitedAll env F [] firstError firstError s s := by
  refine ⟨rfl, ?_, fun _ _ => rfl, fun _ => .inr rfl, ?_, fun _ he => .inl he⟩
  · intro slot hin
    cases hin
  · constructor
    · intro hfirst
      refine ⟨hfirst, ?_⟩
      intro i hi
      cases hi
    · exact And.left

private theorem VisitedAll.cons {s'' : Shared} {slots : List Slot}
    {firstError result result' : Option Errno}
    (h : s.Inv held busy) (hf : s.table.inodes.find ino = some slot) (hslot : slot ∉ slots)
    (hone : Visited env F slot ino firstError result s s')
    (hrest : VisitedAll env F slots result result' s' s'') :
    VisitedAll env F (slot :: slots) firstError result' s s'' := by
  have hsplit : s.pending (slot :: slots) = s.pending [slot] ++ s.pending slots :=
    pending_append s [slot] slots
  have hsame : s'.pending slots = s.pending slots := by
    apply pending_congr
    intro i hi
    apply hone.slots
    rintro rfl
    exact hslot hi
  have hgone : ∀ i ∈ slots, s'.table.inodes.find ino ≠ some i := by
    intro i hi heq
    rcases hone.own with hnone | hkept
    · cases hnone.symm.trans heq
    · rw [hkept, hf] at heq
      exact hslot (Option.some.inj heq ▸ hi)
  have hself : s''.view ino = (s.view ino).visited (F ino) := by
    rw [hrest.others ino hgone, hone.view, if_pos rfl]
  constructor
  case tick =>
    rw [hrest.tick, hone.tick, hsame, hsplit, List.length_append, Nat.add_assoc]
  case visited =>
    intro i hi j hj
    rcases List.mem_cons.mp hi with rfl | hin
    · rw [h.table.find_inj hj hf]
      exact hself
    · have hne : j ≠ ino := by
        rintro rfl
        rw [hf] at hj
        exact hslot (Option.some.inj hj ▸ hin)
      rw [hrest.visited i hin j ((hone.find j hne).trans hj), hone.view, if_neg hne]
  case others =>
    intro j hj
    have hne : j ≠ ino := by
      rintro rfl
      exact hj slot List.mem_cons_self hf
    rw [hrest.others j, hone.view, if_neg hne]
    intro i hi
    rw [hone.find j hne]
    exact hj i (List.mem_cons_of_mem _ hi)
  case find =>
    intro j
    rcases hrest.find j with hnone | hkept
    · exact .inl hnone
    · rw [hkept]
      by_cases heq : j = ino
      · rw [heq]
        exact hone.own
      · exact .inr (hone.find j heq)
  case none =>
    rw [hrest.none, hone.none, hsame, hsplit, and_assoc, List.forall_mem_append]
  case error =>
    intro e he
    rcases hrest.error e he with hfirst | ⟨hfirst, hrefused⟩
    · refine (hone.error e hfirst).imp_right fun hrefused => ⟨hrefused.1, ?_⟩
      rw [hsplit]
      exact hrefused.2.append_left
    · refine .inr ⟨(hone.none.mp hfirst).1, ?_⟩
      rw [hsame, hone.tick] at hrefused
      rw [hsplit]
      exact hrefused.append_right

private theorem flushEach_view (slots : List Slot) (firstError : Option Errno) (h : s.Inv held busy)
    (hnodup : slots.Nodup) (hlive : ∀ slot ∈ slots, ∃ ino, s.table.inodes.find ino = some slot)
    (hF : Realizes env F s.tick (s.pending slots)) :
    Prog.wp (flushEach env slots firstError) (fun r s' => ∃ result, r = .ok result ∧
      VisitedAll env F slots firstError result s s') s := by
  induction slots generalizing s firstError with
  | nil => exact ⟨firstError, rfl, .nil firstError⟩
  | cons slot slots ih =>
    rw [List.nodup_cons] at hnodup
    obtain ⟨ino, hf⟩ := hlive slot List.mem_cons_self
    have hsplit : s.pending (slot :: slots) = s.pending [slot] ++ s.pending slots :=
      pending_append s [slot] slots
    rw [hsplit] at hF
    rw [Prog.wp_of_eq (flushEach_cons slots firstError)]
    apply Prog.wp_bind (visitSlot_view firstError h hf hF.append_left)
    · rintro result s₁ ⟨_, ⟨⟩, hinv, hone⟩
      have hne : ∀ i ∈ slots, i ≠ slot := by
        rintro i hi rfl
        exact hnodup.1 hi
      have hlive₁ : ∀ i ∈ slots, ∃ j, s₁.table.inodes.find j = some i := by
        intro i hi
        obtain ⟨j, hj⟩ := hlive i (List.mem_cons_of_mem _ hi)
        refine ⟨j, (hone.find j ?_).trans hj⟩
        rintro rfl
        rw [hf] at hj
        exact hne i hi (Option.some.inj hj).symm
      have hF₁ : Realizes env F s₁.tick (s₁.pending slots) := by
        rw [hone.tick, pending_congr fun i hi => hone.slots i (hne i hi)]
        exact hF.append_right
      refine Prog.wp_mono (ih result hinv hnodup.2 hlive₁ hF₁) ?_
      rintro _ s' ⟨result', rfl, hrest⟩
      exact ⟨result', rfl, .cons h hf hnodup.1 hone hrest⟩
    · rintro e s₁ ⟨result, hnone, -⟩
      cases hnone

/-- The inodes that `flush_all` writes, in the order in which it visits them. -/
def writing (env : Env) (s : Shared) : List Nat :=
  s.pending (env.order s.tick s.table.inodes.values)

/-- Among the transactions of `flush_all` those of the inodes in `F` fail. -/
def FailsFor (env : Env) (F : Nat → Prop) (s : Shared) : Prop :=
  Realizes env F (s.tick + 1) (writing env s)

/-- The clock at the sync that ends `flush_all`. -/
def syncTick (env : Env) (s : Shared) : Nat := s.tick + 1 + (writing env s).length

private theorem flushAllLocked_view (h : s.Inv held busy) (hF : FailsFor env F s) :
    Prog.wp (flushAllLocked env) (fun r s' => ∃ result, r = .ok result ∧ s'.tick = syncTick env s ∧
      (∀ j, s'.view j = (s.view j).visited (F j)) ∧
      (∀ j, s'.table.inodes.find j = none ∨ s'.table.inodes.find j = s.table.inodes.find j) ∧
      (result = none ↔ ∀ ino ∈ writing env s, ¬F ino) ∧
      ∀ e, result = some e → Refused env (s.tick + 1) (writing env s) e) s := by
  rw [flushAllLocked, wp_order_bind, wp_table_bind]
  have hperm := env.order_perm s.tick s.table.inodes.values
  have hinv : Shared.Inv held busy { s with tick := s.tick + 1 } := h.of_eq rfl rfl rfl
  have hnodup := (List.nodup_append.mp h.table.slots).1
  have hlive : ∀ slot ∈ env.order s.tick s.table.inodes.values,
      ∃ ino, s.table.inodes.find ino = some slot := by
    intro slot hin
    exact ⟨_, h.table.find_of_mem (hperm.mem_iff.mp hin)⟩
  refine Prog.wp_mono (flushEach_view _ none hinv (hperm.nodup_iff.mpr hnodup) hlive hF) ?_
  rintro _ s' ⟨result, rfl, hall⟩
  refine ⟨result, rfl, hall.tick, fun j => ?_, hall.find, ?_, fun e he => ?_⟩
  · rcases hf : s.table.inodes.find j with _ | slot
    · have hnone : (s.view j).live = none := OpenTable.file_eq_none.mpr hf
      have hsame : (s.view j).visited (F j) = s.view j := by
        rw [View.visited, if_neg, View.freed, if_neg]
        · rintro ⟨o, ho, -⟩
          cases hnone.symm.trans ho
        · rintro ⟨⟨o, ho, -⟩, -⟩
          cases hnone.symm.trans ho
      rw [hsame]
      apply hall.others
      intro slot _ heq
      cases hf.symm.trans heq
    · exact hall.visited slot (hperm.mem_iff.mpr (h.table.find_mem hf)) j hf
  · refine hall.none.trans ⟨And.right, fun hnone => ⟨rfl, hnone⟩⟩
  · rcases hall.error e he with hfirst | ⟨-, hrefused⟩
    · cases hfirst
    · exact hrefused

private theorem flushAllSync_view (firstError : Option Errno) :
    Prog.wp (flushAllSync env firstError) (fun r s' => s'.db = s.db ∧ s'.table = s.table ∧
      (r = .ok () ↔ firstError = none ∧ env.fault s.tick = none) ∧
      ∀ e, r = .error e → firstError = some e ∨
        firstError = none ∧ env.fault s.tick ≠ none ∧ e = Errno.EIO) s := by
  apply wp_flushAllSync
  apply wp_syncDurable
  · intro failure hfault
    have hsome : env.fault s.tick ≠ none := hfault ▸ Option.some_ne_none failure
    rcases firstError with _ | errno
    · refine ⟨rfl, rfl, ⟨nofun, fun hnone => (hsome hnone.2).elim⟩, ?_⟩
      intro e he
      cases he
      exact .inr ⟨rfl, hsome, rfl⟩
    · refine ⟨rfl, rfl, ⟨nofun, fun hnone => nomatch hnone.1⟩, ?_⟩
      intro e he
      cases he
      exact .inl rfl
  · intro hfault
    rcases firstError with _ | errno
    · exact ⟨rfl, rfl, ⟨fun _ => ⟨rfl, hfault⟩, fun _ => rfl⟩, nofun⟩
    · refine ⟨rfl, rfl, ⟨nofun, fun hnone => nomatch hnone.1⟩, ?_⟩
      intro e he
      cases he
      exact .inl rfl

private theorem flushAll_view (h : s.Inv held busy) (hF : FailsFor env F s) :
    Prog.wp (flushAll env) (fun r s' => (∀ j, s'.view j = (s.view j).visited (F j)) ∧
      (∀ j, s'.table.inodes.find j = none ∨ s'.table.inodes.find j = s.table.inodes.find j) ∧
      (r = .ok () ↔ (∀ ino ∈ writing env s, ¬F ino) ∧ env.fault (syncTick env s) = none) ∧
      ∀ e, r = .error e → Refused env (s.tick + 1) (writing env s) e ∨
        (∀ ino ∈ writing env s, ¬F ino) ∧ env.fault (syncTick env s) ≠ none ∧ e = Errno.EIO) s := by
  apply Prog.wp_bind (flushAllLocked_view h hF)
  · rintro result s₁ ⟨_, ⟨⟩, htick, hview, hfind, hnone, herror⟩
    refine Prog.wp_mono (flushAllSync_view result) ?_
    rintro r s' ⟨hdb, htable, hok, hsync⟩
    rw [htick] at hok hsync
    refine ⟨fun j => (view_congr hdb htable j).trans (hview j), fun j => ?_, ?_, fun e he => ?_⟩
    · rw [htable]
      exact hfind j
    · rw [hok, hnone]
    · exact (hsync e he).imp (herror e) fun hfailed => ⟨hnone.mp hfailed.1, hfailed.2⟩
  · rintro e s₁ ⟨result, hnone, -⟩
    cases hnone

end Loop

section Outcome

variable {F : Nat → Prop}

private theorem pending_file :
    (s.view ino).Pending ↔ ¬(s.file ino).Clean ∧ (s.file ino).unlinked = false := by
  constructor
  · rintro ⟨o, ho, hdirty, hlinked⟩
    refine ⟨fun hclean => hdirty (hclean o ho), ?_⟩
    rw [File.unlinked, show (s.file ino).live = some o from ho]
    exact hlinked
  · rintro ⟨hdirty, hlinked⟩
    obtain ⟨o, ho⟩ := Classical.not_forall.mp hdirty
    rw [Classical.not_imp] at ho
    rw [File.unlinked, ho.1] at hlinked
    exact ⟨o, ho.1, ho.2, hlinked⟩

private theorem idle_file (hf : s.table.inodes.find ino = some slot) :
    (s.view ino).Idle ↔ (s.file ino).refs = 0 ∧ (s.file ino).Clean := by
  have hlive : (s.file ino).live = some (s.table.fileAt slot) := OpenTable.file_of_find hf
  have hrefs : (s.file ino).refs = (s.table.fileAt slot).refs := by
    rw [File.refs, hlive]
    rfl
  constructor
  · rintro ⟨o, ho, hzero, hclean⟩
    cases hlive.symm.trans ho
    refine ⟨hrefs.trans hzero, fun o ho => ?_⟩
    cases hlive.symm.trans ho
    exact hclean
  · rintro ⟨hzero, hclean⟩
    exact ⟨_, hlive, hrefs.symm.trans hzero, hclean _ hlive⟩

private theorem mem_writing (h : s.Inv held busy) : ino ∈ writing env s ↔ (s.view ino).Pending := by
  have hperm := env.order_perm s.tick s.table.inodes.values
  constructor
  · intro hin
    obtain ⟨slot, hslot, rfl⟩ := List.mem_map.mp hin
    obtain ⟨hvisited, hboth⟩ := List.mem_filter.mp hslot
    rw [Bool.and_eq_true, Bool.not_eq_true', Bool.not_eq_true'] at hboth
    exact (pending_iff (h.table.find_of_mem (hperm.mem_iff.mp hvisited))).mpr hboth
  · intro hpending
    obtain ⟨o, ho, -⟩ := id hpending
    obtain ⟨slot, hf, -⟩ := Option.map_eq_some_iff.mp ho
    obtain ⟨hempty, hlinked⟩ := (pending_iff hf).mp hpending
    refine List.mem_map.mpr ⟨slot, List.mem_filter.mpr ⟨?_, ?_⟩, h.table.find_ino hf⟩
    · exact hperm.mem_iff.mpr (h.table.find_mem hf)
    · rw [hempty, hlinked]
      rfl

private theorem freed_eq_none {v : View} : v.freed.live = none ↔ v.live = none ∨ v.Idle := by
  by_cases hidle : v.Idle
  · rw [View.freed, if_pos hidle]
    exact ⟨fun _ => .inr hidle, fun _ => rfl⟩
  · rw [View.freed, if_neg hidle]
    exact ⟨.inl, fun hnone => hnone.resolve_right hidle⟩

private theorem saved_live (hf : s.table.inodes.find ino = some slot) :
    (s.view ino).saved.live = some (s.table.fileAt slot).flushed := by
  rw [View.saved, Shared.view, OpenTable.file_of_find hf, OpenTable.mtimeOf, hf]
  rfl

private theorem visited_eq_none (hf : s.table.inodes.find ino = some slot) {fails : Prop} :
    ((s.view ino).visited fails).live = none ↔ (s.file ino).refs = 0 ∧
      ((s.file ino).Clean ∨ (s.file ino).unlinked = false ∧ ¬fails) := by
  have hlive : (s.file ino).live = some (s.table.fileAt slot) := OpenTable.file_of_find hf
  by_cases hsaves : (s.view ino).Pending ∧ ¬fails
  · have hidle : (s.view ino).saved.Idle ↔ (s.file ino).refs = 0 := by
      rw [File.refs, hlive]
      constructor
      · rintro ⟨o, ho, hzero, -⟩
        cases (saved_live hf).symm.trans ho
        exact hzero
      · intro hzero
        exact ⟨_, saved_live hf, hzero, fun _ => rfl⟩
    obtain ⟨-, hlinked⟩ := pending_file.mp hsaves.1
    rw [View.visited, if_pos hsaves, freed_eq_none, hidle, saved_live hf]
    constructor
    · rintro (hnone | hzero)
      · cases hnone
      · exact ⟨hzero, .inr ⟨hlinked, hsaves.2⟩⟩
    · intro hneedless
      exact .inr hneedless.1
  · rw [View.visited, if_neg hsaves, freed_eq_none, idle_file hf,
      show (s.view ino).live = some _ from hlive]
    constructor
    · rintro (hnone | ⟨hzero, hclean⟩)
      · cases hnone
      · exact ⟨hzero, .inl hclean⟩
    · rintro ⟨hzero, hdone⟩
      refine .inr ⟨hzero, by_contra fun hdirty => ?_⟩
      obtain ⟨hlinked, hok⟩ := hdone.resolve_left hdirty
      exact hsaves ⟨pending_file.mpr ⟨hdirty, hlinked⟩, hok⟩

private theorem visited_self {fails : Prop} (hdirty : ¬(s.file ino).Clean ∨ (s.file ino).refs ≠ 0)
    (hsaves : (s.view ino).Pending → fails) : (s.view ino).visited fails = s.view ino := by
  rw [View.visited, if_neg fun hboth => hboth.2 (hsaves hboth.1), View.freed, if_neg]
  intro hidle
  obtain ⟨o, ho, -⟩ := id hidle
  obtain ⟨slot, hf, -⟩ := Option.map_eq_some_iff.mp ho
  obtain ⟨hzero, hclean⟩ := (idle_file hf).mp hidle
  rcases hdirty with hdirty | hopen
  · exact hdirty hclean
  · exact hopen hzero

private theorem visited_clean {fails : Prop} (hpending : (s.view ino).Pending) (hok : ¬fails)
    (hview : s'.view ino = (s.view ino).visited fails) : (s'.file ino).Clean := by
  intro o ho
  have hlive : (s'.view ino).live = some o := ho
  obtain ⟨o', ho', -⟩ := id hpending
  obtain ⟨slot, hf, -⟩ := Option.map_eq_some_iff.mp ho'
  rw [hview, View.visited, if_pos ⟨hpending, hok⟩, View.freed] at hlive
  split at hlive
  · cases hlive
  · cases (saved_live hf).symm.trans hlive
    exact fun _ => rfl

end Outcome

end Fs

structure Db.SameRows (db db' : Db) : Prop where
  inodes : ∀ r, r ∈ db'.inodes ↔ r ∈ db.inodes
  dirents : db'.dirents = db.dirents
  fileChunks : ∀ r, r ∈ db'.fileChunks ↔ r ∈ db.fileChunks
  symlinkTargets : db'.symlinkTargets = db.symlinkTargets

private theorem Db.chunks_subset {db db' : Db} (hs : db.Sound) (hs' : db'.Sound)
    (h : ∀ ino c, db'.chunkRow ino c = db.chunkRow ino c) {row : ChunkRow}
    (hrow : row ∈ db.fileChunks) : row ∈ db'.fileChunks := by
  obtain ⟨ino, c, hc, hid, hkind, -⟩ := hs.owned.rows row hrow
  have hfound : db.chunkRow ino c = some row.data := by
    rw [Db.chunkRow, if_pos ⟨by rw [hkind]; rfl, hc⟩, ← hid]
    exact (Db.findChunk_eq_some hs.keys).mpr hrow
  rw [← h, Db.chunkRow] at hfound
  split at hfound
  · rw [← hid] at hfound
    exact (Db.findChunk_eq_some hs'.keys).mp hfound
  · cases hfound

private theorem Db.mem_inodes {db : Db} (hk : db.Keys) {r : InodeRow} :
    r ∈ db.inodes ↔ db.findInode r.ino = some r :=
  ⟨fun hr => hk.mem_iff.mpr ⟨hr, rfl⟩, fun hr => (hk.mem_iff.mp hr).1⟩

/-- The rows of an inode show in its view, so the views decide the rows. -/
private theorem Db.sameRows_of_views {s s' : Shared} (hs : s.db.Sound) (hs' : s'.db.Sound)
    (h : ∀ ino, s'.view ino = s.view ino) (hdirents : s'.db.dirents = s.db.dirents)
    (hsymlinks : s'.db.symlinkTargets = s.db.symlinkTargets) : s.db.SameRows s'.db := by
  have hrow : ∀ ino, s'.db.findInode ino = s.db.findInode ino := fun ino =>
    congrArg View.row (h ino)
  have hchunk : ∀ ino c, s'.db.chunkRow ino c = s.db.chunkRow ino c := fun ino c =>
    congrFun (congrArg View.chunk (h ino)) c
  refine ⟨fun r => ?_, hdirents, fun r => ⟨?_, ?_⟩, hsymlinks⟩
  · rw [Db.mem_inodes hs'.keys, Db.mem_inodes hs.keys, hrow]
  · exact Db.chunks_subset hs' hs fun ino c => (hchunk ino c).symm
  · exact Db.chunks_subset hs hs' hchunk

namespace Dbfs

open Fs

variable {env : Env} {s s' : Shared} {F : Nat → Prop}

/-- What `flush_all` leaves and reports. -/
structure SavesAll (env : Env) (F : Nat → Prop) (s s' : Shared) (r : Except Errno Reply) :
    Prop where
  saved : ∀ ino, ¬(s.file ino).Clean → (s.file ino).unlinked = false → ¬F ino →
    (s'.file ino).Clean ∧ (s'.db.file ino).size = (s.file ino).size ∧
      (s'.db.file ino).bytes = (s.file ino).bytes
  kept : ∀ ino, ¬(s.file ino).Clean → F ino → s'.view ino = s.view ino
  unlinked : ∀ ino, (s.file ino).unlinked = true → s'.view ino = s.view ino
  freed : ∀ ino slot, s.table.inodes.find ino = some slot →
    (s'.table.inodes.find ino = none ↔ (s.file ino).refs = 0 ∧
      ((s.file ino).Clean ∨ (s.file ino).unlinked = false ∧ ¬F ino)) ∧
    (s'.table.inodes.find ino ≠ none → s'.table.inodes.find ino = some slot)
  ok : r = .ok .empty ↔
    (∀ ino, ¬(s.file ino).Clean → (s.file ino).unlinked = false → ¬F ino) ∧
      env.fault (syncTick env s) = none
  error : ∀ e, r = .error e → Refused env (s.tick + 1) (writing env s) e ∨
    (∀ ino, ¬(s.file ino).Clean → (s.file ino).unlinked = false → ¬F ino) ∧
      env.fault (syncTick env s) ≠ none ∧ e = Errno.EIO

private theorem flushAll_call (h : s.Inv [] fun _ => False) (hF : FailsFor env F s) :
    Prog.wp (call env .flushAll) (fun r s' => s'.Inv [] (fun _ => False) ∧ Hidden s s' ∧
      s'.db.symlinkTargets = s.db.symlinkTargets ∧
      (∀ ino, s'.view ino = (s.view ino).visited (F ino)) ∧ SavesAll env F s s' r) s := by
  have hwriting : (∀ ino ∈ writing env s, ¬F ino) ↔
      ∀ ino, ¬(s.file ino).Clean → (s.file ino).unlinked = false → ¬F ino := by
    constructor
    · intro hall ino hdirty hlinked
      exact hall ino ((mem_writing h).mpr (pending_file.mpr ⟨hdirty, hlinked⟩))
    · intro hall ino hin
      obtain ⟨hdirty, hlinked⟩ := pending_file.mp ((mem_writing h).mp hin)
      exact hall ino hdirty hlinked
  refine (Prog.wp_map _ _ _ _).mpr (Prog.wp_mono (Prog.wp_and (flushAll_unseen h)
    (Prog.wp_and (flushAll_spec h) (flushAll_view h hF))) ?_)
  rintro r s' ⟨hhidden, ⟨hinv, hquiet, -⟩, hview, hfind, hok, herror⟩
  rw [hwriting] at hok
  refine ⟨hinv, hhidden, hquiet.symlinks, hview, ?_⟩
  constructor
  case saved =>
    intro ino hdirty hlinked hout
    have hclean := visited_clean (pending_file.mpr ⟨hdirty, hlinked⟩) hout (hview ino)
    have hbytes := hquiet.bytes ino not_false
    refine ⟨hclean, ?_, (hinv.bytes_of_clean hclean).symm.trans hbytes⟩
    rw [← File.length_bytes, ← hbytes, File.length_bytes]
    exact (File.size_of_clean (hinv.file_ok ino) hclean).symm
  case kept =>
    intro ino hdirty hin
    rw [hview, visited_self (.inl hdirty) fun _ => hin]
  case unlinked =>
    intro ino hunlinked
    obtain ⟨o, ho, hopen⟩ : ∃ o, (s.file ino).live = some o ∧ o.unlinked = true := by
      rw [File.unlinked] at hunlinked
      rcases ho : (s.file ino).live with _ | o
      · rw [ho] at hunlinked
        cases hunlinked
      · rw [ho] at hunlinked
        exact ⟨o, rfl, hunlinked⟩
    have hrefs : (s.file ino).refs ≠ 0 := by
      have hpos := ((h.live ino o ho).unlinked hopen).1
      rw [File.refs, ho]
      exact Nat.pos_iff_ne_zero.mp hpos
    rw [hview, visited_self (.inr hrefs)]
    intro hpending
    rw [(pending_file.mp hpending).2] at hunlinked
    cases hunlinked
  case freed =>
    intro ino slot hf
    rw [← OpenTable.file_eq_none]
    refine ⟨?_, fun hsome => ((hfind ino).resolve_left ?_).trans hf⟩
    · rw [show s'.table.file ino = (s'.view ino).live from rfl, hview]
      exact visited_eq_none hf
    · exact hsome
  case ok =>
    rw [← hok]
    rcases r with e | ⟨⟩
    · constructor
      · intro hempty
        cases hempty
      · intro hdone
        cases hdone
    · exact ⟨fun _ => rfl, fun _ => rfl⟩
  case error =>
    intro e he
    rcases r with e' | ⟨⟩
    · cases he
      rw [← hwriting]
      exact herror e rfl
    · cases he

theorem exists_failsFor (env : Env) (F : Nat → Prop) (s : Shared) :
    ∃ env' : Env, env'.order = env.order ∧ FailsFor env' F s := by
  classical
  let fault : Nat → Option SqlFailure := fun n =>
    if F ((writing env s).getD (n - (s.tick + 1)) 0) then some .full else none
  refine ⟨{ env with fault := fault }, rfl, ?_⟩
  intro k ino hk
  change (writing env s)[k]? = some ino at hk
  change (if F ((writing env s).getD (s.tick + 1 + k - (s.tick + 1)) 0) then _ else _) ≠ _ ↔ _
  rw [Nat.add_sub_cancel_left, List.getD_eq_getElem?_getD, hk, Option.getD_some]
  by_cases hin : F ino
  · rw [if_pos hin]
    exact ⟨fun _ => hin, fun _ => Option.some_ne_none _⟩
  · rw [if_neg hin]
    exact ⟨fun hne => (hne rfl).elim, fun h => (hin h).elim⟩

/-- After any legal run, whichever transactions of `flush_all` fail and in whichever order it visits
the slots, it saves all other data and keeps what it could not save; and the rows that it leaves do
not depend on the order. -/
theorem flushAll_of_run {db : Db} (hdb : db.Reached) (writeBuffer : Nat) (env : Env)
    (calls : List Call) (hcalls : LegalCalls env (.withWriteBuffer db writeBuffer) calls)
    (F : Nat → Prop) (env₁ : Env)
    (hF : FailsFor env₁ F (run env (.withWriteBuffer db writeBuffer) calls)) :
    let s := run env (.withWriteBuffer db writeBuffer) calls
    SavesAll env₁ F s (step env₁ s .flushAll) (reply env₁ s .flushAll) ∧
      ∀ env₂, FailsFor env₂ F s →
        (step env₁ s .flushAll).db.SameRows (step env₂ s .flushAll).db := by
  intro s
  have hinv : s.Inv [] fun _ => False := (inv_of_run hdb writeBuffer hcalls).1
  obtain ⟨hinv₁, hhidden₁, hsymlinks₁, hview₁, hsaves⟩ := flushAll_call hinv hF
  refine ⟨?_, fun env₂ hF₂ => ?_⟩
  · exact ⟨hsaves.saved, hsaves.kept, hsaves.unlinked, hsaves.freed, hsaves.ok, hsaves.error⟩
  · obtain ⟨hinv₂, hhidden₂, hsymlinks₂, hview₂, -⟩ := flushAll_call hinv hF₂
    exact Db.sameRows_of_views hinv₁.sound hinv₂.sound
      (fun ino => (hview₂ ino).trans (hview₁ ino).symm)
      (hhidden₂.dirents.trans hhidden₁.dirents.symm) (hsymlinks₂.trans hsymlinks₁.symm)

def twoFiles : List Call := [.createOpen 1 [97] 0o644 0 0 0, .writeFh 0 0 [1],
  .createOpen 1 [98] 0o644 0 0 0, .writeFh 1 0 [2]]

def failsAtFirst : Env := { calm with fault := fun n => if n = 9 then some .full else none }

theorem flushAll_of_twoFiles :
    let s := run calm (.withWriteBuffer (.fresh 0 0 ⟨0, 0⟩) 131072) twoFiles
    SavesAll failsAtFirst (fun ino => ino = 3) s (step failsAtFirst s .flushAll)
      (reply failsAtFirst s .flushAll) := by
  intro s
  have hwriting : writing failsAtFirst s = [3, 2] := by decide
  have htick : s.tick = 8 := by decide
  have hfails : FailsFor failsAtFirst (fun ino => ino = 3) s := by
    intro k ino hk
    rw [hwriting] at hk
    rw [htick]
    rcases k with _ | _ | k
    · cases hk
      decide
    · cases hk
      decide
    · cases hk
  exact (flushAll_of_run (.fresh 0 0 ⟨0, 0⟩) 131072 calm twoFiles (by decide) _ failsAtFirst
    hfails).1

end Dbfs

end VibeDbfs
