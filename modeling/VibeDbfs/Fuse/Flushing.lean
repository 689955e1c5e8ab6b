import VibeDbfs.Fuse.World

/-!
Flushing: the dirty chunks of one file go to the store, and its content stays what it was.
-/

set_option autoImplicit false
set_option relaxedAutoImplicit false

namespace VibeDbfs

open Lib Lib.Bytes Shared

variable {s : Shared} {env : Env} {held : List ArenaSlot} {busy touched : Nat → Prop} {ino : Nat}
  {slot : Slot}

theorem Db.named_congr {db db' : Db} (h : db'.names = db.names) : db'.Named ino ↔ db.Named ino := by
  have hkind : db'.kindOf ino = db.kindOf ino := congrFun (congrArg Names.kind h) ino
  have hnlink : db'.nlinkOf ino = db.nlinkOf ino := congrFun (congrArg Names.nlink h) ino
  rw [Named, Named, hkind, hnlink]

theorem Env.not_healthy (env : Env) {tick : Nat} {failure : SqlFailure}
    (h : env.fault tick = some failure) : ¬env.Healthy := fun hhealthy => by
  rw [hhealthy] at h
  cases h

namespace Fs

section Rules

variable {α : Type}

@[simp] theorem wp_table_bind (f : OpenTable → Fs α) (Q : Except Errno α → Shared → Prop) :
    Prog.wp (table >>= f) Q s ↔ Prog.wp (f s.table) Q s := Iff.rfl

@[simp] theorem wp_updateTable (f : OpenTable → OpenTable) (Q : Except Errno Unit → Shared → Prop) :
    Prog.wp (updateTable f) Q s ↔ Q (.ok ()) { s with table := f s.table } := Iff.rfl

@[simp] theorem wp_updateTable_bind (f : OpenTable → OpenTable) (g : Unit → Fs α)
    (Q : Except Errno α → Shared → Prop) :
    Prog.wp (updateTable f >>= g) Q s ↔ Prog.wp (g ()) Q { s with table := f s.table } := Iff.rfl

@[simp] theorem wp_record (Q : Except Errno Unit → Shared → Prop) :
    Prog.wp record Q s ↔ Q (.ok ()) (s.record fun _ => false) := Iff.rfl

@[simp] theorem wp_now_bind (f : Timestamp → Fs α) (Q : Except Errno α → Shared → Prop) :
    Prog.wp (now env >>= f) Q s ↔
      Prog.wp (f (.fromSystemTime (env.clock s.tick))) Q { s with tick := s.tick + 1 } := Iff.rfl

@[simp] theorem wp_order_bind (f : (List Slot → List Slot) → Fs α)
    (Q : Except Errno α → Shared → Prop) :
    Prog.wp (order env >>= f) Q s ↔
      Prog.wp (f (env.order s.tick)) Q { s with tick := s.tick + 1 } := Iff.rfl

theorem wp_access {f : Db → Except DbError (α × Db)} {Q : Except Errno α → Shared → Prop}
    (hfault : ∀ failure, env.fault s.tick = some failure →
      Q (.error (errnoFromDbError failure.toDbError))
        { s with tick := s.tick + 1, failures := s.failures + 1 })
    (herror : ∀ error, f s.db = .error error →
      Q (.error (errnoFromDbError error)) { s with tick := s.tick + 1 })
    (hok : ∀ a db, f s.db = .ok (a, db) → Q (.ok a) { s with tick := s.tick + 1, db := db }) :
    Prog.wp (access env f) Q s := by
  unfold Prog.wp access
  dsimp only
  split
  · next failure h => exact hfault failure h
  · split
    · next error h => exact herror error h
    · next a db h => exact hok a db h

theorem wp_query {f : Db → Except DbError α} {Q : Except Errno α → Shared → Prop}
    (hfault : ∀ failure, env.fault s.tick = some failure →
      Q (.error (errnoFromDbError failure.toDbError))
        { s with tick := s.tick + 1, failures := s.failures + 1 })
    (herror : ∀ error, f s.db = .error error →
      Q (.error (errnoFromDbError error)) { s with tick := s.tick + 1 })
    (hok : ∀ a, f s.db = .ok a → Q (.ok a) { s with tick := s.tick + 1 }) :
    Prog.wp (query env f) Q s := by
  refine wp_access hfault (fun error h => herror error ?_) fun a db h => ?_
  · rcases hf : f s.db with e | a
    · rw [hf] at h
      cases h
      rfl
    · rw [hf] at h
      cases h
  · rcases hf : f s.db with e | b
    · rw [hf] at h
      cases h
    · rw [hf] at h
      cases h
      exact hok a hf

theorem wp_exec {f : Db → Except DbError Db} {Q : Except Errno Unit → Shared → Prop}
    (hfault : ∀ failure, env.fault s.tick = some failure →
      Q (.error (errnoFromDbError failure.toDbError))
        { s with tick := s.tick + 1, failures := s.failures + 1 })
    (herror : ∀ error, f s.db = .error error →
      Q (.error (errnoFromDbError error)) { s with tick := s.tick + 1 })
    (hok : ∀ db, f s.db = .ok db → Q (.ok ()) { s with tick := s.tick + 1, db := db }) :
    Prog.wp (exec env f) Q s := by
  refine wp_access hfault (fun error h => herror error ?_) fun a db h => ?_
  · rcases hf : f s.db with e | db
    · rw [hf] at h
      cases h
      rfl
    · rw [hf] at h
      cases h
  · rcases hf : f s.db with e | db'
    · rw [hf] at h
      cases h
    · rw [hf] at h
      cases h
      exact hok _ hf

theorem wp_syncDurable {Q : Except Errno Unit → Shared → Prop}
    (hfault : ∀ failure, env.fault s.tick = some failure →
      Q (.error Errno.EIO) { s with tick := s.tick + 1, failures := s.failures + 1 })
    (hok : env.fault s.tick = none → Q (.ok ()) { s with tick := s.tick + 1 }) :
    Prog.wp (syncDurable env) Q s := by
  unfold Prog.wp syncDurable
  dsimp only
  split
  · next failure h => exact hfault failure h
  · next h => exact hok h

theorem within_syncDurable {R : Shared → Shared → Prop}
    (hfault : ∀ s : Shared, R s { s with tick := s.tick + 1, failures := s.failures + 1 })
    (hok : ∀ s : Shared, R s { s with tick := s.tick + 1 }) :
    Prog.Within R (syncDurable env) := by
  intro s
  change Prog.wp (syncDurable env) (fun _ s' => R s s') s
  apply wp_syncDurable
  · intro _ _
    exact hfault s
  · intro _
    exact hok s

theorem wp_flushAllSync {Q : Except Errno Unit → Shared → Prop} {firstError : Option Errno}
    (h : Prog.wp (syncDurable env) (fun r s' => Q (firstError.elim r .error) s') s) :
    Prog.wp (flushAllSync env firstError) Q s := by
  rw [flushAllSync, Prog.wp_bind_iff, Prog.wp_attempt]
  refine Prog.wp_mono h ?_
  intro r s' hr
  rcases firstError with _ | errno
  · rcases r with errno | ⟨⟩
    · exact hr
    · exact hr
  · exact hr

section Within

variable {R : Shared → Shared → Prop} [IsPreorder Shared R]

theorem within_table : Prog.Within R table := fun s => refl_of R s

theorem within_ifSome {x : Option α} {f : α → Fs Unit} (hf : ∀ a, Prog.Within R (f a)) :
    Prog.Within R (ifSome x f) := by
  cases x with
  | none => exact .pure ()
  | some a => exact hf a

theorem within_onlyIf {c : Prop} [Decidable c] {x : Fs Unit} (hx : Prog.Within R x) :
    Prog.Within R (onlyIf c x) := by
  unfold onlyIf
  split
  · exact hx
  · exact .pure ()

theorem within_orErrno (errno : Errno) (x : Option α) : Prog.Within R (orErrno errno x) := by
  cases x with
  | none => exact .throw errno
  | some a => exact .pure a

theorem within_errnoOfKind (kind : FileKind) : Prog.Within R (errnoOfKind kind) := by
  unfold errnoOfKind
  split
  · exact .throw _
  · exact .pure ()

end Within

theorem access_outcome (env : Env) (f : Db → Except DbError (α × Db)) (s : Shared) :
    Prog.wp (access env f) (fun r s' => s'.tick = s.tick + 1 ∧ s'.table = s.table ∧ match r with
      | .ok a => env.fault s.tick = none ∧ f s.db = .ok (a, s'.db)
      | .error _ => s'.db = s.db ∧ (env.fault s.tick ≠ none ∨ ∃ error, f s.db = .error error))
        s := by
  unfold Prog.wp access
  dsimp only
  rcases hfault : env.fault s.tick with _ | failure
  · rcases hf : f s.db with error | ⟨a, db⟩
    · exact ⟨rfl, rfl, rfl, .inr ⟨error, rfl⟩⟩
    · exact ⟨rfl, rfl, rfl, rfl⟩
  · refine ⟨rfl, rfl, rfl, .inl ?_⟩
    intro h
    cases h

theorem exec_outcome (env : Env) (f : Db → Except DbError Db) (s : Shared) :
    Prog.wp (exec env f) (fun r s' => s'.tick = s.tick + 1 ∧ s'.table = s.table ∧ match r with
      | .ok _ => env.fault s.tick = none ∧ f s.db = .ok s'.db
      | .error _ => s'.db = s.db ∧ (env.fault s.tick ≠ none ∨ ∃ error, f s.db = .error error))
        s := by
  refine Prog.wp_mono (access_outcome env _ s) fun r s' hs' => ⟨hs'.1, hs'.2.1, ?_⟩
  have hresult := hs'.2.2
  rcases hf : f s.db with error | db
  · rw [hf] at hresult
    rcases r with e | ⟨⟩
    · exact ⟨hresult.1, .inr ⟨error, rfl⟩⟩
    · cases hresult.2
  · rw [hf] at hresult
    rcases r with e | ⟨⟩
    · refine ⟨hresult.1, .inl (hresult.2.resolve_right ?_)⟩
      rintro ⟨error, herror⟩
      cases herror
    · obtain ⟨-, hdb⟩ := Prod.mk.inj (Except.ok.inj hresult.2)
      exact ⟨hresult.1, congrArg Except.ok hdb⟩

theorem exec_errno (env : Env) (f : Db → Except DbError Db) (s : Shared) :
    Prog.wp (exec env f) (fun r _ => ∀ e, r = .error e →
      (∃ failure, env.fault s.tick = some failure ∧ e = errnoFromDbError failure.toDbError) ∨
        ∃ error, f s.db = .error error ∧ e = errnoFromDbError error) s := by
  apply wp_exec
  · intro failure hfault e he
    cases he
    exact .inl ⟨failure, hfault, rfl⟩
  · intro error herror e he
    cases he
    exact .inr ⟨error, herror, rfl⟩
  · intro db _ e he
    cases he

theorem query_outcome (env : Env) (f : Db → Except DbError α) (s : Shared) :
    Prog.wp (query env f) (fun r s' => s'.tick = s.tick + 1 ∧ s'.table = s.table ∧ s'.db = s.db ∧
      match r with
      | .ok a => env.fault s.tick = none ∧ f s.db = .ok a
      | .error _ => env.fault s.tick ≠ none ∨ ∃ error, f s.db = .error error) s := by
  refine Prog.wp_mono (access_outcome env _ s) fun r s' hs' => ⟨hs'.1, hs'.2.1, ?_⟩
  have hresult := hs'.2.2
  rcases hf : f s.db with error | a
  · rw [hf] at hresult
    rcases r with e | a
    · exact ⟨hresult.1, .inr ⟨error, rfl⟩⟩
    · cases hresult.2
  · rw [hf] at hresult
    rcases r with e | a'
    · refine ⟨hresult.1, .inl (hresult.2.resolve_right ?_)⟩
      rintro ⟨error, herror⟩
      cases herror
    · obtain ⟨hvalue, hdb⟩ := Prod.mk.inj (Except.ok.inj hresult.2)
      exact ⟨hdb.symm, hresult.1, congrArg Except.ok hvalue⟩

end Rules

section Chunks

variable {t : OpenTable} {o : OpenInode}

theorem replacement_dirtyChunks (c : Nat) :
    Db.replacement (dirtyChunks t o) c = (t.view o).dirty c := by
  rw [Db.replacement, dirtyChunks, List.find?_map, Option.map_map]
  change _ = Option.map _ (Option.map _ _)
  rw [Option.map_map]
  rfl

theorem fits_dirtyChunks {db : Db} (hsorted : o.dirty.Sorted) (ha : (t.view o).Agrees (db.file ino))
    (hdirty : ¬(t.view o).Clean) : db.Fits ino o.size (dirtyChunks t o) := by
  have hmem : ∀ e ∈ dirtyChunks t o, (t.view o).dirty e.1 = some e.2 := by
    intro e he
    obtain ⟨⟨c, a⟩, hin, rfl⟩ := List.mem_map.mp he
    change (o.dirty.lookup c).map t.arena.chunk = _
    rw [(DirtyIdx.lookup_eq_some hsorted).mpr hin]
    rfl
  have hregular : (t.view o).kind = .regularFile := by
    obtain ⟨c, hc⟩ := Classical.not_forall.mp hdirty
    obtain ⟨bytes, hbytes⟩ := Option.ne_none_iff_exists'.mp hc
    exact (ha.dirty c bytes hbytes).1
  refine ⟨ha.kind.trans (congrArg some hregular), ha.grows, ha.max hregular, ?_, fun e he => ?_,
    fun e he => ?_, fun e he => ?_⟩
  · rw [dirtyChunks, List.map_map]
    exact hsorted.nodup
  · exact (ha.dirty e.1 e.2 (hmem e he)).2.1
  · exact (ha.dirty e.1 e.2 (hmem e he)).2.2.2.1
  · exact (ha.dirty e.1 e.2 (hmem e he)).2.2.2.2

end Chunks

private theorem flush_core (h : s.Core held busy) (hf : s.table.inodes.find ino = some slot)
    (hdirty : ¬(s.table.fileAt slot).Clean) (tick : Nat) {db : Db} {modified : Timestamp}
    (hdb : s.db.replaceChunks ino (s.table.inodes.get slot).size
      (dirtyChunks s.table (s.table.inodes.get slot)) modified = .ok db) :
    let s' := { s with tick := tick, db := db, table := s.table.releaseDirty slot }
    s'.Core held busy ∧ Quiet s s' ∧ (s'.file ino).Clean ∧
      ∀ j, j ≠ ino → s'.file j = s.file j := by
  intro s'
  have hfile := OpenTable.file_of_find hf
  have ha := h.live ino _ hfile
  have hfits := fits_dirtyChunks (h.table.sorted slot) ha hdirty
  obtain rfl := Db.replaceChunks_eq hdb
  obtain ⟨hwf, hhandles, hfiles⟩ := h.table.releaseDirty hf
  have hstored : ∀ j, s'.db.file j =
      if j = ino then (s.db.file ino).flush (s.table.fileAt slot) else s.db.file j := fun j => by
    refine (Db.file_upsertAll h.sound hfits j).trans ?_
    simp only [replacement_dirtyChunks]
    rfl
  have hlive : ∀ j, s'.table.file j =
      if j = ino then some (s.table.fileAt slot).flushed else s.table.file j := hfiles
  have hother : ∀ j, j ≠ ino → s'.file j = s.file j := fun j hj => by
    rw [Shared.file, hstored, hlive, if_neg hj, if_neg hj]
    rfl
  have hself : s'.file ino =
      ⟨(s.db.file ino).flush (s.table.fileAt slot), some (s.table.fileAt slot).flushed⟩ := by
    rw [Shared.file, hstored, hlive, if_pos rfl, if_pos rfl]
  have hbefore : s.file ino = ⟨s.db.file ino, some (s.table.fileAt slot)⟩ := by
    rw [Shared.file, hfile]
  have hclean : (s'.file ino).Clean := by
    rw [hself]
    rintro o ⟨⟩ c
    rfl
  refine ⟨⟨h.sound.replaceChunks hfits, hwf, fun j o ho => ?_, fun j o ho hd => ?_, h.chronicle⟩,
    ?_,
    hclean, hother⟩
  · rw [hlive] at ho
    rw [hstored]
    split at ho
    · next heq =>
      cases ho
      rw [heq, if_pos rfl]
      exact File.agrees_flush ha
    · next hne =>
      rw [if_neg hne]
      exact h.live j o ho
  · rw [hlive] at ho
    split at ho
    · next heq =>
      cases ho
      exact heq ▸ h.directory ino _ hfile hd
    · exact h.directory j o ho hd
  · refine Frame.of_file (Db.names_setSize.trans Db.names_upsertAll) Db.upsertAll_rows.2.2 hother
      (fun _ => ⟨?_, fun _ => hclean⟩) ?_ ?_ hhandles rfl OpenTable.maxSlots_releaseDirty
    · rw [hself, hbefore]
      exact File.bytes_flush
    · rw [hself, hbefore]
      rfl
    · rw [hself, hbefore]
      rfl

theorem flushSlot_spec (mode : Unlinked) (h : s.Inv held busy)
    (hf : s.table.inodes.find ino = some slot) :
    Prog.wp (flushSlot env slot mode) (fun r s' =>
      s'.Inv held busy ∧ Quiet s s' ∧
        (∀ i, s'.table.inodes.find i = s.table.inodes.find i) ∧
        (∀ j, j ≠ ino → s'.file j = s.file j) ∧
        match r with
        | .ok _ => s'.failures = s.failures ∧
            ((s'.file ino).Clean ∨ (s'.file ino).unlinked = true ∧ mode = .skip)
        | .error _ => s.failures < s'.failures ∧ ¬env.Healthy ∧ s'.file ino = s.file ino) s := by
  have hbefore : s.file ino = ⟨s.db.file ino, some (s.table.fileAt slot)⟩ := by
    rw [Shared.file, OpenTable.file_of_find hf]
  rw [flushSlot, wp_table_bind]
  dsimp only
  split
  · next hskip =>
    rw [Prog.wp_pure]
    refine ⟨h, Frame.refl s, fun _ => rfl, fun _ _ => rfl, rfl, ?_⟩
    rw [hbefore]
    rw [Bool.or_eq_true, Bool.and_eq_true, beq_iff_eq] at hskip
    rcases hskip with hclean | ⟨hunlinked, hmode⟩
    · left
      rintro o ⟨⟩
      exact OpenTable.clean_iff.mpr hclean
    · exact .inr ⟨hunlinked, hmode⟩
  · next hflush =>
    have hdirty : ¬(s.table.fileAt slot).Clean := fun hclean => hflush (by
      rw [OpenTable.clean_iff.mp hclean]
      rfl)
    rw [h.table.find_ino hf, Prog.wp_bind_iff]
    refine wp_exec (fun failure hfault => ?_) (fun error herror => ?_) fun db hdb => ?_
    · exact ⟨h.of_eq rfl rfl rfl, Frame.of_eq rfl rfl, fun _ => rfl, fun _ _ => rfl,
        Nat.lt_succ_self _, env.not_healthy hfault, rfl⟩
    · cases herror
    · obtain ⟨hcore, hquiet, hclean, hother⟩ := flush_core h.toCore hf hdirty (s.tick + 1) hdb
      rw [wp_updateTable_bind, wp_record]
      refine ⟨hcore.record _ fun j hnamed => ?_, hquiet.trans (Frame.of_eq rfl rfl), fun _ => rfl,
        hother, rfl, .inl hclean⟩
      by_cases heq : j = ino
      · subst heq
        exact .inl (hcore.bytes_of_clean hclean)
      · refine .inr ⟨rfl, ?_⟩
        have hstored : db.file j = s.db.file j := congrArg File.stored (hother j heq)
        change Since j (db.file j).bytes s.moments
        rw [hstored]
        exact h.since j ((Db.named_congr hquiet.names).mp hnamed)

theorem freeIfIdle_core (h : s.Core held busy) (hf : s.table.inodes.find ino = some slot) :
    let s' := { s with table := s.table.freeIfIdle slot }
    s'.Core held busy ∧ Quiet s s' ∧
      (∀ i, i ≠ ino → s'.table.inodes.find i = s.table.inodes.find i) ∧
      (∀ j, j ≠ ino → s'.file j = s.file j) ∧
      ((s'.table.file ino = none ∧ (s.file ino).refs = 0 ∧ (s.file ino).Clean) ∨
        (¬((s.file ino).refs = 0 ∧ (s.file ino).Clean) ∧ s' = s)) := by
  intro s'
  have hfile := OpenTable.file_of_find hf
  have hbefore : s.file ino = ⟨s.db.file ino, some (s.table.fileAt slot)⟩ := by
    rw [Shared.file, hfile]
  have hclean : (s.file ino).Clean ↔ (s.table.fileAt slot).Clean := by
    rw [hbefore]
    exact ⟨fun hc => hc _ rfl, fun hc o ho => Option.some.inj ho ▸ hc⟩
  have hrefs : (s.file ino).refs = (s.table.fileAt slot).refs := by
    rw [hbefore]
    rfl
  rcases h.table.freeIfIdle hf with ⟨hzero, hidle, hwf, hclosing, hfind, hhandles,
    hfiles⟩ | ⟨hbusy, heq⟩
  · have hnone : s'.table.file ino = none := (hfiles ino).trans (if_pos rfl)
    have hother : ∀ j, j ≠ ino → s'.table.file j = s.table.file j := fun j hj =>
      (hfiles j).trans (if_neg hj)
    have hmem : ∀ j o, s'.table.file j = some o → s.table.file j = some o := by
      intro j o ho
      by_cases heq : j = ino
      · rw [heq, hnone] at ho
        cases ho
      · rwa [hother j heq] at ho
    refine ⟨h.of_table rfl rfl hwf (fun j o ho => h.live j o (hmem j o ho))
      (fun j o ho => h.directory j o (hmem j o ho)), ?_, fun i hi => (hfind i).trans (if_neg hi),
      fun j hj => by rw [Shared.file, hother j hj]; rfl, .inl ⟨hnone, hrefs.trans hzero,
        hclean.mpr hidle⟩⟩
    refine Frame.of_file rfl rfl (show ∀ j, j ≠ ino → s'.file j = s.file j from fun j hj => by
        rw [Shared.file, hother j hj]; rfl)
      (fun _ => ⟨?_, fun _ => ?_⟩) ?_ ?_ hhandles hclosing OpenTable.maxSlots_freeIfIdle
    · rw [h.bytes_of_clean (hclean.mpr hidle), Shared.file, hnone]
      rfl
    · rw [Shared.file, hnone]
      rintro o ⟨⟩
    · rw [hrefs, hzero, Shared.file, hnone]
      rfl
    · rw [Shared.file, hnone, hbefore]
      refine (Bool.eq_false_iff.mpr fun hunlinked => ?_).symm
      have hpos := ((h.live ino _ hfile).unlinked hunlinked).1
      rw [hzero] at hpos
      exact Nat.lt_irrefl 0 hpos
  · have hsame : s' = s := congrArg (fun t => { s with table := t }) heq
    rw [hsame]
    exact ⟨h, Frame.refl s, fun _ _ => rfl, fun _ _ => rfl,
      .inr ⟨fun hin => hbusy ⟨hrefs.symm.trans hin.1, hclean.mp hin.2⟩, rfl⟩⟩

theorem freeIfIdle_spec (h : s.Inv held busy) (hf : s.table.inodes.find ino = some slot) :
    Prog.wp (freeIfIdle slot) (fun r s' => r = .ok () ∧ s'.failures = s.failures ∧
      s'.Inv held busy ∧ Quiet s s' ∧
      (∀ i, i ≠ ino → s'.table.inodes.find i = s.table.inodes.find i) ∧
      (∀ j, j ≠ ino → s'.file j = s.file j)) s := by
  obtain ⟨hcore, hquiet, hfind, hother, -⟩ := freeIfIdle_core h.toCore hf
  rw [freeIfIdle, wp_updateTable]
  exact ⟨rfl, rfl, h.of_table hcore rfl rfl, hquiet, hfind, hother⟩

theorem flushFree_spec (mode : Unlinked) (h : s.Inv held busy)
    (hf : s.table.inodes.find ino = some slot) :
    Prog.wp (do
      flushSlot env slot mode
      freeIfIdle slot) (fun r s' =>
      s'.Inv held busy ∧ Quiet s s' ∧
        (∀ i, i ≠ ino → s'.table.inodes.find i = s.table.inodes.find i) ∧
        (∀ j, j ≠ ino → s'.file j = s.file j) ∧
        match r with
        | .ok _ => s'.failures = s.failures ∧
            ((s'.file ino).Clean ∨ (s'.file ino).unlinked = true ∧ mode = .skip)
        | .error _ => s.failures < s'.failures ∧ ¬env.Healthy ∧ s'.file ino = s.file ino) s := by
  refine Prog.wp_bind (flushSlot_spec mode h hf) (fun a s₁ hs₁ => ?_) fun e s₁ hs₁ => ?_
  · obtain ⟨hinv, hquiet, hfind, hother, hfailures, hclean⟩ := hs₁
    refine Prog.wp_mono (freeIfIdle_spec hinv ((hfind ino).trans hf)) ?_
    rintro r s' ⟨rfl, hfailures', hinv', hquiet', hfind', hother'⟩
    refine ⟨hinv', hquiet.trans hquiet', fun i hi => (hfind' i hi).trans (hfind i),
      fun j hj => (hother' j hj).trans (hother j hj), hfailures'.trans hfailures, ?_⟩
    rcases hclean with hclean | ⟨hunlinked, hmode⟩
    · exact .inl (hquiet'.clean ino not_false hclean)
    · exact .inr ⟨(hquiet'.unlinked ino).trans hunlinked, hmode⟩
  · obtain ⟨hinv, hquiet, hfind, hother, herror⟩ := hs₁
    exact ⟨hinv, hquiet, fun i _ => hfind i, hother, herror⟩

section FlushAll

/-- A file whose data a shutdown need not save. -/
def Settled (f : File) : Prop := f.Clean ∨ f.unlinked = true

/-- What need not be saved in `s` need not be saved in `s'`. -/
def Steady (s s' : Shared) : Prop := ∀ ino, Settled (s.file ino) → Settled (s'.file ino)

theorem Steady.trans {s s' s'' : Shared} (h : Steady s s') (h' : Steady s' s'') : Steady s s'' :=
  fun ino hs => h' ino (h ino hs)

theorem steady_of_quiet {s s' : Shared} (h : Quiet s s') : Steady s s' := fun ino hs =>
  hs.imp (h.clean ino not_false) (h.unlinked ino).trans

theorem steady_of_frame {s s' : Shared} (h : Frame touched s s')
    (hclean : ∀ ino, touched ino → (s'.file ino).Clean) : Steady s s' := fun ino hs => by
  by_cases ht : touched ino
  · exact .inl (hclean ino ht)
  · exact hs.imp (h.clean ino ht) (h.unlinked ino).trans

private theorem flushEach_spec (slots : List Slot) (firstError : Option Errno) (h : s.Inv held busy)
    (hnodup : slots.Nodup) (hlive : ∀ slot ∈ slots, ∃ ino, s.table.inodes.find ino = some slot) :
    Prog.wp (flushEach env slots firstError) (fun r s' => ∃ result, r = .ok result ∧
      s'.Inv held busy ∧ Quiet s s' ∧
      (result = none → firstError = none ∧ s'.failures = s.failures ∧ ∀ slot ∈ slots, ∀ ino,
        s.table.inodes.find ino = some slot → Settled (s'.file ino)) ∧
      (result ≠ none → firstError ≠ none ∨ env.Failed s s') ∧ s.failures ≤ s'.failures) s := by
  induction slots generalizing s firstError with
  | nil =>
    exact ⟨firstError, rfl, h, Frame.refl s, fun hnone => ⟨hnone, rfl, nofun⟩, .inl, Nat.le_refl _⟩
  | cons slot slots ih =>
    rw [List.nodup_cons] at hnodup
    obtain ⟨ino, hf⟩ := hlive slot List.mem_cons_self
    -- the other slots belong to other files, and stay live
    have hne : ∀ slot' ∈ slots, ∀ i, s.table.inodes.find i = some slot' → i ≠ ino := by
      rintro slot' hin i hi rfl
      rw [hf] at hi
      exact hnodup.1 (Option.some.inj hi ▸ hin)
    rw [flushEach, Prog.wp_bind_iff, Prog.wp_attempt]
    refine Prog.wp_mono (flushSlot_spec .skip h hf) ?_
    rintro r s₁ ⟨hinv, hquiet, hfind, hother, hresult⟩
    rcases r with errno | ⟨⟩
    · refine Prog.wp_mono (ih (firstError <|> some errno) hinv hnodup.2 fun slot' hin => ?_) ?_
      · obtain ⟨i, hi⟩ := hlive slot' (List.mem_cons_of_mem _ hin)
        exact ⟨i, (hfind i).trans hi⟩
      · rintro r s' ⟨result, rfl, hinv', hquiet', hnone, -, hgrows⟩
        have hfailures : s.failures < s'.failures := hresult.1.trans_le hgrows
        refine ⟨result, rfl, hinv', hquiet.trans hquiet', fun hr => ?_,
          fun _ => .inr ⟨hfailures, hresult.2.1⟩, hfailures.le⟩
        have herror := (hnone hr).1
        rcases firstError with _ | e <;> cases herror
    · refine (Prog.wp_bind_iff (freeIfIdle slot) _ _ _).mpr ?_
      refine Prog.wp_mono (freeIfIdle_spec hinv ((hfind ino).trans hf)) ?_
      rintro r s₂ ⟨rfl, hfailures, hinv₂, hquiet₂, hfind₂, -⟩
      refine Prog.wp_mono (ih firstError hinv₂ hnodup.2 fun slot' hin => ?_) ?_
      · obtain ⟨i, hi⟩ := hlive slot' (List.mem_cons_of_mem _ hin)
        exact ⟨i, (hfind₂ i (hne slot' hin i hi)).trans ((hfind i).trans hi)⟩
      · rintro r s' ⟨result, rfl, hinv', hquiet', hnone, hsome, hgrows⟩
        have hbefore : s₂.failures = s.failures := hfailures.trans hresult.1
        refine ⟨result, rfl, hinv', (hquiet.trans hquiet₂).trans hquiet', fun hr =>
          ?_, fun hr => ?_,
          hbefore ▸ hgrows⟩
        case refine_2 => exact (hsome hr).imp_right fun hfailed => ⟨hbefore ▸ hfailed.1, hfailed.2⟩
        obtain ⟨hfirst, hfailures', hsettled⟩ := hnone hr
        refine ⟨hfirst, hfailures'.trans hbefore, fun slot' hin i hi => ?_⟩
        rcases List.mem_cons.mp hin with rfl | hin
        · obtain rfl : i = ino := h.table.find_inj hi hf
          exact steady_of_quiet (hquiet₂.trans hquiet') _ (hresult.2.imp (fun hc => hc) And.left)
        · exact hsettled slot' hin i
            ((hfind₂ i (hne slot' hin i hi)).trans ((hfind i).trans hi))

theorem flushAllLocked_spec (h : s.Inv held busy) :
    Prog.wp (flushAllLocked env) (fun r s' => ∃ result, r = .ok result ∧
      s'.Inv held busy ∧ Quiet s s' ∧
      (result = none → s'.failures = s.failures ∧ ∀ ino, Settled (s'.file ino)) ∧
      (result ≠ none → env.Failed s s')) s := by
  rw [flushAllLocked, wp_order_bind, wp_table_bind]
  have hperm := env.order_perm s.tick s.table.inodes.values
  have hinv : Shared.Inv held busy { s with tick := s.tick + 1 } := h.of_eq rfl rfl rfl
  have hnodup := (List.nodup_append.mp h.table.slots).1
  refine Prog.wp_mono (flushEach_spec _ none hinv (hperm.nodup_iff.mpr hnodup) fun slot hin =>
    ⟨_, h.table.find_of_mem (hperm.mem_iff.mp hin)⟩) ?_
  rintro r s' ⟨result, rfl, hinv', hquiet, hnone, hsome, -⟩
  have hquiet' : Quiet s s' := hquiet.after_eq rfl rfl
  refine ⟨result, rfl, hinv', hquiet', fun hr => ?_, fun hr =>
    (hsome hr).resolve_left fun h => h rfl⟩
  obtain ⟨-, hfailures, hsettled⟩ := hnone hr
  refine ⟨hfailures, fun ino => ?_⟩
  rcases hf : s.table.inodes.find ino with _ | slot
  · exact steady_of_quiet hquiet' _ (.inl fun o ho =>
      nomatch (OpenTable.file_eq_none.mpr hf).symm.trans ho)
  · exact hsettled slot (hperm.mem_iff.mpr (h.table.find_mem hf)) ino hf

theorem flushAllSync_spec (firstError : Option Errno) (h : s.Inv held busy) :
    Prog.wp (flushAllSync env firstError) (fun r s' => s'.db = s.db ∧ s'.table = s.table ∧
      s'.Inv held busy ∧ (r = .ok () → firstError = none ∧ s'.failures = s.failures) ∧
      (r ≠ .ok () → firstError ≠ none ∨ env.Failed s s') ∧ s.failures ≤ s'.failures) s := by
  apply wp_flushAllSync
  apply wp_syncDurable
  · intro failure hfault
    have hfailed : s.failures < s.failures + 1 ∧ ¬env.Healthy :=
      ⟨Nat.lt_succ_self _, env.not_healthy hfault⟩
    rcases firstError with _ | errno
    · exact ⟨rfl, rfl, h.of_eq rfl rfl rfl, nofun, fun _ => .inr hfailed, hfailed.1.le⟩
    · exact ⟨rfl, rfl, h.of_eq rfl rfl rfl, nofun, fun _ => .inr hfailed, hfailed.1.le⟩
  · intro _
    rcases firstError with _ | errno
    · exact ⟨rfl, rfl, h.of_eq rfl rfl rfl, fun _ => ⟨rfl, rfl⟩, fun hr => (hr rfl).elim,
        Nat.le_refl _⟩
    · exact ⟨rfl, rfl, h.of_eq rfl rfl rfl, nofun, fun _ => .inl nofun, Nat.le_refl _⟩

theorem flushAll_spec (h : s.Inv held busy) :
    Prog.wp (flushAll env) (fun r s' => s'.Inv held busy ∧ Quiet s s' ∧
      (r = .ok () → s'.failures = s.failures ∧ ∀ ino, Settled (s'.file ino)) ∧
      (r ≠ .ok () → env.Failed s s')) s := by
  rw [flushAll, Prog.wp_bind_iff]
  refine Prog.wp_mono (flushAllLocked_spec h) ?_
  rintro r s₁ ⟨result, rfl, hinv, hquiet, hnone, hsome⟩
  refine Prog.wp_mono (flushAllSync_spec result hinv) ?_
  rintro r s' ⟨hdb, htable, hinv', hok, herror, hgrows⟩
  refine ⟨hinv', hquiet.trans (Frame.of_eq hdb htable), fun hr => ?_, fun hr => ?_⟩
  · obtain ⟨hfailures, hsettled⟩ := hnone (hok hr).1
    refine ⟨(hok hr).2.trans hfailures, fun ino => ?_⟩
    exact steady_of_quiet (Frame.of_eq hdb htable) _ (hsettled ino)
  · rcases result with _ | errno
    · obtain hne | hfailed := herror hr
      · exact (hne rfl).elim
      · exact ⟨(hnone rfl).1 ▸ hfailed.1, hfailed.2⟩
    · have hfailed := hsome nofun
      exact ⟨hfailed.1.trans_le hgrows, hfailed.2⟩

end FlushAll

end Fs

end VibeDbfs
