import VibeDbfs.Fuse.Accounting
import VibeDbfs.Fuse.Attributes

/-!
Attribute queries do not show whether buffered data has been flushed.
-/

set_option autoImplicit false
set_option relaxedAutoImplicit false

namespace VibeDbfs

open Lib Lib.Bytes Shared

/-- What a query that takes one access reports, if that access finds the answer `row`. -/
def Fs.rowReply (probe : Env) (s : Shared) (row : Except DbError Inode) : Except Errno Reply :=
  match probe.fault s.tick with
  | some failure => .error (errnoFromDbError failure.toDbError)
  | none =>
    match row with
    | .error error => .error (errnoFromDbError error)
    | .ok inode => .ok (.attr ((fileAttrFromInode inode).under (s.table.overlay inode.ino)))

private theorem Fs.rowOverlay_reply (probe : Env) (s : Shared) (f : Db → Except DbError Inode) :
    Prog.wp (Reply.attr <$> ((do
      let inode ← query probe f
      pure (fileAttrFromInode inode)) >>= overlayAttr)) (fun r _ => r = rowReply probe s (f s.db))
      s := by
  rw [Prog.wp_map, Prog.wp_bind_iff, Prog.wp_bind_iff]
  unfold Prog.wp query access rowReply
  dsimp only
  rcases probe.fault s.tick with _ | failure
  · rcases f s.db with error | inode
    · rfl
    · exact congrArg (fun attr => Except.ok (Reply.attr attr)) (OpenTable.overlayAttr_eq _ _)
  · rfl

namespace Dbfs

variable {probe : Env} {s s' : Shared} {touched : Nat → Prop} {ino parent : Nat} {name : Name}

theorem reply_getattr (probe : Env) (s : Shared) (ino : Nat) :
    reply probe s (.getattr ino) = Fs.rowReply probe s (s.db.getInode ino) :=
  Fs.rowOverlay_reply probe s fun db => db.getInode ino

theorem reply_lookup (probe : Env) (s : Shared) (parent : Nat) (name : Name) :
    reply probe s (.lookup parent name) = Fs.rowReply probe s (s.db.lookup parent name) :=
  Fs.rowOverlay_reply probe s fun db => db.lookup parent name

def Flushes (s : Shared) : Call → Prop
  | .flushFile _ => True
  | .flushFh _ => True
  | .syncFh _ => True
  | .flushAll => True
  | .releaseFile fh => ¬Fs.Deletes s fh
  | .write .. => True
  | .writeFh .. => True
  | _ => False

def Writes (s : Shared) : Call → Nat → Prop
  | .write i _ _, ino => ino = i
  | .writeFh fh _ _, ino => s.table.handleIno fh = some ino
  | _, _ => False

private theorem step_unseen {env : Env} {c : Call} (h : s.Inv [] fun _ => False) (hc : Legal s c)
    (hflushes : Flushes s c) : Unseen (Writes s c) s (step env s c) := by
  have hcall : Prog.wp (call env c) (fun _ s' => Unseen (Writes s c) s s') s := by
    cases c with
    | flushFile ino => exact (Prog.wp_map _ _ _ _).mpr (Fs.flushFile_unseen h)
    | flushFh fh => exact (Prog.wp_map _ _ _ _).mpr (Fs.flushFh_unseen h)
    | syncFh fh => exact (Prog.wp_map _ _ _ _).mpr (Fs.syncFh_unseen h)
    | flushAll => exact (Prog.wp_map _ _ _ _).mpr (Fs.flushAll_unseen h)
    | releaseFile fh => exact (Prog.wp_map _ _ _ _).mpr (Fs.releaseFh_unseen h hflushes)
    | write ino offset data => exact (Prog.wp_map _ _ _ _).mpr (Fs.write_unseen hc h)
    | writeFh fh offset data => exact (Prog.wp_map _ _ _ _).mpr (Fs.writeFh_unseen hc h)
    | _ => exact hflushes.elim
  exact Unseen.trans hcall (.of_eq rfl rfl)

theorem rowReply_look (probe : Env) {s : Shared} (hk : s.db.Keys) (ino : Nat) :
    Fs.rowReply probe s (s.db.getInode ino) =
      match probe.fault s.tick with
      | some failure => .error (errnoFromDbError failure.toDbError)
      | none => ((s.look ino).attr.map fun attr => .ok (.attr attr)).getD (.error .ENOENT) := by
  unfold Fs.rowReply Look.attr Shared.look
  rcases hr : s.db.findInode ino with _ | r
  · rw [Db.getInode_none hr]
    rfl
  · obtain rfl := Db.findInode_ino hr
    rw [hk.getInode hr]
    rfl

private theorem rowReply_getInode (hk : s.db.Keys) (hk' : s'.db.Keys) (h : Unseen touched s s')
    (htick : probe.fault s'.tick = probe.fault s.tick) (hpunctual : (s.look ino).Punctual)
    (htouched : ∀ inode, s.db.getInode ino = .ok inode → ¬touched ino) :
    Fs.rowReply probe s' (s'.db.getInode ino) = Fs.rowReply probe s (s.db.getInode ino) := by
  have hattr : (s'.look ino).attr = (s.look ino).attr := by
    rcases hr : s.db.findInode ino with _ | r
    · have hr' : s'.db.findInode ino = none := by
        have hsome := h.rows ino
        rw [hr] at hsome
        exact Option.isSome_eq_false_iff.mp hsome |> Option.isNone_iff_eq_none.mp
      rw [Look.attr, Look.attr, Shared.look, Shared.look, hr, hr']
      rfl
    · have hget : s.db.getInode ino = .ok r.inode := hk.getInode hr
      exact ((h.look ino (htouched _ hget)).attr hpunctual).1
  rw [rowReply_look probe hk', rowReply_look probe hk, htick, hattr]

private theorem rowReply_lookup (hk : s.db.Keys) (hk' : s'.db.Keys) (h : Unseen touched s s')
    (htick : probe.fault s'.tick = probe.fault s.tick) (hpunctual : ∀ j, (s.look j).Punctual)
    (htouched : ∀ inode, s.db.lookup parent name = .ok inode → ¬touched inode.ino) :
    Fs.rowReply probe s' (s'.db.lookup parent name) =
      Fs.rowReply probe s (s.db.lookup parent name) := by
  have hlookup : ∀ db : Db, db.lookup parent name = (checkName name >>= fun _ =>
      (db.findEntry parent name).elim (.error .notFound) fun d => db.getInode d.childIno) := by
    intro db
    unfold Db.lookup Db.getInode
    rcases db.findEntry parent name with _ | d
    · rfl
    · rfl
  have hentry : s'.db.findEntry parent name = s.db.findEntry parent name := by
    rw [Db.findEntry, h.dirents]
    rfl
  have hfail : ∀ error,
      Fs.rowReply probe s' (.error error) = Fs.rowReply probe s (.error error) := by
    intro error
    unfold Fs.rowReply
    rw [htick]
  rw [hlookup] at htouched
  rw [hlookup, hlookup, hentry]
  rcases hname : checkName name with error | ⟨⟩
  · exact hfail error
  · rcases hd : s.db.findEntry parent name with _ | d
    · exact hfail .notFound
    · refine rowReply_getInode hk hk' h htick (hpunctual d.childIno) fun inode hget => ?_
      have hino : inode.ino = d.childIno := by
        obtain ⟨r, hr, rfl⟩ := Db.find_of_getInode hget
        exact Db.findInode_ino hr
      rw [← hino]
      apply htouched
      rw [hname, hd]
      exact hget

private theorem Exact.punctual (h : Exact s) (ino : Nat) : (s.look ino).Punctual := by
  intro size modified hoverlay
  rcases hf : s.table.inodes.find ino with _ | slot
  · rw [Shared.look, OpenTable.overlay_of_none hf] at hoverlay
    cases hoverlay
  · rw [Shared.look, OpenTable.overlay_of_find hf, OpenInode.overlay] at hoverlay
    split at hoverlay
    · cases hoverlay
    · cases hoverlay
      exact h slot

/-- In any legal run whose writes have their clock in range, `getattr` and `lookup` report the same
attributes right before and right after a flush of any kind, successful or not, of every inode that
the call does not write to itself. -/
theorem attributes_of_flush {db : Db} (hdb : db.Reached) (writeBuffer : Nat) (env : Env)
    (calls : List Call) (c : Call)
    (hlegal : LegalCalls env (.withWriteBuffer db writeBuffer) (calls ++ [c]))
    (htimely : TimelyCalls env (.withWriteBuffer db writeBuffer) calls)
    (hflushes : Flushes (run env (.withWriteBuffer db writeBuffer) calls) c) (probe : Env)
    (htick : probe.fault (run env (.withWriteBuffer db writeBuffer) (calls ++ [c])).tick =
      probe.fault (run env (.withWriteBuffer db writeBuffer) calls).tick) :
    let s := run env (.withWriteBuffer db writeBuffer) calls
    let s' := run env (.withWriteBuffer db writeBuffer) (calls ++ [c])
    (∀ ino, ¬Writes s c ino → reply probe s' (.getattr ino) = reply probe s (.getattr ino)) ∧
      ∀ parent name, (∀ inode, s.db.lookup parent name = .ok inode → ¬Writes s c inode.ino) →
        reply probe s' (.lookup parent name) = reply probe s (.lookup parent name) := by
  intro s s'
  obtain ⟨hcalls, hc, -⟩ := legalRun_append.mp hlegal
  have hinv : s.Inv [] fun _ => False := (inv_of_run hdb writeBuffer hcalls).1
  have hinv' : s'.Inv [] fun _ => False := (inv_of_run hdb writeBuffer hlegal).1
  have hstep : s' = step env s c := runFrom_append (step env) _ calls [c]
  have hunseen : Unseen (Writes s c) s s' := hstep ▸ step_unseen hinv hc hflushes
  have hpunctual := (exact_of_run htimely).punctual
  constructor
  · intro ino huntouched
    rw [reply_getattr, reply_getattr]
    exact rowReply_getInode hinv.sound.keys hinv'.sound.keys hunseen htick
      (hpunctual ino) fun _ _ => huntouched
  · intro parent name huntouched
    rw [reply_lookup, reply_lookup]
    exact rowReply_lookup hinv.sound.keys hinv'.sound.keys hunseen htick hpunctual huntouched

def datedFile : List Call := [
  .createOpen 1 [97] 0o644 0 0 0,
  .writeFh 0 0 [1, 2, 3],
  .setattr 2 none none none none none (some 5000000000)]

/-- The time given to the file stays when the file is closed. -/
theorem attributes_of_datedFile :
    let s := run calm (.withWriteBuffer (.fresh 0 0 ⟨0, 0⟩) 65536) datedFile
    let s' := run calm (.withWriteBuffer (.fresh 0 0 ⟨0, 0⟩) 65536) (datedFile ++ [.releaseFile 0])
    reply calm s' (.getattr 2) = reply calm s (.getattr 2) ∧
      ∃ attr, reply calm s (.getattr 2) = .ok (.attr attr) ∧ attr.mtime = 5000000000 := by
  intro s s'
  have htimely : TimelyCalls calm (.withWriteBuffer (.fresh 0 0 ⟨0, 0⟩) 65536) datedFile := by
    refine ⟨fun hstamps => hstamps.elim, fun _ n _ hlast => ?_, fun hstamps => hstamps.elim,
      trivial⟩
    have hfew : n < 100 := lt_trans hlast (by decide)
    change (0 : Int) ≤ n * 1000000000 ∧ (n : Int) * 1000000000 ≤ 9223372036854775807
    omega
  have hstays : ¬Fs.Deletes s 0 := by
    rintro ⟨slot, hget, -, hunlinked⟩
    have hslot : s.table.handles.get 0 = some 0 := by decide
    cases hslot.symm.trans hget
    exact absurd hunlinked (by decide)
  refine ⟨(attributes_of_flush (.fresh 0 0 ⟨0, 0⟩) 65536 calm datedFile (.releaseFile 0) (by decide)
    htimely hstays calm rfl).1 2 id, ?_⟩
  have hshown : reply calm s (.getattr 2) = .ok (.attr (fileAttrFromInode ⟨2, .regularFile, 0o644,
    0, 0, 3, ⟨0, 0⟩, ⟨5, 0⟩, ⟨5, 0⟩, 1⟩)) := by decide
  exact ⟨_, hshown, by decide⟩

end Dbfs

end VibeDbfs
