import VibeDbfs.Fuse.Shutdown

/-!
What a read returns while another thread flushes. The flush moves data from the slots to the store
and frees slots, also between the two sections of one read.
-/

set_option autoImplicit false
set_option relaxedAutoImplicit false

namespace VibeDbfs

open Lib Lib.Bytes Shared

namespace Dbfs

variable {env : Env} {s : Shared} {c : Call} {busy : Nat → Prop}

def reads (s : Shared) : Call → Option (Nat × Nat × Nat)
  | .read ino offset size => some (ino, offset, size)
  | .readFh fh offset size => (s.table.handleIno fh).map fun ino => (ino, offset, size)
  | _ => none

/-- Data in a reply is the range that was asked for, of the file as it is. -/
def Reads (s : Shared) (c : Call) (r : Except Errno Reply) : Prop :=
  ∀ data, r = .ok (.data data) → ∃ ino offset size, reads s c = some (ino, offset, size) ∧
    s.db.kindOf ino = some .regularFile ∧ data = slice offset size (s.file ino).bytes

private theorem reads_of_map {α : Type} {f : α → Reply} (x : Fs α)
    (hf : ∀ a data, f a ≠ .data data) :
    Reads s c ((f <$> x) s).1 := by
  have hno : Prog.wp (f <$> x) (fun r _ => ∀ data, r ≠ .ok (.data data)) s := by
    rw [Prog.wp_map]
    intro data hdata
    rcases hr : (x s).1 with e | a
    · rw [hr] at hdata
      cases hdata
    · rw [hr] at hdata
      exact hf a data (Except.ok.inj hdata)
  exact fun data hdata => (hno data hdata).elim

private theorem reads_call (env : Env) (c : Call) (h : s.Core [] busy) :
    Reads s c (call env c s).1 := by
  cases c with
  | read ino offset size =>
    have hread : Prog.wp (call env (.read ino offset size)) (fun r _ =>
        Reads s (.read ino offset size) r) s := by
      refine (Prog.wp_map ..).mpr (Prog.wp_mono (Fs.read_spec h) ?_)
      rintro (e | data) s' ⟨-, hresult⟩ data' ⟨⟩
      exact ⟨ino, offset, size, rfl, Db.fileErrno_eq_none.mp hresult.2.1, hresult.2.2⟩
    exact hread
  | readFh fh offset size =>
    have hread : Prog.wp (call env (.readFh fh offset size)) (fun r _ =>
        Reads s (.readFh fh offset size) r) s := by
      refine (Prog.wp_map ..).mpr (Prog.wp_mono (Fs.readFh_spec h) ?_)
      intro r s' hresult
      rcases hfh : s.table.handleIno fh with _ | ino
      · rw [hfh] at hresult
        obtain ⟨rfl, -⟩ := hresult
        exact nofun
      · rw [hfh] at hresult
        obtain ⟨-, hresult⟩ := hresult
        rcases r with e | data
        · exact nofun
        · rintro data' ⟨⟩
          exact ⟨ino, offset, size, congrArg (Option.map _) hfh,
            Db.fileErrno_eq_none.mp hresult.2.1, hresult.2.2⟩
    exact hread
  | _ => exact reads_of_map _ fun _ _ h => nomatch h

private theorem map_eq_ok {α β : Type} {f : α → β} {x : Fs α} {b : β} {s' : Shared}
    (h : (f <$> x) s = (.ok b, s')) : ∃ a, x s = (.ok a, s') ∧ f a = b := by
  rcases hx : x s with ⟨e | a, s₁⟩
  · have herror : (f <$> x) s = (.error e, s₁) := Prog.bind_error hx
    cases herror.symm.trans h
  · have hok : (f <$> x) s = (.ok (f a), s₁) := Prog.bind_ok hx
    cases hok.symm.trans h
    exact ⟨a, rfl, rfl⟩

private theorem firstSection_of_closed {ino : Nat} (offset size : Nat)
    (hf : s.table.inodes.find ino = none) :
    firstSection env (.read ino offset size) s = (.ok (.stored ino offset size), s) := by
  have htable : Fs.table s = (.ok s.table, s) := rfl
  have hlocked : Fs.readLocked env ino offset size s = (.ok none, s) := by
    rw [Fs.readLocked, Prog.bind_ok htable, hf]
    rfl
  exact Prog.bind_ok hlocked

private theorem firstSection_stored {ino offset size : Nat} {s' : Shared}
    (h : firstSection env c s = (.ok (.stored ino offset size), s')) :
    c = .read ino offset size ∧ s'.table.inodes.find ino = none := by
  cases c with
  | read ino' offset' size' =>
    obtain ⟨data, hlocked, hrest⟩ := map_eq_ok h
    cases data with
    | some data => cases hrest
    | none =>
      cases hrest
      refine ⟨rfl, ?_⟩
      have htable : Fs.table s = (.ok s.table, s) := rfl
      rw [Fs.readLocked, Prog.bind_ok htable] at hlocked
      rcases hf : s.table.inodes.find ino with _ | slot
      · rw [hf] at hlocked
        cases hlocked
        exact hf
      · rw [hf] at hlocked
        obtain ⟨data, -, hnone⟩ := map_eq_ok hlocked
        cases hnone
  | _ =>
    obtain ⟨a, -, hrest⟩ := map_eq_ok h
    cases hrest

end Dbfs

namespace Threads

variable {env : Env} {t : Threads} {c : Call} {e : Event}

def ends (env : Env) (t : Threads) : Event → Option (Call × Except Errno Reply)
  | .call c =>
    match t.session with
    | .idle =>
      match (Dbfs.firstSection env c t.shared).1 with
      | .error errno => some (c, .error errno)
      | .ok (.done reply) => some (c, .ok reply)
      | .ok _ => none
    | _ => none
  | .resume =>
    match t.session with
    | .within c rest => some (c, (Dbfs.lastSection env rest t.shared).1)
    | _ => none
  | _ => none

/-- A read between its sections has found no slot for its inode, and none has come since. -/
def Pending (t : Threads) : Prop :=
  match t.session with
  | .within c (.stored ino offset size) =>
    c = .read ino offset size ∧ t.shared.table.inodes.find ino = none
  | .within _ (.done _) => False
  | _ => True

private theorem pending_step (h : Sound t) (hp : t.Pending) : (step env t e).Pending := by
  cases e with
  | call c =>
    rcases hsession : t.session with _ | ⟨c', rest⟩ | q
    · rw [step, hsession]
      dsimp only
      rcases hfirst : Dbfs.firstSection env c t.shared with ⟨errno | rest, s⟩
      · trivial
      · cases rest with
        | stored ino offset size => exact Dbfs.firstSection_stored hfirst
        | _ => trivial
    all_goals
      rw [step, hsession]
      exact hp
  | resume =>
    rcases hsession : t.session with _ | ⟨c, rest⟩ | q
    · rw [step, hsession]
      exact hp
    all_goals
      rw [step, hsession]
      trivial
  | destroy =>
    rcases hsession : t.session with _ | ⟨c, rest⟩ | q
    · rw [step, hsession]
      trivial
    all_goals
      rw [step, hsession]
      exact hp
  | shutdown =>
    have hkept : Flusher.Kept [] (fun _ => False) (t.flusher, t.shared)
        (Flusher.step env (t.flusher, t.shared)) := Flusher.kept_step h.inv h.visits
    unfold Pending at hp ⊢
    change match t.session with
      | .within c (.stored ino offset size) => c = .read ino offset size ∧
          (Flusher.step env (t.flusher, t.shared)).2.table.inodes.find ino = none
      | .within _ (.done _) => False
      | _ => True
    rcases hsession : t.session with _ | ⟨c, rest⟩ | q
    · trivial
    · rw [hsession] at hp
      cases rest with
      | stored ino offset size =>
        refine ⟨hp.1, OpenTable.file_eq_none.mp (hkept.hidden.closed ?_)⟩
        exact OpenTable.file_eq_none.mpr hp.2
      | done reply => exact hp.elim
      | _ => trivial
    · trivial

private theorem reads_of_ends {r : Except Errno Reply} (h : Sound t) (hp : t.Pending)
    (hends : ends env t e = some (c, r)) : Dbfs.Reads t.shared c r := by
  have hcall := Dbfs.reads_call env c h.inv.toCore
  rw [← Dbfs.call_sections env c t.shared] at hcall
  cases e with
  | call c' =>
    rcases hsession : t.session with _ | ⟨c'', rest⟩ | q
    · rw [ends, hsession] at hends
      dsimp only at hends
      rcases hfirst : Dbfs.firstSection env c' t.shared with ⟨errno | rest, s⟩
      all_goals rw [hfirst] at hends
      · cases hends
        exact nofun
      · cases rest with
        | done reply =>
          cases hends
          rw [Prog.bind_ok hfirst] at hcall
          exact hcall
        | _ => cases hends
    all_goals
      rw [ends, hsession] at hends
      cases hends
  | resume =>
    rcases hsession : t.session with _ | ⟨c', rest⟩ | q
    · rw [ends, hsession] at hends
      cases hends
    · rw [ends, hsession] at hends
      cases hends
      unfold Pending at hp
      rw [hsession] at hp
      cases rest with
      | stored ino offset size =>
        obtain ⟨rfl, hfind⟩ := hp
        rw [Prog.bind_ok (Dbfs.firstSection_of_closed offset size hfind)] at hcall
        exact hcall
      | done reply => exact hp.elim
      | _ => exact Dbfs.reads_of_map _ fun _ _ h => nomatch h
    · rw [ends, hsession] at hends
      cases hends
  | destroy => cases hends
  | shutdown => cases hends

/-- A read whose data is flushed, and its slot freed, before it goes to the store. -/
def flushedBetween : List Event :=
  [.call (.createOpen 1 [97] 0o644 0 0 0), .resume, .call (.writeFh 0 0 [1, 2, 3]),
    .call (.releaseFile 0), .call (.write 2 3 [4]), .shutdown, .shutdown, .shutdown, .shutdown,
    .call (.read 2 1 9), .shutdown]

end Threads

end VibeDbfs
