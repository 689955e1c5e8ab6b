import VibeDbfs.Fuse.Interleaved
import VibeDbfs.Fuse.Threads

/-!
What a flush at shutdown saves while the session goes on. Writes are refused before the first slot
is visited, so what a visit saved stays saved.
-/

set_option autoImplicit false
set_option relaxedAutoImplicit false

namespace VibeDbfs

open Lib Lib.Bytes Shared

namespace Flusher

/-- The thread of `flush_for_shutdown` has set `closing`. -/
def refuses : Flusher → Bool
  | .asked => false
  | _ => true

def done : Flusher → Bool
  | .recorded _ => true
  | _ => false

/-- As long as the flush met no error, the data that is not saved yet is in the slots that it still
has to visit. -/
def Stored : Flusher → Shared → Prop
  | .visiting slots none, s => ∀ ino, Fs.Settled (s.file ino) ∨
      ∃ slot ∈ slots, s.table.inodes.find ino = some slot
  | .unlocked none, s => ∀ ino, Fs.Settled (s.file ino)
  | .flushed (.ok _), s => ∀ ino, Fs.Settled (s.file ino)
  | .recorded (.ok _), s => ∀ ino, Fs.Settled (s.file ino)
  | _, _ => True

/-- What a section of the flush does to the files. -/
structure Saves (p q : Flusher × Shared) : Prop where
  names : q.2.db.names = p.2.db.names
  bytes : ∀ ino, (q.2.file ino).bytes = (p.2.file ino).bytes
  unlinked : ∀ ino, (q.2.file ino).unlinked = (p.2.file ino).unlinked
  steady : Fs.Steady p.2 q.2
  closing : p.2.table.closing = true → q.2.table.closing = true
  stored : p.1.Stored p.2 → q.1.Stored q.2

variable {env : Env} {p q : Flusher} {s s' : Shared} {held : List ArenaSlot} {busy : Nat → Prop}

private theorem Saves.of_quiet (h : Quiet s s') (hstored : p.Stored s → q.Stored s') :
    Saves (p, s) (q, s') :=
  ⟨h.names, fun ino => h.bytes ino not_false, h.unlinked, Fs.steady_of_quiet h, h.closing.trans,
    hstored⟩

private theorem Saves.kind {p q : Flusher × Shared} (h : Saves p q) (ino : Nat) :
    q.2.db.kindOf ino = p.2.db.kindOf ino :=
  congrFun (congrArg Names.kind h.names) ino

private theorem Saves.nlink {p q : Flusher × Shared} (h : Saves p q) (ino : Nat) :
    q.2.db.nlinkOf ino = p.2.db.nlinkOf ino :=
  congrFun (congrArg Names.nlink h.names) ino

private theorem Stored.kept (h : p.Stored s) (hsteady : p.refuses = true → Fs.Steady s s')
    (htable : p.holdsLock = true → s'.table = s.table) : p.Stored s' := by
  cases p with
  | visiting slots firstError =>
    cases firstError with
    | none =>
      intro ino
      rcases h ino with hsettled | hslot
      · exact .inl (hsteady rfl ino hsettled)
      · right
        rwa [htable rfl]
    | some errno => trivial
  | unlocked firstError =>
    cases firstError with
    | none => exact fun ino => hsteady rfl ino (h ino)
    | some errno => trivial
  | flushed result =>
    cases result with
    | ok _ => exact fun ino => hsteady rfl ino (h ino)
    | error errno => trivial
  | recorded result =>
    cases result with
    | ok _ => exact fun ino => hsteady rfl ino (h ino)
    | error errno => trivial
  | _ => trivial

private theorem Visits.kept (h : p.Visits s) (htable : p.holdsLock = true → s'.table = s.table) :
    p.Visits s' := by
  cases p with
  | visiting slots firstError => exact h.of_table (htable rfl)
  | _ => trivial

private theorem saves_visit {slot : Slot} {slots : List Slot} {firstError : Option Errno}
    (h : s.Inv held busy) (hvisits : Visits (.visiting (slot :: slots) firstError) s) :
    Saves (.visiting (slot :: slots) firstError, s)
      (step env (.visiting (slot :: slots) firstError, s)) := by
  obtain ⟨hnodup, hlive⟩ := hvisits
  obtain ⟨ino, hf⟩ := hlive slot List.mem_cons_self
  obtain ⟨firstError', s', hstep, -, hquiet, -, hfind, hclean⟩ :=
    visit_spec env slots firstError h hf
  rw [hstep]
  apply Saves.of_quiet hquiet
  intro hstored
  cases firstError' with
  | some errno => trivial
  | none =>
    obtain ⟨rfl, hsettled⟩ := hclean rfl
    intro i
    by_cases hi : i = ino
    · -- the slot of `ino` is the one that was visited
      rw [hi]
      exact .inl hsettled
    · rcases hstored i with hsettled' | ⟨slot', hin, hi'⟩
      · exact .inl (Fs.steady_of_quiet hquiet i hsettled')
      · right
        have hne : slot' ≠ slot := by
          rintro rfl
          exact hi (h.table.find_inj hi' hf)
        have hrest : slot' ∈ slots := (List.mem_cons.mp hin).resolve_left hne
        exact ⟨slot', hrest, (hfind i hi).trans hi'⟩

theorem saves_step (h : s.Inv held busy) (hp : p.Visits s) :
    Saves (p, s) (step env (p, s)) := by
  cases p with
  | asked =>
    exact ⟨rfl, fun _ => rfl, fun _ => rfl, fun _ hsettled => hsettled, fun _ => rfl,
      fun _ => trivial⟩
  | waiting =>
    have hquiet : Quiet s { s with tick := s.tick + 1 } := Frame.of_eq rfl rfl
    apply Saves.of_quiet hquiet
    intro _ ino
    have hperm := env.order_perm s.tick s.table.inodes.values
    rcases hf : s.table.inodes.find ino with _ | slot
    · left
      left
      intro o ho
      have hnone : s.table.file ino = none := OpenTable.file_eq_none.mpr hf
      cases hnone.symm.trans ho
    · exact .inr ⟨slot, hperm.mem_iff.mpr (h.table.find_mem hf), rfl⟩
  | visiting slots firstError =>
    cases slots with
    | nil =>
      apply Saves.of_quiet (Frame.refl s)
      intro hstored
      cases firstError with
      | some errno => trivial
      | none =>
        intro ino
        rcases hstored ino with hsettled | ⟨slot, hin, -⟩
        · exact hsettled
        · cases hin
    | cons slot slots => exact saves_visit h hp
  | unlocked firstError =>
    have hsync : Prog.wp (Fs.flushAllSync env firstError) _ s :=
      Fs.flushAllSync_spec firstError h
    obtain ⟨hdb, htable, -, hok, -⟩ := hsync
    have hquiet : Quiet s (Fs.flushAllSync env firstError s).2 := Frame.of_eq hdb htable
    apply Saves.of_quiet hquiet
    intro hstored
    change (Flusher.flushed (Fs.flushAllSync env firstError s).1).Stored _
    rcases hresult : (Fs.flushAllSync env firstError s).1 with errno | ⟨⟩
    · trivial
    · obtain ⟨rfl, -⟩ := hok hresult
      intro ino
      exact Fs.steady_of_quiet hquiet ino (hstored ino)
  | flushed result =>
    have hquiet : Quiet s (Fs.recordFlush result s).2 := Frame.of_eq rfl rfl
    apply Saves.of_quiet hquiet
    intro hstored
    cases result with
    | ok _ => exact hstored
    | error errno => trivial
  | recorded result => exact .of_quiet (Frame.refl s) id

/-- A section records the outcome of the flush, or leaves what is recorded. -/
theorem step_outcome (env : Env) (p : Flusher) (s : Shared) :
    (step env (p, s)).1.done = p.done ∧ (step env (p, s)).2.lastFlush = s.lastFlush ∨
      ∃ result, p = .flushed result ∧ (step env (p, s)).2.lastFlush = result := by
  cases p with
  | asked => exact .inl ⟨rfl, rfl⟩
  | waiting => exact .inl ⟨rfl, rfl⟩
  | visiting slots firstError =>
    left
    cases slots with
    | nil => exact ⟨rfl, rfl⟩
    | cons slot slots =>
      have hflush : (Fs.flushSlot env slot .skip s).2.lastFlush = s.lastFlush :=
        Fs.outcome_flushSlot slot .skip s
      rcases hresult : Fs.flushSlot env slot .skip s with ⟨r, s₁⟩
      rw [hresult] at hflush
      cases r with
      | ok _ =>
        simp only [step, hresult]
        exact ⟨rfl, hflush⟩
      | error errno =>
        simp only [step, hresult]
        exact ⟨rfl, hflush⟩
  | unlocked firstError => exact .inl ⟨rfl, (Fs.outcome_routine env).flushAllSync firstError s⟩
  | flushed result => exact .inr ⟨result, rfl, rfl⟩
  | recorded result => exact .inl ⟨rfl, rfl⟩

/-- A thread takes the table lock only when it waits for it. -/
private theorem holdsLock_step (h : (step env (p, s)).1.holdsLock = true) :
    p.early = true ∨ p.holdsLock = true := by
  cases p with
  | asked => exact .inl rfl
  | waiting => exact .inl rfl
  | visiting slots firstError => exact .inr rfl
  | _ => cases h

section Steps

variable {other : Prop}

/-- Whatever is recorded as a success has saved everything. -/
private theorem recorded_step (h : s.Inv held busy) (hp : p.Visits s) (hstored : p.Stored s)
    (hrecorded : p.done = true ∨ other → s.lastFlush = .ok () → ∀ ino, Fs.Settled (s.file ino))
    (hdone : (step env (p, s)).1.done = true ∨ other)
    (hok : (step env (p, s)).2.lastFlush = .ok ()) (ino : Nat) :
    Fs.Settled ((step env (p, s)).2.file ino) := by
  have hsaves : Saves (p, s) (step env (p, s)) := saves_step h hp
  apply hsaves.steady
  rcases step_outcome env p s with ⟨hsame, hlast⟩ | ⟨result, rfl, hlast⟩
  · rw [hsame] at hdone
    rw [hlast] at hok
    exact hrecorded hdone hok ino
  · obtain rfl : result = .ok () := hlast.symm.trans hok
    exact hstored ino

/-- The first section of `flush_for_shutdown` refuses writes, and no other allows them again. -/
private theorem closing_step (h : s.Inv held busy) (hp : p.Visits s)
    (hclosing : p.refuses = true → s.table.closing = true) :
    (step env (p, s)).2.table.closing = true := by
  have hsaves : Saves (p, s) (step env (p, s)) := saves_step h hp
  cases p with
  | asked => rfl
  | _ => exact hsaves.closing (hclosing rfl)

/-- A thread that neither has the table lock nor waits for it leaves the table alone. -/
private theorem table_step (h : s.Inv held busy) (hp : p.Visits s) (hearly : p.early = true → False)
    (hfree : p.holdsLock = false) : (step env (p, s)).2.table = s.table := by
  have hkept : Kept held busy (p, s) (step env (p, s)) := kept_step h hp
  have hlate : p.late = true := (early_or_late hfree).resolve_left hearly
  exact (hkept.late hlate).2.2

theorem refuses_of_done (h : p.done = true) : p.refuses = true := by
  cases p with
  | recorded result => rfl
  | _ => cases h

end Steps

end Flusher

namespace Shared

variable {s s' : Shared}

theorem Hidden.closed (h : Hidden s s') {ino : Nat} (hclosed : s.table.file ino = none) :
    s'.table.file ino = none := by
  have hnone : (s.look ino).overlay = none :=
    OpenTable.overlay_of_none (OpenTable.file_eq_none.mp hclosed)
  have hoverlay : s'.table.overlay ino = none := by
    rcases (h.look ino not_false).cases with heq | ⟨r, heq, -⟩ | ⟨r, size, modified, heq, -⟩
    · exact (congrArg Look.overlay heq).trans hnone
    · rw [heq] at hnone
      cases hnone
    · rw [heq] at hnone
      cases hnone
  exact OpenTable.file_eq_none.mpr (Option.map_eq_none_iff.mp hoverlay)

private theorem Hidden.lookup (h : Hidden s s') (hk : s'.db.Keys)
    (hkind : ∀ i, s'.db.kindOf i = s.db.kindOf i) (hnlink : ∀ i, s'.db.nlinkOf i = s.db.nlinkOf i)
      {parent : Nat} {name : Name} {target : Inode}
    (hlookup : s.db.lookup parent name = .ok target) :
    ∃ target', s'.db.lookup parent name = .ok target' ∧ target.SameTarget target' := by
  have hfind : (AttrQuery.lookup parent name).find s.db = .ok target := hlookup
  obtain ⟨r, hr, rfl, hsame⟩ := AttrQuery.find_ok hfind
  have hrows := h.rows r.ino
  rw [show r.inode.ino = r.ino from rfl] at hr hsame
  rw [hr, Option.isSome_some, Option.isSome_iff_exists] at hrows
  obtain ⟨r', hr'⟩ := hrows
  refine ⟨r'.inode, hsame hk h.dirents r' hr', (Db.findInode_ino hr').symm, ?_, ?_⟩
  · have hkind' := hkind r.ino
    rw [Db.kindOf_of_find hr, Db.kindOf_of_find hr'] at hkind'
    exact (Option.some.inj hkind').symm
  · have hnlink' := hnlink r.ino
    rw [Db.nlinkOf_of_find hr, Db.nlinkOf_of_find hr'] at hnlink'
    exact hnlink'.symm

end Shared

theorem Shared.Core.bytes_of_missing {s : Shared} {held : List ArenaSlot} {busy : Nat → Prop}
    {ino : Nat} (h : s.Core held busy) (hmissing : s.db.kindOf ino = none) :
    (s.file ino).bytes = [] := by
  have hclosed : s.table.file ino = none := by
    rcases ho : s.table.file ino with _ | o
    · rfl
    · have hkind := h.kindOf ho
      rw [hmissing] at hkind
      cases hkind
  have hsize : s.db.storedSize ino = 0 := by
    rw [Db.storedSize, Option.map_eq_none_iff.mp hmissing]
    rfl
  apply List.eq_nil_of_length_eq_zero
  rw [File.length_bytes, Shared.file, hclosed]
  exact hsize

private theorem Fs.writeFh_refused {s : Shared} {held : List ArenaSlot} {busy : Nat → Prop}
    {ino fh : Nat} (env : Env) (offset : Nat) (data : Bytes) (h : s.Core held busy)
    (hfh : s.table.handleIno fh = some ino) (hkind : s.db.kindOf ino = some .regularFile)
    (hclosing : s.table.closing = true) :
    writeFh env fh offset data s = (.error Errno.EIO, s) := by
  obtain ⟨slot, hslot, hino⟩ := Option.map_eq_some_iff.mp hfh
  have hf := h.table.find_of_handle hslot
  rw [hino] at hf
  have hregular : (s.table.inodes.get slot).kind = .regularFile :=
    Option.some.inj ((h.kindOf (OpenTable.file_of_find hf)).symm.trans hkind)
  have htable : table s = (.ok s.table, s) := rfl
  have hfile : errnoOfKind (s.table.inodes.get slot).kind s = (.ok (), s) := by
    rw [hregular]
    rfl
  rw [writeFh, Prog.bind_ok htable, hslot]
  change writeSlot env slot offset data s = _
  refine (Prog.bind_ok htable).trans ((Prog.bind_ok hfile).trans ?_)
  rw [if_pos hclosing]
  rfl

private theorem Rest.Ready.flushed {env : Env} {p : Flusher} {s : Shared} {c : Call} {rest : Rest}
    (hrest : rest.Ready c s) (h : s.Inv [] fun _ => False) (hp : p.Visits s) :
    rest.Ready c (Flusher.step env (p, s)).2 := by
  have hsaves : Flusher.Saves (p, s) (Flusher.step env (p, s)) := Flusher.saves_step h hp
  have hkept : Flusher.Kept [] (fun _ => False) (p, s) (Flusher.step env (p, s)) :=
    Flusher.kept_step h hp
  cases rest with
  | remove parent name inode =>
    obtain ⟨hnone, target, hlookup, hino, hkind, hnlink⟩ := hrest
    obtain ⟨target', hlookup', hino', hkind', hnlink'⟩ :=
      hkept.hidden.lookup hkept.inv.sound.keys hsaves.kind hsaves.nlink hlookup
    exact ⟨hnone, target', hlookup', hino.trans hino', hkind.trans hkind', hnlink.trans hnlink'⟩
  | insert attr =>
    obtain ⟨hnone, hclosed, hregular, hempty⟩ := hrest
    refine ⟨hnone, hkept.hidden.closed hclosed, ?_, ?_⟩
    · exact (hsaves.kind attr.ino).trans hregular
    · exact (hsaves.bytes attr.ino).trans hempty
  | _ => exact hrest

namespace Session

/-- The outcome of `destroy` is recorded. -/
def done : Session → Bool
  | .destroying p => p.done
  | _ => false

/-- What the session has found so far still holds. -/
def Sound : Session → Shared → Prop
  | .idle, _ => True
  | .within c rest, s => rest.Ready c s
  | .destroying p, s => p.Visits s ∧ p.Stored s

end Session

namespace Threads

/-- What holds whatever the two threads do. -/
structure Sound (t : Threads) : Prop where
  inv : t.shared.Inv [] fun _ => False
  content : ∀ ino, t.shared.Live ino → (t.shared.file ino).bytes ∈ t.content ino
  missing : ∀ ino, t.shared.db.kindOf ino = none → t.content ino = {[]}
  session : t.session.Sound t.shared
  visits : t.flusher.Visits t.shared
  stored : t.flusher.Stored t.shared
  closing : t.flusher.refuses = true → t.shared.table.closing = true
  exclusive : t.flusher.holdsLock = true → t.session.holdsLock = false
  recorded : t.flusher.done = true ∨ t.session.done = true → t.shared.lastFlush = .ok () →
    ∀ ino, Fs.Settled (t.shared.file ino)

variable {env : Env} {t : Threads} {s : Shared} {c : Call} {r : Except Errno Reply} {rest : Rest}
  {p : Flusher}

section Calls

private theorem Sound.of_section {touched : Nat → Prop} {session : Session}
    {content : Nat → Set Bytes}
    (h : Sound t) (hpasses : Dbfs.Passes touched t.shared s) (houtcome : t.shared.SameOutcome s)
    (hlock : t.flusher.holdsLock = true → s.table = t.shared.table)
    (hdone : session.done = false) (hfree : session.holdsLock = false) (hsession : session.Sound s)
    (hcontent : ∀ ino, s.Live ino → (s.file ino).bytes ∈ content ino)
    (hmissing : ∀ ino, s.db.kindOf ino = none → content ino = {[]}) :
    Sound ⟨session, t.flusher, s, content⟩ where
  inv := hpasses.inv
  content := hcontent
  missing := hmissing
  session := hsession
  visits := h.visits.kept hlock
  stored := h.stored.kept (fun hrefuses => hpasses.steady (h.closing hrefuses)) hlock
  closing hrefuses := hpasses.closing.trans (h.closing hrefuses)
  exclusive _ := hfree
  recorded hor hok ino := by
    have hflusher : t.flusher.done = true := by
      apply hor.resolve_right
      change ¬session.done = true
      rw [hdone]
      exact Bool.false_ne_true
    have hclosing := h.closing (Flusher.refuses_of_done hflusher)
    apply hpasses.steady hclosing
    exact h.recorded (.inl hflusher) (houtcome.symm.trans hok) ino

private theorem known_missing {content : Nat → Set Bytes} {ino : Nat} (h : s.db.kindOf ino = none) :
    known s content ino = {[]} := by
  rw [known, h]
  rfl

private theorem known_live {content : Nat → Set Bytes} {ino : Nat} (h : s.Live ino) :
    known s content ino = content ino := by
  rw [known, h.1]
  rfl

private theorem Sound.mem (h : Sound t) {touched : Nat → Prop}
    (hpasses : Dbfs.Passes touched t.shared s)
    {ino : Nat} (hlive : s.Live ino) : (t.shared.file ino).bytes ∈ t.content ino ∧
      (¬touched ino → (s.file ino).bytes ∈ t.content ino) := by
  rcases hkind : t.shared.db.kindOf ino with _ | kind
  · rw [h.missing ino hkind, h.inv.toCore.bytes_of_missing hkind, hpasses.fresh ino hkind hlive.1]
    exact ⟨rfl, fun _ => rfl⟩
  · have hsome : (t.shared.db.kindOf ino).isSome := Option.isSome_of_eq_some hkind
    have hmem := h.content ino (hpasses.live ino hsome hlive)
    refine ⟨hmem, fun huntouched => ?_⟩
    rw [hpasses.bytes ino huntouched hsome hlive]
    exact hmem

private theorem sound_returned (h : Sound t) (hreturns : Dbfs.Returns t.shared c r s)
    (houtcome : t.shared.SameOutcome s)
    (hlock : t.flusher.holdsLock = true → s.table = t.shared.table) :
    Sound (t.returned c r s) := by
  have hidle : Session.idle.Sound s := trivial
  apply h.of_section hreturns.passes houtcome hlock rfl rfl hidle
  · intro ino hlive
    obtain ⟨hbefore, hafter⟩ := h.mem hreturns.passes hlive
    rw [known_live hlive]
    split
    · next hchanges => exact ⟨_, hbefore, hreturns.content ino hchanges⟩
    · next hchanges => exact hafter hchanges
  · intro ino hmissing
    exact known_missing hmissing

private theorem sound_suspended (h : Sound t) (hpasses : Dbfs.Passes (fun _ => False) t.shared s)
    (hready : rest.Ready c s) (houtcome : t.shared.SameOutcome s)
    (hlock : t.flusher.holdsLock = true → s.table = t.shared.table) :
    Sound (t.suspended c rest s) := by
  have hwithin : (Session.within c rest).Sound s := hready
  apply h.of_section hpasses houtcome hlock rfl rfl hwithin
  · intro ino hlive
    rw [known_live hlive]
    exact (h.mem hpasses hlive).2 not_false
  · intro ino hmissing
    exact known_missing hmissing

theorem begun_cases {first : Except Errno Rest}
    (hproceeds : Dbfs.Proceeds t.shared c first s) :
    (∃ r, t.begun c (first, s) = t.returned c r s ∧ Dbfs.Returns t.shared c r s) ∨
      ∃ rest, t.begun c (first, s) = t.suspended c rest s ∧
        Dbfs.Passes (fun _ => False) t.shared s ∧ rest.Ready c s := by
  rcases first with errno | rest
  · exact .inl ⟨.error errno, rfl, hproceeds⟩
  · cases rest with
    | done reply => exact .inl ⟨.ok reply, rfl, hproceeds⟩
    | _ => exact .inr ⟨_, rfl, hproceeds⟩

private theorem sound_call (h : Sound t) (hidle : t.session = .idle)
    (hlegal : Dbfs.Legal t.shared c)
    (hfree : c.locks = true → t.flusher.holdsLock = false) : Sound (step env t (.call c)) := by
  have hproceeds : Prog.wp (Dbfs.firstSection env c) (Dbfs.Proceeds t.shared c) t.shared :=
    Dbfs.firstSection_spec env h.inv hlegal
  have houtcome := Dbfs.firstSection_outcome env c t.shared
  have hlock : t.flusher.holdsLock = true →
      (Dbfs.firstSection env c t.shared).2.table = t.shared.table := by
    intro hholds
    apply Dbfs.firstSection_table
    rw [← Bool.not_eq_true]
    intro hlocks
    rw [hfree hlocks] at hholds
    cases hholds
  rw [step, hidle]
  rcases begun_cases hproceeds with ⟨r, heq, hreturns⟩ | ⟨rest, heq, hpasses, hready⟩
  · exact heq ▸ sound_returned h hreturns houtcome hlock
  · exact heq ▸ sound_suspended h hpasses hready houtcome hlock

private theorem sound_last (h : Sound t) (hsession : t.session = .within c rest)
    (hfree : rest.locks = true → t.flusher.holdsLock = false) :
    Sound (step env t .resume) := by
  have hready : rest.Ready c t.shared := by
    have hsound := h.session
    rwa [hsession] at hsound
  have hreturns : Prog.wp (Dbfs.lastSection env rest) (Dbfs.Returns t.shared c) t.shared :=
    Dbfs.lastSection_spec env h.inv hready
  have houtcome := Dbfs.lastSection_outcome env rest t.shared
  have hlock : t.flusher.holdsLock = true →
      (Dbfs.lastSection env rest t.shared).2.table = t.shared.table := by
    intro hholds
    apply Dbfs.lastSection_table
    rw [← Bool.not_eq_true]
    intro hlocks
    rw [hfree hlocks] at hholds
    cases hholds
  rw [step, hsession]
  exact sound_returned h hreturns houtcome hlock

end Calls

section Flushes

private theorem Sound.saves (h : Sound t) {q : Flusher × Shared}
    (hsaves : Flusher.Saves (p, t.shared) q) :
    (∀ ino, q.2.Live ino → (q.2.file ino).bytes ∈ t.content ino) ∧
      ∀ ino, q.2.db.kindOf ino = none → t.content ino = {[]} := by
  constructor
  · intro ino hlive
    rw [hsaves.bytes]
    refine h.content ino ⟨(hsaves.kind ino).symm.trans hlive.1, fun hleft => hlive.2 ?_⟩
    exact ⟨⟨hsaves.kind ino ▸ hleft.1.1, (hsaves.nlink ino).trans hleft.1.2⟩,
      (hsaves.unlinked ino).trans hleft.2⟩
  · intro ino hmissing
    exact h.missing ino ((hsaves.kind ino).symm.trans hmissing)

private theorem sound_destroying (h : Sound t) (hsession : t.session = .destroying p)
    (hfree : p.early = true → t.flusher.holdsLock = false) : Sound (step env t .resume) := by
  have hfound := h.session
  rw [hsession] at hfound
  obtain ⟨hvisits, hstored⟩ := hfound
  have hkept : Flusher.Kept [] (fun _ => False) (p, t.shared) (Flusher.step env (p, t.shared)) :=
    Flusher.kept_step h.inv hvisits
  have hsaves : Flusher.Saves (p, t.shared) (Flusher.step env (p, t.shared)) :=
    Flusher.saves_step h.inv hvisits
  obtain ⟨hcontent, hmissing⟩ := h.saves hsaves
  have hexclusive : t.flusher.holdsLock = true → p.holdsLock = false := by
    intro hholds
    have hfree := h.exclusive hholds
    rwa [hsession] at hfree
  have hearly : t.flusher.holdsLock = true → p.early = true → False := by
    intro hholds hearly
    rw [hfree hearly] at hholds
    cases hholds
  have htable : t.flusher.holdsLock = true →
      (Flusher.step env (p, t.shared)).2.table = t.shared.table := by
    intro hholds
    exact Flusher.table_step h.inv hvisits (hearly hholds) (hexclusive hholds)
  rw [step, hsession]
  refine ⟨hkept.inv, hcontent, hmissing, ⟨hkept.visits, hsaves.stored hstored⟩,
    h.visits.kept htable, h.stored.kept (fun _ => hsaves.steady) htable, ?_, ?_, ?_⟩
  · intro hrefuses
    exact hsaves.closing (h.closing hrefuses)
  · intro hholds
    change (Flusher.step env (p, t.shared)).1.holdsLock = false
    rw [← Bool.not_eq_true]
    intro hboth
    rcases Flusher.holdsLock_step hboth with hwaits | hheld
    · exact hearly hholds hwaits
    · rw [hexclusive hholds] at hheld
      cases hheld
  · have hrecorded : p.done = true ∨ t.flusher.done = true → t.shared.lastFlush = .ok () →
        ∀ ino, Fs.Settled (t.shared.file ino) := by
      intro hdone
      apply h.recorded
      rw [hsession]
      exact hdone.symm
    intro hdone
    exact Flusher.recorded_step h.inv hvisits hstored hrecorded hdone.symm

private theorem sound_shutdown (h : Sound t)
    (hfree : t.flusher.early = true → t.session.holdsLock = false) :
    Sound (step env t .shutdown) := by
  have hkept : Flusher.Kept [] (fun _ => False) (t.flusher, t.shared)
      (Flusher.step env (t.flusher, t.shared)) := Flusher.kept_step h.inv h.visits
  have hsaves : Flusher.Saves (t.flusher, t.shared) (Flusher.step env (t.flusher, t.shared)) :=
    Flusher.saves_step h.inv h.visits
  obtain ⟨hcontent, hmissing⟩ := h.saves hsaves
  have hsession : t.session.Sound (Flusher.step env (t.flusher, t.shared)).2 := by
    have hfound := h.session
    rcases hsession : t.session with _ | ⟨c, rest⟩ | p
    · trivial
    · rw [hsession] at hfound
      exact Rest.Ready.flushed hfound h.inv h.visits
    · rw [hsession] at hfound hfree
      have htable : p.holdsLock = true →
          (Flusher.step env (t.flusher, t.shared)).2.table = t.shared.table := by
        intro hholds
        apply Flusher.table_step h.inv h.visits
        · intro hearly
          have hheld : p.holdsLock = false := hfree hearly
          rw [hheld] at hholds
          cases hholds
        · rw [← Bool.not_eq_true]
          intro hboth
          have hheld := h.exclusive hboth
          rw [hsession] at hheld
          cases hheld.symm.trans hholds
      exact ⟨hfound.1.kept htable, hfound.2.kept (fun _ => hsaves.steady) htable⟩
  refine ⟨hkept.inv, hcontent, hmissing, hsession, hkept.visits, hsaves.stored h.stored, ?_, ?_, ?_⟩
  · intro _
    exact Flusher.closing_step h.inv h.visits h.closing
  · intro hholds
    rcases Flusher.holdsLock_step hholds with hearly | hheld
    · exact hfree hearly
    · exact h.exclusive hheld
  · exact Flusher.recorded_step h.inv h.visits h.stored h.recorded

end Flushes

theorem sound_step (env : Env) {e : Event} (h : Sound t) (he : Allowed t e) :
    Sound (step env t e) := by
  cases e with
  | call c =>
    obtain ⟨hidle, hlegal, hfree⟩ := he
    rcases hsession : t.session with _ | ⟨c', rest⟩ | p
    · exact sound_call h hsession hlegal hfree
    · rw [hsession] at hidle
      cases hidle
    · rw [hsession] at hidle
      cases hidle
  | resume =>
    obtain ⟨hbusy, hfree⟩ := he
    rcases hsession : t.session with _ | ⟨c, rest⟩ | p
    · rw [hsession] at hbusy
      cases hbusy
    · rw [hsession] at hfree
      exact sound_last h hsession hfree
    · rw [hsession] at hfree
      exact sound_destroying h hsession hfree
  | destroy =>
    rcases hsession : t.session with _ | ⟨c, rest⟩ | p
    · rw [step, hsession]
      refine { h with
        session := ⟨trivial, trivial⟩
        exclusive := fun _ => rfl
        recorded := ?_ }
      intro hdone
      apply h.recorded
      rw [hsession]
      exact hdone
    · rw [step, hsession]
      exact h
    · rw [step, hsession]
      exact h
  | shutdown => exact sound_shutdown h he

theorem Sound.start {db : Db} (hs : db.Sound) (writeBuffer : Nat) :
    Sound (start db writeBuffer) := by
  have hinv : (Shared.withWriteBuffer db writeBuffer).Inv [] fun _ => False :=
    .withWriteBuffer hs writeBuffer
  have hbytes : ∀ ino, ((Shared.withWriteBuffer db writeBuffer).file ino).bytes =
      (db.file ino).bytes := fun _ => rfl
  refine ⟨hinv, fun _ _ => rfl, ?_, trivial, trivial, trivial, ?_, ?_, ?_⟩
  · intro ino hmissing
    change {(db.file ino).bytes} = _
    rw [← hbytes, hinv.toCore.bytes_of_missing hmissing]
  · intro hrefuses
    cases hrefuses
  · intro hholds
    cases hholds
  · intro hdone
    rcases hdone with hdone | hdone
    · cases hdone
    · cases hdone

section Outcome

/-- A flush that has returned stays where it is. -/
theorem recorded_run (env : Env) (later : List Event) {result : Except Errno Unit}
    (h : t.flusher = .recorded result) :
    (runFrom (step env) t later).flusher = .recorded result := by
  have hstep : ∀ (t : Threads) (e : Event), t.flusher = .recorded result →
      (step env t e).flusher = .recorded result := by
    intro t e h
    cases e with
    | call c =>
      rcases hsession : t.session with _ | ⟨c', rest⟩ | p
      · rw [step, hsession]
        rcases Dbfs.firstSection env c t.shared with ⟨errno | rest, s⟩
        · exact h
        · cases rest <;> exact h
      · rwa [step, hsession]
      · rwa [step, hsession]
    | resume =>
      rcases hsession : t.session with _ | ⟨c, rest⟩ | p
      · rwa [step, hsession]
      · rwa [step, hsession]
      · rwa [step, hsession]
    | destroy =>
      rcases hsession : t.session with _ | ⟨c, rest⟩ | p
      · rwa [step, hsession]
      · rwa [step, hsession]
      · rwa [step, hsession]
    | shutdown =>
      rw [step, h]
      rfl
  induction later generalizing t with
  | nil => exact h
  | cons e later ih => exact ih (hstep t e h)

/-- The stored data of each named file is what the calls made of it. -/
def AllStored (t : Threads) : Prop := ∀ ino, t.shared.db.Named ino → ∃ bytes ∈ t.content ino,
  (t.shared.db.file ino).bytes = bytes ∧ t.shared.db.storedSize ino = bytes.length

/-- A write to a regular file is refused, and one through a handle leaves everything as it is. -/
def RefusesWrites (env : Env) (t : Threads) : Prop :=
  ∀ ino offset data, t.shared.db.kindOf ino = some .regularFile → data ≠ [] →
    (∀ fh, t.shared.table.handleIno fh = some ino →
      Dbfs.call env (.writeFh fh offset data) t.shared = (.error Errno.EIO, t.shared)) ∧
    (offset + data.length < u64Size → ∃ errno,
      Dbfs.reply env t.shared (.write ino offset data) = .error errno ∧
        (errno = Errno.EIO ∨ ¬env.Healthy))

theorem Sound.allStored (h : Sound t) (hok : t.flusher = .recorded (.ok ())) : t.AllStored := by
  have hstored := h.stored
  rw [hok] at hstored
  intro ino hnamed
  have hbytes := Fs.stored_of_settled h.inv.toCore (hstored ino) hnamed
  refine ⟨_, h.content ino (live_of_named hnamed), hbytes.symm, ?_⟩
  rw [hbytes]
  exact length_glue.symm

private theorem Sound.refusesWrites (h : Sound t) (hok : t.flusher = .recorded (.ok ())) :
    t.RefusesWrites env := by
  have hclosing : t.shared.table.closing = true := by
    apply h.closing
    rw [hok]
    rfl
  intro ino offset data hkind hdata
  have herrno : t.shared.writeErrno ino offset data.length = some Errno.EIO := by
    rw [Shared.writeErrno, Db.fileErrno, hkind, hclosing]
    rfl
  constructor
  · intro fh hfh
    have hrefused := Fs.writeFh_refused env offset data h.inv.toCore hfh hkind hclosing
    exact Prog.bind_error hrefused
  · intro hfit
    have hrefused : Prog.wp (Dbfs.call env (.write ino offset data)) (fun r _ =>
        ∃ errno, r = .error errno ∧ (errno = Errno.EIO ∨ ¬env.Healthy)) t.shared := by
      refine (Prog.wp_map ..).mpr (Prog.wp_mono (Fs.write_spec hfit h.inv) ?_)
      rintro r s ⟨-, -, -, hresult⟩
      rcases r with errno | n
      · refine ⟨errno, rfl, ?_⟩
        rcases hresult with ⟨hfailed, -⟩ | ⟨-, -, hsame⟩
        · exact .inr hfailed.2
        · exact .inl (Option.some.inj (hsame.symm.trans herrno))
      · have hnone := hresult.2.2.2 hdata
        rw [herrno] at hnone
        cases hnone
    exact hrefused

/-- Whatever the two threads do, a flush for shutdown that returned `Ok` has stored all that calls
made of the named files, which stays so because later writes are refused. And if the recorded
outcome is a success, none of them has unflushed data. -/
theorem saved_of_run {db : Db} (hdb : db.Reached) (writeBuffer : Nat) (env : Env)
    (events later : List Event)
    (hallowed : LegalRun (step env) Allowed (start db writeBuffer) (events ++ later)) :
    let t := runFrom (step env) (start db writeBuffer) events
    let t' := runFrom (step env) (start db writeBuffer) (events ++ later)
    (t.flusher = .recorded (.ok ()) → t'.AllStored ∧ t'.RefusesWrites env) ∧
      (t'.flusher.done = true ∨ t'.session.done = true → t'.shared.flushFailure = none →
        ∀ ino, 0 < t'.shared.db.nlinkOf ino → (t'.shared.file ino).Clean) := by
  intro t t'
  have hsound : Sound t' :=
    runFrom_induction (fun _ _ he h => sound_step env h he) (.start hdb.sound writeBuffer) hallowed
  constructor
  · intro hok
    have hok' : t'.flusher = .recorded (.ok ()) := by
      rw [show t' = runFrom (step env) t later from runFrom_append ..]
      exact recorded_run env later hok
    exact ⟨hsound.allStored hok', hsound.refusesWrites hok'⟩
  · intro hdone hnone ino hlinked
    have hok : t'.shared.lastFlush = .ok () := by
      rcases hlast : t'.shared.lastFlush with errno | ⟨⟩
      · rw [Shared.flushFailure, hlast] at hnone
        cases hnone
      · rfl
    apply (hsound.recorded hdone hok ino).resolve_right
    intro hunlinked
    exact Nat.ne_of_gt hlinked (hsound.inv.toCore.nlink_of_unlinked hunlinked)

def savedFile : List Event :=
  [.call (.createOpen 1 [97] 0o644 0 0 0), .resume, .call (.writeFh 0 0 [1, 2, 3]), .shutdown,
    .call (.writeFh 0 3 [4]), .shutdown, .call (.getattr 2), .shutdown, .shutdown, .resume,
    .shutdown, .shutdown]

def unmounted : List Event :=
  [.call (.writeFh 0 0 [9]), .destroy, .resume, .resume, .resume, .resume, .resume]

theorem saved_of_unmounted :
    let t := runFrom (step Dbfs.calm) (start (.fresh 0 0 ⟨0, 0⟩) 65536) (savedFile ++ unmounted)
    (t.AllStored ∧ t.RefusesWrites Dbfs.calm) ∧ t.session.done = true ∧
      ∀ ino, 0 < t.shared.db.nlinkOf ino → (t.shared.file ino).Clean := by
  obtain ⟨hstored, hclean⟩ := saved_of_run (.fresh 0 0 ⟨0, 0⟩) 65536 Dbfs.calm savedFile unmounted
    (by decide)
  exact ⟨hstored rfl, rfl, hclean (.inl rfl) rfl⟩

end Outcome

end Threads

end VibeDbfs
