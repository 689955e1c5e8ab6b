import VibeDbfs.Fuse.FlushAll

/-!
The thread that flushes at shutdown, one section at a time. It holds the table lock while it visits
the slots, but the database only for the length of a transaction, so another thread may read rows
between two visits.
-/

set_option autoImplicit false
set_option relaxedAutoImplicit false

namespace VibeDbfs

open Lib Shared

/-- `ShutdownHandle::flush_for_shutdown`. -/
def Fs.flushForShutdown (env : Env) : Fs Unit := do
  refuseWrites
  let result ← Prog.attempt (flushAll env)
  recordFlush result
  liftExcept result

/-- `Filesystem::destroy`. -/
def Fs.destroy (env : Env) : Fs Unit := do
  let result ← Prog.attempt (flushAll env)
  recordFlush result

/-- Where a thread stands in `flush_for_shutdown`. From `waiting` to `flushed` it runs
`flush_all`. -/
inductive Flusher where
  | asked
  | waiting
  | visiting (slots : List Slot) (firstError : Option Errno)
  | unlocked (firstError : Option Errno)
  | flushed (result : Except Errno Unit)
  | recorded (result : Except Errno Unit)

namespace Flusher

def step (env : Env) : Flusher × Shared → Flusher × Shared
  | (.asked, s) => (.waiting, (Fs.refuseWrites s).2)
  | (.waiting, s) =>
    (.visiting (env.order s.tick s.table.inodes.values) none, { s with tick := s.tick + 1 })
  | (.visiting [] firstError, s) => (.unlocked firstError, s)
  | (.visiting (slot :: slots) firstError, s) =>
    match Fs.flushSlot env slot .skip s with
    | (.ok (), s) => (.visiting slots firstError, (Fs.freeIfIdle slot s).2)
    | (.error errno, s) => (.visiting slots (firstError <|> some errno), s)
  | (.unlocked firstError, s) =>
    let (result, s) := Fs.flushAllSync env firstError s
    (.flushed result, s)
  | (.flushed result, s) => (.recorded result, (Fs.recordFlush result s).2)
  | (.recorded result, s) => (.recorded result, s)

/-- The next `n` sections. -/
def advance (env : Env) : Nat → Flusher × Shared → Flusher × Shared
  | 0, p => p
  | n + 1, p => advance env n (step env p)

def early : Flusher → Bool
  | .asked => true
  | .waiting => true
  | _ => false

def holdsLock : Flusher → Bool
  | .visiting _ _ => true
  | _ => false

def late : Flusher → Bool
  | .unlocked _ => true
  | .flushed _ => true
  | .recorded _ => true
  | _ => false

/-- `flush_all` returned. -/
def finished : Flusher → Bool
  | .flushed _ => true
  | .recorded _ => true
  | _ => false

/-- The slots still to be visited are live, and none of them comes twice. -/
def Visits : Flusher → Shared → Prop
  | .visiting slots _, s => slots.Nodup ∧ ∀ slot ∈ slots, ∃ ino, s.table.inodes.find ino = some slot
  | _, _ => True

variable {env : Env} {p : Flusher} {s : Shared} {held : List ArenaSlot} {busy : Nat → Prop}

theorem Visits.of_table {s' : Shared} (h : p.Visits s) (htable : s'.table = s.table) :
    p.Visits s' := by
  cases p with
  | visiting slots firstError =>
    obtain ⟨hnodup, hlive⟩ := h
    exact ⟨hnodup, by rwa [htable]⟩
  | _ => trivial

theorem early_or_late (h : p.holdsLock = false) : p.early = true ∨ p.late = true := by
  cases p with
  | visiting slots firstError => cases h
  | asked => exact .inl rfl
  | waiting => exact .inl rfl
  | _ => exact .inr rfl

theorem advance_add (m n : Nat) (p : Flusher × Shared) :
    advance env (m + n) p = advance env n (advance env m p) := by
  induction m generalizing p with
  | zero => rw [Nat.zero_add]; rfl
  | succ m ih =>
    rw [Nat.succ_add]
    exact ih (step env p)

section Programs

theorem advance_visiting (env : Env) (slots : List Slot) (firstError : Option Errno) (s : Shared) :
    ∃ result s', Fs.flushEach env slots firstError s = (.ok result, s') ∧
      advance env (slots.length + 1) (.visiting slots firstError, s) = (.unlocked result, s') := by
  induction slots generalizing firstError s with
  | nil => exact ⟨firstError, s, rfl, rfl⟩
  | cons slot slots ih =>
    rcases hflush : Fs.flushSlot env slot .skip s with ⟨r, s₁⟩
    have hattempt : Prog.attempt (Fs.flushSlot env slot .skip) s = (.ok r, s₁) := by
      unfold Prog.attempt
      rw [hflush]
    rcases r with errno | ⟨⟩
    · obtain ⟨result, s', heach, hadvance⟩ := ih (firstError <|> some errno) s₁
      refine ⟨result, s', ?_, ?_⟩
      · rw [Fs.flushEach, Prog.bind_ok hattempt]
        exact heach
      · rw [List.length_cons, advance, step, hflush]
        exact hadvance
    · obtain ⟨result, s', heach, hadvance⟩ := ih firstError (Fs.freeIfIdle slot s₁).2
      refine ⟨result, s', ?_, ?_⟩
      · rw [Fs.flushEach, Prog.bind_ok hattempt]
        exact heach
      · rw [List.length_cons, advance, step, hflush]
        exact hadvance

private theorem advance_waiting (env : Env) (s : Shared) : ∃ n, advance env n (.waiting, s) =
    (.flushed (Fs.flushAll env s).1, (Fs.flushAll env s).2) := by
  let s₁ : Shared := { s with tick := s.tick + 1 }
  obtain ⟨result, s', heach, hadvance⟩ :=
    advance_visiting env (env.order s.tick s.table.inodes.values) none s₁
  have hall : Fs.flushAll env s = Fs.flushAllSync env result s' := by
    have hlocked : Fs.flushAllLocked env s = (.ok result, s') := heach
    exact Prog.bind_ok hlocked
  refine ⟨(env.order s.tick s.table.inodes.values).length + 1 + 1 + 1, ?_⟩
  change advance env (_ + 1 + 1) (.visiting _ none, s₁) = _
  rw [advance_add, hadvance, hall]
  rfl

theorem advance_destroy (env : Env) (s : Shared) : ∃ n, advance env n (.waiting, s) =
    (.recorded (Fs.flushAll env s).1, (Fs.destroy env s).2) := by
  obtain ⟨n, hadvance⟩ := advance_waiting env s
  refine ⟨n + 1, ?_⟩
  rw [advance_add, hadvance]
  rfl

theorem advance_asked (env : Env) (s : Shared) : ∃ n, advance env n (.asked, s) =
    (.recorded (Fs.flushForShutdown env s).1, (Fs.flushForShutdown env s).2) := by
  obtain ⟨n, hadvance⟩ := advance_waiting env (Fs.refuseWrites s).2
  refine ⟨n + 1 + 1, ?_⟩
  change advance env (n + 1) (.waiting, (Fs.refuseWrites s).2) = _
  rw [advance_add, hadvance]
  have hshutdown : Fs.flushForShutdown env s =
      Fs.liftExcept (Fs.flushAll env (Fs.refuseWrites s).2).1
        (Fs.recordFlush (Fs.flushAll env (Fs.refuseWrites s).2).1
          (Fs.flushAll env (Fs.refuseWrites s).2).2).2 := rfl
  rw [hshutdown]
  rcases (Fs.flushAll env (Fs.refuseWrites s).2).1 with e | ⟨⟩
  · rfl
  · rfl

end Programs

section Laws

private theorem inv_refuseWrites (h : s.Inv held busy) : (Fs.refuseWrites s).2.Inv held busy := by
  obtain ⟨⟨hsound, htable, hlive, hdirectory, hchronicle⟩, hsince⟩ := h
  refine ⟨⟨hsound, ?_, hlive, hdirectory, hchronicle⟩, hsince⟩
  exact ⟨htable.inos, htable.cover, htable.ino, htable.refs, htable.unused, htable.sorted,
    htable.handles, htable.bounded, htable.room, htable.arena⟩

structure Kept (held : List ArenaSlot) (busy : Nat → Prop) (p q : Flusher × Shared) : Prop where
  inv : q.2.Inv held busy
  visits : q.1.Visits q.2
  hidden : Hidden p.2 q.2
  early : q.1.early = true → p.1.early = true ∧ q.2.db = p.2.db ∧
    q.2.table.inodes = p.2.table.inodes
  late : p.1.late = true → q.1.late = true ∧ q.2.db = p.2.db ∧ q.2.table = p.2.table

variable {q r : Flusher × Shared}

private theorem Kept.refl {p : Flusher × Shared} (h : p.2.Inv held busy) (hp : p.1.Visits p.2) :
    Kept held busy p p :=
  ⟨h, hp, .refl p.2, fun hp => ⟨hp, rfl, rfl⟩, fun hp => ⟨hp, rfl, rfl⟩⟩

private theorem Kept.trans {p : Flusher × Shared} (h : Kept held busy p q)
    (h' : Kept held busy q r) :
    Kept held busy p r := by
  refine ⟨h'.inv, h'.visits, h.hidden.trans h'.hidden, ?_, ?_⟩
  · intro hr
    obtain ⟨hq, hdb', hinodes'⟩ := h'.early hr
    obtain ⟨hp, hdb, hinodes⟩ := h.early hq
    exact ⟨hp, hdb'.trans hdb, hinodes'.trans hinodes⟩
  · intro hp
    obtain ⟨hq, hdb, htable⟩ := h.late hp
    obtain ⟨hr, hdb', htable'⟩ := h'.late hq
    exact ⟨hr, hdb'.trans hdb, htable'.trans htable⟩

private theorem Kept.locked {p : Flusher × Shared} (hinv : q.2.Inv held busy)
    (hvisits : q.1.Visits q.2)
    (hhidden : Hidden p.2 q.2) (hq : q.1.early = false) (hp : p.1.late = false) :
    Kept held busy p q := by
  refine ⟨hinv, hvisits, hhidden, ?_, ?_⟩
  · intro hearly
    rw [hq] at hearly
    cases hearly
  · intro hlate
    rw [hp] at hlate
    cases hlate

theorem visit_spec {slot : Slot} {ino : Nat} (env : Env) (slots : List Slot)
    (firstError : Option Errno) (h : s.Inv held busy) (hf : s.table.inodes.find ino = some slot) :
      ∃ firstError' s',
      step env (.visiting (slot :: slots) firstError, s) = (.visiting slots firstError', s') ∧
      s'.Inv held busy ∧ Quiet s s' ∧ Hidden s s' ∧
      (∀ i, i ≠ ino → s'.table.inodes.find i = s.table.inodes.find i) ∧
      (firstError' = none → firstError = none ∧ Fs.Settled (s'.file ino)) := by
  have hflush : Prog.wp (Fs.flushSlot env slot .skip) _ s :=
    Prog.wp_and (Fs.flushSlot_spec .skip h hf) (Fs.flushSlot_unseen .skip h hf)
  unfold Prog.wp at hflush
  rcases hresult : Fs.flushSlot env slot .skip s with ⟨r, s₁⟩
  rw [hresult] at hflush
  obtain ⟨⟨hinv, hquiet, hfind, -, hcase⟩, hunseen⟩ := hflush
  rcases r with errno | ⟨⟩
  · refine ⟨firstError <|> some errno, s₁, ?_, hinv, hquiet, hunseen, fun i _ => hfind i, ?_⟩
    · simp only [step, hresult]
    · intro hnone
      cases firstError with
      | none => cases hnone
      | some errno' => cases hnone
  · have hf₁ : s₁.table.inodes.find ino = some slot := (hfind ino).trans hf
    have hfree : Prog.wp (Fs.freeIfIdle slot) _ s₁ :=
      Prog.wp_and (Fs.freeIfIdle_spec hinv hf₁) (Fs.freeIfIdle_unseen hinv hf₁)
    obtain ⟨⟨-, -, hinv₂, hquiet₂, hfind₂, -⟩, hunseen₂⟩ := hfree
    refine ⟨firstError, (Fs.freeIfIdle slot s₁).2, ?_, hinv₂, hquiet.trans hquiet₂,
      hunseen.trans hunseen₂, fun i hi => (hfind₂ i hi).trans (hfind i), fun hnone => ⟨hnone, ?_⟩⟩
    · simp only [step, hresult]
    · apply Fs.steady_of_quiet hquiet₂
      exact hcase.2.imp_right And.left

private theorem kept_visit {slot : Slot} {slots : List Slot} {firstError : Option Errno}
    (h : s.Inv held busy) (hvisits : Visits (.visiting (slot :: slots) firstError) s) :
    Kept held busy (.visiting (slot :: slots) firstError, s)
      (step env (.visiting (slot :: slots) firstError, s)) := by
  obtain ⟨hnodup, hlive⟩ := hvisits
  rw [List.nodup_cons] at hnodup
  obtain ⟨ino, hf⟩ := hlive slot List.mem_cons_self
  obtain ⟨firstError', s', hstep, hinv, -, hhidden, hfind, -⟩ :=
    visit_spec env slots firstError h hf
  rw [hstep]
  refine .locked hinv ⟨hnodup.2, ?_⟩ hhidden rfl rfl
  intro slot' hin
  obtain ⟨i, hi⟩ := hlive slot' (List.mem_cons_of_mem _ hin)
  have hne : i ≠ ino := by
    rintro rfl
    rw [hf] at hi
    exact hnodup.1 (Option.some.inj hi ▸ hin)
  exact ⟨i, (hfind i hne).trans hi⟩

theorem kept_step (h : s.Inv held busy) (hp : p.Visits s) :
    Kept held busy (p, s) (step env (p, s)) := by
  cases p with
  | asked =>
    refine ⟨inv_refuseWrites h, trivial, ?_, fun _ => ⟨rfl, rfl, rfl⟩, ?_⟩
    · exact .of_overlay rfl fun _ _ => rfl
    · intro hlate
      cases hlate
  | waiting =>
    have hperm := env.order_perm s.tick s.table.inodes.values
    have hnodup := (List.nodup_append.mp h.table.slots).1
    refine .locked (h.of_eq rfl rfl rfl) ⟨hperm.nodup_iff.mpr hnodup, ?_⟩ (.of_eq rfl rfl) rfl rfl
    intro slot hin
    exact ⟨_, h.table.find_of_mem (hperm.mem_iff.mp hin)⟩
  | visiting slots firstError =>
    cases slots with
    | nil => exact .locked h trivial (.refl s) rfl rfl
    | cons slot slots => exact kept_visit h hp
  | unlocked firstError =>
    have hsync : Prog.wp (Fs.flushAllSync env firstError) _ s :=
      Fs.flushAllSync_spec firstError h
    obtain ⟨hdb, htable, hinv, -⟩ := hsync
    refine ⟨hinv, trivial, .of_eq hdb htable, ?_, fun _ => ⟨rfl, hdb, htable⟩⟩
    intro hearly
    cases hearly
  | flushed result =>
    refine ⟨h.of_eq rfl rfl rfl, trivial, .of_eq rfl rfl, ?_, fun _ => ⟨rfl, rfl, rfl⟩⟩
    intro hearly
    cases hearly
  | recorded result =>
    refine ⟨h, trivial, .refl s, ?_, fun _ => ⟨rfl, rfl, rfl⟩⟩
    intro hearly
    cases hearly

theorem kept_advance (n : Nat) (h : s.Inv held busy) (hp : p.Visits s) :
    Kept held busy (p, s) (advance env n (p, s)) := by
  induction n generalizing p s with
  | zero => exact .refl h hp
  | succ n ih =>
    have hstep : Kept held busy (p, s) (step env (p, s)) := kept_step h hp
    exact hstep.trans (ih hstep.inv hstep.visits)

end Laws

end Flusher

end VibeDbfs
