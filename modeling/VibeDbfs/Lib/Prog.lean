import Mathlib.Data.List.Basic
import Mathlib.Order.Defs.Unbundled
import Mathlib.Tactic.Common

/-!
Programs over a state that end with a value or an error and keep the state either way, with
their weakest preconditions. A postcondition sees the outcome and the final state, so one rule
covers the success path and every error exit.
-/

set_option autoImplicit false
set_option relaxedAutoImplicit false

namespace VibeDbfs.Lib

/-- A program over states `σ` with errors `ε`. An error does not undo the state. -/
def Prog (σ ε α : Type) : Type := σ → Except ε α × σ

namespace Prog

variable {σ ε α β : Type}

instance : Monad (Prog σ ε) where
  pure a := fun s => (.ok a, s)
  bind x f := fun s =>
    match x s with
    | (.ok a, s') => f a s'
    | (.error e, s') => (.error e, s')

def throw (e : ε) : Prog σ ε α := fun s => (.error e, s)

def get : Prog σ ε σ := fun s => (.ok s, s)

def modify (f : σ → σ) : Prog σ ε Unit := fun s => (.ok (), f s)

/-- Run `x` and hand its outcome on as a value. -/
def attempt (x : Prog σ ε α) : Prog σ ε (Except ε α) := fun s => (.ok (x s).1, (x s).2)

def mapError {ε' : Type} (f : ε → ε') (x : Prog σ ε α) : Prog σ ε' α :=
  fun s => ((x s).1.mapError f, (x s).2)

/-- Run `f` on each element in turn, up to the first error. -/
def each (f : α → Prog σ ε Unit) : List α → Prog σ ε Unit
  | [] => pure ()
  | x :: xs => do
      f x
      each f xs

theorem bind_ok {x : Prog σ ε α} {f : α → Prog σ ε β} {s s' : σ} {a : α} (h : x s = (.ok a, s')) :
    (x >>= f) s = f a s' := by
  change (match x s with
    | (.ok a, s') => f a s'
    | (.error e, s') => (.error e, s')) = _
  rw [h]

theorem bind_error {x : Prog σ ε α} {f : α → Prog σ ε β} {s s' : σ} {e : ε}
    (h : x s = (.error e, s')) : (x >>= f) s = (.error e, s') := by
  change (match x s with
    | (.ok a, s') => f a s'
    | (.error e, s') => (.error e, s')) = _
  rw [h]

theorem bind_eq_ok {x : Prog σ ε α} {f : α → Prog σ ε β} {s s'' : σ} {b : β} :
    (x >>= f) s = (.ok b, s'') ↔ ∃ a s', x s = (.ok a, s') ∧ f a s' = (.ok b, s'') := by
  rcases hx : x s with ⟨r, s'⟩
  cases r with
  | error e =>
    rw [bind_error hx]
    constructor
    · intro h
      cases h
    · rintro ⟨a, s₁, h, -⟩
      cases h
  | ok a =>
    rw [bind_ok hx]
    constructor
    · intro h
      exact ⟨a, s', rfl, h⟩
    · rintro ⟨a', s₁, h, hf⟩
      cases h
      exact hf

theorem bind_assoc {γ : Type} (x : Prog σ ε α) (f : α → Prog σ ε β) (g : β → Prog σ ε γ) (s : σ) :
    ((x >>= f) >>= g) s = (x >>= fun a => f a >>= g) s := by
  rcases hx : x s with ⟨r, s'⟩
  cases r with
  | error e => rw [bind_error (bind_error hx), bind_error hx]
  | ok a =>
    rw [bind_ok hx]
    rcases hf : f a s' with ⟨r, s''⟩
    cases r with
    | error e => rw [bind_error hf, bind_error ((bind_ok hx).trans hf)]
    | ok b => rw [bind_ok hf, bind_ok ((bind_ok hx).trans hf)]

theorem get_bind (f : σ → Prog σ ε β) (s : σ) : (get >>= f) s = f s s := rfl

theorem bind_congr {x y : Prog σ ε α} {s s' : σ} (h : x s = y s') (f : α → Prog σ ε β) :
    (x >>= f) s = (y >>= f) s' := by
  rcases hy : y s' with ⟨r, s''⟩
  cases r with
  | error e => rw [bind_error hy, bind_error (h.trans hy)]
  | ok a => rw [bind_ok hy, bind_ok (h.trans hy)]

section Arrives

variable {f : α → Prog σ ε Unit} {xs done : List α} {x : α} {s s' : σ}

/-- `each f xs`, started in `s`, comes to its element `x` in state `s'`. -/
def Arrives (f : α → Prog σ ε Unit) (xs : List α) (s : σ) (x : α) (s' : σ) : Prop :=
  ∃ done rest, xs = done ++ x :: rest ∧ each f done s = (.ok (), s')

theorem each_append (rest : List α) (h : each f done s = (.ok (), s')) :
    each f (done ++ rest) s = each f rest s' := by
  induction done generalizing s with
  | nil =>
    cases h
    rfl
  | cons y done ih =>
    obtain ⟨⟨⟩, s₁, hy, hdone⟩ := bind_eq_ok.mp h
    exact (bind_ok hy).trans (ih hdone)

theorem Arrives.each_eq (h : Arrives f xs s x s') :
    ∃ rest, each f xs s = each f (x :: rest) s' := by
  obtain ⟨done, rest, rfl, hdone⟩ := h
  exact ⟨rest, each_append (x :: rest) hdone⟩

theorem Arrives.induction {I : σ → Prop} (h : Arrives f xs s x s')
    (hstep : ∀ y ∈ xs, ∀ s₁ s₂, I s₁ → f y s₁ = (.ok (), s₂) → I s₂) (hs : I s) : I s' := by
  obtain ⟨done, rest, rfl, hdone⟩ := h
  have hmem : ∀ y ∈ done, y ∈ done ++ x :: rest := fun y hy => List.mem_append_left _ hy
  generalize done ++ x :: rest = all at hstep hmem
  induction done generalizing s with
  | nil =>
    cases hdone
    exact hs
  | cons y done ih =>
    obtain ⟨⟨⟩, s₁, hy, hrest⟩ := bind_eq_ok.mp hdone
    exact ih (hstep y (hmem y List.mem_cons_self) s s₁ hs hy) hrest
      fun z hz => hmem z (List.mem_cons_of_mem y hz)

end Arrives

/-- `Q` holds of the outcome and the final state of `x` started in `s`. -/
def wp (x : Prog σ ε α) (Q : Except ε α → σ → Prop) (s : σ) : Prop := Q (x s).1 (x s).2

@[simp] theorem wp_pure (a : α) (Q : Except ε α → σ → Prop) (s : σ) :
    wp (pure a) Q s ↔ Q (.ok a) s := Iff.rfl

@[simp] theorem wp_throw (e : ε) (Q : Except ε α → σ → Prop) (s : σ) :
    wp (throw e) Q s ↔ Q (.error e) s := Iff.rfl

@[simp] theorem wp_get (Q : Except ε σ → σ → Prop) (s : σ) : wp get Q s ↔ Q (.ok s) s := Iff.rfl

@[simp] theorem wp_modify (f : σ → σ) (Q : Except ε Unit → σ → Prop) (s : σ) :
    wp (modify f) Q s ↔ Q (.ok ()) (f s) := Iff.rfl

@[simp] theorem wp_attempt (x : Prog σ ε α) (Q : Except ε (Except ε α) → σ → Prop) (s : σ) :
    wp (attempt x) Q s ↔ wp x (fun r => Q (.ok r)) s := Iff.rfl

@[simp] theorem wp_mapError {ε' : Type} (f : ε → ε') (x : Prog σ ε α) (Q : Except ε' α → σ → Prop)
    (s : σ) : wp (mapError f x) Q s ↔ wp x (fun r => Q (r.mapError f)) s := Iff.rfl

theorem wp_mono {x : Prog σ ε α} {P Q : Except ε α → σ → Prop} {s : σ}
    (h : wp x P s) (hPQ : ∀ r s', P r s' → Q r s') : wp x Q s := hPQ _ _ h

theorem wp_and {x : Prog σ ε α} {P Q : Except ε α → σ → Prop} {s : σ}
    (hP : wp x P s) (hQ : wp x Q s) : wp x (fun r s' => P r s' ∧ Q r s') s := ⟨hP, hQ⟩

theorem wp_bind_iff (x : Prog σ ε α) (f : α → Prog σ ε β) (Q : Except ε β → σ → Prop) (s : σ) :
    wp (x >>= f) Q s ↔ wp x (fun r s' => match r with
      | .ok a => wp (f a) Q s'
      | .error e => Q (.error e) s') s := by
  change Q (match x s with
    | (.ok a, s') => f a s'
    | (.error e, s') => (.error e, s')).1 (match x s with
    | (.ok a, s') => f a s'
    | (.error e, s') => (.error e, s')).2 ↔ match (x s).1 with
      | .ok a => wp (f a) Q (x s).2
      | .error e => Q (.error e) (x s).2
  rcases x s with ⟨r, s'⟩
  cases r <;> exact Iff.rfl

theorem wp_bind {x : Prog σ ε α} {f : α → Prog σ ε β} {R : Except ε α → σ → Prop}
    {Q : Except ε β → σ → Prop} {s : σ} (hx : wp x R s)
    (hok : ∀ a s', R (.ok a) s' → wp (f a) Q s')
    (herr : ∀ e s', R (.error e) s' → Q (.error e) s') : wp (x >>= f) Q s := by
  refine (wp_bind_iff x f Q s).mpr (wp_mono hx fun r s' hr => ?_)
  cases r with
  | error e => exact herr e s' hr
  | ok a => exact hok a s' hr

theorem wp_of_eq {x y : Prog σ ε α} {Q : Except ε α → σ → Prop} {s : σ} (h : x s = y s) :
    wp x Q s ↔ wp y Q s := by
  rw [wp, wp, h]

/-- After a first part that succeeds, the rest is run where it ended. -/
theorem wp_bind_ok {x : Prog σ ε α} {f : α → Prog σ ε β} {Q : Except ε β → σ → Prop} {s s' : σ}
    {a : α} (h : x s = (.ok a, s')) : wp (x >>= f) Q s ↔ wp (f a) Q s' := by
  rw [wp, wp, bind_ok h]

@[simp] theorem wp_map (f : α → β) (x : Prog σ ε α) (Q : Except ε β → σ → Prop) (s : σ) :
    wp (f <$> x) Q s ↔ wp x (fun r s' => Q (r.map f) s') s := by
  refine (wp_bind_iff x (fun a => pure (f a)) Q s).trans ?_
  unfold wp
  cases (x s).1 <;> exact Iff.rfl

@[simp] theorem wp_get_bind (f : σ → Prog σ ε β) (Q : Except ε β → σ → Prop) (s : σ) :
    wp (get >>= f) Q s ↔ wp (f s) Q s := Iff.rfl

@[simp] theorem wp_modify_bind (g : σ → σ) (f : Unit → Prog σ ε β) (Q : Except ε β → σ → Prop)
    (s : σ) : wp (modify g >>= f) Q s ↔ wp (f ()) Q (g s) := Iff.rfl

@[simp] theorem wp_pure_bind (a : α) (f : α → Prog σ ε β) (Q : Except ε β → σ → Prop) (s : σ) :
    wp (pure a >>= f) Q s ↔ wp (f a) Q s := Iff.rfl

/-- The invariant rule of `each`: `I` is indexed by the elements still to come. -/
theorem wp_each {f : α → Prog σ ε Unit} {I : List α → σ → Prop}
    {Q : Except ε Unit → σ → Prop}
    (hstep : ∀ x xs s, I (x :: xs) s →
      wp (f x) (fun r s' => match r with
        | .ok _ => I xs s'
        | .error e => Q (.error e) s') s)
    (hend : ∀ s, I [] s → Q (.ok ()) s) (xs : List α) (s : σ) (h : I xs s) :
    wp (each f xs) Q s := by
  induction xs generalizing s with
  | nil => exact hend s h
  | cons x xs ih =>
    refine wp_bind (hstep x xs s h) ?_ ?_
    · intro _ s' hs'
      exact ih s' hs'
    · intro _ _ he
      exact he

/-- `x` started in `s` ends with the value `a`, in a state with `P`. -/
def Gives (x : Prog σ ε α) (a : α) (P : σ → Prop) (s : σ) : Prop :=
  wp x (fun r s' => r = .ok a ∧ P s') s

theorem Gives.bind {x : Prog σ ε α} {f : α → Prog σ ε β} {a : α} {b : β} {R P : σ → Prop} {s : σ}
    (hx : Gives x a R s) (hf : ∀ s', R s' → Gives (f a) b P s') : Gives (x >>= f) b P s := by
  refine wp_bind hx ?_ ?_
  · rintro _ s' ⟨⟨⟩, hs'⟩
    exact hf s' hs'
  · rintro _ _ ⟨⟨⟩, -⟩

theorem Gives.get {f : σ → Prog σ ε β} {b : β} {P : σ → Prop} {s : σ} (h : Gives (f s) b P s) :
    Gives (Prog.get >>= f) b P s := h

theorem Gives.mapError {ε' : Type} {f : ε → ε'} {x : Prog σ ε α} {a : α} {P : σ → Prop} {s : σ}
    (h : Gives x a P s) : Gives (mapError f x) a P s := ⟨congrArg (Except.mapError f) h.1, h.2⟩

theorem Gives.eq {x : Prog σ ε α} {a : α} {P : σ → Prop} {s : σ} (h : Gives x a P s) :
    x s = (.ok a, (x s).2) := Prod.ext h.1 rfl

/-- `x` ends with the error `e` in no state. -/
def Never (e : ε) (x : Prog σ ε α) : Prop := ∀ s, (x s).1 ≠ .error e

theorem Never.of_ok {e : ε} {x : Prog σ ε α} (h : ∀ s, ∃ a, (x s).1 = .ok a) : Never e x := by
  intro s herror
  obtain ⟨a, ha⟩ := h s
  cases ha.symm.trans herror

theorem Never.pure (e : ε) (a : α) : Never e (pure a : Prog σ ε α) := .of_ok fun _ => ⟨a, rfl⟩

theorem Never.throw {e e' : ε} (h : e' ≠ e) : Never e (throw e' : Prog σ ε α) := by
  intro s herror
  exact h (Except.error.inj herror)

theorem Never.bind {e : ε} {x : Prog σ ε α} {f : α → Prog σ ε β} (hx : Never e x)
    (hf : ∀ a, Never e (f a)) : Never e (x >>= f) := by
  intro s
  rcases hrun : x s with ⟨r, s'⟩
  cases r with
  | error e' =>
    rw [bind_error hrun]
    intro herror
    apply hx s
    rw [hrun]
    exact congrArg Except.error (Except.error.inj herror)
  | ok a =>
    rw [bind_ok hrun]
    exact hf a s'

theorem Never.each {e : ε} {f : α → Prog σ ε Unit} (h : ∀ a, Never e (f a)) (xs : List α) :
    Never e (each f xs) := by
  induction xs with
  | nil => exact .pure e ()
  | cons x xs ih => exact .bind (h x) fun _ => ih

section Within

variable {R : σ → σ → Prop}

/-- Every run of `x` goes from a state to one that `R` relates to it. -/
def Within (R : σ → σ → Prop) (x : Prog σ ε α) : Prop := ∀ s, R s (x s).2

theorem Within.map {x : Prog σ ε α} (f : α → β) (hx : Within R x) : Within R (f <$> x) := by
  intro s
  have hstate : ((f <$> x) s).2 = (x s).2 := by
    change ((x >>= fun a => Pure.pure (f a)) s).2 = (x s).2
    rcases hrun : x s with ⟨r, s'⟩
    cases r with
    | error e => rw [bind_error hrun]
    | ok a =>
      rw [bind_ok hrun]
      rfl
  rw [hstate]
  exact hx s

theorem Within.attempt {x : Prog σ ε α} (hx : Within R x) : Within R (attempt x) := hx

variable [IsPreorder σ R]

theorem Within.pure (a : α) : Within R (pure a : Prog σ ε α) := fun s => refl_of R s

theorem Within.throw (e : ε) : Within R (throw e : Prog σ ε α) := fun s => refl_of R s

theorem Within.bind {x : Prog σ ε α} {f : α → Prog σ ε β} (hx : Within R x)
    (hf : ∀ a, Within R (f a)) : Within R (x >>= f) := by
  intro s
  have hfirst := hx s
  rcases hrun : x s with ⟨r, s'⟩
  rw [hrun] at hfirst
  cases r with
  | error e =>
    rw [bind_error hrun]
    exact hfirst
  | ok a =>
    rw [bind_ok hrun]
    exact trans_of R hfirst (hf a s')

theorem Within.bind_bind {γ : Type} {x : Prog σ ε α} {f : α → Prog σ ε β} {g : β → Prog σ ε γ}
    (hx : Within R (x >>= f)) (hg : ∀ b, Within R (g b)) :
    Within R (x >>= fun a => f a >>= g) := by
  intro s
  rw [← bind_assoc]
  exact Within.bind hx hg s

theorem Within.each {f : α → Prog σ ε Unit} (h : ∀ a, Within R (f a)) (xs : List α) :
    Within R (each f xs) := by
  induction xs with
  | nil => exact .pure ()
  | cons x xs ih => exact .bind (h x) fun _ => ih

end Within

section Ends

variable {R : σ → σ → Prop} {E : ε → σ → σ → Prop}

/-- A run of `x` that succeeds keeps `R`, and one that fails has `E` of its error. -/
def Ends (R : σ → σ → Prop) (E : ε → σ → σ → Prop) (x : Prog σ ε α) : Prop :=
  ∀ s, wp x (fun r s' => match r with
    | .ok _ => R s s'
    | .error e => E e s s') s

theorem Ends.pure [IsPreorder σ R] (a : α) : Ends R E (pure a : Prog σ ε α) := fun s => refl_of R s

theorem Ends.throw {e : ε} (h : ∀ s, E e s s) : Ends R E (throw e : Prog σ ε α) := h

theorem Ends.map {x : Prog σ ε α} (f : α → β) (hx : Ends R E x) : Ends R E (f <$> x) := by
  refine fun s => (wp_map ..).mpr (wp_mono (hx s) fun r s' h => ?_)
  cases r with
  | error e => exact h
  | ok a => exact h

theorem Ends.bind [IsPreorder σ R] (hE : ∀ {e s s' s''}, R s s' → E e s' s'' → E e s s'')
    {x : Prog σ ε α} {f : α → Prog σ ε β} (hx : Ends R E x) (hf : ∀ a, Ends R E (f a)) :
    Ends R E (x >>= f) := by
  refine fun s => wp_bind (hx s) (fun a s' h => ?_) fun _ _ h => h
  refine wp_mono (hf a s') fun r s'' h' => ?_
  cases r with
  | error e => exact hE h h'
  | ok b => exact trans_of R h h'

end Ends

theorem wp_of_run {x : Prog σ ε α} {Q : Except ε α → σ → Prop} {s s' : σ} {r : Except ε α}
    (h : wp x Q s) (hr : x s = (r, s')) : Q r s' := by
  unfold wp at h
  rwa [hr] at h

end Prog

end VibeDbfs.Lib
