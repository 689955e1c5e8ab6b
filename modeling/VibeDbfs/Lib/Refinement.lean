import VibeDbfs.Lib.Runs

/-!
A machine that answers each input, and a specification with a state of its own: a relation that
says which answers it allows and what may follow. One lemma turns a simulation of single steps
into a simulation of runs.
-/

set_option autoImplicit false
set_option relaxedAutoImplicit false

namespace VibeDbfs.Lib

variable {σ ι ω α : Type}

def answers (step : σ → ι → σ) (answer : σ → ι → ω) : σ → List ι → List (ι × ω)
  | _, [] => []
  | s, i :: is => (i, answer s i) :: answers step answer (step s i) is

/-- The specification allows the answers, and may end in the last state. -/
inductive Traces (spec : α → ι → ω → α → Prop) : α → List (ι × ω) → α → Prop
  | nil (a : α) : Traces spec a [] a
  | cons {a a' a'' : α} {i : ι} {o : ω} {rest : List (ι × ω)} (hstep : spec a i o a')
      (hrest : Traces spec a' rest a'') : Traces spec a ((i, o) :: rest) a''

/-- Where each legal step does what the specification says, under an invariant, each legal run is
one of its traces. -/
theorem traces_of_simulation {step : σ → ι → σ} {answer : σ → ι → ω} {legal : σ → ι → Prop}
    {spec : α → ι → ω → α → Prop} (abs : σ → α) {I : σ → Prop}
    (hkeep : ∀ s i, legal s i → I s → I (step s i))
    (hspec : ∀ s i, legal s i → I s → spec (abs s) i (answer s i) (abs (step s i)))
    {s : σ} (hs : I s) {is : List ι} (his : LegalRun step legal s is) :
    Traces spec (abs s) (answers step answer s is) (abs (runFrom step s is)) := by
  induction is generalizing s with
  | nil => exact .nil (abs s)
  | cons i is ih => exact .cons (hspec s i his.1 hs) (ih (hkeep s i his.1 hs) his.2)

end VibeDbfs.Lib
