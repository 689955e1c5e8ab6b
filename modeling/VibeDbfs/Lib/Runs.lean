import Mathlib.Data.List.Basic
import Mathlib.Tactic.Common

/-!
Runs of a machine that takes one input at a time, and the one induction that turns a fact kept
by each legal step into a fact about every run.
-/

set_option autoImplicit false
set_option relaxedAutoImplicit false

namespace VibeDbfs.Lib

variable {σ ι : Type}

/-- The state after the inputs `is`. -/
def runFrom (step : σ → ι → σ) (s : σ) (is : List ι) : σ := is.foldl step s

/-- Every input of the run is legal in the state that receives it. -/
def LegalRun (step : σ → ι → σ) (legal : σ → ι → Prop) : σ → List ι → Prop
  | _, [] => True
  | s, i :: is => legal s i ∧ LegalRun step legal (step s i) is

instance decidableLegalRun (step : σ → ι → σ) (legal : σ → ι → Prop)
    [∀ s i, Decidable (legal s i)] : ∀ s is, Decidable (LegalRun step legal s is)
  | _, [] => inferInstanceAs (Decidable True)
  | s, i :: is =>
    have := decidableLegalRun step legal (step s i) is
    inferInstanceAs (Decidable (legal s i ∧ LegalRun step legal (step s i) is))

@[simp] theorem runFrom_nil (step : σ → ι → σ) (s : σ) : runFrom step s [] = s := rfl

@[simp] theorem runFrom_cons (step : σ → ι → σ) (s : σ) (i : ι) (is : List ι) :
    runFrom step s (i :: is) = runFrom step (step s i) is := rfl

theorem runFrom_append (step : σ → ι → σ) (s : σ) (is js : List ι) :
    runFrom step s (is ++ js) = runFrom step (runFrom step s is) js :=
  List.foldl_append

theorem legalRun_append {step : σ → ι → σ} {legal : σ → ι → Prop} {s : σ} {is js : List ι} :
    LegalRun step legal s (is ++ js) ↔
      LegalRun step legal s is ∧ LegalRun step legal (runFrom step s is) js := by
  induction is generalizing s with
  | nil => simp [LegalRun]
  | cons i is ih => simp [LegalRun, ih, and_assoc]

theorem runFrom_induction {step : σ → ι → σ} {legal : σ → ι → Prop} {I : σ → Prop}
    (hstep : ∀ s i, legal s i → I s → I (step s i)) {s : σ} (hs : I s) {is : List ι}
    (his : LegalRun step legal s is) : I (runFrom step s is) := by
  induction is generalizing s with
  | nil => exact hs
  | cons i is ih => exact ih (hstep s i his.1 hs) his.2

end VibeDbfs.Lib
