import Mathlib.Data.List.Basic

/-!
# NsBoot.Lib.Run — runs of a deterministic labelled machine

A machine is a total step function `step : σ → ε → σ`; nondeterminism (which
request comes next, which process is scheduled) lives in the list of events.

* `run step s es`: the state after the events `es`.
* `Along step C s es`: every step of the run meets `C`, a condition on the
  state before the step and the event. It serves both as the assumption of a
  conditional safety theorem and as its conclusion.
* `Along.invariant`: an invariant kept by every step that meets `C` holds at
  the end of every run that meets `C`.
* `Along.imp_of_inv`: under such an invariant, one step property follows from
  another along the whole run.
-/

namespace NsBoot.Run

variable {σ ε : Type*} (step : σ → ε → σ)

/-- The state after the events `es`. -/
def run (s : σ) (es : List ε) : σ := es.foldl step s

@[simp] theorem run_nil (s : σ) : run step s [] = s := rfl

@[simp] theorem run_cons (s : σ) (e : ε) (es : List ε) :
    run step s (e :: es) = run step (step s e) es := rfl

theorem run_append (s : σ) (es fs : List ε) :
    run step s (es ++ fs) = run step (run step s es) fs := by
  simp [run]

/-- Every step of the run from `s` meets `C`. -/
def Along (C : σ → ε → Prop) : σ → List ε → Prop
  | _, [] => True
  | s, e :: es => C s e ∧ Along C (step s e) es

instance decidableAlong (C : σ → ε → Prop) [∀ s e, Decidable (C s e)] :
    ∀ s es, Decidable (Along step C s es)
  | _, [] => isTrue trivial
  | s, e :: es =>
    have := decidableAlong C (step s e) es
    inferInstanceAs (Decidable (C s e ∧ Along step C (step s e) es))

@[simp] theorem along_nil (C : σ → ε → Prop) (s : σ) : Along step C s [] := trivial

@[simp] theorem along_cons (C : σ → ε → Prop) (s : σ) (e : ε) (es : List ε) :
    Along step C s (e :: es) ↔ C s e ∧ Along step C (step s e) es := Iff.rfl

variable {step}

/-- Conditional invariance: what every conforming step keeps, every conforming
run keeps. -/
theorem Along.invariant {C : σ → ε → Prop} {I : σ → Prop}
    (hstep : ∀ s e, I s → C s e → I (step s e)) {s : σ} {es : List ε}
    (hs : I s) (hC : Along step C s es) : I (run step s es) := by
  induction es generalizing s with
  | nil => exact hs
  | cons e es ih => exact ih (hstep s e hs hC.1) hC.2

/-- A step property that holds of every conforming step from a state of the
invariant holds along every conforming run. -/
theorem Along.imp_of_inv {C P : σ → ε → Prop} {I : σ → Prop}
    (hstep : ∀ s e, I s → C s e → I (step s e))
    (hP : ∀ s e, I s → C s e → P s e) {s : σ} {es : List ε}
    (hs : I s) (hC : Along step C s es) : Along step P s es := by
  induction es generalizing s with
  | nil => trivial
  | cons e es ih => exact ⟨hP s e hs hC.1, ih (hstep s e hs hC.1) hC.2⟩

end NsBoot.Run
