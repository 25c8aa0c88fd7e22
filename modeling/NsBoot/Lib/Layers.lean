import Mathlib.Logic.Function.Basic
import NsBoot.Lib.Blocks

/-!
# NsBoot.Lib.Layers — what is read through an overlay

A reader of an overlay gets the blocks of the overlay, and where it has none those of the
image below.

* `through`: that content, as a function of the block number.
* `through_write`: a write to the overlay is an update of it.
-/

namespace NsBoot.Blocks

variable {α : Type*} {top base : Content α}

/-- What is read through an overlay. -/
def through (top base : Content α) (b : Nat) : Option α := (read top b).or (read base b)

@[simp] theorem through_nil (base : Content α) : through [] base = read base := rfl

/-- Looking for a block among the entries of the others. -/
theorem find?_filter_ne (c : Content α) (b b' : Nat) :
    (c.filter (fun e => e.1 ≠ b)).find? (fun e => e.1 = b') =
      if b' = b then none else c.find? fun e => e.1 = b' := by
  induction c with
  | nil => simp
  | cons e c ih =>
    by_cases he : e.1 = b
    · rw [List.filter_cons_of_neg (by simpa using he), ih, List.find?_cons]
      split
      · rfl
      · next hb => rw [decide_eq_false fun h => hb (h.symm.trans he)]
    · rw [List.filter_cons_of_pos (by simpa using he), List.find?_cons, List.find?_cons, ih]
      split
      · next h => rw [if_neg fun hb => he ((of_decide_eq_true h).trans hb)]
      · rfl

theorem read_write (c : Content α) (b : Nat) (x : α) :
    read (write c b x) = Function.update (read c) b (some x) := by
  funext b'
  unfold read write
  rw [List.find?_append, find?_filter_ne]
  by_cases hb : b' = b
  · subst hb
    simp
  · rw [if_neg hb, Function.update_of_ne hb]
    cases c.find? (fun e => decide (e.1 = b')) with
    | some e => rfl
    | none => simp [Ne.symm hb]

theorem through_write (b : Nat) (x : α) :
    through (write top b x) base = Function.update (through top base) b (some x) := by
  funext b'
  unfold through
  rw [read_write]
  by_cases hb : b' = b
  · subst hb
    simp
  · simp [Function.update_of_ne hb]

end NsBoot.Blocks
