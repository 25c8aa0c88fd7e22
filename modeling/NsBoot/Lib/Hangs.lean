import NsBoot.Lib.Prog

/-!
# NsBoot.Lib.Hangs — programs that wait for ever

`Hangs x s`: run alone from `s`, the program comes to a wait whose condition does
not hold, and nobody else is there to make it hold. A sequence hangs when its first
part does, or when that returns and the rest hangs (`hangs_bind_iff`); a program
without waits never does (`Prompt`).
-/

namespace NsBoot.Prog

variable {L σ α β γ : Type} {s : σ}

/-- The program waits for ever. -/
def Hangs (x : Prog L σ α) (s : σ) : Prop := ∃ t, exec x s = .hang t

instance (x : Prog L σ α) (s : σ) : Decidable (Hangs x s) :=
  match h : exec x s with
  | .hang t => isTrue ⟨t, h⟩
  | .ok _ _ => isFalse fun ⟨_, ht⟩ => by simp [h] at ht
  | .error _ => isFalse fun ⟨_, ht⟩ => by simp [h] at ht

/-- A sequence hangs in its first part, or after it. -/
theorem hangs_bind_iff {x : Prog L σ α} {g : α → Prog L σ β} :
    Hangs (x >>= g) s ↔ Hangs x s ∨ ∃ a s', exec x s = .ok a s' ∧ Hangs (g a) s' := by
  unfold Hangs
  rw [exec_bind]
  cases h : exec x s with
  | ok a t =>
    constructor
    · intro hg
      exact .inr ⟨a, t, rfl, hg⟩
    · rintro (⟨_, hx⟩ | ⟨a', t', heq, hg⟩)
      · cases hx
      · cases heq
        exact hg
  | error t => simp
  | hang t => simp

/-- After a part that returns. -/
theorem hangs_bind_of_ok {x : Prog L σ α} {g : α → Prog L σ β} {a : α} {s' : σ}
    (h : exec x s = .ok a s') : Hangs (x >>= g) s ↔ Hangs (g a) s' := by
  unfold Hangs
  rw [exec_bind, h]

theorem hangs_wait_iff {c : σ → Bool} : Hangs (wait c : Prog L σ Unit) s ↔ c s = false := by
  unfold Hangs wait
  simp only [exec]
  cases h : c s <;> simp

theorem hangs_when_iff {p : Prop} [Decidable p] {x : Prog L σ Unit} :
    Hangs (when p x) s ↔ p ∧ Hangs x s := by
  unfold when
  split
  · next h => simp [h]
  · next h => simp [h, Hangs, exec]

/-! ## Programs without waits -/

/-- The program never waits. -/
def Prompt (x : Prog L σ α) : Prop := ∀ s, ¬ Hangs x s

theorem Prompt.pure (a : α) : Prompt (Pure.pure a : Prog L σ α) := by
  rintro s ⟨t, h⟩
  cases h

theorem Prompt.lift (x : Option α) : Prompt (lift x : Prog L σ α) := by
  rintro s ⟨t, h⟩
  cases x <;> cases h

theorem Prompt.get [Inhabited L] : Prompt (get : Prog L σ σ) := by
  rintro s ⟨t, h⟩
  cases h

theorem Prompt.modify [Inhabited L] (f : σ → σ) : Prompt (modify f : Prog L σ PUnit) := by
  rintro s ⟨t, h⟩
  cases h

/-- A sequence of prompt parts is prompt. -/
theorem Prompt.bind {x : Prog L σ α} {g : α → Prog L σ β} (hx : Prompt x)
    (hg : ∀ a, Prompt (g a)) : Prompt (x >>= g) := by
  intro s h
  rcases hangs_bind_iff.1 h with h | ⟨a, s', -, h⟩
  · exact hx s h
  · exact hg a s' h

theorem Prompt.when {p : Prop} [Decidable p] {x : Prog L σ Unit} (hx : Prompt x) :
    Prompt (when p x) := fun s h => hx s (hangs_when_iff.1 h).2

/-- A loop with prompt rounds is prompt. -/
theorem Prompt.forM {f : γ → Prog L σ PUnit} {xs : List γ} (hf : ∀ x ∈ xs, Prompt (f x)) :
    Prompt (xs.forM f) := by
  induction xs with
  | nil => exact Prompt.pure _
  | cons x xs ih =>
    refine Prompt.bind (hf x List.mem_cons_self) fun _ => ih fun y hy => ?_
    exact hf y (List.mem_cons_of_mem _ hy)

end NsBoot.Prog
