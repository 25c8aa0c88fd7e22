import Mathlib.Logic.Function.Basic
import NsBoot.Lib.Prog
import NsBoot.Lib.Run

/-!
# NsBoot.Lib.Pool — programs that share a state

A `Pool` has a program for every index, and one state. An event is the index of the
program that takes its next step (`Pool.step`), so a list of indices is an interleaving
(`Run.run`). A program that has ended, or waits for something that does not hold, stays
where it is.

* `Pool.step_does`: what the single steps of the programs do, the pool does.
* `Respects E x`: the program `x` does not see the difference between `E`-related states,
  and keeps it.
* `Pool.alone`: a program that respects `E`, among programs that only take `E` steps, ends
  as it would have ended alone.
-/

namespace NsBoot

variable {ι L σ α β γ : Type}

structure Pool (ι L σ α : Type) where
  threads : ι → Prog L σ α
  state : σ

namespace Prog

/-- The label of the step that comes next. -/
def next : Prog L σ α → Option L
  | act l _ _ => some l
  | _ => none

/-- The program has returned, or stopped with an error. -/
def Ended : Prog L σ α → Prop
  | ret _ => True
  | fail => True
  | _ => False

instance : DecidablePred (Ended : Prog L σ α → Prop)
  | ret _ => isTrue trivial
  | fail => isTrue trivial
  | await _ _ => isFalse id
  | act _ _ _ => isFalse id

theorem Ended.final {x : Prog L σ α} (h : x.Ended) (s : σ) : (exec x s).final = s := by
  cases x with
  | ret a => rfl
  | fail => rfl
  | await c k => cases h
  | act l f k => cases h

end Prog

open Prog

namespace Pool

variable [DecidableEq ι]

/-- The program with index `i` takes its next step. -/
def step (c : Pool ι L σ α) (i : ι) : Pool ι L σ α :=
  match c.threads i with
  | ret _ => c
  | fail => c
  | await b k => if b c.state then { c with threads := Function.update c.threads i k } else c
  | act _ f k => ⟨Function.update c.threads i (k c.state), f c.state⟩

theorem step_other {c : Pool ι L σ α} {i j : ι} (h : j ≠ i) :
    (c.step i).threads j = c.threads j := by
  unfold step
  split
  · rfl
  · rfl
  · split
    · exact Function.update_of_ne h _ _
    · rfl
  · exact Function.update_of_ne h _ _

/-- A step goes nowhere, or passes a wait, or is a step of the program. -/
theorem step_cases (c : Pool ι L σ α) (i : ι) :
    c.step i = c ∨
    (∃ b k, c.threads i = await b k ∧ b c.state ∧ (c.step i).threads i = k ∧
      (c.step i).state = c.state) ∨
    ∃ l f k, c.threads i = act l f k ∧ (c.step i).threads i = k c.state ∧
      (c.step i).state = f c.state := by
  unfold step
  split
  · exact .inl rfl
  · exact .inl rfl
  · next b k heq =>
    split
    · next hb => exact .inr (.inl ⟨b, k, heq, hb, Function.update_self .., rfl⟩)
    · exact .inl rfl
  · next l f k heq => exact .inr (.inr ⟨l, f, k, heq, Function.update_self .., rfl⟩)

theorem step_of_next {c : Pool ι L σ α} {i : ι} {l : L} (h : (c.threads i).next = some l) :
    ∃ f k, c.threads i = act l f k ∧ (c.step i).threads i = k c.state ∧
      (c.step i).state = f c.state := by
  unfold step
  cases hi : c.threads i with
  | ret a | fail | await b k =>
    rw [hi] at h
    cases h
  | act l' f k =>
    rw [hi] at h
    cases h
    exact ⟨f, k, rfl, Function.update_self .., rfl⟩

/-- A program that has ended, or waits, changes nothing. -/
theorem step_state_of_none {c : Pool ι L σ α} {i : ι} (h : (c.threads i).next = none) :
    (c.step i).state = c.state := by
  unfold step
  cases hi : c.threads i with
  | ret a | fail => rfl
  | await b k =>
    simp only
    split
    · rfl
    · rfl
  | act l f k =>
    rw [hi] at h
    cases h

/-- What the steps of a program do, it goes on doing. -/
theorem step_does {R : L → σ → σ → Prop} {P : α → Prop} {c : Pool ι L σ α} {j : ι}
    (h : Does R P (c.threads j)) (i : ι) : Does R P ((c.step i).threads j) := by
  by_cases hij : j = i
  · subst hij
    rcases c.step_cases j with heq | ⟨b, k, hj, -, hk, -⟩ | ⟨l, f, k, hj, hk, -⟩
    · rwa [heq]
    · rw [hj] at h
      rw [hk]
      exact h
    · rw [hj] at h
      rw [hk]
      exact h.2 c.state
  · rwa [step_other hij]

theorem run_does {R : L → σ → σ → Prop} {P : α → Prop} {c : Pool ι L σ α} {j : ι}
    (h : Does R P (c.threads j)) (es : List ι) : Does R P ((Run.run step c es).threads j) := by
  induction es generalizing c with
  | nil => exact h
  | cons e es ih => exact ih (step_does h e)

end Pool

/-! ## Programs that do not see a difference -/

namespace Prog

/-- The program does the same in `E`-related states, and leaves them `E`-related. -/
def Respects (E : σ → σ → Prop) : Prog L σ α → Prop
  | ret _ => True
  | fail => True
  | await b k => (∀ s s', E s s' → b s = b s') ∧ Respects E k
  | act _ f k => (∀ s s', E s s' → E (f s) (f s') ∧ k s = k s') ∧ ∀ s, Respects E (k s)

section Rules

variable {E : σ → σ → Prop}

theorem Respects.pure (a : α) : Respects E (Pure.pure a : Prog L σ α) := trivial

theorem Respects.fail : Respects E (fail : Prog L σ α) := trivial

theorem Respects.lift (x : Option α) : Respects E (lift x : Prog L σ α) := by
  cases x with
  | none => trivial
  | some a => trivial

theorem Respects.perform {l : L} {f : σ → σ} (h : ∀ s s', E s s' → E (f s) (f s')) :
    Respects E (perform l f) :=
  ⟨fun s s' hE => ⟨h s s' hE, rfl⟩, fun _ => trivial⟩

theorem Respects.modify [Inhabited L] {f : σ → σ} (h : ∀ s s', E s s' → E (f s) (f s')) :
    Respects E (modify f : Prog L σ PUnit) :=
  ⟨fun s s' hE => ⟨h s s' hE, rfl⟩, fun _ => trivial⟩

/-- A program that goes on from what it has read. -/
theorem Respects.observe_bind {l : L} {g : σ → α} {k : α → Prog L σ β}
    (h : ∀ s s', E s s' → k (g s) = k (g s')) (hk : ∀ s, Respects E (k (g s))) :
    Respects E (observe l g >>= k) :=
  ⟨fun s s' hE => ⟨hE, h s s' hE⟩, hk⟩

theorem Respects.get_bind [Inhabited L] {k : σ → Prog L σ β}
    (h : ∀ s s', E s s' → k s = k s') (hk : ∀ s, Respects E (k s)) :
    Respects E (get >>= k) := Respects.observe_bind h hk

theorem Respects.bind {x : Prog L σ α} {g : α → Prog L σ β} (hx : Respects E x)
    (hg : ∀ a, Respects E (g a)) : Respects E (x >>= g) := by
  change Respects E (x.bind g)
  induction x with
  | ret a => exact hg a
  | fail => trivial
  | await b k ih => exact ⟨hx.1, ih hx.2⟩
  | act l f k ih =>
    constructor
    · intro s s' hE
      rcases hx.1 s s' hE with ⟨hf, hk⟩
      exact ⟨hf, congrArg (·.bind g) hk⟩
    · intro s
      exact ih s (hx.2 s)

theorem Respects.ite {p : Prop} [Decidable p] {x y : Prog L σ α} (hx : p → Respects E x)
    (hy : ¬ p → Respects E y) : Respects E (if p then x else y) := by
  split
  · next h => exact hx h
  · next h => exact hy h

theorem Respects.when {p : Prop} [Decidable p] {x : Prog L σ Unit} (hx : p → Respects E x) :
    Respects E (when p x) := by
  unfold Prog.when
  exact Respects.ite hx fun _ => trivial

theorem Respects.mapM {f : γ → Prog L σ β} {xs : List γ} (hf : ∀ x, Respects E (f x)) :
    Respects E (xs.mapM f) := by
  induction xs with
  | nil =>
    rw [List.mapM_nil]
    exact Respects.pure _
  | cons x xs ih =>
    rw [List.mapM_cons]
    exact Respects.bind (hf x) fun y => Respects.bind ih fun ys => Respects.pure _

theorem Respects.foldlM {f : β → γ → Prog L σ β} {xs : List γ} (hf : ∀ b x, Respects E (f b x))
    (b : β) : Respects E (xs.foldlM f b) := by
  induction xs generalizing b with
  | nil => exact Respects.pure b
  | cons x xs ih =>
    rw [List.foldlM_cons]
    exact Respects.bind (hf b x) fun c => ih c

theorem Respects.wait {c : σ → Bool} (h : ∀ s s', E s s' → c s = c s') :
    Respects E (wait c : Prog L σ Unit) := ⟨h, trivial⟩

theorem Respects.forM {g : γ → Prog L σ PUnit} {xs : List γ} (hg : ∀ x, Respects E (g x)) :
    Respects E (xs.forM g) := by
  induction xs with
  | nil => exact Respects.pure _
  | cons x xs ih => exact Respects.bind (hg x) fun _ => ih

/-- Alone, such a program ends alike. -/
theorem Respects.final {x : Prog L σ α} (hx : Respects E x) {s s' : σ} (h : E s s') :
    E (exec x s).final (exec x s').final := by
  induction x generalizing s s' with
  | ret a => exact h
  | fail => exact h
  | await b k ih =>
    simp only [exec]
    rw [hx.1 s s' h]
    split
    · exact ih hx.2 h
    · exact h
  | act l f k ih =>
    rcases hx.1 s s' h with ⟨hf, hk⟩
    simp only [exec]
    rw [hk]
    exact ih s' (hx.2 s') hf

end Rules

end Prog

namespace Pool

variable [DecidableEq ι] {E : σ → σ → Prop}

theorem step_respects {c : Pool ι L σ α} {j : ι} (h : Respects E (c.threads j)) (i : ι) :
    Respects E ((c.step i).threads j) := by
  by_cases hij : j = i
  · subst hij
    rcases c.step_cases j with heq | ⟨b, k, hj, -, hk, -⟩ | ⟨l, f, k, hj, hk, -⟩
    · rwa [heq]
    · rw [hj] at h
      rw [hk]
      exact h.2
    · rw [hj] at h
      rw [hk]
      exact h.2 c.state
  · rwa [step_other hij]

/-- The rest of the program, run alone from a state that it takes for the present one, ends
where the whole would have ended. The steps of the others change nothing it sees; its own
steps it would have taken alone as well. -/
theorem run_alone [IsPreorder σ E] {c : Pool ι L σ α} {i : ι} (hi : Respects E (c.threads i))
    (hothers : ∀ j, j ≠ i → Does (fun _ => E) (fun _ => True) (c.threads j)) {s : σ}
    (hs : E s c.state) (es : List ι) :
    ∃ s', E s' (Run.run step c es).state ∧
      exec ((Run.run step c es).threads i) s' = exec (c.threads i) s := by
  induction es generalizing c s with
  | nil => exact ⟨s, hs, rfl⟩
  | cons e es ih =>
    have hi' := step_respects hi e
    have hothers' : ∀ j, j ≠ i → Does (fun _ => E) (fun _ => True) ((c.step e).threads j) :=
      fun j hj => step_does (hothers j hj) e
    rw [Run.run_cons]
    suffices hone : ∃ s₁, E s₁ (c.step e).state ∧
        exec ((c.step e).threads i) s₁ = exec (c.threads i) s by
      rcases hone with ⟨s₁, hs₁, hexec⟩
      rcases ih hi' hothers' hs₁ with ⟨s', hs', hexec'⟩
      exact ⟨s', hs', hexec'.trans hexec⟩
    by_cases hie : i = e
    · subst hie
      rcases c.step_cases i with heq | ⟨b, k, he, hb, hk, hstate⟩ | ⟨l, f, k, he, hk, hstate⟩
      · rw [heq]
        exact ⟨s, hs, rfl⟩
      · rw [he] at hi
        have hb' : b s = true := (hi.1 s c.state hs).trans hb
        refine ⟨s, by rwa [hstate], ?_⟩
        rw [he, hk]
        simp only [exec]
        rw [if_pos hb']
      · -- it does from `s` what it does from the present state
        rw [he] at hi
        rcases hi.1 s c.state hs with ⟨hf, hk'⟩
        refine ⟨f s, by rwa [hstate], ?_⟩
        rw [he, hk, ← hk']
        rfl
    · rw [step_other hie]
      refine ⟨s, ?_, rfl⟩
      rcases c.step_cases e with heq | ⟨b, k, he, hb, -, hstate⟩ | ⟨l, f, k, he, -, hstate⟩
      · rwa [heq]
      · rwa [hstate]
      · have hstep := hothers e (Ne.symm hie)
        rw [he] at hstep
        rw [hstate]
        exact trans_of E hs (hstep.1 c.state)

theorem alone [IsPreorder σ E] {c : Pool ι L σ α} {i : ι} (hi : Respects E (c.threads i))
    (hothers : ∀ j, j ≠ i → Does (fun _ => E) (fun _ => True) (c.threads j)) {es : List ι}
    (hended : ((Run.run step c es).threads i).Ended) :
    E (exec (c.threads i) c.state).final (Run.run step c es).state := by
  rcases run_alone hi hothers (refl_of E c.state) es with ⟨s', hs', hexec⟩
  rw [← hexec, hended.final]
  exact hs'

end Pool

end NsBoot
