import NsBoot.Lib.Prog

/-!
# NsBoot.Lib.Trace — what a program does on its way

`labels x s` are the labels of the steps that `x` takes when it is run alone from
`s`, in order. `Runs f ls Q x s` is a triple for programs that must come to their
end: `x` returns, the labels that `f` lets through are `ls`, and what it returns and
leaves meets `Q`. There is one rule for each construct; `Runs.quiet` is for parts
whose steps are all hidden by `f`.
-/

namespace NsBoot.Prog

variable {L σ α β γ : Type}

/-- The labels of the steps, in order. -/
def labels : Prog L σ α → σ → List L
  | ret _, _ => []
  | fail, _ => []
  | await c k, s => if c s then labels k s else []
  | act l f k, s => l :: labels (k s) (f s)

theorem labels_bind {x : Prog L σ α} {g : α → Prog L σ β} {s s' : σ} {a : α}
    (h : exec x s = .ok a s') : labels (x >>= g) s = labels x s ++ labels (g a) s' := by
  change labels (x.bind g) s = _
  induction x generalizing s with
  | ret b =>
    cases h
    rfl
  | fail => cases h
  | await c k ih =>
    simp only [exec] at h
    split at h
    · next hc =>
      simp only [bind, labels, if_pos hc]
      exact ih h
    · cases h
  | act l f k ih =>
    simp only [bind, labels, List.cons_append]
    rw [ih s h]

/-- A label that occurs is the label of a step the program can do. -/
theorem Does.exists_of_mem_labels {R : L → σ → σ → Prop} {P : α → Prop} {x : Prog L σ α}
    (h : Does R P x) {s : σ} {l : L} (hl : l ∈ labels x s) : ∃ t t', R l t t' := by
  induction x generalizing s with
  | ret a => cases hl
  | fail => cases hl
  | await c k ih =>
    simp only [labels] at hl
    split at hl
    · exact ih h hl
    · cases hl
  | act l' f k ih =>
    rcases List.mem_cons.1 hl with rfl | hl
    · exact ⟨s, f s, h.1 s⟩
    · exact ih s (h.2 s) hl

/-- Run alone from `s`, the program returns in `Q`, and the labels that `f` lets
through are `ls`. -/
def Runs (f : L → Bool) (ls : List L) (Q : α → σ → Prop) (x : Prog L σ α) (s : σ) : Prop :=
  ∃ a s', exec x s = .ok a s' ∧ (labels x s).filter f = ls ∧ Q a s'

section Rules

variable {f : L → Bool} {ls : List L} {Q : α → σ → Prop} {s : σ}

theorem Runs.pure {a : α} (h : Q a s) : Runs f [] Q (pure a : Prog L σ α) s :=
  ⟨a, s, rfl, rfl, h⟩

theorem Runs.lift {x : Option α} {a : α} (hx : x = some a) (h : Q a s) :
    Runs f [] Q (lift x : Prog L σ α) s := by
  subst hx
  exact ⟨a, s, rfl, rfl, h⟩

theorem Runs.observe {l : L} (hl : f l = false) {g : σ → α} (h : Q (g s) s) :
    Runs f [] Q (observe l g) s :=
  ⟨g s, s, rfl, by simp [Prog.observe, labels, hl], h⟩

theorem Runs.perform {l : L} (hl : f l = true) {u : σ → σ} {Q : Unit → σ → Prop}
    (h : Q () (u s)) : Runs f [l] Q (perform l u) s :=
  ⟨(), u s, rfl, by simp [Prog.perform, labels, hl], h⟩

theorem Runs.get_bind [Inhabited L] (hl : f default = false) {g : σ → Prog L σ α}
    (h : Runs f ls Q (g s) s) : Runs f ls Q (get >>= g) s := by
  rcases h with ⟨a, s', hexec, hlabels, hQ⟩
  refine ⟨a, s', hexec, ?_, hQ⟩
  show (default :: labels (g s) s).filter f = ls
  rw [List.filter_cons, hl]
  exact hlabels

theorem Runs.bind {ls' : List L} {x : Prog L σ α} {g : α → Prog L σ β} {T : β → σ → Prop}
    (hx : Runs f ls Q x s) (hg : ∀ a s', Q a s' → Runs f ls' T (g a) s') :
    Runs f (ls ++ ls') T (x >>= g) s := by
  rcases hx with ⟨a, s₁, hexec, hlabels, hQ⟩
  rcases hg a s₁ hQ with ⟨b, s₂, hexec', hlabels', hT⟩
  refine ⟨b, s₂, exec_bind_ok_iff.2 ⟨a, s₁, hexec, hexec'⟩, ?_, hT⟩
  rw [labels_bind hexec, List.filter_append, hlabels, hlabels']

/-- A part without visible steps before the rest. -/
theorem Runs.bind_quiet {x : Prog L σ α} {g : α → Prog L σ β} {T : β → σ → Prop}
    (hx : Runs f [] Q x s) (hg : ∀ a s', Q a s' → Runs f ls T (g a) s') :
    Runs f ls T (x >>= g) s := Runs.bind hx hg

theorem Runs.ite {p : Prop} [Decidable p] {x y : Prog L σ α} (hx : p → Runs f ls Q x s)
    (hy : ¬ p → Runs f ls Q y s) : Runs f ls Q (if p then x else y) s := by
  split
  · next h => exact hx h
  · next h => exact hy h

theorem Runs.mono {Q' : α → σ → Prop} {x : Prog L σ α} (h : Runs f ls Q x s)
    (hQ : ∀ a s', Q a s' → Q' a s') : Runs f ls Q' x s := by
  rcases h with ⟨a, s', hexec, hlabels, ha⟩
  exact ⟨a, s', hexec, hlabels, hQ a s' ha⟩

/-- A loop: `I` is its invariant, and `g` are the visible steps of each iteration. -/
theorem Runs.foldlM {I : β → σ → Prop} {step : β → γ → Prog L σ β} {g : γ → List L} {xs : List γ}
    (hstep : ∀ b s, I b s → ∀ x ∈ xs, Runs f (g x) I (step b x) s) {b : β} (hb : I b s) :
    Runs f (xs.flatMap g) I (xs.foldlM step b) s := by
  induction xs generalizing b s with
  | nil => exact Runs.pure hb
  | cons x xs ih =>
    rw [List.foldlM_cons, List.flatMap_cons]
    refine Runs.bind (hstep b s hb x List.mem_cons_self) fun c s' hc => ih ?_ hc
    intro b s hb y hy
    exact hstep b s hb y (List.mem_cons_of_mem _ hy)

/-- What returns and only does steps that are hidden. -/
theorem Runs.quiet {R : L → σ → σ → Prop} {P : α → Prop} {x : Prog L σ α} (h : Does R P x)
    (hR : ∀ l t t', R l t t' → f l = false) (hends : Ends (fun _ => False) Q x s) :
    Runs f [] Q x s := by
  unfold Ends at hends
  cases hx : exec x s with
  | ok a s' =>
    rw [hx] at hends
    refine ⟨a, s', hx, ?_, hends⟩
    rw [List.filter_eq_nil_iff]
    intro l hl
    rcases h.exists_of_mem_labels hl with ⟨t, t', hstep⟩
    simp [hR l t t' hstep]
  | error s' | hang s' =>
    rw [hx] at hends
    exact hends.elim

end Rules

end NsBoot.Prog
