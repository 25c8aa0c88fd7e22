import NsBoot.Lib.Pool
import NsBoot.Lib.Trace

/-!
# NsBoot.Lib.Alike — two runs side by side

`Alike f E Q x y s s'` compares `x` run alone from `s` with `y` run alone from `s'`: the
labels that `f` lets through are the same, both return, both stop with an error or both
hang, the states they leave are `E`-related, and what they return and leave meets `Q`.

There is one rule for each construct; `Alike.of_respects` is for a program that does the
same in `E`-related states.
-/

namespace NsBoot.Prog

variable {L σ α β γ α' β' : Type}

/-! ## The labels of a bind -/

/-- After an error nothing more is done. -/
theorem labels_bind_of_error {x : Prog L σ α} {g : α → Prog L σ β} {s s' : σ}
    (h : exec x s = .error s') : labels (x >>= g) s = labels x s := by
  change labels (x.bind g) s = _
  induction x generalizing s with
  | ret b => cases h
  | fail => rfl
  | await c k ih =>
    simp only [exec] at h
    split at h
    · next hc =>
      simp only [bind, labels, if_pos hc]
      exact ih h
    · cases h
  | act l f k ih =>
    simp only [bind, labels]
    rw [ih s h]

/-- After a wait that does not end nothing more is done. -/
theorem labels_bind_of_hang {x : Prog L σ α} {g : α → Prog L σ β} {s s' : σ}
    (h : exec x s = .hang s') : labels (x >>= g) s = labels x s := by
  change labels (x.bind g) s = _
  induction x generalizing s with
  | ret b => cases h
  | fail => rfl
  | await c k ih =>
    simp only [exec] at h
    split at h
    · next hc =>
      simp only [bind, labels, if_pos hc]
      exact ih h
    · next hc => simp [bind, labels, hc]
  | act l f k ih =>
    simp only [bind, labels]
    rw [ih s h]

theorem labels_bind_of_not_ok {x : Prog L σ α} (g : α → Prog L σ β) {s : σ}
    (h : (exec x s).isOk = false) : labels (x >>= g) s = labels x s := by
  cases hx : exec x s with
  | ok a t =>
    rw [hx] at h
    cases h
  | error t => exact labels_bind_of_error hx
  | hang t => exact labels_bind_of_hang hx

theorem isOk_bind_of_not_ok {x : Prog L σ α} (g : α → Prog L σ β) {s : σ}
    (h : (exec x s).isOk = false) : (exec (x >>= g) s).isOk = false := by
  rw [exec_bind]
  cases hx : exec x s with
  | ok a t =>
    rw [hx] at h
    cases h
  | error t => rfl
  | hang t => rfl

/-! ## The relation -/

/-- Both return, in `Q`, or both stop in the same way. -/
def Result.Alike (E : σ → σ → Prop) (Q : α → β → σ → σ → Prop) : Result σ α → Result σ β → Prop
  | .ok a s, .ok b s' => E s s' ∧ Q a b s s'
  | .error s, .error s' => E s s'
  | .hang s, .hang s' => E s s'
  | _, _ => False

/-- The two runs `x` from `s` and `y` from `s'`, side by side. -/
structure Alike (f : L → Bool) (E : σ → σ → Prop) (Q : α → β → σ → σ → Prop) (x : Prog L σ α)
    (y : Prog L σ β) (s s' : σ) : Prop where
  labels : (labels x s).filter f = (labels y s').filter f
  result : (exec x s).Alike E Q (exec y s')

section Rules

variable {f : L → Bool} {E : σ → σ → Prop} {Q : α → β → σ → σ → Prop} {s s' : σ}

theorem Alike.pure {a : α} {b : β} (hE : E s s') (h : Q a b s s') :
    Alike f E Q (pure a : Prog L σ α) (pure b) s s' := ⟨rfl, hE, h⟩

theorem Alike.fail (hE : E s s') : Alike f E Q (fail : Prog L σ α) (fail : Prog L σ β) s s' :=
  ⟨rfl, hE⟩

/-- First parts that are alike, and rests that are alike after them. -/
theorem Alike.bind {x : Prog L σ α} {y : Prog L σ β} {g : α → Prog L σ α'}
    {g' : β → Prog L σ β'} {T : α' → β' → σ → σ → Prop} (h : Alike f E Q x y s s')
    (hg : ∀ a b t t', E t t' → Q a b t t' → Alike f E T (g a) (g' b) t t') :
    Alike f E T (x >>= g) (y >>= g') s s' := by
  rcases h with ⟨hlabels, hresult⟩
  cases hx : exec x s with
  | ok a t =>
    cases hy : exec y s' with
    | ok b t' =>
      rw [hx, hy] at hresult
      have hrest := hg a b t t' hresult.1 hresult.2
      constructor
      · rw [labels_bind hx, labels_bind hy, List.filter_append, List.filter_append, hlabels,
          hrest.labels]
      · rw [exec_bind, exec_bind, hx, hy]
        exact hrest.result
    | error t' | hang t' =>
      rw [hx, hy] at hresult
      exact hresult.elim
  | error t =>
    cases hy : exec y s' with
    | error t' =>
      rw [hx, hy] at hresult
      constructor
      · rw [labels_bind_of_error hx, labels_bind_of_error hy, hlabels]
      · rw [exec_bind, exec_bind, hx, hy]
        exact hresult
    | ok b t' | hang t' =>
      rw [hx, hy] at hresult
      exact hresult.elim
  | hang t =>
    cases hy : exec y s' with
    | hang t' =>
      rw [hx, hy] at hresult
      constructor
      · rw [labels_bind_of_hang hx, labels_bind_of_hang hy, hlabels]
      · rw [exec_bind, exec_bind, hx, hy]
        exact hresult
    | ok b t' | error t' =>
      rw [hx, hy] at hresult
      exact hresult.elim

/-- Two computations that give the same once `h` has been applied to what they give. -/
theorem Alike.lift {x y : Option α} {h : α → γ} (hE : E s s') (hxy : x.map h = y.map h) :
    Alike f E (fun a b _ _ => h a = h b) (lift x : Prog L σ α) (lift y) s s' := by
  cases x with
  | none =>
    cases y with
    | none => exact Alike.fail hE
    | some b => cases hxy
  | some a =>
    cases y with
    | none => cases hxy
    | some b => exact Alike.pure hE (Option.some.inj hxy)

/-- `Alike.lift`, with the values at hand in the rest. -/
theorem Alike.lift_bind {x y : Option α} {h : α → γ} {g : α → Prog L σ α'}
    {g' : α → Prog L σ β'} {T : α' → β' → σ → σ → Prop} (hE : E s s') (hxy : x.map h = y.map h)
    (hg : ∀ a b, x = some a → y = some b → h a = h b → Alike f E T (g a) (g' b) s s') :
    Alike f E T (Prog.lift x >>= g) (Prog.lift y >>= g') s s' := by
  cases x with
  | none =>
    cases y with
    | none => exact Alike.fail hE
    | some b => cases hxy
  | some a =>
    cases y with
    | none => cases hxy
    | some b => exact hg a b rfl rfl (Option.some.inj hxy)

/-- One computation made in both runs. -/
theorem Alike.lift_bind_same {x : Option γ} {g : γ → Prog L σ α} {g' : γ → Prog L σ β}
    (hE : E s s') (hg : ∀ a, x = some a → Alike f E Q (g a) (g' a) s s') :
    Alike f E Q (Prog.lift x >>= g) (Prog.lift x >>= g') s s' := by
  cases x with
  | none => exact Alike.fail hE
  | some a => exact hg a rfl

/-- Both look at their own state. -/
theorem Alike.observe_bind {l : L} {h : σ → γ} {g : γ → Prog L σ α} {g' : γ → Prog L σ β}
    (hk : Alike f E Q (g (h s)) (g' (h s')) s s') :
    Alike f E Q (observe l h >>= g) (observe l h >>= g') s s' := by
  constructor
  · show (l :: Prog.labels (g (h s)) s).filter f = (l :: Prog.labels (g' (h s')) s').filter f
    rw [List.filter_cons, List.filter_cons, hk.labels]
  · exact hk.result

theorem Alike.get_bind [Inhabited L] {g : σ → Prog L σ α} {g' : σ → Prog L σ β}
    (hk : Alike f E Q (g s) (g' s') s s') : Alike f E Q (get >>= g) (get >>= g') s s' :=
  Alike.observe_bind hk

theorem Alike.perform {l : L} {u u' : σ → σ} {Q : Unit → Unit → σ → σ → Prop}
    (hE : E (u s) (u' s')) (h : Q () () (u s) (u' s')) :
    Alike f E Q (perform l u) (perform l u') s s' := ⟨rfl, hE, h⟩

/-- Both take the same branch. -/
theorem Alike.ite {p q : Prop} [Decidable p] [Decidable q] {x x' : Prog L σ α}
    {y y' : Prog L σ β} (hpq : p ↔ q) (hx : p → q → Alike f E Q x y s s')
    (hy : ¬ p → ¬ q → Alike f E Q x' y' s s') :
    Alike f E Q (if p then x else x') (if q then y else y') s s' := by
  by_cases h : p
  · rw [if_pos h, if_pos (hpq.1 h)]
    exact hx h (hpq.1 h)
  · rw [if_neg h, if_neg (mt hpq.2 h)]
    exact hy h (mt hpq.2 h)

/-- The rule of consequence. -/
theorem Alike.mono {T : α → β → σ → σ → Prop} {x : Prog L σ α} {y : Prog L σ β}
    (h : Alike f E Q x y s s') (hQT : ∀ a b t t', Q a b t t' → T a b t t') :
    Alike f E T x y s s' := by
  refine ⟨h.labels, ?_⟩
  have hresult := h.result
  revert hresult
  cases exec x s <;> cases exec y s' <;> simp only [Result.Alike, imp_self]
  exact fun hok => ⟨hok.1, hQT _ _ _ _ hok.2⟩

/-- `I` is what the two accumulators have in common. -/
theorem Alike.foldlM {I : α → β → Prop} {step : α → γ → Prog L σ α} {step' : β → γ → Prog L σ β}
    {xs : List γ}
    (hstep : ∀ a b t t', E t t' → I a b → ∀ x ∈ xs,
      Alike f E (fun a b _ _ => I a b) (step a x) (step' b x) t t')
    {a : α} {b : β} (hE : E s s') (hI : I a b) :
    Alike f E (fun a b _ _ => I a b) (xs.foldlM step a) (xs.foldlM step' b) s s' := by
  induction xs generalizing a b s s' with
  | nil => exact Alike.pure hE hI
  | cons x xs ih =>
    rw [List.foldlM_cons, List.foldlM_cons]
    refine Alike.bind (hstep a b s s' hE hI x List.mem_cons_self) fun a b t t' hE hI => ih ?_ hE hI
    intro a b t t' hE hI y hy
    exact hstep a b t t' hE hI y (List.mem_cons_of_mem _ hy)

/-- A program that does not look at what `E` allows to differ. -/
theorem Alike.of_respects {x : Prog L σ α} (h : Respects E x) (hE : E s s') :
    Alike f E (fun a b _ _ => a = b) x x s s' := by
  induction x generalizing s s' with
  | ret a => exact Alike.pure hE rfl
  | fail => exact Alike.fail hE
  | await c k ih =>
    have hc := h.1 s s' hE
    by_cases htrue : c s
    · have hk := ih h.2 hE
      constructor
      · simp only [Prog.labels, if_pos htrue, if_pos (hc ▸ htrue)]
        exact hk.labels
      · simp only [exec, if_pos htrue, if_pos (hc ▸ htrue)]
        exact hk.result
    · have hfalse : ¬ c s' := hc ▸ htrue
      constructor
      · simp [Prog.labels, htrue, hfalse]
      · simp only [exec, if_neg htrue, if_neg hfalse]
        exact hE
  | act l u k ih =>
    rcases h.1 s s' hE with ⟨hu, hk⟩
    have hrest := ih s (h.2 s) hu
    constructor
    · simp only [Prog.labels, ← hk, List.filter_cons, hrest.labels]
    · simp only [exec, ← hk]
      exact hrest.result

end Rules

end NsBoot.Prog
