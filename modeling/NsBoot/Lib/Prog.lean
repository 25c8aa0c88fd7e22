import Mathlib.Order.Defs.Unbundled

/-!
# NsBoot.Lib.Prog — programs made of atomic steps

A `Prog L σ α` works on a shared state `σ` one atomic step at a time: a step
reads the state, replaces it, and carries a label from `L`. A program may also
wait for a condition, or stop with an error. It has two readings:

* alone and to its end, `exec`, with the inversion lemmas `exec_bind_ok_iff`
  and `exec_foldlM_cons_ok_iff`: a program that returned went through every
  one of its parts; and with `Ends I Q x s`, a triple that also says where the
  program stops when it does not return;
* interleaved with others, step by step (`NsBoot.Lib.Pool`).

`Does R Q x` says that every single step of `x`, with label `l`, is an `R l`
step whatever the state it is taken in, and that what `x` returns meets `Q`. It
composes along `do` blocks and loops, and it is meaningful under both readings:
`Does.final` is the consequence for a program run alone, returned or not.
-/

namespace NsBoot

variable {L σ α β γ : Type} {τ : Type*}

/-- A program: it is done, has failed, waits for a condition, or takes a step and goes on with the
state it found. -/
inductive Prog (L σ α : Type) : Type where
  | ret (a : α)
  | fail
  | await (c : σ → Bool) (k : Prog L σ α)
  | act (l : L) (f : σ → σ) (k : σ → Prog L σ α)

namespace Prog

/-- `g` is run on what the first program returns. -/
def bind : Prog L σ α → (α → Prog L σ β) → Prog L σ β
  | ret a, g => g a
  | fail, _ => fail
  | await c k, g => await c (bind k g)
  | act l f k, g => act l f fun s => bind (k s) g

instance : Monad (Prog L σ) where
  pure := ret
  bind := bind

theorem bind_ret (x : Prog L σ α) : x.bind ret = x := by
  induction x with
  | ret a => rfl
  | fail => rfl
  | await c k ih => simp [bind, ih]
  | act l f k ih => simp [bind, ih]

theorem bind_bind (x : Prog L σ α) (g : α → Prog L σ β) (h : β → Prog L σ γ) :
    (x.bind g).bind h = x.bind fun a => (g a).bind h := by
  induction x with
  | ret a => rfl
  | fail => rfl
  | await c k ih => simp [bind, ih]
  | act l f k ih => simp [bind, ih]

instance : LawfulMonad (Prog L σ) :=
  LawfulMonad.mk' _ bind_ret (fun _ _ => rfl) bind_bind

/-- A labelled step. -/
def perform (l : L) (f : σ → σ) : Prog L σ Unit := act l f fun _ => ret ()

/-- A labelled step that only reads. -/
def observe (l : L) (g : σ → α) : Prog L σ α := act l id fun s => ret (g s)

/-- A pure computation whose failure is an error. -/
def lift : Option α → Prog L σ α
  | some a => ret a
  | none => fail

/-- Waiting for a condition on the state. -/
def wait (c : σ → Bool) : Prog L σ Unit := await c (ret ())

/-- A part that runs only when `p` holds. -/
def when (p : Prop) [Decidable p] (x : Prog L σ Unit) : Prog L σ Unit := if p then x else ret ()

/-- Steps that need no label of their own carry the default one. -/
instance [Inhabited L] : MonadStateOf σ (Prog L σ) where
  get := observe default id
  set s := act default (fun _ => s) fun _ => ret ⟨⟩
  modifyGet f := act default (fun s => (f s).2) fun s => ret (f s).1

/-- A `while` loop of at most `n` rounds; then it only waits for the condition to
end. -/
def loop [Inhabited L] (c : σ → Bool) (body : Prog L σ Unit) : Nat → Prog L σ Unit
  | 0 => wait fun s => !c s
  | n + 1 => do
    let s ← get
    when (c s) do
      body
      loop c body n

/-! ## Alone -/

/-- How a program ends: it returns, stops with an error, or waits for something
that will not come. -/
inductive Result (σ α : Type) where
  | ok (a : α) (s : σ)
  | error (s : σ)
  | hang (s : σ)

namespace Result

/-- The state left behind. -/
def final : Result σ α → σ
  | .ok _ s => s
  | .error s => s
  | .hang s => s

def isOk : Result σ α → Bool
  | .ok _ _ => true
  | _ => false

theorem exists_of_isOk {x : Result σ α} (h : x.isOk) : ∃ a s, x = .ok a s := by
  cases x with
  | ok a s => exact ⟨a, s, rfl⟩
  | error s => simp [isOk] at h
  | hang s => simp [isOk] at h

theorem eq_ok_of_isOk {x : Result σ Unit} (h : x.isOk) : x = .ok () x.final := by
  obtain ⟨_, s, rfl⟩ := exists_of_isOk h
  rfl

end Result

/-- The program run alone: nobody else changes the state between two steps. -/
def exec : Prog L σ α → σ → Result σ α
  | ret a, s => .ok a s
  | fail, s => .error s
  | await c k, s => if c s then exec k s else .hang s
  | act _ f k, s => exec (k s) (f s)

@[simp] theorem exec_pure (a : α) (s : σ) : exec (pure a : Prog L σ α) s = .ok a s := rfl

@[simp] theorem exec_perform (l : L) (f : σ → σ) (s : σ) :
    exec (perform l f) s = .ok () (f s) := rfl

@[simp] theorem exec_observe (l : L) (g : σ → α) (s : σ) :
    exec (observe l g) s = .ok (g s) s := rfl

@[simp] theorem exec_get [Inhabited L] (s : σ) : exec (get : Prog L σ σ) s = .ok s s := rfl

@[simp] theorem exec_modify [Inhabited L] (f : σ → σ) (s : σ) :
    exec (modify f : Prog L σ PUnit) s = .ok ⟨⟩ (f s) := rfl

@[simp] theorem exec_get_bind [Inhabited L] (g : σ → Prog L σ α) (s : σ) :
    exec (get >>= g) s = exec (g s) s := rfl

@[simp] theorem exec_modify_bind [Inhabited L] (f : σ → σ) (g : PUnit → Prog L σ α) (s : σ) :
    exec (modify f >>= g) s = exec (g ⟨⟩) (f s) := rfl

@[simp] theorem exec_observe_bind (l : L) (g : σ → α) (h : α → Prog L σ β) (s : σ) :
    exec (observe l g >>= h) s = exec (h (g s)) s := rfl

theorem exec_wait_bind (c : σ → Bool) (g : Unit → Prog L σ α) (s : σ) :
    exec (wait c >>= g) s = if c s then exec (g ()) s else .hang s := rfl

@[simp] theorem exec_fail (s : σ) : exec (fail : Prog L σ α) s = .error s := rfl

@[simp] theorem lift_some_bind (a : α) (g : α → Prog L σ β) : lift (some a) >>= g = g a := rfl

@[simp] theorem lift_none_bind (g : α → Prog L σ β) : lift none >>= g = fail := rfl

theorem lift_map_bind (x : Option α) (f : α → β) (g : β → Prog L σ γ) :
    lift (x.map f) >>= g = lift x >>= fun a => g (f a) := by
  cases x with
  | none => rfl
  | some a => rfl

/-- A sequence goes on where its first part returned. -/
theorem exec_bind (x : Prog L σ α) (g : α → Prog L σ β) (s : σ) :
    exec (x >>= g) s = match exec x s with
      | .ok a t => exec (g a) t
      | .error t => .error t
      | .hang t => .hang t := by
  change exec (x.bind g) s = _
  induction x generalizing s with
  | ret a => rfl
  | fail => rfl
  | await c k ih =>
    simp only [bind, exec]
    split
    · exact ih s
    · rfl
  | act l f k ih => exact ih s (f s)

/-- A sequence returns when both of its parts do. -/
theorem exec_bind_ok_iff {x : Prog L σ α} {g : α → Prog L σ β} {s s' : σ} {b : β} :
    exec (x >>= g) s = .ok b s' ↔ ∃ a t, exec x s = .ok a t ∧ exec (g a) t = .ok b s' := by
  rw [exec_bind]
  cases exec x s with
  | ok a t =>
    constructor
    · intro h
      exact ⟨a, t, rfl, h⟩
    · rintro ⟨a', t', heq, h⟩
      cases heq
      exact h
  | error t => simp
  | hang t => simp

theorem exec_pure_ok_iff {a b : α} {s s' : σ} :
    exec (pure a : Prog L σ α) s = .ok b s' ↔ a = b ∧ s = s' := by
  rw [exec_pure, Result.ok.injEq]

theorem exec_perform_ok_iff {l : L} {f : σ → σ} {u : Unit} {s s' : σ} :
    exec (perform l f) s = .ok u s' ↔ f s = s' := by
  simp

theorem exec_observe_ok_iff {l : L} {g : σ → α} {a : α} {s s' : σ} :
    exec (observe l g) s = .ok a s' ↔ g s = a ∧ s = s' := by
  rw [exec_observe, Result.ok.injEq]

theorem exec_modify_ok_iff [Inhabited L] {f : σ → σ} {u : PUnit} {s s' : σ} :
    exec (modify f : Prog L σ PUnit) s = .ok u s' ↔ f s = s' := by
  simp

theorem exec_lift_ok_iff {x : Option α} {a : α} {s s' : σ} :
    exec (lift x : Prog L σ α) s = .ok a s' ↔ x = some a ∧ s = s' := by
  cases x with
  | none => simp [lift]
  | some b => simp [lift, exec]

theorem exec_wait_ok_iff {c : σ → Bool} {u : Unit} {s s' : σ} :
    exec (wait c : Prog L σ Unit) s = .ok u s' ↔ c s = true ∧ s = s' := by
  simp only [wait, exec]
  split
  · next h => simp [h]
  · next h => simp [h]

theorem exec_ite_ok_iff {p : Prop} [Decidable p] {x y : Prog L σ α} {a : α} {s s' : σ} :
    exec (if p then x else y) s = .ok a s' ↔
      (p ∧ exec x s = .ok a s') ∨ (¬ p ∧ exec y s = .ok a s') := by
  split
  · next h => simp [h]
  · next h => simp [h]

theorem exec_when_ok_iff {p : Prop} [Decidable p] {x : Prog L σ Unit} {u : Unit} {s s' : σ} :
    exec (when p x) s = .ok u s' ↔ (p ∧ exec x s = .ok u s') ∨ (¬ p ∧ s = s') := by
  unfold when
  split
  · next h => simp [h]
  · next h => simp [h, exec]

/-- A loop that returned returned from its first round, and went on from there. -/
theorem exec_foldlM_cons_ok_iff {f : β → γ → Prog L σ β} {x : γ} {xs : List γ}
    {b b' : β} {s s' : σ} :
    exec ((x :: xs).foldlM f b) s = .ok b' s' ↔
      ∃ c t, exec (f b x) s = .ok c t ∧ exec (xs.foldlM f c) t = .ok b' s' := by
  rw [List.foldlM_cons]
  exact exec_bind_ok_iff

/-! ## Step by step -/

/-- Every step of the program that is labelled `l` is an `R l` step, and every
value it can return meets `Q`. -/
def Does (R : L → σ → σ → Prop) (Q : α → Prop) : Prog L σ α → Prop
  | ret a => Q a
  | fail => True
  | await _ k => Does R Q k
  | act l f k => (∀ s, R l s (f s)) ∧ ∀ s, Does R Q (k s)

section Rules

variable {R S : L → σ → σ → Prop} {P : α → Prop} {Q : β → Prop}

/-- The rule of consequence. -/
theorem Does.mono {P' : α → Prop} {x : Prog L σ α} (h : Does R P x)
    (hRS : ∀ l s s', R l s s' → S l s s') (hP : ∀ a, P a → P' a) : Does S P' x := by
  induction x with
  | ret a => exact hP a h
  | fail => trivial
  | await c k ih => exact ih h
  | act l f k ih => exact ⟨fun s => hRS _ _ _ (h.1 s), fun s => ih s (h.2 s)⟩

/-- Steps that are `R` steps are in particular `S` steps. -/
theorem Does.weaken {x : Prog L σ α} (h : Does R P x) (hRS : ∀ l s s', R l s s' → S l s s') :
    Does S P x := h.mono hRS fun _ => id

theorem Does.pure {a : α} (h : P a) : Does R P (pure a : Prog L σ α) := h

theorem Does.done (a : α) : Does R (fun _ => True) (Pure.pure a : Prog L σ α) := trivial

theorem Does.fail : Does R P (fail : Prog L σ α) := trivial

theorem Does.lift {x : Option α} (h : ∀ a, x = some a → P a) :
    Does R P (lift x : Prog L σ α) := by
  cases x with
  | none => trivial
  | some a => exact h a rfl

theorem Does.wait (c : σ → Bool) : Does R (fun _ => True) (wait c : Prog L σ Unit) := trivial

theorem Does.perform {l : L} {f : σ → σ} (h : ∀ s, R l s (f s)) :
    Does R (fun _ => True) (perform l f) := ⟨h, fun _ => trivial⟩

theorem Does.observe {l : L} (h : ∀ s, R l s s) {g : σ → α} (hP : ∀ s, P (g s)) :
    Does R P (observe l g) := ⟨h, hP⟩

theorem Does.get [Inhabited L] (h : ∀ s, R default s s) :
    Does R (fun _ => True) (get : Prog L σ σ) := ⟨h, fun _ => trivial⟩

theorem Does.modify [Inhabited L] {f : σ → σ} (h : ∀ s, R default s (f s)) :
    Does R (fun _ => True) (modify f : Prog L σ PUnit) := ⟨h, fun _ => trivial⟩

theorem Does.ite {p : Prop} [Decidable p] {x y : Prog L σ α} (hx : p → Does R P x)
    (hy : ¬ p → Does R P y) : Does R P (if p then x else y) := by
  split
  · next h => exact hx h
  · next h => exact hy h

theorem Does.when {p : Prop} [Decidable p] {x : Prog L σ Unit}
    (hx : p → Does R (fun _ => True) x) : Does R (fun _ => True) (when p x) := by
  unfold Prog.when
  exact Does.ite hx fun _ => trivial

/-- What the first part returns is all that the second has to be good for. -/
theorem Does.bind {x : Prog L σ α} {g : α → Prog L σ β} (hx : Does R P x)
    (hg : ∀ a, P a → Does R Q (g a)) : Does R Q (x >>= g) := by
  change Does R Q (x.bind g)
  induction x with
  | ret a => exact hg a hx
  | fail => trivial
  | await c k ih => exact ih hx
  | act l f k ih => exact ⟨hx.1, fun s => ih s (hx.2 s)⟩

/-- However many rounds are made. -/
theorem Does.loop [Inhabited L] {c : σ → Bool} {body : Prog L σ Unit}
    (hget : ∀ s, R default s s) (hbody : Does R (fun _ => True) body) (n : Nat) :
    Does R (fun _ => True) (loop c body n) := by
  induction n with
  | zero => exact Does.wait _
  | succ n ih =>
    exact Does.bind (Does.get hget) fun s _ => Does.when fun _ => Does.bind hbody fun _ _ => ih

theorem Does.forM {f : γ → Prog L σ PUnit} {xs : List γ}
    (hf : ∀ x ∈ xs, Does R (fun _ => True) (f x)) : Does R (fun _ => True) (xs.forM f) := by
  induction xs with
  | nil => trivial
  | cons x xs ih =>
    refine Does.bind (hf x List.mem_cons_self) fun _ _ => ih fun y hy => ?_
    exact hf y (List.mem_cons_of_mem _ hy)

theorem Does.mapM {f : γ → Prog L σ β} {xs : List γ} (hf : ∀ x ∈ xs, Does R Q (f x)) :
    Does R (fun ys => ∀ y ∈ ys, Q y) (xs.mapM f) := by
  induction xs with
  | nil =>
    rw [List.mapM_nil]
    exact Does.pure (by simp)
  | cons x xs ih =>
    rw [List.mapM_cons]
    refine Does.bind (hf x List.mem_cons_self) fun y hy =>
      Does.bind (ih fun z hz => hf z (List.mem_cons_of_mem _ hz)) fun ys hys => Does.pure ?_
    simpa using ⟨hy, hys⟩

/-- `Q` is the invariant of the accumulator. -/
theorem Does.foldlM {f : β → γ → Prog L σ β} {xs : List γ}
    (hf : ∀ b, Q b → ∀ x ∈ xs, Does R Q (f b x)) {b : β} (hb : Q b) :
    Does R Q (xs.foldlM f b) := by
  induction xs generalizing b with
  | nil => exact hb
  | cons x xs ih =>
    rw [List.foldlM_cons]
    refine Does.bind (hf b hb x List.mem_cons_self) fun c hc => ih (fun d hd y hy => ?_) hc
    exact hf d hd y (List.mem_cons_of_mem _ hy)

end Rules

section Alone

variable {R : σ → σ → Prop} [IsPreorder σ R] {P : α → Prop}

/-- What every step of a program does, the program does as a whole, wherever it
ends. -/
theorem Does.final {x : Prog L σ α} (h : Does (fun _ => R) P x) (s : σ) :
    R s (exec x s).final := by
  induction x generalizing s with
  | ret a => exact refl_of R s
  | fail => exact refl_of R s
  | await c k ih =>
    simp only [exec]
    split
    · exact ih h s
    · exact refl_of R s
  | act l f k ih => exact trans_of R (h.1 s) (ih s (h.2 s) (f s))

/-- `Does.final` for a program that returned. -/
theorem Does.of_ok {x : Prog L σ α} (h : Does (fun _ => R) P x) {s s' : σ} {a : α}
    (hx : exec x s = .ok a s') : R s s' := by
  have := h.final s
  rwa [hx] at this

end Alone

/-- What is returned meets the postcondition. -/
theorem Does.returns {S : L → σ → σ → Prop} {P : α → Prop} {x : Prog L σ α} (h : Does S P x)
    {s s' : σ} {a : α} (hx : exec x s = .ok a s') : P a := by
  induction x generalizing s with
  | ret b =>
    cases hx
    exact h
  | fail => cases hx
  | await c k ih =>
    simp only [exec] at hx
    split at hx
    · exact ih h hx
    · cases hx
  | act l f k ih => exact ih s (h.2 s) hx

/-- Run alone from `s`, the program returns in `Q` or ends early in `I`. -/
def Ends (I : σ → Prop) (Q : α → σ → Prop) (x : Prog L σ α) (s : σ) : Prop :=
  match exec x s with
  | .ok a s' => Q a s'
  | .error s' => I s'
  | .hang s' => I s'

section Ends

variable {I : σ → Prop} {Q : α → σ → Prop} {s : σ}

theorem Ends.pure {a : α} (h : Q a s) : Ends I Q (pure a : Prog L σ α) s := h

theorem Ends.lift {x : Option α} (hI : I s) (h : ∀ a, x = some a → Q a s) :
    Ends I Q (lift x : Prog L σ α) s := by
  cases x with
  | none => exact hI
  | some a => exact h a rfl

theorem Ends.observe {l : L} {g : σ → α} (h : Q (g s) s) : Ends I Q (observe l g) s := h

/-- The rule of sequencing: `Q` is what holds between the two parts. -/
theorem Ends.bind {x : Prog L σ α} {g : α → Prog L σ β} {T : β → σ → Prop} (hx : Ends I Q x s)
    (hg : ∀ a s', Q a s' → Ends I T (g a) s') : Ends I T (x >>= g) s := by
  unfold Ends at hx ⊢
  rw [exec_bind]
  cases h : exec x s with
  | ok a t =>
    rw [h] at hx
    exact hg a t hx
  | error t =>
    rw [h] at hx
    exact hx
  | hang t =>
    rw [h] at hx
    exact hx

theorem Ends.get_bind [Inhabited L] {g : σ → Prog L σ α} (h : Ends I Q (g s) s) :
    Ends I Q (get >>= g) s := h

theorem Ends.ite {p : Prop} [Decidable p] {x y : Prog L σ α} (hx : p → Ends I Q x s)
    (hy : ¬ p → Ends I Q y s) : Ends I Q (if p then x else y) s := by
  split
  · next h => exact hx h
  · next h => exact hy h

/-- The rule of consequence. -/
theorem Ends.imp {I' : σ → Prop} {Q' : α → σ → Prop} {x : Prog L σ α} (h : Ends I Q x s)
    (hI : ∀ s', I s' → I' s') (hQ : ∀ a s', Q a s' → Q' a s') : Ends I' Q' x s := by
  unfold Ends at h ⊢
  cases hx : exec x s with
  | ok a t =>
    rw [hx] at h
    exact hQ a t h
  | error t | hang t =>
    rw [hx] at h
    exact hI t h

theorem Ends.mono {Q' : α → σ → Prop} {x : Prog L σ α} (h : Ends I Q x s)
    (hQ : ∀ a s', Q a s' → Q' a s') : Ends I Q' x s := h.imp (fun _ => id) hQ

/-- From what every step does to what holds at the end. -/
theorem Ends.of_does {R : σ → σ → Prop} [IsPreorder σ R] {P : α → Prop} {x : Prog L σ α}
    (h : Does (fun _ => R) P x) (hI : ∀ s', R s s' → I s')
    (hQ : ∀ a s', P a → R s s' → Q a s') : Ends I Q x s := by
  have hR := h.final s
  unfold Ends
  cases hx : exec x s with
  | ok a t =>
    rw [hx] at hR
    exact hQ a t (h.returns hx) hR
  | error t =>
    rw [hx] at hR
    exact hI t hR
  | hang t =>
    rw [hx] at hR
    exact hI t hR

/-- Two triples of one program. -/
theorem Ends.and {I' : σ → Prop} {Q' : α → σ → Prop} {x : Prog L σ α} (h : Ends I Q x s)
    (h' : Ends I' Q' x s) : Ends (fun s' => I s' ∧ I' s') (fun a s' => Q a s' ∧ Q' a s') x s := by
  unfold Ends at h h' ⊢
  cases hx : exec x s with
  | ok a t | error t | hang t =>
    rw [hx] at h h'
    exact ⟨h, h'⟩

/-- `J` is the invariant of the loop. -/
theorem Ends.mapM {J : σ → Prop} {f : γ → Prog L σ β} {xs : List γ}
    (hf : ∀ x ∈ xs, ∀ s, J s → Ends I (fun _ => J) (f x) s) (hs : J s) :
    Ends I (fun ys s' => ys.length = xs.length ∧ J s') (xs.mapM f) s := by
  induction xs generalizing s with
  | nil =>
    rw [List.mapM_nil]
    exact Ends.pure ⟨rfl, hs⟩
  | cons x xs ih =>
    rw [List.mapM_cons]
    refine Ends.bind (hf x List.mem_cons_self s hs) fun y s₁ h₁ =>
      Ends.bind (ih (fun z hz => hf z (List.mem_cons_of_mem _ hz)) h₁) fun ys s₂ h₂ =>
        Ends.pure ⟨?_, h₂.2⟩
    simp [h₂.1]

theorem Ends.of_ok {x : Prog L σ α} (h : Ends I Q x s) {a : α} {s' : σ}
    (hx : exec x s = .ok a s') : Q a s' := by
  unfold Ends at h
  rwa [hx] at h

theorem Ends.of_final {x : Prog L σ α} (h : I (exec x s).final) : Ends I (fun _ => I) x s := by
  unfold Ends
  cases hx : exec x s with
  | ok a t | error t | hang t =>
    rw [hx] at h
    exact h

theorem Ends.final {x : Prog L σ α} (h : Ends I (fun _ => I) x s) : I (exec x s).final := by
  unfold Ends at h
  cases hx : exec x s with
  | ok a t | error t | hang t =>
    rw [hx] at h
    exact h

end Ends

/-- `J` is not lost. -/
def Keeps (J : σ → Prop) (s s' : σ) : Prop := J s → J s'

instance (J : σ → Prop) : IsPreorder σ (Keeps J) where
  refl _ := id
  trans _ _ _ h h' hs := h' (h hs)

/-- An invariant of every step holds wherever the program ends. -/
theorem Ends.of_keeps {J : σ → Prop} {P : α → Prop} {x : Prog L σ α}
    (h : Does (fun _ => Keeps J) P x) {s : σ} (hs : J s) : Ends J (fun _ => J) x s :=
  Ends.of_does h (fun _ h => h hs) fun _ _ _ h => h hs

/-- `f` of the state is left alone. -/
def Same (f : σ → τ) (s s' : σ) : Prop := f s' = f s

instance (f : σ → τ) : IsPreorder σ (Same f) where
  refl _ := rfl
  trans _ _ _ h₁ h₂ := Eq.trans h₂ h₁

end Prog

end NsBoot
