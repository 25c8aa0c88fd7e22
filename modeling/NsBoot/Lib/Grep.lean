import Mathlib.Data.List.Forall2
import Mathlib.Data.List.Infix

/-!
# NsBoot.Lib.Grep — basic regular expressions, unanchored

`grep pattern line` is what `grep pattern` decides for one line: some part
of the line matches the expression. Supported are ordinary characters, `\c`,
`.`, bracket sets with ranges and `^` negation, the postfix `*`, and the
anchors `^` and `$`; groups and intervals are not.

* `grep_ones`: an expression without repetition is found where its atoms accept
  the characters one by one.
* `grep_ordinary`: an expression of ordinary characters is found where a text
  stands that `Fits` it, which is its own text but for the dots.
-/

namespace NsBoot.Grep

/-- What one character of a line is compared with. -/
inductive Atom where
  | char (c : Char)
  | any
  | set (negated : Bool) (ranges : List (Char × Char))

def Atom.accepts : Atom → Char → Bool
  | .char c, d => c = d
  | .any, _ => true
  | .set neg ranges, d => (ranges.any fun r => r.1 ≤ d && d ≤ r.2) != neg

/-- An atom, possibly repeated, or the end-of-line anchor. -/
inductive Piece where
  | one (a : Atom)
  | many (a : Atom)
  | eol

/-- The ranges between the brackets of a set, read from the front: `pending` is
a character that may still turn out to start a range. -/
def ranges (pending : Option Char) : List Char → List (Char × Char)
  | [] => pending.toList.map fun a => (a, a)
  | [c] => pending.toList.map (fun a => (a, a)) ++ [(c, c)]
  | c :: d :: cs =>
    match pending with
    | some a => if c = '-' then (a, d) :: ranges none cs else (a, a) :: ranges (some c) (d :: cs)
    | none => ranges (some c) (d :: cs)

/-- The inside of a bracket set. -/
def insideSet (cs : List Char) : List Char := cs.takeWhile (· ≠ ']')

/-- What follows a bracket set. -/
def afterSet (cs : List Char) : List Char := (cs.dropWhile (· ≠ ']')).tail

/-- The first atom of a nonempty expression and what follows it. -/
def atom (c : Char) (cs : List Char) : Atom × List Char :=
  if c = '.' then (.any, cs)
  else if c = '[' then
    if cs.head? = some '^' then (.set true (ranges none (insideSet cs.tail)), afterSet cs.tail)
    else (.set false (ranges none (insideSet cs)), afterSet cs)
  else if c = '\\' ∧ cs ≠ [] then (.char (cs.headD c), cs.tail)
  else (.char c, cs)

/-- The pieces of an expression of at most `fuel` characters. -/
def pieces : Nat → List Char → List Piece
  | _, [] => []
  | 0, _ :: _ => []
  | fuel + 1, c :: cs =>
    if c = '$' ∧ cs = [] then [.eol]
    else
      let (a, cs) := atom c cs
      if cs.head? = some '*' then .many a :: pieces fuel cs.tail else .one a :: pieces fuel cs

/-- The rests of a line after any number of accepted characters. -/
def rests (a : Atom) : List Char → List (List Char)
  | [] => [[]]
  | c :: cs => (c :: cs) :: (if a.accepts c then rests a cs else [])

/-- Some prefix of the text matches. -/
def matchHere : List Piece → List Char → Bool
  | [], _ => true
  | .eol :: ps, cs => cs.isEmpty && matchHere ps cs
  | .one a :: ps, c :: cs => a.accepts c && matchHere ps cs
  | .one _ :: _, [] => false
  | .many a :: ps, cs => (rests a cs).any (matchHere ps)

def grep (pattern line : String) : Bool :=
  let ps := pattern.toList
  if ps.head? = some '^' then matchHere (pieces ps.length ps.tail) line.toList
  else line.toList.tails.any (matchHere (pieces ps.length ps))

/-! ## Expressions without repetition -/

theorem matchHere_ones {as : List Atom} {cs : List Char} :
    matchHere (as.map .one) cs ↔ ∃ u, u <+: cs ∧ List.Forall₂ (fun a c => a.accepts c) as u := by
  induction as generalizing cs with
  | nil =>
    simp only [List.map_nil, matchHere, true_iff]
    exact ⟨[], List.nil_prefix, .nil⟩
  | cons a as ih =>
    cases cs with
    | nil =>
      simp only [List.map_cons, matchHere, Bool.false_eq_true, List.prefix_nil, false_iff]
      rintro ⟨u, rfl, h⟩
      cases h
    | cons c cs =>
      rw [List.map_cons, matchHere, Bool.and_eq_true, ih]
      constructor
      · rintro ⟨hc, u, hu, h⟩
        exact ⟨c :: u, by simpa using hu, .cons hc h⟩
      · rintro ⟨u, hu, h⟩
        cases h with
        | cons hd hds =>
          rw [List.cons_prefix_cons] at hu
          rw [hu.1] at hd
          exact ⟨hd, _, hu.2, hds⟩

/-- Such an expression is found where its atoms accept the characters one by one. -/
theorem grep_ones {pattern line : String} {as : List Atom}
    (hstart : pattern.toList.head? ≠ some '^')
    (h : pieces pattern.toList.length pattern.toList = as.map .one) :
    grep pattern line ↔
      ∃ u, u <:+: line.toList ∧ List.Forall₂ (fun a c => a.accepts c) as u := by
  unfold grep
  rw [if_neg hstart, h, List.any_eq_true]
  constructor
  · rintro ⟨cs, hcs, hmatch⟩
    rcases matchHere_ones.1 hmatch with ⟨u, hu, hall⟩
    exact ⟨u, hu.isInfix.trans ((List.mem_tails _ _).1 hcs).isInfix, hall⟩
  · rintro ⟨u, ⟨before, after, hline⟩, hall⟩
    refine ⟨u ++ after, ?_, matchHere_ones.2 ⟨u, List.prefix_append _ _, hall⟩⟩
    rw [List.mem_tails]
    exact ⟨before, by rw [← hline, List.append_assoc]⟩

/-! ## Ordinary expressions -/

/-- A character that stands for itself, or, if it is a dot, for any character. -/
def isOrdinary (c : Char) : Bool := c ≠ '[' && c ≠ '\\' && c ≠ '*' && c ≠ '^' && c ≠ '$'

/-- The atom such a character is. -/
def Atom.of (c : Char) : Atom := if c = '.' then .any else .char c

/-- The text is the expression's own, but for what stands at its dots. -/
def Fits (pattern text : List Char) : Prop :=
  List.Forall₂ (fun c d => c = '.' ∨ c = d) pattern text

instance (pattern text : List Char) : Decidable (Fits pattern text) :=
  inferInstanceAs (Decidable (List.Forall₂ _ _ _))

theorem Fits.refl (cs : List Char) : Fits cs cs := List.forall₂_same.2 fun _ _ => .inr rfl

theorem fits_append_iff {before rest u : List Char} (h : '.' ∉ before) :
    Fits (before ++ rest) u ↔ ∃ v, u = before ++ v ∧ Fits rest v := by
  induction before generalizing u with
  | nil => simp
  | cons c before ih =>
    rw [List.mem_cons, not_or] at h
    rw [List.cons_append, Fits, List.forall₂_cons_left_iff]
    constructor
    · rintro ⟨d, u, hd, hu, rfl⟩
      rcases (ih h.2).1 hu with ⟨v, rfl, hv⟩
      rw [hd.resolve_left (Ne.symm h.1)]
      exact ⟨v, rfl, hv⟩
    · rintro ⟨v, rfl, hv⟩
      exact ⟨c, before ++ v, .inr rfl, (ih h.2).2 ⟨v, rfl, hv⟩, rfl⟩

theorem accepts_of {c d : Char} : (Atom.of c).accepts d ↔ c = '.' ∨ c = d := by
  unfold Atom.of
  by_cases hdot : c = '.'
  · simp [hdot, Atom.accepts]
  · simp [hdot, Atom.accepts]

theorem atom_of_isOrdinary {c : Char} (h : isOrdinary c) (cs : List Char) :
    atom c cs = (Atom.of c, cs) := by
  simp only [isOrdinary, Bool.and_eq_true, decide_eq_true_eq] at h
  rcases h with ⟨⟨⟨⟨hset, hesc⟩, -⟩, -⟩, -⟩
  unfold atom Atom.of
  by_cases hdot : c = '.'
  · rw [if_pos hdot, if_pos hdot]
  · rw [if_neg hdot, if_neg hset, if_neg (fun h => hesc h.1), if_neg hdot]

theorem pieces_of_isOrdinary {fuel : Nat} {cs : List Char} (hfuel : cs.length ≤ fuel)
    (h : ∀ c ∈ cs, isOrdinary c) : pieces fuel cs = (cs.map Atom.of).map .one := by
  induction cs generalizing fuel with
  | nil => cases fuel <;> rfl
  | cons c cs ih =>
    rw [List.length_cons] at hfuel
    obtain ⟨fuel, rfl⟩ : ∃ n, fuel = n + 1 := ⟨fuel - 1, by omega⟩
    have hc := h c List.mem_cons_self
    have hcs : ∀ d ∈ cs, isOrdinary d := fun d hd => h d (List.mem_cons_of_mem _ hd)
    have hend : c ≠ '$' := by
      rintro rfl
      exact absurd hc (by decide)
    have hstar : cs.head? ≠ some '*' := by
      intro hhead
      exact absurd (hcs '*' (List.mem_of_head? hhead)) (by decide)
    rw [pieces, if_neg (fun h => hend h.1), atom_of_isOrdinary hc]
    simp only [if_neg hstar, List.map_cons]
    rw [ih (by omega) hcs]

theorem grep_ordinary {pattern line : String} (h : ∀ c ∈ pattern.toList, isOrdinary c) :
    grep pattern line ↔ ∃ u, u <:+: line.toList ∧ Fits pattern.toList u := by
  have hstart : pattern.toList.head? ≠ some '^' := by
    intro hhead
    exact absurd (h '^' (List.mem_of_head? hhead)) (by decide)
  rw [grep_ones hstart (pieces_of_isOrdinary (Nat.le_refl _) h)]
  simp only [List.forall₂_map_left_iff, accepts_of]
  rfl

end NsBoot.Grep
