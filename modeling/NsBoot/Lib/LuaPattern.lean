import NsBoot.Lib.Grep

/-!
# NsBoot.Lib.LuaPattern — `string.find` with a pattern

`find text pattern` says whether Lua's `string.find` finds the pattern. Supported
are ordinary characters, `.`, `%c` for a character `c` that is no letter, the
quantifiers `*`, `-` and `+`, and the anchors `^` and `$`; `?`, sets, classes and
captures are not. Whether a repetition is greedy decides which match is found, not
whether there is one, so `*` and `-` are one thing here.

* `items`: the pattern, as pieces of the matcher in `NsBoot.Lib.Grep`.
* `matchHere_least`: a text that matches and is as short as can be.
* `find_literal_iff`: of the texts without other special characters, exactly those
  with no dot and no hyphen behind the first character are searched for literally.
-/

namespace NsBoot.LuaPattern

open Grep

/-- The class of one character at the front of a pattern, and what follows it. -/
def single (c : Char) (cs : List Char) : Atom × List Char :=
  if c = '.' then (.any, cs)
  else if c = '%' ∧ cs ≠ [] then (.char (cs.headD c), cs.tail)
  else (.char c, cs)

/-- The pieces of a pattern of at most `fuel` characters. -/
def items : Nat → List Char → List Piece
  | _, [] => []
  | 0, _ :: _ => []
  | fuel + 1, c :: cs =>
    if c = '$' ∧ cs = [] then [.eol]
    else
      let (a, cs) := single c cs
      if cs.head? = some '*' ∨ cs.head? = some '-' then .many a :: items fuel cs.tail
      else if cs.head? = some '+' then .one a :: .many a :: items fuel cs.tail
      else .one a :: items fuel cs

/-- `string.find(text, pattern) ~= nil`. -/
def find (text pattern : String) : Bool :=
  let ps := pattern.toList
  if ps.head? = some '^' then matchHere (items ps.length ps.tail) text.toList
  else text.toList.tails.any (matchHere (items ps.length ps))

/-! ## Patterns whose only special characters are dots and hyphens -/

/-- No special character but perhaps a dot or a hyphen. -/
def isPlain (c : Char) : Bool := c ≠ '^' && c ≠ '$' && c ≠ '%' && c ≠ '*' && c ≠ '+'

/-- The first character of such a pattern, and whether it is repeated. -/
theorem items_cons {fuel : Nat} {c : Char} {cs : List Char} (h : ∀ d ∈ c :: cs, isPlain d) :
    items (fuel + 1) (c :: cs) =
      if cs.head? = some '-' then .many (Atom.of c) :: items fuel cs.tail
      else .one (Atom.of c) :: items fuel cs := by
  have hc : isPlain c := h c List.mem_cons_self
  simp only [isPlain, Bool.and_eq_true, decide_eq_true_eq] at hc
  rcases hc with ⟨⟨⟨⟨-, hend⟩, hesc⟩, -⟩, -⟩
  have hsingle : single c cs = (Atom.of c, cs) := by
    unfold single Atom.of
    rw [if_neg (fun h => hesc h.1 : ¬ (c = '%' ∧ cs ≠ []))]
    split
    · rfl
    · rfl
  have hhead (d : Char) (hd : isPlain d = false) : cs.head? ≠ some d := by
    intro hhead
    rw [h d (List.mem_cons_of_mem _ (List.mem_of_head? hhead))] at hd
    cases hd
  rw [items, if_neg (fun h => hend h.1 : ¬ (c = '$' ∧ cs = [])), hsingle]
  simp only [hhead '*' rfl, hhead '+' rfl, false_or, if_false]

theorem items_literal {fuel : Nat} {cs : List Char} (hfuel : cs.length ≤ fuel)
    (h : ∀ c ∈ cs, isPlain c) (hhyphen : '-' ∉ cs.tail) :
    items fuel cs = (cs.map Atom.of).map .one := by
  induction cs generalizing fuel with
  | nil => cases fuel <;> rfl
  | cons c cs ih =>
    rw [List.length_cons] at hfuel
    obtain ⟨fuel, rfl⟩ : ∃ n, fuel = n + 1 := ⟨fuel - 1, by omega⟩
    have hhead : cs.head? ≠ some '-' := fun hhead => hhyphen (List.mem_of_head? hhead)
    have htail : '-' ∉ cs.tail := fun htail => hhyphen (List.mem_of_mem_tail htail)
    rw [items_cons h, if_neg hhead,
      ih (by omega) (fun d hd => h d (List.mem_cons_of_mem _ hd)) htail]
    rfl

/-! ## A text that is shorter, or has no dots -/

/-- A shortest text the piece matches, without a dot if it can be. -/
def least : Piece → List Char
  | .one .any => ['x']
  | .one (.char c) => [c]
  | _ => []

/-- A piece of a pattern of this section. -/
inductive Simple : Piece → Prop where
  | one (c : Char) : Simple (.one (Atom.of c))
  | many (c : Char) : Simple (.many (Atom.of c))

theorem matchHere_least {ps : List Piece} (h : ∀ p ∈ ps, Simple p) :
    matchHere ps (ps.flatMap least) := by
  induction ps with
  | nil => rfl
  | cons p ps ih =>
    have hrest := ih fun q hq => h q (List.mem_cons_of_mem _ hq)
    rw [List.flatMap_cons]
    cases h p List.mem_cons_self with
    | one c =>
      unfold Atom.of
      split
      · simpa [matchHere, least, Atom.accepts] using hrest
      · simpa [matchHere, least, Atom.accepts] using hrest
    | many c =>
      -- the repetition may be empty
      have hmem : ps.flatMap least ∈ rests (Atom.of c) (ps.flatMap least) := by
        cases ps.flatMap least <;> simp [rests]
      simp only [least, List.nil_append, matchHere, List.any_eq_true]
      exact ⟨_, hmem, hrest⟩

theorem least_of (c : Char) :
    (least (.one (Atom.of c))).length = 1 ∧ '.' ∉ least (.one (Atom.of c)) := by
  unfold Atom.of
  by_cases hdot : c = '.'
  · simp [hdot, least]
  · simp [hdot, least, Ne.symm hdot]

/-- What the shortest text of a pattern is like. -/
structure Shortened (cs : List Char) (ps : List Piece) : Prop where
  simple : ∀ p ∈ ps, Simple p
  length : (ps.flatMap least).length ≤ cs.length
  shorter : '-' ∈ cs.tail → (ps.flatMap least).length < cs.length
  dots : '.' ∉ ps.flatMap least

theorem items_shortened {fuel : Nat} {cs : List Char} (hfuel : cs.length ≤ fuel)
    (h : ∀ c ∈ cs, isPlain c) : Shortened cs (items fuel cs) := by
  induction fuel generalizing cs with
  | zero =>
    rw [List.length_eq_zero_iff.1 (Nat.le_zero.1 hfuel)]
    exact ⟨by simp [items], by simp [items], by simp, by simp [items]⟩
  | succ fuel ih =>
    cases cs with
    | nil => exact ⟨by simp [items], by simp [items], by simp, by simp [items]⟩
    | cons c cs =>
      rw [List.length_cons] at hfuel
      have hcs : ∀ d ∈ cs, isPlain d := fun d hd => h d (List.mem_cons_of_mem _ hd)
      rw [items_cons h]
      by_cases hhead : cs.head? = some '-'
      · -- a character and its hyphen make room for two
        rw [if_pos hhead]
        cases cs with
        | nil => cases hhead
        | cons d cs =>
          have hrest := @ih cs (by simp at hfuel; omega)
            fun e he => hcs e (List.mem_cons_of_mem _ he)
          have hlen := hrest.length
          constructor
          · intro p hp
            rcases List.mem_cons.1 hp with rfl | hp
            · exact .many c
            · exact hrest.simple p hp
          · simp only [List.flatMap_cons, least, List.nil_append, List.tail_cons, List.length_cons]
            omega
          · intro _
            simp only [List.flatMap_cons, least, List.nil_append, List.tail_cons, List.length_cons]
            omega
          · exact hrest.dots
      · rw [if_neg hhead]
        have hrest := ih (by omega) hcs
        have hlen := hrest.length
        rcases least_of c with ⟨hone, hdot⟩
        constructor
        · intro p hp
          rcases List.mem_cons.1 hp with rfl | hp
          · exact .one c
          · exact hrest.simple p hp
        · simp only [List.flatMap_cons, List.length_append, hone, List.length_cons]
          omega
        · intro hhyphen
          -- the hyphen is not the next character, so it is behind another one
          have htail : '-' ∈ cs.tail := by
            cases cs with
            | nil => cases hhyphen
            | cons d cs =>
              rcases List.mem_cons.1 hhyphen with rfl | htail
              · exact absurd rfl hhead
              · exact htail
          have hshorter := hrest.shorter htail
          simp only [List.flatMap_cons, List.length_append, hone, List.length_cons]
          omega
        · rw [List.flatMap_cons, List.mem_append, not_or]
          exact ⟨hdot, hrest.dots⟩

/-- **Which patterns are searched for literally.** -/
theorem find_literal_iff {pattern : String} (h : ∀ c ∈ pattern.toList, isPlain c) :
    (∀ text, find text pattern ↔ pattern.toList <:+: text.toList) ↔
      '.' ∉ pattern.toList ∧ '-' ∉ pattern.toList.tail := by
  have hstart : pattern.toList.head? ≠ some '^' := by
    intro hhead
    exact absurd (h '^' (List.mem_of_head? hhead)) (by decide)
  have hfind (text : String) : find text pattern ↔
      ∃ cs, cs <:+ text.toList ∧ matchHere (items pattern.toList.length pattern.toList) cs := by
    simp only [find, if_neg hstart, List.any_eq_true, List.mem_tails]
  constructor
  · intro hliteral
    have hshort := items_shortened (Nat.le_refl _) h
    let text := (items pattern.toList.length pattern.toList).flatMap least
    have hfound : pattern.toList <:+: text := by
      have hin := (hliteral (String.ofList text)).1
        ((hfind _).2 ⟨text, by simp, matchHere_least hshort.simple⟩)
      simpa using hin
    constructor
    · intro hdot
      exact hshort.dots (hfound.subset hdot)
    · intro hhyphen
      exact absurd hfound.length_le (Nat.not_le.2 (hshort.shorter hhyphen))
  · rintro ⟨hdot, hhyphen⟩ text
    have hsame (u : List Char) : List.Forall₂ (fun a c => Atom.accepts a c)
        (pattern.toList.map Atom.of) u ↔ u = pattern.toList := by
      have hfits : Grep.Fits (pattern.toList ++ []) u ↔ 
          ∃ v, u = pattern.toList ++ v ∧ Grep.Fits [] v :=
        fits_append_iff hdot
      rw [List.append_nil] at hfits
      simp only [List.forall₂_map_left_iff, accepts_of]
      refine hfits.trans ?_
      constructor
      · rintro ⟨v, rfl, hv⟩
        cases hv
        rw [List.append_nil]
      · rintro rfl
        exact ⟨[], (List.append_nil _).symm, .nil⟩
    rw [hfind, items_literal (Nat.le_refl _) h hhyphen]
    simp only [matchHere_ones, hsame]
    constructor
    · rintro ⟨cs, hcs, u, hu, rfl⟩
      exact hu.isInfix.trans hcs.isInfix
    · rintro ⟨before, after, htext⟩
      exact ⟨pattern.toList ++ after, ⟨before, by rw [← htext, List.append_assoc]⟩, _,
        List.prefix_append _ _, rfl⟩

end NsBoot.LuaPattern
