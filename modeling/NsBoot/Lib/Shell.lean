import Mathlib.Data.List.Basic
import Mathlib.Data.List.TakeWhile

/-!
# NsBoot.Lib.Shell — how a shell splits a command line

A line is read character by character, by the token rules of a POSIX shell: blanks end a
word, quotes and backslashes keep the characters after them, and the characters of the
shell's own language (`isActive`) stand for operators and expansions.

* `lex`: the tokens of a line. What an expansion would give is not looked at: its character
  is a token of its own, so a word is what a program gets as it is.
* `Part`: a line as a program puts it together, from fixed texts and arguments; `vector`:
  the tokens it is meant to have, with each argument inside one word.
* `survives_iff`: the line has these tokens exactly when all of their words are plain. The
  proof counts: an argument with a character that is not plain drops it, or makes a token
  of it.
* `mem_of_lex`: a line that lost characters on its way, and is still read as it was meant,
  lost blanks only.
-/

namespace NsBoot.Shell

inductive Token where
  | word (cs : List Char)
  | op (c : Char)
deriving DecidableEq, Repr

def isBlank (c : Char) : Bool := c = ' ' || c = '\t'

/-- Operators, and what starts a substitution or a pattern. The newline ends a command. -/
def isActive (c : Char) : Bool :=
  c ∈ ['\n', ';', '&', '|', '<', '>', '(', ')', '$', '\x60', '*', '?', '[']

/-- The single quote, the double quote and the backslash. -/
def isQuote (c : Char) : Bool := c ∈ ['\x27', '\x22', '\\']

/-- What means something at the start of a word only: a comment, a home directory. -/
def isLeading (c : Char) : Bool := c ∈ ['#', '~']

/-- Where in the line the reader is. -/
inductive Mode where
  | plain
  | escape
  | single
  | double
  | doubleEscape
  | comment
deriving DecidableEq, Repr

/-- The word that was being read, if there is one, ends. -/
def flush : Option (List Char) → List Token → List Token
  | some w, ts => .word w :: ts
  | none, ts => ts

/-- One more character of the word. -/
def grow (cur : Option (List Char)) (c : Char) : Option (List Char) := some (cur.getD [] ++ [c])

/-- The tokens of the rest of a line. A line that ends inside quotes has none; what a
backslash at the end of a line means is not specified. -/
def lex : List Char → Mode → Option (List Char) → Option (List Token)
  | [], .plain, cur => some (flush cur [])
  | [], .comment, _ => some []
  | [], _, _ => none
  | c :: cs, .plain, cur =>
    if isBlank c then (lex cs .plain none).map (flush cur)
    else if c = '\x27' then lex cs .single (some (cur.getD []))
    else if c = '\x22' then lex cs .double (some (cur.getD []))
    else if c = '\\' then lex cs .escape cur
    else if c = '#' ∧ cur = none then lex cs .comment none
    else if isActive c ∨ c = '~' ∧ cur = none then
      (lex cs .plain none).map fun ts => flush cur (.op c :: ts)
    else lex cs .plain (grow cur c)
  | c :: cs, .escape, cur =>
    -- a backslash joins lines
    if c = '\n' then lex cs .plain cur else lex cs .plain (grow cur c)
  | c :: cs, .single, cur =>
    if c = '\x27' then lex cs .plain cur else lex cs .single (grow cur c)
  | c :: cs, .double, cur =>
    if c = '\x22' then lex cs .plain cur
    else if c = '\\' then lex cs .doubleEscape cur
    else if c = '$' ∨ c = '\x60' then
      (lex cs .double (some [])).map fun ts => flush cur (.op c :: ts)
    else lex cs .double (grow cur c)
  | c :: cs, .doubleEscape, cur =>
    if c = '\n' then lex cs .double cur
    else if c ∈ ['$', '\x60', '\x22', '\\'] then lex cs .double (grow cur c)
    -- before other characters the backslash stays
    else lex cs .double (grow (grow cur '\\') c)
  | c :: cs, .comment, cur =>
    if c = '\n' then (lex cs .plain none).map (.op c :: ·) else lex cs .comment cur

/-- A line is handed over as a C string: a NUL ends it. -/
def cstring (line : List Char) : List Char := line.takeWhile (· ≠ '\x00')

/-- The tokens of a line. -/
def tokens (line : List Char) : Option (List Token) := lex (cstring line) .plain none

/-! ## Plain words -/

/-- A character that stands for itself inside a word. -/
def Ordinary (c : Char) : Prop :=
  isBlank c = false ∧ isQuote c = false ∧ isActive c = false ∧ c ≠ '\x00'

instance (c : Char) : Decidable (Ordinary c) := inferInstanceAs (Decidable (_ ∧ _ ∧ _ ∧ _))

/-- A word that stands for itself. -/
structure PlainWord (w : List Char) : Prop where
  head : ∃ c cs, w = c :: cs ∧ isLeading c = false
  ordinary : ∀ c ∈ w, Ordinary c

instance : (w : List Char) → Decidable (PlainWord w)
  | [] => isFalse fun h => by
    rcases h.head with ⟨c, cs, hnil, -⟩
    cases hnil
  | c :: cs =>
    have : Decidable (∀ d ∈ c :: cs, Ordinary d) := List.decidableBAll _ _
    decidable_of_iff (isLeading c = false ∧ ∀ d ∈ c :: cs, Ordinary d)
      ⟨fun h => ⟨⟨c, cs, rfl, h.1⟩, h.2⟩, fun h => by
        rcases h.head with ⟨d, ds, heq, hlead⟩
        cases heq
        exact ⟨hlead, h.ordinary⟩⟩

/-- What follows the start of a word need not be a word. -/
theorem PlainWord.append_iff {u v : List Char} (h : PlainWord u) :
    PlainWord (u ++ v) ↔ ∀ c ∈ v, Ordinary c := by
  constructor
  · intro huv c hc
    exact huv.ordinary c (List.mem_append_right u hc)
  · intro hv
    rcases h.head with ⟨c, cs, rfl, hlead⟩
    refine ⟨⟨c, cs ++ v, rfl, hlead⟩, ?_⟩
    intro d hd
    rcases List.mem_append.1 hd with hd | hd
    · exact h.ordinary d hd
    · exact hv d hd

/-! ## Counting -/

/-- How many characters of the line the tokens need. -/
def size : List Token → Nat
  | [] => 0
  | .word w :: ts => w.length + size ts
  | .op _ :: ts => size ts + 1

/-- How many blanks there are in words. -/
def blanks : List Token → Nat
  | [] => 0
  | .word w :: ts => w.countP isBlank + blanks ts
  | .op _ :: ts => blanks ts

theorem size_flush (cur : Option (List Char)) (ts : List Token) :
    size (flush cur ts) = (cur.getD []).length + size ts := by
  cases cur with
  | none => simp [flush]
  | some w => rfl

theorem blanks_flush (cur : Option (List Char)) (ts : List Token) :
    blanks (flush cur ts) = (cur.getD []).countP isBlank + blanks ts := by
  cases cur with
  | none => simp [flush]
  | some w => rfl

theorem length_grow (cur : Option (List Char)) (c : Char) :
    ((grow cur c).getD []).length = (cur.getD []).length + 1 := by
  simp [grow]

theorem countP_grow (cur : Option (List Char)) (c : Char) :
    ((grow cur c).getD []).countP isBlank =
      (cur.getD []).countP isBlank + if isBlank c then 1 else 0 := by
  simp [grow, List.countP_append, List.countP_cons]

/-- The backslash that is still to be read. -/
def Mode.pending : Mode → Nat
  | .doubleEscape => 1
  | _ => 0

theorem Mode.pending_le (m : Mode) : m.pending ≤ 1 := by
  cases m <;> decide

section Counted

variable {c : Char} {cs : List Char} {m m' : Mode} {cur cur' : Option (List Char)} {ts : List Token}

/-- A character of the line is one character of a token at most; a blank is one in a word,
or separates. -/
def Counted (cs : List Char) (m : Mode) (cur : Option (List Char)) (ts : List Token) : Prop :=
  size ts + cs.countP isBlank + (cur.getD []).countP isBlank ≤
    (cur.getD []).length + cs.length + blanks ts + m.pending

/-- The character grows the word. -/
theorem Counted.grow (hm : m'.pending = 0) (h : Counted cs m' (grow cur c) ts) :
    Counted (c :: cs) m cur ts := by
  rw [Counted, length_grow, countP_grow] at h
  rw [Counted, List.countP_cons, List.length_cons]
  omega

/-- The character is left out. -/
theorem Counted.drop (hc : isBlank c = false) (hcur : cur'.getD [] = cur.getD [])
    (h : Counted cs m' cur' ts) : Counted (c :: cs) m cur ts := by
  have hm := m'.pending_le
  rw [Counted, hcur] at h
  rw [Counted, List.countP_cons, List.length_cons, hc, if_neg Bool.false_ne_true]
  omega

/-- The character is a token of its own. -/
theorem Counted.op (hm : m'.pending = 0) (hcur : cur'.getD [] = []) (hc : isBlank c = false)
    (h : Counted cs m' cur' ts) : Counted (c :: cs) m cur (flush cur (.op c :: ts)) := by
  rw [Counted, hcur, List.countP_nil, List.length_nil] at h
  rw [Counted, List.countP_cons, List.length_cons, size_flush, blanks_flush, hc,
    if_neg Bool.false_ne_true]
  simp only [size, blanks]
  omega

/-- The character is a blank that separates. -/
theorem Counted.separate (hc : isBlank c) (h : Counted cs .plain none ts) :
    Counted (c :: cs) m cur (flush cur ts) := by
  have hm : Mode.plain.pending = 0 := rfl
  rw [Counted, Option.getD_none, List.countP_nil, List.length_nil] at h
  rw [Counted, List.countP_cons, List.length_cons, size_flush, blanks_flush, if_pos hc]
  omega

/-- The character is part of a comment. -/
theorem Counted.comment (h : Counted cs m' cur ts) (hm : m'.pending = 0) :
    Counted (c :: cs) m cur ts := by
  rw [Counted] at h
  rw [Counted, List.countP_cons, List.length_cons]
  split <;> omega

/-- Induction over the line, one case for each mode of the reader. -/
theorem lex_counted (h : lex cs m cur = some ts) : Counted cs m cur ts := by
  induction cs generalizing m cur ts with
  | nil =>
    have hle := List.countP_le_length (p := isBlank) (l := cur.getD [])
    cases m with
    | plain =>
      cases h
      rw [Counted, size_flush, blanks_flush]
      simp only [size, blanks, List.countP_nil, List.length_nil, Mode.pending]
      omega
    | comment =>
      cases h
      simp only [Counted, size, blanks, List.countP_nil, List.length_nil, Mode.pending]
      omega
    | escape | single | double | doubleEscape => cases h
  | cons c cs ih =>
    cases m with
    | plain =>
      simp only [lex] at h
      split at h
      · next hc =>
        rcases Option.map_eq_some_iff.1 h with ⟨ts', hts', rfl⟩
        exact (ih hts').separate hc
      · next hc =>
        rw [Bool.not_eq_true] at hc
        split at h
        · exact (ih h).drop hc rfl
        split at h
        · exact (ih h).drop hc rfl
        split at h
        · exact (ih h).drop hc rfl
        split at h
        · next hcomment => exact (ih h).drop hc (by rw [hcomment.2])
        split at h
        · rcases Option.map_eq_some_iff.1 h with ⟨ts', hts', rfl⟩
          exact (ih hts').op rfl rfl hc
        · exact (ih h).grow rfl
    | escape | single =>
      simp only [lex] at h
      split at h
      · next hc => exact (ih h).drop (by rw [hc]; rfl) rfl
      · exact (ih h).grow rfl
    | double =>
      simp only [lex] at h
      split at h
      · next hc => exact (ih h).drop (by rw [hc]; rfl) rfl
      split at h
      · next hc => exact (ih h).drop (by rw [hc]; rfl) rfl
      split at h
      · next hc =>
        rcases Option.map_eq_some_iff.1 h with ⟨ts', hts', rfl⟩
        refine (ih hts').op rfl rfl ?_
        rcases hc with rfl | rfl
        · rfl
        · rfl
      · exact (ih h).grow rfl
    | doubleEscape =>
      simp only [lex] at h
      split at h
      · next hc => exact (ih h).drop (by rw [hc]; rfl) rfl
      split at h
      · exact (ih h).grow rfl
      · -- the backslash stays as well
        have hle := ih h
        have hslash : isBlank '\\' = false := rfl
        rw [Counted, length_grow, length_grow, countP_grow, countP_grow, hslash,
          if_neg Bool.false_ne_true] at hle
        rw [Counted, List.countP_cons, List.length_cons]
        simp only [Mode.pending] at hle ⊢
        omega
    | comment =>
      simp only [lex] at h
      split at h
      · next hc =>
        rcases Option.map_eq_some_iff.1 h with ⟨ts', hts', rfl⟩
        have hle := ih hts'
        have hcur := List.countP_le_length (p := isBlank) (l := cur.getD [])
        rw [Counted, Option.getD_none, List.countP_nil, List.length_nil] at hle
        rw [Counted, List.countP_cons, List.length_cons, hc, if_neg (by decide)]
        simp only [size, blanks, Mode.pending] at hle ⊢
        omega
      · exact (ih h).comment rfl

end Counted

/-- A word that is being read, and is plain so far. -/
theorem plainWord_grow {cur : Option (List Char)} {c : Char}
    (hcur : ∀ w, cur = some w → PlainWord w)
    (hc : Ordinary c) (hlead : cur = none → isLeading c = false) :
    PlainWord (cur.getD [] ++ [c]) := by
  cases cur with
  | none =>
    refine ⟨⟨c, [], rfl, hlead rfl⟩, ?_⟩
    intro d hd
    rw [Option.getD_none, List.nil_append, List.mem_singleton] at hd
    rwa [hd]
  | some w =>
    have hw := hcur w rfl
    rcases hw.head with ⟨d, ds, hd, hlead'⟩
    refine ⟨⟨d, ds ++ [c], by simp [hd], hlead'⟩, ?_⟩
    intro e he
    rcases List.mem_append.1 he with he | he
    · exact hw.ordinary e he
    · rw [List.mem_singleton] at he
      rwa [he]

theorem mem_flush {w : List Char} {cur : Option (List Char)} {ts : List Token}
    (h : .word w ∈ flush cur ts) : cur = some w ∨ .word w ∈ ts := by
  cases cur with
  | none => exact .inr h
  | some v =>
    rcases List.mem_cons.1 h with heq | h
    · cases heq
      exact .inl rfl
    · exact .inr h

theorem mem_flush_of_mem {t : Token} (cur : Option (List Char)) {ts : List Token} (h : t ∈ ts) :
    t ∈ flush cur ts := by
  cases cur with
  | none => exact h
  | some w => exact List.mem_cons_of_mem _ h

/-- When no character is lost, every word is plain. -/
theorem plain_of_size {cs : List Char} {cur : Option (List Char)} {ts : List Token}
    (h : lex cs .plain cur = some ts)
    (hsize : (cur.getD []).length + cs.length + blanks ts ≤
      size ts + cs.countP isBlank + (cur.getD []).countP isBlank)
    (hnul : '\x00' ∉ cs) (hcur : ∀ w, cur = some w → PlainWord w) :
    ∀ w, .word w ∈ ts → PlainWord w := by
  induction cs generalizing cur ts with
  | nil =>
    cases h
    intro w hw
    rcases mem_flush hw with hw | hw
    · exact hcur w hw
    · cases hw
  | cons c cs ih =>
    rw [List.countP_cons, List.length_cons] at hsize
    rw [List.mem_cons, not_or] at hnul
    -- a character that is left out is missing
    have hlost {m : Mode} {cur' : Option (List Char)} (hc : isBlank c = false)
        (h : lex cs m cur' = some ts) (hm : m.pending = 0) (heq : cur'.getD [] = cur.getD []) :
        False := by
      have hle := lex_counted h
      rw [Counted, heq] at hle
      rw [hc, if_neg Bool.false_ne_true] at hsize
      omega
    simp only [lex] at h
    split at h
    · next hc =>
      rcases Option.map_eq_some_iff.1 h with ⟨ts', hts', rfl⟩
      rw [size_flush, blanks_flush, if_pos hc] at hsize
      intro w hw
      rcases mem_flush hw with hw | hw
      · exact hcur w hw
      · refine ih hts' ?_ hnul.2 nofun w hw
        simp only [Option.getD_none, List.length_nil, List.countP_nil]
        omega
    · next hc =>
      rw [Bool.not_eq_true] at hc
      split at h
      · exact (hlost hc h rfl rfl).elim
      · next hsingle =>
        split at h
        · exact (hlost hc h rfl rfl).elim
        · next hdouble =>
          split at h
          · exact (hlost hc h rfl rfl).elim
          · next hslash =>
            split at h
            · next hcomment => exact (hlost hc h rfl (by rw [hcomment.2])).elim
            · next hcomment =>
              split at h
              · rcases Option.map_eq_some_iff.1 h with ⟨ts', hts', rfl⟩
                rw [size_flush, blanks_flush, hc, if_neg Bool.false_ne_true] at hsize
                simp only [size, blanks] at hsize
                intro w hw
                rcases mem_flush hw with hw | hw
                · exact hcur w hw
                · rcases List.mem_cons.1 hw with heq | hw
                  · cases heq
                  · refine ih hts' ?_ hnul.2 nofun w hw
                    simp only [Option.getD_none, List.length_nil, List.countP_nil]
                    omega
              · next hactive =>
                refine ih h ?_ hnul.2 ?_
                · rw [length_grow, countP_grow]
                  omega
                · intro w hw
                  cases hw
                  push Not at hactive hcomment
                  refine plainWord_grow hcur ⟨hc, ?_, by simpa using hactive.1, Ne.symm hnul.1⟩
                    fun hnone => ?_
                  · simp [isQuote, hsingle, hdouble, hslash]
                  · have htilde : c ≠ '~' := fun heq => hactive.2 heq hnone
                    have hhash : c ≠ '#' := fun heq => hcomment heq hnone
                    simp [isLeading, htilde, hhash]

/-! ## Lines made of texts and arguments -/

/-- A part of a line: a text of the program, or a string that it puts in. -/
inductive Part where
  | text (t : String)
  | arg (a : String)
deriving DecidableEq, Repr

def Part.chars : Part → List Char
  | text t => t.toList
  | arg a => a.toList

/-- The line, as it is handed to the shell. -/
def line (ps : List Part) : List Char := ps.flatMap Part.chars

/-- The tokens of a text, with `k` for what follows the word it ends in. -/
def textTokens (k : Option (List Char) → List Token) : List Char → Option (List Char) → List Token
  | [], cur => k cur
  | c :: cs, cur =>
    if isBlank c then flush cur (textTokens k cs none)
    else if isActive c then flush cur (.op c :: textTokens k cs none)
    else textTokens k cs (grow cur c)

/-- The tokens the line is meant to have. -/
def vectorFrom : List Part → Option (List Char) → List Token
  | [], cur => flush cur []
  | .text t :: ps, cur => textTokens (vectorFrom ps) t.toList cur
  | .arg a :: ps, cur => vectorFrom ps (some (cur.getD [] ++ a.toList))

/-- The blanks and operators of the texts, and every argument inside one word. -/
def vector (ps : List Part) : List Token := vectorFrom ps none

/-- The shell reads the line as it was meant. -/
def Survives (ps : List Part) : Prop := tokens (line ps) = some (vector ps)

instance (ps : List Part) : Decidable (Survives ps) := inferInstanceAs (Decidable (_ = _))

/-- The vector has every character of the line. -/
theorem size_textTokens {k : Option (List Char) → List Token} {rest : List Char}
    (hk : ∀ cur, size (k cur) + rest.countP isBlank + (cur.getD []).countP isBlank =
      (cur.getD []).length + rest.length + blanks (k cur)) (cs : List Char)
    (cur : Option (List Char)) :
    size (textTokens k cs cur) + (cs ++ rest).countP isBlank + (cur.getD []).countP isBlank =
      (cur.getD []).length + (cs ++ rest).length + blanks (textTokens k cs cur) := by
  induction cs generalizing cur with
  | nil => exact hk cur
  | cons c cs ih =>
    rw [List.cons_append, List.countP_cons, List.length_cons]
    simp only [textTokens]
    split
    · next hc =>
      have heq := ih none
      rw [Option.getD_none, List.countP_nil, List.length_nil] at heq
      rw [size_flush, blanks_flush]
      omega
    · next hc =>
      split
      · have heq := ih none
        rw [Option.getD_none, List.countP_nil, List.length_nil] at heq
        rw [size_flush, blanks_flush]
        simp only [size, blanks]
        omega
      · have heq := ih (grow cur c)
        rw [length_grow, countP_grow, if_neg hc] at heq
        omega

theorem size_vectorFrom (ps : List Part) (cur : Option (List Char)) :
    size (vectorFrom ps cur) + (line ps).countP isBlank + (cur.getD []).countP isBlank =
      (cur.getD []).length + (line ps).length + blanks (vectorFrom ps cur) := by
  induction ps generalizing cur with
  | nil =>
    simp only [vectorFrom, line, List.flatMap_nil, List.countP_nil, List.length_nil]
    rw [size_flush, blanks_flush]
    simp only [size, blanks]
    omega
  | cons p ps ih =>
    cases p with
    | text t => exact size_textTokens ih t.toList cur
    | arg a =>
      have heq := ih (some (cur.getD [] ++ a.toList))
      rw [Option.getD_some, List.countP_append, List.length_append] at heq
      simp only [vectorFrom, line, List.flatMap_cons, Part.chars, List.countP_append,
        List.length_append] at heq ⊢
      omega

/-! ## Plain words survive -/

section Prefix

variable {k : Option (List Char) → List Token}

/-- The word that is being read ends somewhere. -/
theorem mem_textTokens (hk : ∀ a, ∃ b, .word (a ++ b) ∈ k (some a)) (cs a : List Char) :
    ∃ b, .word (a ++ b) ∈ textTokens k cs (some a) := by
  induction cs generalizing a with
  | nil => exact hk a
  | cons c cs ih =>
    simp only [textTokens]
    split
    · exact ⟨[], by simp [flush]⟩
    split
    · exact ⟨[], by simp [flush]⟩
    · rcases ih (a ++ [c]) with ⟨b, hb⟩
      rw [List.append_assoc] at hb
      exact ⟨c :: b, hb⟩

end Prefix

theorem mem_vectorFrom (ps : List Part) (a : List Char) :
    ∃ b, .word (a ++ b) ∈ vectorFrom ps (some a) := by
  induction ps generalizing a with
  | nil => exact ⟨[], by simp [vectorFrom, flush]⟩
  | cons p ps ih =>
    cases p with
    | text t => exact mem_textTokens ih t.toList a
    | arg x =>
      rcases ih (a ++ x.toList) with ⟨b, hb⟩
      rw [List.append_assoc] at hb
      exact ⟨x.toList ++ b, hb⟩

/-- The same word so far; an argument may have started one without a character. -/
def SameWord (cur cur' : Option (List Char)) : Prop := cur' = cur ∨ cur = some [] ∧ cur' = none

theorem SameWord.getD {cur cur' : Option (List Char)} (h : SameWord cur cur') :
    cur'.getD [] = cur.getD [] := by
  rcases h with rfl | ⟨rfl, rfl⟩
  · rfl
  · rfl

theorem SameWord.grow {cur cur' : Option (List Char)} (h : SameWord cur cur') (c : Char) :
    grow cur' c = grow cur c := by
  unfold Shell.grow
  rw [h.getD]

/-- A plain word has been started. -/
theorem SameWord.flush {cur cur' : Option (List Char)} (h : SameWord cur cur') {ts : List Token}
    (hplain : ∀ w, .word w ∈ flush cur ts → PlainWord w) : flush cur' ts = flush cur ts := by
  rcases h with rfl | ⟨rfl, rfl⟩
  · rfl
  · rcases (hplain [] List.mem_cons_self).head with ⟨c, cs, hnil, -⟩
    cases hnil

theorem lex_ordinary {c : Char} {cs : List Char} {cur : Option (List Char)} (hc : Ordinary c)
    (hlead : cur = none → isLeading c = false) :
    lex (c :: cs) .plain cur = lex cs .plain (grow cur c) := by
  rcases hc with ⟨hblank, hquote, hactive, -⟩
  simp only [isQuote, List.mem_cons, List.not_mem_nil, or_false, decide_eq_false_iff_not,
    not_or] at hquote
  have hhead : ¬ (c = '#' ∧ cur = none) := by
    rintro ⟨rfl, hnone⟩
    exact absurd (hlead hnone) (by decide)
  have htilde : ¬ (isActive c = true ∨ c = '~' ∧ cur = none) := by
    rintro (h | ⟨rfl, hnone⟩)
    · rw [hactive] at h
      cases h
    · exact absurd (hlead hnone) (by decide)
  simp only [lex, hblank, Bool.false_eq_true, if_false, if_neg hquote.1, if_neg hquote.2.1,
    if_neg hquote.2.2, if_neg hhead, if_neg htilde]

/-- The next character of a plain word is read as itself. -/
theorem lex_next {c : Char} {cs b : List Char} {cur cur' : Option (List Char)}
    (hsame : SameWord cur cur') (hplain : PlainWord (cur.getD [] ++ [c] ++ b)) :
    lex (c :: cs) .plain cur' = lex cs .plain (grow cur c) := by
  rw [← hsame.grow]
  refine lex_ordinary (hplain.ordinary c (by simp)) fun hnone => ?_
  have hnil : cur.getD [] = [] := by
    rw [← hsame.getD, hnone]
    rfl
  rcases hplain.head with ⟨d, ds, hd, hlead⟩
  rw [hnil] at hd
  cases hd
  exact hlead

section Texts

variable {k : Option (List Char) → List Token} {rest : List Char}
  (hmem : ∀ a, ∃ b, .word (a ++ b) ∈ k (some a))
  (hk : ∀ cur cur', SameWord cur cur' → (∀ w, .word w ∈ k cur → PlainWord w) →
    lex rest .plain cur' = some (k cur))

include hmem hk

theorem lex_text (cs : List Char) {cur cur' : Option (List Char)} (hsame : SameWord cur cur')
    (hplain : ∀ w, .word w ∈ textTokens k cs cur → PlainWord w) :
    lex (cs ++ rest) .plain cur' = some (textTokens k cs cur) := by
  induction cs generalizing cur cur' with
  | nil => exact hk cur cur' hsame hplain
  | cons c cs ih =>
    simp only [textTokens] at hplain ⊢
    split at hplain
    · next hc =>
      have hrest : lex (cs ++ rest) .plain none = some (textTokens k cs none) :=
        ih (.inl rfl) fun w hw => hplain w (mem_flush_of_mem cur hw)
      simp only [List.cons_append, lex, if_pos hc, hrest, Option.map_some, hsame.flush hplain]
    · next hc =>
      rw [if_neg hc]
      split at hplain
      · next hactive =>
        have hrest : lex (cs ++ rest) .plain none = some (textTokens k cs none) :=
          ih (.inl rfl) fun w hw => hplain w (mem_flush_of_mem cur (List.mem_cons_of_mem _ hw))
        have hquotes : c ≠ '\x27' ∧ c ≠ '\x22' ∧ c ≠ '\\' ∧ c ≠ '#' := by
          refine ⟨?_, ?_, ?_, ?_⟩
          · rintro rfl
            exact absurd hactive (by decide)
          · rintro rfl
            exact absurd hactive (by decide)
          · rintro rfl
            exact absurd hactive (by decide)
          · rintro rfl
            exact absurd hactive (by decide)
        rw [if_pos hactive]
        simp only [List.cons_append, lex, if_neg hc, if_neg hquotes.1, if_neg hquotes.2.1,
          if_neg hquotes.2.2.1, hquotes.2.2.2, false_and, if_false, hactive, true_or, if_true,
          hrest, Option.map_some, hsame.flush hplain]
      · next hactive =>
        rw [if_neg hactive]
        rcases mem_textTokens hmem cs (cur.getD [] ++ [c]) with ⟨b, hb⟩
        rw [List.cons_append, lex_next hsame (hplain _ hb)]
        exact ih (.inl rfl) hplain

theorem lex_arg (a : List Char) {cur cur' : Option (List Char)} (hsame : SameWord cur cur')
    (hplain : ∀ w, .word w ∈ k (some (cur.getD [] ++ a)) → PlainWord w) :
    lex (a ++ rest) .plain cur' = some (k (some (cur.getD [] ++ a))) := by
  induction a generalizing cur cur' with
  | nil =>
    rw [List.append_nil] at hplain ⊢
    refine hk _ _ ?_ hplain
    rcases hsame with rfl | ⟨rfl, rfl⟩
    · cases cur' with
      | none => exact .inr ⟨rfl, rfl⟩
      | some w => exact .inl rfl
    · exact .inr ⟨rfl, rfl⟩
  | cons c a ih =>
    have heq : cur.getD [] ++ c :: a = (grow cur c).getD [] ++ a := by
      simp [grow]
    rw [heq] at hplain ⊢
    rcases hmem ((grow cur c).getD [] ++ a) with ⟨b, hb⟩
    have hword := hplain _ hb
    rw [List.append_assoc] at hword
    rw [List.cons_append, lex_next hsame hword]
    exact ih (.inl rfl) hplain

end Texts

theorem lex_of_plain (ps : List Part) {cur cur' : Option (List Char)} (hsame : SameWord cur cur')
    (hplain : ∀ w, .word w ∈ vectorFrom ps cur → PlainWord w) :
    lex (line ps) .plain cur' = some (vectorFrom ps cur) := by
  induction ps generalizing cur cur' with
  | nil => exact congrArg some (hsame.flush hplain)
  | cons p ps ih =>
    have hk : ∀ cur cur', SameWord cur cur' → (∀ w, .word w ∈ vectorFrom ps cur → PlainWord w) →
        lex (line ps) .plain cur' = some (vectorFrom ps cur) := fun _ _ => ih
    cases p with
    | text t => exact lex_text (mem_vectorFrom ps) hk t.toList hsame hplain
    | arg a => exact lex_arg (mem_vectorFrom ps) hk a.toList hsame hplain

/-! ## Lines that lose characters on their way -/

theorem mem_flush_self {c : Char} {cur : Option (List Char)} (h : c ∈ cur.getD [])
    (ts : List Token) : ∃ w, .word w ∈ flush cur ts ∧ c ∈ w := by
  cases cur with
  | none => cases h
  | some w => exact ⟨w, List.mem_cons_self, h⟩

/-- A character that is neither a blank nor an operator is in one of the words. -/
theorem mem_textTokens_of_mem {k : Option (List Char) → List Token} {rest : List Char} {c : Char}
    (hc : isBlank c = false ∧ isActive c = false)
    (hk : ∀ cur, c ∈ cur.getD [] ++ rest → ∃ w, .word w ∈ k cur ∧ c ∈ w) (cs : List Char)
    {cur : Option (List Char)} (h : c ∈ cur.getD [] ++ (cs ++ rest)) :
    ∃ w, .word w ∈ textTokens k cs cur ∧ c ∈ w := by
  induction cs generalizing cur with
  | nil => exact hk cur h
  | cons d cs ih =>
    have hrest (hne : c ≠ d) (hmem : c ∉ cur.getD []) : c ∈ cs ++ rest := by
      rcases List.mem_append.1 h with h | h
      · exact absurd h hmem
      · exact (List.mem_cons.1 h).resolve_left hne
    simp only [textTokens]
    split
    · next hblank =>
      by_cases hmem : c ∈ cur.getD []
      · exact mem_flush_self hmem _
      · have hne : c ≠ d := by
          rintro rfl
          rw [hc.1] at hblank
          cases hblank
        rcases @ih none (by simpa using hrest hne hmem) with ⟨w, hw, hcw⟩
        exact ⟨w, mem_flush_of_mem cur hw, hcw⟩
    split
    · next hactive =>
      by_cases hmem : c ∈ cur.getD []
      · exact mem_flush_self hmem _
      · have hne : c ≠ d := by
          rintro rfl
          rw [hc.2] at hactive
          cases hactive
        rcases @ih none (by simpa using hrest hne hmem) with ⟨w, hw, hcw⟩
        exact ⟨w, mem_flush_of_mem cur (List.mem_cons_of_mem _ hw), hcw⟩
    · exact ih (by simpa [grow] using h)

theorem mem_vectorFrom_of_mem {c : Char} (hc : isBlank c = false ∧ isActive c = false)
    (ps : List Part) {cur : Option (List Char)} (h : c ∈ cur.getD [] ++ line ps) :
    ∃ w, .word w ∈ vectorFrom ps cur ∧ c ∈ w := by
  induction ps generalizing cur with
  | nil =>
    cases cur with
    | none => cases h
    | some w => exact ⟨w, List.mem_cons_self, by simpa [line] using h⟩
  | cons p ps ih =>
    cases p with
    | text t => exact mem_textTokens_of_mem hc (fun _ => ih) t.toList h
    | arg a =>
      refine ih ?_
      rw [Option.getD_some, List.append_assoc]
      exact h

/-- What is left of the line has every character of it but blanks, if it is read as the line
was meant. -/
theorem mem_of_lex {ps : List Part} {cs : List Char} (hsub : cs.Sublist (line ps))
    (h : lex cs .plain none = some (vector ps)) {c : Char} (hc : isBlank c = false)
    (hmem : c ∈ line ps) : c ∈ cs := by
  have hle := lex_counted h
  have heq := size_vectorFrom ps none
  have hlen := List.length_eq_countP_add_countP isBlank (l := cs)
  have hlen' := List.length_eq_countP_add_countP isBlank (l := line ps)
  rw [List.countP_eq_length_filter (p := fun a => decide ¬ isBlank a = true)] at hlen hlen'
  have hall : cs.filter (fun a => decide ¬ isBlank a = true) =
      (line ps).filter fun a => decide ¬ isBlank a = true := by
    refine (hsub.filter _).eq_of_length_le ?_
    simp only [Counted, Option.getD_none, List.countP_nil, List.length_nil, Mode.pending,
      vector] at hle heq
    omega
  have hin : c ∈ (line ps).filter fun a => decide ¬ isBlank a = true :=
    List.mem_filter.2 ⟨hmem, by simp [hc]⟩
  rw [← hall] at hin
  exact (List.mem_filter.1 hin).1

theorem cstring_eq {cs : List Char} (h : '\x00' ∉ cs) : cstring cs = cs := by
  refine List.takeWhile_eq_self_iff.2 fun c hc => decide_eq_true ?_
  rintro rfl
  exact h hc

/-- A line is read as it was meant exactly when its words are plain. -/
theorem survives_iff (ps : List Part) :
    Survives ps ↔ ∀ w, .word w ∈ vector ps → PlainWord w := by
  constructor
  · intro h
    have hnul : '\x00' ∉ line ps := by
      intro hmem
      have hcut := mem_of_lex (List.takeWhile_sublist _) h (by decide) hmem
      exact absurd (List.mem_takeWhile_imp hcut) (by decide)
    unfold Survives tokens at h
    rw [cstring_eq hnul] at h
    refine plain_of_size h ?_ hnul nofun
    have hsize := size_vectorFrom ps none
    exact Nat.le_of_eq hsize.symm
  · intro hplain
    have hnul : '\x00' ∉ line ps := by
      intro hmem
      have hnone : '\x00' ∈ (none : Option (List Char)).getD [] ++ line ps := hmem
      rcases mem_vectorFrom_of_mem (by decide) ps hnone with ⟨w, hw, hc⟩
      exact ((hplain w hw).ordinary _ hc).2.2.2 rfl
    unfold Survives tokens
    rw [cstring_eq hnul]
    exact lex_of_plain ps (.inl rfl) hplain

/-! ## Word by word -/

theorem allPlain_nil : (∀ w, .word w ∈ ([] : List Token) → PlainWord w) ↔ True := by
  simp

theorem allPlain_word {u : List Char} {ts : List Token} :
    (∀ w, .word w ∈ .word u :: ts → PlainWord w) ↔
      PlainWord u ∧ ∀ w, .word w ∈ ts → PlainWord w := by
  simp only [List.mem_cons, Token.word.injEq, forall_eq_or_imp]

theorem allPlain_op {c : Char} {ts : List Token} :
    (∀ w, .word w ∈ .op c :: ts → PlainWord w) ↔ ∀ w, .word w ∈ ts → PlainWord w := by
  simp only [List.mem_cons, reduceCtorEq, false_or]

/-- A text that can stand inside a word. -/
def OrdinaryText (x : String) : Prop := ∀ c ∈ x.toList, Ordinary c

instance (x : String) : Decidable (OrdinaryText x) := List.decidableBAll _ _

theorem ordinaryText_append {x y : String} :
    OrdinaryText (x ++ y) ↔ OrdinaryText x ∧ OrdinaryText y := by
  simp only [OrdinaryText, String.toList_append, List.mem_append, or_imp, forall_and]

theorem plainWord_append {x y : String} (hx : PlainWord x.toList) :
    PlainWord (x ++ y).toList ↔ OrdinaryText y := by
  rw [String.toList_append, hx.append_iff]
  rfl

end NsBoot.Shell
