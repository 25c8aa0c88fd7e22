import Mathlib.Algebra.Ring.Nat
import Mathlib.Data.List.Basic
import Mathlib.Data.List.Infix
import Mathlib.Data.List.Nodup
import Mathlib.Data.List.Perm.Basic

/-!
# NsBoot.Lib.JsonText — JSON texts

A decoder for JSON texts as byte strings (RFC 8259), by recursive descent.

* `char?`, `string`: string literals with their escapes; raw bytes from `0x80` on
  are taken as they are.
* `value`, `members`, `elements`: the grammar, with a bound on the nesting that the
  length of the text always meets.
* `decode`: a whole text. An object is the list of its members in order; `field?`
  reads it as a table, where a later member replaces an earlier one of its name.

Two facts about it are used elsewhere. A text that quotes plain strings is read
back (`members_quoted`). And no string comes out of less text than it has bytes:
a byte that needs an escape costs two, and one that the text does not contain
costs six (`weight`, `cost_le_length`).
-/

namespace NsBoot.JsonText

abbrev Bytes := List UInt8

/-- The bytes of an ASCII text. -/
def ascii (s : String) : Bytes := s.toList.map fun c => UInt8.ofNat c.toNat

inductive Tree where
  | null
  | bool (b : Bool)
  | num (text : Bytes)
  | str (s : Bytes)
  | arr (xs : List Tree)
  | obj (ms : List (Bytes × Tree))

/-- The text of a string value. -/
def Tree.str? : Tree → Option Bytes
  | .str s => some s
  | _ => none

/-! ## Tokens -/

/-- White space between tokens. -/
def skip : Bytes → Bytes
  | [] => []
  | b :: r => if b = 0x20 ∨ b = 0x09 ∨ b = 0x0A ∨ b = 0x0D then skip r else b :: r

def hexDigit? (b : UInt8) : Option Nat :=
  if 0x30 ≤ b ∧ b ≤ 0x39 then some (b.toNat - 0x30)
  else if 0x41 ≤ b ∧ b ≤ 0x46 then some (b.toNat - 0x37)
  else if 0x61 ≤ b ∧ b ≤ 0x66 then some (b.toNat - 0x57)
  else none

/-- The four digits of a `\u` escape. -/
def unit? (a b c d : UInt8) : Option Nat := do
  let a ← hexDigit? a
  let b ← hexDigit? b
  let c ← hexDigit? c
  let d ← hexDigit? d
  return ((a * 16 + b) * 16 + c) * 16 + d

def utf8 (n : Nat) : Bytes :=
  if n < 0x80 then [UInt8.ofNat n]
  else if n < 0x800 then [UInt8.ofNat (0xC0 + n / 64), UInt8.ofNat (0x80 + n % 64)]
  else if n < 0x10000 then
    [UInt8.ofNat (0xE0 + n / 4096), UInt8.ofNat (0x80 + n / 64 % 64), UInt8.ofNat (0x80 + n % 64)]
  else
    [UInt8.ofNat (0xF0 + n / 262144 % 8), UInt8.ofNat (0x80 + n / 4096 % 64),
     UInt8.ofNat (0x80 + n / 64 % 64), UInt8.ofNat (0x80 + n % 64)]

/-- The escapes of one letter. -/
def escape? (b : UInt8) : Option UInt8 :=
  if b = 0x22 ∨ b = 0x5C ∨ b = 0x2F then some b
  else if b = 0x62 then some 0x08
  else if b = 0x66 then some 0x0C
  else if b = 0x6E then some 0x0A
  else if b = 0x72 then some 0x0D
  else if b = 0x74 then some 0x09
  else none

def isHigh (u : Nat) : Prop := 0xD800 ≤ u ∧ u < 0xDC00

def isLow (u : Nat) : Prop := 0xDC00 ≤ u ∧ u < 0xE000

instance (u : Nat) : Decidable (isHigh u) := inferInstanceAs (Decidable (_ ∧ _))

instance (u : Nat) : Decidable (isLow u) := inferInstanceAs (Decidable (_ ∧ _))

/-- What follows `\u` and its digits: nothing more, or the second half of a pair. -/
def surrogate? (u : Nat) (r : Bytes) : Option (Bytes × Bytes) :=
  if isHigh u then
    match r with
    | 0x5C :: 0x75 :: a :: b :: c :: d :: r => do
      let v ← unit? a b c d
      if isLow v then some (utf8 (0x10000 + (u - 0xD800) * 0x400 + (v - 0xDC00)), r) else none
    | _ => none
  else if isLow u then none
  else some (utf8 u, r)

/-- A byte that stands for itself in a string literal. -/
def isPlain (b : UInt8) : Prop := b ≠ 0x22 ∧ b ≠ 0x5C ∧ 0x20 ≤ b

instance (b : UInt8) : Decidable (isPlain b) := inferInstanceAs (Decidable (_ ∧ _))

/-- One character of a string literal, and what follows it. -/
def char? : Bytes → Option (Bytes × Bytes)
  | [] => none
  | b :: r =>
    if isPlain b then some ([b], r)
    else if b = 0x5C then
      match r with
      | [] => none
      | e :: r =>
        if e = 0x75 then
          match r with
          | a :: b :: c :: d :: r => (unit? a b c d).bind (surrogate? · r)
          | _ => none
        else (escape? e).map fun x => ([x], r)
    else none

/-- The rest of a string literal, after its opening quote. -/
def string (s : Bytes) : Option (Bytes × Bytes) := go s.length s
where
  go : Nat → Bytes → Option (Bytes × Bytes)
    | _, [] => none
    | 0, b :: r => if b = 0x22 then some ([], r) else none
    | n + 1, b :: r =>
      if b = 0x22 then some ([], r)
      else do
        let (t, r) ← char? (b :: r)
        let (u, r) ← go n r
        return (t ++ u, r)

/-- A run of digits. -/
def digits (s : Bytes) : Bytes × Bytes := s.span fun b => 0x30 ≤ b ∧ b ≤ 0x39

/-- A run of digits that is not empty. -/
def digits1? (s : Bytes) : Option (Bytes × Bytes) :=
  if (digits s).1 = [] then none else some (digits s)

/-- The parts of a number: sign, integer, fraction and exponent. -/
def sign (s : Bytes) : Bytes × Bytes :=
  match s with
  | 0x2D :: r => ([0x2D], r)
  | r => ([], r)

def integer? (s : Bytes) : Option (Bytes × Bytes) :=
  match s with
  | 0x30 :: r => some ([0x30], r)
  | r => digits1? r

def fraction? (s : Bytes) : Option (Bytes × Bytes) :=
  match s with
  | 0x2E :: r => (digits1? r).map fun x => (0x2E :: x.1, x.2)
  | r => some ([], r)

def exponent? (s : Bytes) : Option (Bytes × Bytes) :=
  match s with
  | [] => some ([], [])
  | e :: r =>
    if e = 0x65 ∨ e = 0x45 then
      match r with
      | [] => none
      | g :: r' =>
        if g = 0x2D ∨ g = 0x2B then (digits1? r').map fun x => (e :: g :: x.1, x.2)
        else (digits1? r).map fun x => (e :: x.1, x.2)
    else some ([], s)

def number? (s : Bytes) : Option (Bytes × Bytes) := do
  let (int, r) ← integer? (sign s).2
  let (frac, r) ← fraction? r
  let (exp, r) ← exponent? r
  return ((sign s).1 ++ int ++ frac ++ exp, r)

/-- A literal name or a number. -/
def scalar? : Bytes → Option (Tree × Bytes)
  | 0x6E :: 0x75 :: 0x6C :: 0x6C :: r => some (.null, r)
  | 0x74 :: 0x72 :: 0x75 :: 0x65 :: r => some (.bool true, r)
  | 0x66 :: 0x61 :: 0x6C :: 0x73 :: 0x65 :: r => some (.bool false, r)
  | s => (number? s).map fun x => (.num x.1, x.2)

/-! ## Values -/

mutual

/-- A value, and what follows it. -/
def value : Nat → Bytes → Option (Tree × Bytes)
  | 0, _ => none
  | n + 1, s =>
    match skip s with
    | 0x22 :: r => (string r).map fun x => (.str x.1, x.2)
    | 0x7B :: r =>
      match skip r with
      | 0x7D :: r => some (.obj [], r)
      | r => (members n r).map fun x => (.obj x.1, x.2)
    | 0x5B :: r =>
      match skip r with
      | 0x5D :: r => some (.arr [], r)
      | r => (elements n r).map fun x => (.arr x.1, x.2)
    | r => scalar? r

/-- The members of an object, after its brace. -/
def members : Nat → Bytes → Option (List (Bytes × Tree) × Bytes)
  | 0, _ => none
  | n + 1, s =>
    match skip s with
    | 0x22 :: r => do
      let (k, r) ← string r
      match skip r with
      | 0x3A :: r => do
        let (v, r) ← value n r
        match skip r with
        | 0x2C :: r => (members n r).map fun x => ((k, v) :: x.1, x.2)
        | 0x7D :: r => some ([(k, v)], r)
        | _ => none
      | _ => none
    | _ => none

/-- The elements of an array, after its bracket. -/
def elements : Nat → Bytes → Option (List Tree × Bytes)
  | 0, _ => none
  | n + 1, s => do
    let (v, r) ← value n s
    match skip r with
    | 0x2C :: r => (elements n r).map fun x => (v :: x.1, x.2)
    | 0x5D :: r => some ([v], r)
    | _ => none

end

/-- A whole text. -/
def decode (s : Bytes) : Option Tree :=
  match value (s.length + 1) s with
  | some (v, r) => if skip r = [] then some v else none
  | none => none

/-- The member of that name; of several, the last. -/
def field? {α : Type} (k : Bytes) (ms : List (Bytes × α)) : Option α :=
  (ms.reverse.find? fun m => m.1 = k).map Prod.snd

theorem mem_of_field? {α : Type} {k : Bytes} {v : α} {ms : List (Bytes × α)}
    (h : field? k ms = some v) : (k, v) ∈ ms := by
  simp only [field?, Option.map_eq_some_iff] at h
  obtain ⟨⟨k', v'⟩, hfind, rfl⟩ := h
  have hk : k' = k := by simpa using List.find?_some hfind
  subst hk
  exact List.mem_reverse.1 (List.mem_of_find?_eq_some hfind)

/-- Where no name comes twice, every member is found. -/
theorem field?_of_mem {α : Type} {k : Bytes} {v : α} {ms : List (Bytes × α)}
    (hn : (ms.map Prod.fst).Nodup) (h : (k, v) ∈ ms) : field? k ms = some v := by
  have hsome : (ms.reverse.find? fun m => m.1 = k).isSome := by
    rw [List.find?_isSome]
    exact ⟨(k, v), List.mem_reverse.2 h, by simp⟩
  obtain ⟨v', hv'⟩ : ∃ v', field? k ms = some v' := by
    obtain ⟨m, hm⟩ := Option.isSome_iff_exists.1 hsome
    exact ⟨m.2, by rw [field?, hm]; rfl⟩
  have heq : (k, v') = (k, v) := List.inj_on_of_nodup_map hn (mem_of_field? hv') h rfl
  cases heq
  exact hv'

/-! ## Plain strings are read back -/

theorem string_plain {t : Bytes} (ht : ∀ b ∈ t, isPlain b) (r : Bytes) :
    string (t ++ 0x22 :: r) = some (t, r) := by
  have hgo : ∀ (n : Nat), t.length ≤ n → string.go n (t ++ 0x22 :: r) = some (t, r) := by
    induction t with
    | nil =>
      intro n _
      cases n <;> simp [string.go]
    | cons b t ih =>
      intro n hn
      obtain ⟨n, rfl⟩ : ∃ k, n = k + 1 := ⟨n - 1, by simp at hn; omega⟩
      have hb : isPlain b := ht b List.mem_cons_self
      have hrest := ih (fun c hc => ht c (List.mem_cons_of_mem _ hc)) n (by simpa using hn)
      simp [string.go, hb.1, char?, hb, hrest]
  exact hgo _ (by simp)

/-- A string literal of plain bytes. -/
def quote (t : Bytes) : Bytes := 0x22 :: (t ++ [0x22])

section Member

variable {k v : Bytes} (hk : ∀ b ∈ k, isPlain b) (hv : ∀ b ∈ v, isPlain b) (n : Nat) (r : Bytes)

include hk hv

theorem members_more : members (n + 2) (quote k ++ 0x3A :: (quote v ++ 0x2C :: r)) =
    (members (n + 1) r).map fun x => ((k, .str v) :: x.1, x.2) := by
  rw [members]
  simp [quote, skip, string_plain hk, value, string_plain hv]

theorem members_last :
    members (n + 2) (quote k ++ 0x3A :: (quote v ++ 0x7D :: r)) = some ([(k, .str v)], r) := by
  rw [members]
  simp [quote, skip, string_plain hk, value, string_plain hv]

end Member

/-- The members of an object of strings. -/
def quoted : List (Bytes × Bytes) → Bytes
  | [] => []
  | [(k, v)] => quote k ++ 0x3A :: quote v
  | (k, v) :: kvs => quote k ++ 0x3A :: (quote v ++ 0x2C :: quoted kvs)

theorem members_quoted {kvs : List (Bytes × Bytes)} (hne : kvs ≠ [])
    (hplain : ∀ m ∈ kvs, (∀ b ∈ m.1, isPlain b) ∧ ∀ b ∈ m.2, isPlain b) {n : Nat}
    (hn : kvs.length < n) (r : Bytes) :
    members n (quoted kvs ++ 0x7D :: r) = some (kvs.map fun m => (m.1, .str m.2), r) := by
  induction kvs generalizing n with
  | nil => exact absurd rfl hne
  | cons m kvs ih =>
    obtain ⟨k, v⟩ := m
    obtain ⟨n, rfl⟩ : ∃ i, n = i + 2 := ⟨n - 2, by simp at hn; omega⟩
    obtain ⟨hk, hv⟩ := hplain (k, v) List.mem_cons_self
    cases kvs with
    | nil => simpa [quoted] using members_last hk hv n r
    | cons m' kvs =>
      have hrest := ih (by simp) (fun m hm => hplain m (List.mem_cons_of_mem _ hm)) (n := n + 1)
        (by simpa using hn)
      have hstep := members_more hk hv n (quoted (m' :: kvs) ++ 0x7D :: r)
      rw [hrest] at hstep
      simpa [quoted] using hstep

theorem quoted_eq_cons {kvs : List (Bytes × Bytes)} (hne : kvs ≠ []) :
    ∃ r, quoted kvs = 0x22 :: r := by
  cases kvs with
  | nil => exact absurd rfl hne
  | cons m kvs => cases kvs <;> exact ⟨_, rfl⟩

theorem length_le_quoted (kvs : List (Bytes × Bytes)) : kvs.length ≤ (quoted kvs).length := by
  induction kvs with
  | nil => exact Nat.le_refl 0
  | cons m kvs ih =>
    cases kvs with
    | nil => simp [quoted, quote]
    | cons m' kvs =>
      simp only [List.length_cons] at ih
      simp only [quoted, quote, List.length_append, List.length_cons]
      omega

/-- An object of strings inside an object. -/
theorem value_quoted {kvs : List (Bytes × Bytes)} (hne : kvs ≠ [])
    (hplain : ∀ m ∈ kvs, (∀ b ∈ m.1, isPlain b) ∧ ∀ b ∈ m.2, isPlain b) {n : Nat}
    (hn : kvs.length < n) (r : Bytes) :
    value (n + 1) (0x7B :: (quoted kvs ++ 0x7D :: r)) =
      some (.obj (kvs.map fun m => (m.1, .str m.2)), r) := by
  have hmem := members_quoted hne hplain hn r
  obtain ⟨q, hq⟩ := quoted_eq_cons hne
  rw [hq] at hmem ⊢
  rw [value]
  simp only [List.cons_append] at hmem
  simp [skip, hmem]

/-- An object with one member. -/
theorem value_single {k r r' : Bytes} (hk : ∀ b ∈ k, isPlain b) {n : Nat} {v : Tree}
    (hv : value n r = some (v, 0x7D :: r')) :
    value (n + 2) (0x7B :: (quote k ++ 0x3A :: r)) = some (.obj [(k, v)], r') := by
  rw [value]
  simp [quote, skip, members, string_plain hk, hv]

/-! ## What a text that is read back looks like -/

/-- What is above the blank is no white space. -/
theorem skip_mark {b : UInt8} (hb : 0x20 < b) (r : Bytes) : skip (b :: r) = b :: r := by
  rw [skip, if_neg]
  rintro (rfl | rfl | rfl | rfl) <;> exact absurd hb (by decide)

/-- A text without quotes and backslashes is a string literal exactly when all of it
is plain. -/
theorem plain_of_string {t r : Bytes} (ht : ∀ b ∈ t, b ≠ 0x22 ∧ b ≠ 0x5C) {x : Bytes × Bytes}
    (h : string (t ++ 0x22 :: r) = some x) : (∀ b ∈ t, isPlain b) ∧ x = (t, r) := by
  have hgo : ∀ (n : Nat) x, string.go n (t ++ 0x22 :: r) = some x → ∀ b ∈ t, isPlain b := by
    clear h
    induction t with
    | nil => exact fun _ _ _ b hb => absurd hb List.not_mem_nil
    | cons b t ih =>
      intro n x hx
      obtain ⟨h22, h5c⟩ := ht b List.mem_cons_self
      cases n with
      | zero => simp [string.go, h22] at hx
      | succ n =>
        by_cases hb : isPlain b
        · simp only [string.go, List.cons_append, if_neg h22, char?, if_pos hb,
            Option.bind_eq_bind, Option.bind_some, Option.bind_eq_some_iff] at hx
          obtain ⟨y, hy, -⟩ := hx
          have hrest := ih (fun c hc => ht c (List.mem_cons_of_mem _ hc)) n y hy
          exact List.forall_mem_cons.2 ⟨hb, hrest⟩
        · simp [string.go, h22, h5c, char?, hb] at hx
  have hplain := hgo _ x h
  rw [string_plain hplain] at h
  exact ⟨hplain, (Option.some.inj h).symm⟩

/-- What the members of an object consist of: a name, a colon, a value, and a comma
with more members or the brace. -/
theorem members_cases {n : Nat} {s r : Bytes} {ms : List (Bytes × Tree)}
    (h : members (n + 1) s = some (ms, r)) :
    ∃ r₁ k r₂ r₃ v r₄ r₅, skip s = 0x22 :: r₁ ∧ string r₁ = some (k, r₂) ∧
      skip r₂ = 0x3A :: r₃ ∧ value n r₃ = some (v, r₄) ∧
      ((skip r₄ = 0x2C :: r₅ ∧ ∃ ms', members n r₅ = some (ms', r) ∧ ms = (k, v) :: ms') ∨
        (skip r₄ = 0x7D :: r₅ ∧ ms = [(k, v)] ∧ r = r₅)) := by
  rw [members] at h
  split at h
  · next r₁ hs =>
    simp only [Option.bind_eq_bind, Option.bind_eq_some_iff] at h
    obtain ⟨⟨k, r₂⟩, hk, h⟩ := h
    split at h
    · next r₃ hcolon =>
      simp only [Option.bind_eq_some_iff] at h
      obtain ⟨⟨v, r₄⟩, hv, h⟩ := h
      split at h
      · next r₅ hcomma =>
        simp only [Option.map_eq_some_iff, Prod.mk.injEq] at h
        obtain ⟨⟨ms', r₆⟩, hms, rfl, rfl⟩ := h
        exact ⟨r₁, k, r₂, r₃, v, r₄, r₅, hs, hk, hcolon, hv, Or.inl ⟨hcomma, ms', hms, rfl⟩⟩
      · next r₅ hbrace =>
        cases h
        exact ⟨r₁, k, r₂, r₃, v, r₄, _, hs, hk, hcolon, hv, Or.inr ⟨hbrace, rfl, rfl⟩⟩
      · cases h
    · cases h
  · cases h

/-- A value that begins with a quote is a string. -/
theorem value_string {n : Nat} {s r : Bytes} {v : Tree} (h : value n (0x22 :: s) = some (v, r)) :
    ∃ t, string s = some (t, r) := by
  cases n with
  | zero => cases h
  | succ n =>
    rw [value, skip_mark (by decide)] at h
    simp only [Option.map_eq_some_iff, Prod.mk.injEq] at h
    obtain ⟨⟨t, r'⟩, ht, -, rfl⟩ := h
    exact ⟨t, ht⟩

/-- A value that begins with a brace and a quote is an object with members. -/
theorem value_object {n : Nat} {s : Bytes} {x : Tree × Bytes}
    (h : value n (0x7B :: 0x22 :: s) = some x) :
    ∃ m ms r, members m (0x22 :: s) = some (ms, r) := by
  cases n with
  | zero => cases h
  | succ n =>
    cases hm : members n (0x22 :: s) with
    | none => simp [value, skip, hm] at h
    | some y => exact ⟨n, y.1, y.2, hm⟩

/-- The value behind the name `k`. -/
theorem members_value {n : Nat} {k s r : Bytes} {ms : List (Bytes × Tree)}
    (hk : ∀ b ∈ k, isPlain b) (h : members n (0x22 :: (k ++ 0x22 :: 0x3A :: s)) = some (ms, r)) :
    ∃ m x, value m s = some x := by
  cases n with
  | zero => cases h
  | succ n =>
    obtain ⟨r₁, k', r₂, r₃, v, r₄, r₅, hs, hstr, hcolon, hv, -⟩ := members_cases h
    rw [skip_mark (by decide)] at hs
    cases hs
    rw [string_plain hk] at hstr
    cases hstr
    rw [skip_mark (by decide)] at hcolon
    cases hcolon
    exact ⟨n, _, hv⟩

/-! ## What a string costs -/

/-- What a byte of a string costs of a text that does not contain the byte `x`. -/
def weight (x b : UInt8) : Nat := if b = x then 6 else if isPlain b then 1 else 2

def weigh (x : UInt8) (t : Bytes) : Nat := (t.map (weight x)).sum

mutual

/-- What a tree costs: its strings, and the punctuation of its objects. -/
def cost (x : UInt8) : Tree → Nat
  | .str t => weigh x t + 2
  | .obj ms => costs x ms + 1
  | _ => 0

def costs (x : UInt8) : List (Bytes × Tree) → Nat
  | [] => 0
  | (k, v) :: ms => weigh x k + 4 + cost x v + costs x ms

end

theorem weigh_eq {x : UInt8} (hx : isPlain x) (t : Bytes) :
    weigh x t = t.length + 5 * t.count x + t.countP (fun b => ¬ isPlain b) := by
  induction t with
  | nil => rfl
  | cons b t ih =>
    have hcons : weigh x (b :: t) = weight x b + weigh x t := rfl
    rw [hcons, ih, weight]
    by_cases hb : b = x
    · subst hb
      simp [hx]
      omega
    · by_cases hp : isPlain b
      · simp [hb, hp]
        omega
      · simp [hb, hp]
        omega

theorem costs_eq_sum (x : UInt8) (ms : List (Bytes × Tree)) :
    costs x ms = (ms.map fun m => weigh x m.1 + 4 + cost x m.2).sum := by
  induction ms with
  | nil => rfl
  | cons m ms ih =>
    obtain ⟨k, v⟩ := m
    rw [costs, ih, List.map_cons, List.sum_cons]

/-- Members that are there cost what they cost. -/
theorem costs_le_of_subset {x : UInt8} {ms ms' : List (Bytes × Tree)} (hn : ms.Nodup)
    (h : ms ⊆ ms') : costs x ms ≤ costs x ms' := by
  obtain ⟨l, hperm, hsub⟩ := List.subperm_of_subset hn h
  rw [costs_eq_sum, costs_eq_sum, ← (hperm.map _).sum_nat]
  have hle {l l' : List Nat} (h : List.Sublist l l') : l.sum ≤ l'.sum := by
    induction h with
    | slnil => exact Nat.le_refl _
    | cons a _ ih => exact ih.trans (by simp)
    | cons_cons a _ ih => simpa using ih
  exact hle (hsub.map _)

/-- Reading went from `s` to its end `r`, and took at least `c` bytes if `x` is not in `s`. -/
def Took (x : UInt8) (c : Nat) (s r : Bytes) : Prop := r <:+ s ∧ (x ∉ s → c + r.length ≤ s.length)

section Took

variable {x : UInt8} {c c' : Nat} {s r r' : Bytes}

theorem Took.refl (x : UInt8) (s : Bytes) : Took x 0 s s := ⟨List.suffix_refl s, fun _ => by omega⟩

theorem Took.trans (h : Took x c s r) (h' : Took x c' r r') : Took x (c + c') s r' := by
  refine ⟨h'.1.trans h.1, fun hx => ?_⟩
  have h1 := h.2 hx
  have h2 := h'.2 fun hr => hx (h.1.subset hr)
  omega

theorem Took.mono (h : Took x c s r) (hc : c' ≤ c) : Took x c' s r :=
  ⟨h.1, fun hx => (Nat.add_le_add_right hc _).trans (h.2 hx)⟩

theorem Took.cons (x b : UInt8) (r : Bytes) : Took x 1 (b :: r) r :=
  ⟨List.suffix_cons b r, fun _ => by simp; omega⟩

theorem took_skip (x : UInt8) (s : Bytes) : Took x 0 s (skip s) := by
  induction s with
  | nil => exact .refl x []
  | cons b r ih =>
    rw [skip]
    split
    · exact ((Took.cons x b r).trans ih).mono (Nat.zero_le _)
    · exact .refl x _

/-- The next token is the byte `b`. -/
theorem Took.token {b : UInt8} (h : skip s = b :: r) : Took x 1 s r := by
  have htok := (took_skip x s).trans (h ▸ Took.cons x b r)
  exact htok.mono (Nat.le_refl _)

end Took

section Weight

variable {x : UInt8} (hx : isPlain x) (hlow : x < 0x80)

theorem weight_le (x b : UInt8) : weight x b ≤ 6 := by
  unfold weight
  split
  · exact Nat.le_refl 6
  · split <;> decide

theorem weight_le_two {b : UInt8} (h : b ≠ x) : weight x b ≤ 2 := by
  unfold weight
  rw [if_neg h]
  split <;> decide

include hlow

/-- A byte outside ASCII costs one. -/
theorem weight_high {m : Nat} (h1 : 0x80 ≤ m) (h2 : m < 256) : weight x (UInt8.ofNat m) = 1 := by
  have hnat : (UInt8.ofNat m).toNat = m := by rw [UInt8.toNat_ofNat', Nat.mod_eq_of_lt h2]
  have hne {y : UInt8} (hy : y.toNat < 0x80) : UInt8.ofNat m ≠ y := by
    rintro rfl
    omega
  have hplain : isPlain (UInt8.ofNat m) := by
    refine ⟨hne (by decide), hne (by decide), ?_⟩
    rw [UInt8.le_iff_toNat_le, hnat]
    exact Nat.le_trans (by decide) h1
  unfold weight
  rw [if_neg (hne (UInt8.lt_iff_toNat_lt.1 hlow)), if_pos hplain]

theorem weigh_utf8 (n : Nat) : weigh x (utf8 n) ≤ 6 := by
  have hhigh {m : Nat} (h1 : 0x80 ≤ m) (h2 : m < 256) := weight_high hlow h1 h2
  unfold utf8
  split
  · simpa [weigh] using weight_le x _
  split
  · simp only [weigh, List.map_cons, List.map_nil, List.sum_cons, List.sum_nil]
    rw [hhigh (by omega) (by omega), hhigh (by omega) (by omega)]
    decide
  split
  · simp only [weigh, List.map_cons, List.map_nil, List.sum_cons, List.sum_nil]
    rw [hhigh (by omega) (by omega), hhigh (by omega) (by omega), hhigh (by omega) (by omega)]
    decide
  · simp only [weigh, List.map_cons, List.map_nil, List.sum_cons, List.sum_nil]
    rw [hhigh (by omega) (by omega), hhigh (by omega) (by omega), hhigh (by omega) (by omega),
      hhigh (by omega) (by omega)]
    decide

theorem took_surrogate {u : Nat} {r t r' : Bytes} (h : surrogate? u r = some (t, r')) :
    Took x 0 r r' ∧ weigh x t ≤ 6 := by
  unfold surrogate? at h
  split at h
  · split at h
    · next a b c d r₁ =>
      simp only [Option.bind_eq_bind, Option.bind_eq_some_iff] at h
      obtain ⟨v, -, h⟩ := h
      split at h
      · simp only [Option.some.injEq, Prod.mk.injEq] at h
        obtain ⟨rfl, rfl⟩ := h
        exact ⟨⟨⟨[0x5C, 0x75, a, b, c, d], rfl⟩, fun _ => by simp; omega⟩, weigh_utf8 hlow _⟩
      · cases h
    · cases h
  · split at h
    · cases h
    · simp only [Option.some.injEq, Prod.mk.injEq] at h
      obtain ⟨rfl, rfl⟩ := h
      exact ⟨.refl x r, weigh_utf8 hlow _⟩

include hx

/-- A byte the text does not contain comes from no escape of one letter. -/
theorem escape?_ne {e y : UInt8} (h : escape? e = some y) (he : x ≠ e) : y ≠ x := by
  rintro rfl
  unfold escape? at h
  split at h
  · exact he (Option.some.inj h).symm
  · obtain ⟨-, -, hctl⟩ := hx
    have hlt : ¬ (0x20 : UInt8) ≤ y := by
      split at h
      · cases h
        decide
      split at h
      · cases h
        decide
      split at h
      · cases h
        decide
      split at h
      · cases h
        decide
      split at h
      · cases h
        decide
      · cases h
    exact hlt hctl

theorem took_char {s t r : Bytes} (h : char? s = some (t, r)) : Took x (weigh x t) s r := by
  cases s with
  | nil => cases h
  | cons b s =>
    unfold char? at h
    dsimp only at h
    split at h
    · -- a byte that stands for itself
      next hb =>
      cases h
      refine ⟨List.suffix_cons b _, fun hxs => ?_⟩
      have hne : b ≠ x := fun heq => hxs (heq ▸ List.mem_cons_self)
      simp [weigh, weight, hne, hb]
      omega
    split at h
    · cases s with
      | nil => cases h
      | cons e s =>
        dsimp only at h
        split at h
        · -- `\u`: six bytes, or twelve
          split at h
          · next a b' c d s =>
            simp only [Option.bind_eq_some_iff] at h
            obtain ⟨u, -, h⟩ := h
            obtain ⟨htook, hle⟩ := took_surrogate hlow h
            have hsix : Took x 6 (b :: e :: a :: b' :: c :: d :: s) s :=
              ⟨⟨[b, e, a, b', c, d], rfl⟩, fun _ => by simp; omega⟩
            exact (hsix.trans htook).mono (by omega)
          · cases h
        · -- one letter
          simp only [Option.map_eq_some_iff, Prod.mk.injEq] at h
          obtain ⟨y, hy, rfl, rfl⟩ := h
          refine ⟨⟨[b, e], rfl⟩, fun hxs => ?_⟩
          have hne : y ≠ x := escape?_ne hx hlow hy fun heq => hxs (by simp [heq])
          have hle := weight_le_two hne
          simp [weigh]
          omega
    · cases h

theorem took_string {s t r : Bytes} (h : string s = some (t, r)) : Took x (weigh x t + 1) s r := by
  have hgo : ∀ (n : Nat) (s t : Bytes), string.go n s = some (t, r) →
      Took x (weigh x t + 1) s r := by
    intro n
    induction n with
    | zero =>
      intro s t h
      cases s with
      | nil => cases h
      | cons b s =>
        rw [string.go] at h
        split at h
        · cases h
          exact Took.cons x b _
        · cases h
    | succ n ih =>
      intro s t h
      cases s with
      | nil => cases h
      | cons b s =>
        rw [string.go] at h
        split at h
        · cases h
          exact Took.cons x b _
        · simp only [Option.bind_eq_bind, Option.bind_eq_some_iff, Option.pure_def,
            Option.some.injEq, Prod.mk.injEq] at h
          obtain ⟨⟨t₁, r₁⟩, hchar, ⟨t₂, r₂⟩, hrest, rfl, rfl⟩ := h
          have htook := (took_char hx hlow hchar).trans (ih r₁ t₂ hrest)
          refine htook.mono (Nat.le_of_eq ?_)
          simp [weigh]
          omega
  exact hgo _ s t h

end Weight

section Scalar

variable (x : UInt8) {s r : Bytes}

/-- Reading that only has to end in an end of the text. -/
theorem Took.of_suffix (h : r <:+ s) : Took x 0 s r :=
  ⟨h, fun _ => by simpa using h.length_le⟩

theorem digits1?_suffix {d : Bytes} (h : digits1? s = some (d, r)) : r <:+ s := by
  unfold digits1? at h
  split at h
  · cases h
  · have hr : r = (digits s).2 := (congrArg Prod.snd (Option.some.inj h)).symm
    rw [hr, digits, List.span_eq_takeWhile_dropWhile]
    exact List.dropWhile_suffix _

theorem sign_suffix (s : Bytes) : (sign s).2 <:+ s := by
  unfold sign
  split
  · exact List.suffix_cons _ _
  · exact List.suffix_refl _

theorem integer?_suffix {d : Bytes} (h : integer? s = some (d, r)) : r <:+ s := by
  unfold integer? at h
  split at h
  · cases h
    exact List.suffix_cons _ _
  · exact digits1?_suffix h

theorem fraction?_suffix {d : Bytes} (h : fraction? s = some (d, r)) : r <:+ s := by
  unfold fraction? at h
  split at h
  · simp only [Option.map_eq_some_iff, Prod.mk.injEq] at h
    obtain ⟨⟨d', r'⟩, hd, -, rfl⟩ := h
    exact (digits1?_suffix hd).trans (List.suffix_cons _ _)
  · cases h
    exact List.suffix_refl _

theorem exponent?_suffix {d : Bytes} (h : exponent? s = some (d, r)) : r <:+ s := by
  unfold exponent? at h
  split at h
  · cases h
    exact List.suffix_refl _
  · next e s' =>
    split at h
    · split at h
      · cases h
      · next g s'' =>
        split at h
        · simp only [Option.map_eq_some_iff, Prod.mk.injEq] at h
          obtain ⟨⟨d', r'⟩, hd, -, rfl⟩ := h
          exact (digits1?_suffix hd).trans ⟨[e, g], rfl⟩
        · simp only [Option.map_eq_some_iff, Prod.mk.injEq] at h
          obtain ⟨⟨d', r'⟩, hd, -, rfl⟩ := h
          exact (digits1?_suffix hd).trans (List.suffix_cons _ _)
    · cases h
      exact List.suffix_refl _

theorem number?_suffix {d : Bytes} (h : number? s = some (d, r)) : r <:+ s := by
  simp only [number?, Option.bind_eq_bind, Option.bind_eq_some_iff, Option.pure_def,
    Option.some.injEq, Prod.mk.injEq] at h
  obtain ⟨⟨i, r₁⟩, hint, ⟨f, r₂⟩, hfrac, ⟨e, r₃⟩, hexp, -, rfl⟩ := h
  exact (exponent?_suffix hexp).trans ((fraction?_suffix hfrac).trans
    ((integer?_suffix hint).trans (sign_suffix s)))

/-- A literal name or a number costs nothing. -/
theorem took_scalar {v : Tree} (h : scalar? s = some (v, r)) : Took x (cost x v) s r := by
  unfold scalar? at h
  split at h
  · cases h
    exact .of_suffix x ⟨[0x6E, 0x75, 0x6C, 0x6C], rfl⟩
  · cases h
    exact .of_suffix x ⟨[0x74, 0x72, 0x75, 0x65], rfl⟩
  · cases h
    exact .of_suffix x ⟨[0x66, 0x61, 0x6C, 0x73, 0x65], rfl⟩
  · simp only [Option.map_eq_some_iff, Prod.mk.injEq] at h
    obtain ⟨⟨d, r'⟩, hd, rfl, rfl⟩ := h
    exact .of_suffix x (number?_suffix hd)

end Scalar

section Cost

variable {x : UInt8} (hx : isPlain x) (hlow : x < 0x80)

include hx hlow

/-- **No tree comes out of less text than it costs**, by induction on the nesting. -/
theorem took (n : Nat) :
    (∀ s v r, value n s = some (v, r) → Took x (cost x v) s r) ∧
    (∀ s ms r, members n s = some (ms, r) → Took x (costs x ms) s r) ∧
    (∀ s vs r, elements n s = some (vs, r) → Took x 0 s r) := by
  induction n with
  | zero =>
    refine ⟨?_, ?_, ?_⟩
    · intro s v r h
      cases h
    · intro s ms r h
      cases h
    · intro s vs r h
      cases h
  | succ n ih =>
    obtain ⟨hval, hmem, hel⟩ := ih
    refine ⟨?_, ?_, ?_⟩
    · intro s v r h
      rw [value] at h
      split at h
      · next r₁ hs =>
        simp only [Option.map_eq_some_iff, Prod.mk.injEq] at h
        obtain ⟨⟨t, r₂⟩, hstr, rfl, rfl⟩ := h
        exact ((Took.token hs).trans (took_string hx hlow hstr)).mono (by simp only [cost]; omega)
      · next r₁ hs =>
        split at h
        · next r₂ hr =>
          cases h
          exact ((Took.token hs).trans (Took.token hr)).mono (by simp [cost, costs])
        · simp only [Option.map_eq_some_iff, Prod.mk.injEq] at h
          obtain ⟨⟨ms, r₂⟩, hms, rfl, rfl⟩ := h
          exact ((Took.token hs).trans ((took_skip x r₁).trans (hmem _ _ _ hms))).mono
            (by simp only [cost]; omega)
      · next r₁ hs =>
        split at h
        · next r₂ hr =>
          cases h
          exact ((Took.token hs).trans (Took.token hr)).mono (by simp [cost])
        · simp only [Option.map_eq_some_iff, Prod.mk.injEq] at h
          obtain ⟨⟨vs, r₂⟩, hvs, rfl, rfl⟩ := h
          exact ((Took.token hs).trans ((took_skip x r₁).trans (hel _ _ _ hvs))).mono
            (by simp [cost])
      · exact ((took_skip x s).trans (took_scalar x h)).mono (by omega)
    · intro s ms r h
      obtain ⟨r₁, k, r₂, r₃, v, r₄, r₅, hs, hk, hcolon, hv, hmore⟩ := members_cases h
      -- the name, the colon and the value
      have hhead : Took x (weigh x k + 3 + cost x v) s r₄ :=
        ((((Took.token hs).trans (took_string hx hlow hk)).trans (Took.token hcolon)).trans
          (hval _ _ _ hv)).mono (by omega)
      rcases hmore with ⟨hcomma, ms', hms, rfl⟩ | ⟨hbrace, rfl, rfl⟩
      · exact ((hhead.trans (Took.token hcomma)).trans (hmem _ _ _ hms)).mono
          (by simp only [costs]; omega)
      · exact (hhead.trans (Took.token hbrace)).mono (by simp only [costs]; omega)
    · intro s vs r h
      rw [elements] at h
      simp only [Option.bind_eq_bind, Option.bind_eq_some_iff] at h
      obtain ⟨⟨v, r₁⟩, hv, h⟩ := h
      split at h
      · next r₂ hcomma =>
        simp only [Option.map_eq_some_iff, Prod.mk.injEq] at h
        obtain ⟨⟨vs', r₃⟩, hvs, -, rfl⟩ := h
        exact (((hval _ _ _ hv).trans (Took.token hcomma)).trans (hel _ _ _ hvs)).mono
          (Nat.zero_le _)
      · next r₂ hbracket =>
        cases h
        exact ((hval _ _ _ hv).trans (Took.token hbracket)).mono (Nat.zero_le _)
      · cases h

theorem cost_le_length {s : Bytes} {v : Tree} (h : decode s = some v) (hs : x ∉ s) :
    cost x v ≤ s.length := by
  unfold decode at h
  split at h
  · next v' r hv =>
    split at h
    · cases h
      have hle := ((took hx hlow _).1 _ _ _ hv).2 hs
      omega
    · cases h
  · cases h

end Cost

end NsBoot.JsonText
