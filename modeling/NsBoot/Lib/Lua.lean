import Mathlib.Algebra.Ring.Nat
import Mathlib.Data.List.Perm.Basic
import Mathlib.Data.List.Nodup
import Mathlib.Data.List.TakeWhile

/-!
# NsBoot.Lib.Lua — Lua values and tables

The part of Lua that configuration code rests on:

* `Value`: nil, booleans, integers, strings and tables. A table is the list of
  its entries in `pairs` order; reading an absent key gives `nil`.
* `at?`, `assign?`: reading and assigning through a chain of indices
  (`t.a[k].b`). `none` is the run-time error "attempt to index".
* `tostring`, `tonumber`, `concat?`, `alnum`: the library functions and the
  `..` operator on these values (`alnum s` is `s:gsub('%W','')`).
* `seqKeys`, `isSeq`: arrays, the tables with keys `1..n`.
-/

namespace NsBoot.Lua

/-- A table key. -/
inductive Key where
  | num (n : Int)
  | str (s : String)
deriving DecidableEq, Repr

/-- The text a key has in a JSON object or in a concatenation. -/
def Key.text : Key → String
  | .num n => toString n
  | .str s => s

instance : Coe String Key := ⟨.str⟩

/-- A Lua value; a table lists its entries in the order `pairs` visits them. -/
inductive Value where
  | nil
  | bool (b : Bool)
  | num (n : Int)
  | str (s : String)
  | table (kvs : List (Key × Value))

namespace Value

mutual

def decEq : (a b : Value) → Decidable (a = b)
  | .nil, .nil => isTrue rfl
  | .bool a, .bool b => decidable_of_iff (a = b) (by simp)
  | .num a, .num b => decidable_of_iff (a = b) (by simp)
  | .str a, .str b => decidable_of_iff (a = b) (by simp)
  | .table a, .table b =>
    match decEqKvs a b with
    | isTrue h => isTrue (by rw [h])
    | isFalse h => isFalse (by simpa using h)
  | .nil, .bool _ | .nil, .num _ | .nil, .str _ | .nil, .table _ => isFalse (by simp)
  | .bool _, .nil | .bool _, .num _ | .bool _, .str _ | .bool _, .table _ => isFalse (by simp)
  | .num _, .nil | .num _, .bool _ | .num _, .str _ | .num _, .table _ => isFalse (by simp)
  | .str _, .nil | .str _, .bool _ | .str _, .num _ | .str _, .table _ => isFalse (by simp)
  | .table _, .nil | .table _, .bool _ | .table _, .num _ | .table _, .str _ => isFalse (by simp)

def decEqKvs : (a b : List (Key × Value)) → Decidable (a = b)
  | [], [] => isTrue rfl
  | [], _ :: _ => isFalse (by simp)
  | _ :: _, [] => isFalse (by simp)
  | (k, v) :: a, (k', v') :: b =>
    match decEq v v', decEqKvs a b with
    | isTrue h, isTrue h' => decidable_of_iff (k = k') (by simp [h, h'])
    | isFalse h, _ => isFalse (by simp [h])
    | _, isFalse h => isFalse (by simp [h])

end

instance : DecidableEq Value := decEq

end Value

/-! ## Tables -/

/-- The keys of a table, in `pairs` order. -/
abbrev keys (kvs : List (Key × Value)) : List Key := kvs.map Prod.fst

/-- Reading `t[k]`. -/
def lookup (k : Key) : List (Key × Value) → Value
  | [] => .nil
  | (k', v) :: kvs => if k' = k then v else lookup k kvs

/-- Writing a value at a key: in place when the key is there, else at the end. -/
def insert (k : Key) (v : Value) : List (Key × Value) → List (Key × Value)
  | [] => [(k, v)]
  | (k', v') :: kvs => if k' = k then (k, v) :: kvs else (k', v') :: insert k v kvs

/-- The assignment `t[k] = v`; assigning `nil` removes the key. -/
def store (k : Key) (v : Value) (kvs : List (Key × Value)) : List (Key × Value) :=
  if v = .nil then kvs.filter (fun e => e.1 ≠ k) else insert k v kvs

@[simp] theorem lookup_insert_self (k : Key) (v : Value) (kvs : List (Key × Value)) :
    lookup k (insert k v kvs) = v := by
  induction kvs with
  | nil => simp [insert, lookup]
  | cons e kvs ih =>
    obtain ⟨k', v'⟩ := e
    by_cases h : k' = k <;> simp [insert, lookup, h, ih]

@[simp] theorem lookup_insert_ne {k k' : Key} (h : k' ≠ k) (v : Value)
    (kvs : List (Key × Value)) : lookup k' (insert k v kvs) = lookup k' kvs := by
  induction kvs with
  | nil => simp [insert, lookup, Ne.symm h]
  | cons e kvs ih =>
    obtain ⟨l, w⟩ := e
    by_cases hl : l = k
    · subst hl
      simp [insert, lookup, Ne.symm h]
    · simp [insert, lookup, hl, ih]

theorem lookup_filter_ne {k k' : Key} (kvs : List (Key × Value)) :
    lookup k' (kvs.filter (fun e => e.1 ≠ k)) = if k' = k then .nil else lookup k' kvs := by
  induction kvs with
  | nil => simp [lookup]
  | cons e kvs ih =>
    obtain ⟨l, w⟩ := e
    by_cases hl : l = k
    · subst hl
      by_cases hk : k' = l
      · simp_all
      · simp_all [lookup, Ne.symm hk]
    · by_cases hk : l = k'
      · subst hk
        simp [lookup, hl]
      · simp_all [lookup]

@[simp] theorem lookup_store_self (k : Key) (v : Value) (kvs : List (Key × Value)) :
    lookup k (store k v kvs) = v := by
  unfold store
  split
  · next h => rw [lookup_filter_ne]; simp [h]
  · simp

@[simp] theorem lookup_store_ne {k k' : Key} (h : k' ≠ k) (v : Value)
    (kvs : List (Key × Value)) : lookup k' (store k v kvs) = lookup k' kvs := by
  unfold store
  split
  · rw [lookup_filter_ne]; simp [h]
  · simp [h]

theorem lookup_eq_nil_of_notMem {k : Key} {kvs : List (Key × Value)} (h : k ∉ keys kvs) :
    lookup k kvs = .nil := by
  induction kvs with
  | nil => rfl
  | cons e kvs ih =>
    simp only [keys, List.map_cons, List.mem_cons, not_or] at h
    simp [lookup, Ne.symm h.1, ih h.2]

theorem mem_of_mem_keys {k : Key} {kvs : List (Key × Value)} (h : k ∈ keys kvs) :
    (k, lookup k kvs) ∈ kvs := by
  induction kvs with
  | nil => simp [keys] at h
  | cons e kvs ih =>
    obtain ⟨l, w⟩ := e
    by_cases hl : l = k
    · simp [lookup, hl]
    · simp only [keys, List.map_cons, List.mem_cons, Ne.symm hl, false_or] at h
      simp only [lookup, if_neg hl]
      exact List.mem_cons_of_mem _ (ih h)

theorem mem_of_lookup_ne_nil {k : Key} {kvs : List (Key × Value)} (h : lookup k kvs ≠ .nil) :
    (k, lookup k kvs) ∈ kvs := by
  by_contra hmem
  exact h (lookup_eq_nil_of_notMem fun hk => hmem (mem_of_mem_keys hk))

theorem lookup_of_mem {k : Key} {v : Value} {kvs : List (Key × Value)} (hn : (keys kvs).Nodup)
    (h : (k, v) ∈ kvs) : lookup k kvs = v := by
  induction kvs with
  | nil => simp at h
  | cons e kvs ih =>
    obtain ⟨l, w⟩ := e
    simp only [keys, List.map_cons, List.nodup_cons] at hn
    rcases List.mem_cons.1 h with heq | htl
    · cases heq
      simp [lookup]
    · have hl : l ≠ k := by
        rintro rfl
        exact hn.1 (List.mem_map.2 ⟨(l, v), htl, rfl⟩)
      simp [lookup, hl, ih hn.2 htl]

theorem keys_insert (k : Key) (v : Value) (kvs : List (Key × Value)) :
    keys (insert k v kvs) = if k ∈ keys kvs then keys kvs else keys kvs ++ [k] := by
  induction kvs with
  | nil => simp [insert]
  | cons e kvs ih =>
    obtain ⟨l, w⟩ := e
    by_cases hl : l = k
    · simp [insert, hl]
    · simp only [keys, insert, if_neg hl, List.map_cons, List.mem_cons, Ne.symm hl, false_or]
        at ih ⊢
      rw [ih]
      split <;> rfl

theorem insert_insert (k : Key) (v v' : Value) (kvs : List (Key × Value)) :
    insert k v' (insert k v kvs) = insert k v' kvs := by
  induction kvs with
  | nil => simp [insert]
  | cons e kvs ih =>
    obtain ⟨l, u⟩ := e
    by_cases h : l = k <;> simp [insert, h, ih]

theorem store_store {k : Key} {v v' : Value} (hv : v ≠ .nil) (hv' : v' ≠ .nil)
    (kvs : List (Key × Value)) : store k v' (store k v kvs) = store k v' kvs := by
  simp [store, hv, hv', insert_insert]

theorem insert_ne_nil (k : Key) (v : Value) (kvs : List (Key × Value)) : insert k v kvs ≠ [] := by
  cases kvs with
  | nil => simp [insert]
  | cons e kvs =>
    obtain ⟨k', v'⟩ := e
    by_cases h : k' = k <;> simp [insert, h]

theorem insert_of_notMem {k : Key} {v : Value} {kvs : List (Key × Value)} (h : k ∉ keys kvs) :
    insert k v kvs = kvs ++ [(k, v)] := by
  induction kvs with
  | nil => rfl
  | cons e kvs ih =>
    simp only [keys, List.map_cons, List.mem_cons, not_or] at h
    simp [insert, Ne.symm h.1, ih h.2]

/-- What `ipairs` visits: the entries 1, 2, … up to the first that is nil. -/
def ipairs (kvs : List (Key × Value)) : List (Int × Value) := visit kvs.length 1
where
  visit : Nat → Int → List (Int × Value)
    | 0, _ => []
    | fuel + 1, i =>
      match lookup (.num i) kvs with
      | .nil => []
      | v => (i, v) :: visit fuel (i + 1)

/-! ## Indexing and assigning through a chain -/

/-- `t[k]` for a value known to be a table; `nil` otherwise. -/
def Value.get (t : Value) (k : Key) : Value :=
  match t with
  | .table kvs => lookup k kvs
  | _ => .nil

/-- The chain `t[k₁]…[kₙ]`. Indexing a string gives `nil` (no string method is
named like a field); indexing nil, a boolean or a number is an error. -/
def Value.at? : List Key → Value → Option Value
  | [], v => some v
  | k :: ks, .table kvs => at? ks (lookup k kvs)
  | _ :: ks, .str _ => at? ks .nil
  | _ :: _, _ => none

/-- The assignment `t[k₁]…[kₙ] = v`. -/
def Value.assign? : List Key → Value → Value → Option Value
  | [], _, v => some v
  | k :: ks, .table kvs, v => (assign? ks (lookup k kvs) v).map fun c => .table (store k c kvs)
  | _ :: _, _, _ => none

@[simp] theorem Value.get_table (kvs : List (Key × Value)) (k : Key) :
    (Value.table kvs).get k = lookup k kvs := rfl

theorem at?_one {v x : Value} {f : Key} (h : v.at? [f] = some x) : v.get f = x := by
  cases v with
  | table kvs => simpa [Value.at?] using h
  | str s => simpa [Value.at?, Value.get] using h
  | nil | bool | num => simp [Value.at?] at h

/-- Only the first index of the chain is affected at the outermost table. -/
theorem Value.assign?_cons {k : Key} {ks : List Key} {v t t' : Value}
    (h : t.assign? (k :: ks) v = some t') :
    ∃ kvs c, t = .table kvs ∧ (lookup k kvs).assign? ks v = some c ∧
      t' = .table (store k c kvs) := by
  cases t with
  | table kvs =>
    simp only [Value.assign?, Option.map_eq_some_iff] at h
    obtain ⟨c, hc, rfl⟩ := h
    exact ⟨kvs, c, rfl, hc, rfl⟩
  | nil | bool | num | str => simp [Value.assign?] at h

theorem Value.assign?_get_ne {k k' : Key} {ks : List Key} {v t t' : Value}
    (h : t.assign? (k :: ks) v = some t') (hk : k' ≠ k) : t'.get k' = t.get k' := by
  obtain ⟨kvs, c, rfl, -, rfl⟩ := Value.assign?_cons h
  simp [hk]

theorem Value.assign?_get_self {k : Key} {ks : List Key} {v t t' : Value}
    (h : t.assign? (k :: ks) v = some t') : (t.get k).assign? ks v = some (t'.get k) := by
  obtain ⟨kvs, c, rfl, hc, rfl⟩ := Value.assign?_cons h
  simpa using hc

/-- An assignment through a chain is one to the end of a part of it. -/
theorem Value.assign?_append {p q : List Key} {t t' v : Value}
    (h : t.assign? (p ++ q) v = some t') :
    ∃ u u', t.at? p = some u ∧ u.assign? q v = some u' ∧ t.assign? p u' = some t' := by
  induction p generalizing t t' with
  | nil => exact ⟨t, t', rfl, h, rfl⟩
  | cons k ks ih =>
    obtain ⟨kvs, c, rfl, hc, rfl⟩ := Value.assign?_cons h
    obtain ⟨u, u', hu, hq, hp⟩ := ih hc
    exact ⟨u, u', hu, hq, by simp [Value.assign?, hp]⟩

/-- And the other way round. -/
theorem Value.assign?_of_append {p q : List Key} {t t' u u' v : Value} (hu : t.at? p = some u)
    (hq : u.assign? q v = some u') (hp : t.assign? p u' = some t') :
    t.assign? (p ++ q) v = some t' := by
  induction p generalizing t t' with
  | nil =>
    cases hu
    cases hp
    exact hq
  | cons k ks ih =>
    obtain ⟨kvs, c, rfl, hc, rfl⟩ := Value.assign?_cons hp
    simp only [List.cons_append, Value.assign?]
    rw [ih hu hc, Option.map_some]

/-! ## Library functions -/

/-- `tostring`; the address printed for a table is left out. -/
def Value.tostring : Value → String
  | .nil => "nil"
  | .bool b => toString b
  | .num n => toString n
  | .str s => s
  | .table _ => "table"

/-- The operand of `..`: strings and numbers; anything else is an error. -/
def Value.concat? : Value → Option String
  | .num n => some (toString n)
  | .str s => some s
  | _ => none

/-- A value whose string methods are called: strings only. -/
def Value.str? : Value → Option String
  | .str s => some s
  | _ => none

/-- `isspace` of the C locale. -/
def isSpace (c : Char) : Bool := c = ' ' || ('\t' ≤ c && c ≤ '\r')

def isHexDigit (c : Char) : Bool :=
  c.isDigit || ('a' ≤ c && c ≤ 'f') || ('A' ≤ c && c ≤ 'F')

/-- The value of a run of hexadecimal digits. -/
def hexValue (cs : List Char) : Nat :=
  cs.foldl (fun n c => 16 * n +
    (if c.isDigit then c.toNat - 48 else if c ≤ 'F' then c.toNat - 55 else c.toNat - 87)) 0

/-- `m · 10 ^ (e - f)` when that is an integer. -/
def scaled (m f : Nat) (e : Int) : Option Int :=
  if f ≤ e then some ((m * 10 ^ (e - f).toNat : Nat) : Int)
  else if m % 10 ^ (f - e).toNat = 0 then some ((m / 10 ^ (f - e).toNat : Nat) : Int)
  else none

/-- An optional sign in front. -/
def signed (read : List Char → Option Int) : List Char → Option Int
  | '-' :: cs => (read cs).map Neg.neg
  | '+' :: cs => read cs
  | cs => read cs

/-- An exponent's digits. -/
def exponent (cs : List Char) : Option Int :=
  if cs ≠ [] ∧ cs.all Char.isDigit then some (Nat.ofDigitChars 10 cs 0 : Int) else none

/-- An unsigned numeral: hexadecimal, or decimal with optional fraction and
exponent. -/
def numeral (cs : List Char) : Option Int :=
  match cs with
  | '0' :: x :: hs =>
    if x = 'x' ∨ x = 'X' then
      if hs ≠ [] ∧ hs.all isHexDigit then some (hexValue hs : Int) else none
    else decimal cs
  | _ => decimal cs
where
  decimal (cs : List Char) : Option Int :=
    match cs.dropWhile Char.isDigit with
    | '.' :: rest => scale (cs.takeWhile Char.isDigit) (rest.takeWhile Char.isDigit)
        (rest.dropWhile Char.isDigit)
    | rest => scale (cs.takeWhile Char.isDigit) [] rest
  scale (whole frac rest : List Char) : Option Int :=
    if whole ++ frac = [] then none
    else
      let m := Nat.ofDigitChars 10 (whole ++ frac) 0
      match rest with
      | [] => scaled m frac.length 0
      | c :: rest =>
        if c = 'e' ∨ c = 'E' then (signed exponent rest).bind (scaled m frac.length) else none

/-- `tonumber` of a string, for integers of any size. A numeral whose value is not an
integer gives `none` like any other text; Lua would read a float, and `ApplyMy` would
store a record under it, which this model leaves out. -/
def numberOf (s : String) : Option Int :=
  let cs := (s.toList.dropWhile isSpace).reverse.dropWhile isSpace |>.reverse
  signed numeral cs

/-- `tonumber`. -/
def Value.tonumber : Value → Option Int
  | .num n => some n
  | .str s => numberOf s
  | _ => none

/-- `s:gsub('%W','')`. -/
def alnum (s : String) : String := String.ofList (s.toList.filter Char.isAlphanum)

/-! ## Digit texts are read back -/

section Digits

variable {cs : List Char} (hne : cs ≠ []) (hd : ∀ c ∈ cs, c.isDigit)

include hne hd

theorem decimal_digits : numeral.decimal cs = some (Nat.ofDigitChars 10 cs 0 : Int) := by
  have hdrop : cs.dropWhile Char.isDigit = [] := List.dropWhile_eq_nil_iff.2 hd
  have htake : cs.takeWhile Char.isDigit = cs := by
    have := List.takeWhile_append_dropWhile (p := Char.isDigit) (l := cs)
    rwa [hdrop, List.append_nil] at this
  simp [numeral.decimal, numeral.scale, hdrop, htake, hne, scaled]

theorem numeral_digits : numeral cs = some (Nat.ofDigitChars 10 cs 0 : Int) := by
  unfold numeral
  split
  · next x hs =>
    -- the second character is a digit, so this is no hexadecimal numeral
    have hx : x.isDigit := hd x (by simp)
    have : ¬ (x = 'x' ∨ x = 'X') := by
      rintro (rfl | rfl) <;> exact absurd hx (by decide)
    rw [if_neg this]
    exact decimal_digits hne hd
  · exact decimal_digits hne hd

theorem numberOf_digits (s : String) (hs : s.toList = cs) :
    numberOf s = some (Nat.ofDigitChars 10 cs 0 : Int) := by
  have hsp : ∀ c ∈ cs, isSpace c = false := by
    intro c hc
    have := hd c hc
    simp only [Char.isDigit, isSpace, Bool.and_eq_true, decide_eq_true_eq, Bool.or_eq_false_iff,
      decide_eq_false_iff_not, Bool.and_eq_false_iff] at this ⊢
    refine ⟨?_, Or.inr ?_⟩
    · rintro rfl
      exact absurd this.1 (by decide)
    · intro h
      exact absurd (Char.le_trans (a := '0') this.1 h) (by decide)
  have htrim : ∀ l : List Char, (∀ c ∈ l, isSpace c = false) → l.dropWhile isSpace = l := by
    intro l hl
    cases l with
    | nil => rfl
    | cons c l => simp [List.dropWhile, hl c List.mem_cons_self]
  unfold numberOf
  simp only [hs, htrim cs hsp, htrim cs.reverse (by simpa using hsp), List.reverse_reverse]
  -- the first character is a digit, so there is no sign
  unfold signed
  split
  · exact absurd (hd '-' List.mem_cons_self) (by decide)
  · exact absurd (hd '+' List.mem_cons_self) (by decide)
  · exact numeral_digits hne hd

end Digits

/-- `tonumber(tostring(n)) = n`. -/
@[simp] theorem numberOf_toString (n : Nat) : numberOf (toString n) = some (n : Int) := by
  have hd : ∀ c ∈ Nat.toDigits 10 n, c.isDigit :=
    fun c hc => Nat.isDigit_of_mem_toDigits (by decide) (by decide) hc
  have h := numberOf_digits Nat.toDigits_ne_nil hd (toString n) (by simp)
  rw [h, Nat.ofDigitChars_ten_toDigits]

/-! ## Arrays -/

/-- The keys `1..n`. -/
def seqKeys (n : Nat) : List Key := (List.range n).map fun i : Nat => .num (i + 1)

theorem seqKeys_nodup (n : Nat) : (seqKeys n).Nodup := by
  refine (List.nodup_range).map ?_
  intro i j h
  have : (i : Int) + 1 = j + 1 := Key.num.inj h
  omega

@[simp] theorem length_seqKeys (n : Nat) : (seqKeys n).length = n := by simp [seqKeys]

theorem seqKeys_succ (n : Nat) : seqKeys (n + 1) = seqKeys n ++ [.num ((n : Int) + 1)] := by
  simp [seqKeys, List.range_succ]

theorem mem_seqKeys {n : Nat} {k : Key} :
    k ∈ seqKeys n ↔ ∃ i : Int, k = .num i ∧ 1 ≤ i ∧ i ≤ n := by
  simp only [seqKeys, List.mem_map, List.mem_range]
  constructor
  · rintro ⟨i, hi, rfl⟩
    exact ⟨i + 1, rfl, by omega, by omega⟩
  · rintro ⟨i, rfl, h1, hn⟩
    exact ⟨(i - 1).toNat, by omega, by congr; omega⟩

/-- What `ipairs` visits from the entry `j` on, when the entries up to `m` are there
and the next one is not. -/
theorem visit_eq {kvs : List (Key × Value)} {m : Nat}
    (hrow : ∀ k : Nat, 1 ≤ k → k ≤ m → lookup (.num k) kvs ≠ .nil)
    (hstop : lookup (.num ((m : Int) + 1)) kvs = .nil) {len fuel j : Nat} (hj : 1 ≤ j)
    (hend : j + len = m + 1) (hfuel : len ≤ fuel) :
    ipairs.visit kvs fuel j =
      (List.range' j len).map fun k : Nat => ((k : Int), lookup (.num k) kvs) := by
  induction len generalizing fuel j with
  | zero =>
    have hlook : lookup (.num (j : Int)) kvs = .nil := by
      rw [show (j : Int) = (m : Int) + 1 by omega]
      exact hstop
    cases fuel with
    | zero => rfl
    | succ fuel => rw [ipairs.visit, hlook, List.range'_zero, List.map_nil]
  | succ len ih =>
    obtain ⟨fuel, rfl⟩ : ∃ f, fuel = f + 1 := ⟨fuel - 1, by omega⟩
    have hne := hrow j hj (by omega)
    have hrest := @ih fuel (j + 1) (by omega) (by omega) (by omega)
    rw [ipairs.visit, List.range'_succ, List.map_cons, ← hrest]
    split
    · next hnil => exact absurd hnil hne
    · rfl

theorem ipairs_eq {kvs : List (Key × Value)} {m : Nat}
    (hrow : ∀ k : Nat, 1 ≤ k → k ≤ m → lookup (.num k) kvs ≠ .nil)
    (hstop : lookup (.num ((m : Int) + 1)) kvs = .nil) :
    ipairs kvs = (List.range' 1 m).map fun k : Nat => ((k : Int), lookup (.num k) kvs) := by
  have hsub : seqKeys m ⊆ keys kvs := by
    intro k hk
    obtain ⟨i, rfl, h1, hm⟩ := mem_seqKeys.1 hk
    obtain ⟨i, rfl⟩ := Int.eq_ofNat_of_zero_le (by omega : 0 ≤ i)
    exact List.mem_map_of_mem (mem_of_lookup_ne_nil (hrow i (by omega) (by omega)))
  have hlen : m ≤ kvs.length := by
    simpa using (List.subperm_of_subset (seqKeys_nodup m) hsub).length_le
  have hend : 1 + m = m + 1 := by omega
  exact visit_eq hrow hstop le_rfl hend hlen

/-- The keys are exactly `1..n`. -/
def isSeq (kvs : List (Key × Value)) : Bool := (keys kvs).isPerm (seqKeys kvs.length)

/-- The entries of an array in order, each read by `f`. -/
def readArray? {α : Type} (f : Value → Option α) : Value → Option (List α)
  | .table kvs => if isSeq kvs then (seqKeys kvs.length).mapM fun k => f (lookup k kvs) else none
  | _ => none

theorem mapM_eq_some_iff {α β : Type} {f : α → Option β} {xs : List α} {ys : List β} :
    xs.mapM f = some ys ↔
      ys.length = xs.length ∧ ∀ i < xs.length, ys[i]? = (xs[i]?).bind f := by
  induction xs generalizing ys with
  | nil =>
    simp only [List.mapM_nil, Option.pure_def, Option.some.injEq]
    constructor
    · rintro rfl
      simp
    · rintro ⟨h, -⟩
      exact (List.length_eq_zero_iff.1 h).symm
  | cons x xs ih =>
    simp only [List.mapM_cons, Option.bind_eq_bind, Option.bind_eq_some_iff, Option.pure_def,
      Option.some.injEq]
    constructor
    · rintro ⟨y, hy, zs, hzs, rfl⟩
      obtain ⟨hlen, hget⟩ := ih.1 hzs
      refine ⟨by simp [hlen], fun i hi => ?_⟩
      cases i with
      | zero => simp [hy]
      | succ i => simpa using hget i (by simpa using hi)
    · rintro ⟨hlen, hget⟩
      cases ys with
      | nil => simp at hlen
      | cons y ys =>
        refine ⟨y, by simpa using (hget 0 (by simp)).symm, ys, ih.2 ⟨by simpa using hlen, ?_⟩, rfl⟩
        intro i hi
        simpa using hget (i + 1) (by simpa using hi)

theorem mapM_congr_left {α β : Type} {f f' : α → Option β} {xs : List α}
    (h : ∀ x ∈ xs, f' x = f x) : xs.mapM f' = xs.mapM f := by
  induction xs with
  | nil => rfl
  | cons x xs ih =>
    rw [List.mapM_cons, List.mapM_cons, h x (by simp), ih fun y hy => h y (by simp [hy])]

/-- Reading differs at one place only. -/
theorem mapM_modify {α β : Type} {f f' : α → Option β} {g : β → β} {xs : List α} {j : Nat}
    (h : ∀ i x, xs[i]? = some x → f' x = if j = i then (f x).map g else f x) :
    xs.mapM f' = (xs.mapM f).map fun ys => ys.modify j g := by
  induction xs generalizing j with
  | nil => simp
  | cons x xs ih =>
    have hx := h 0 x rfl
    cases j with
    | zero =>
      have htail : xs.mapM f' = xs.mapM f := by
        refine mapM_congr_left fun y hy => ?_
        obtain ⟨i, hi⟩ := List.mem_iff_getElem?.1 hy
        simpa using h (i + 1) y (by simpa using hi)
      rw [List.mapM_cons, List.mapM_cons, htail, hx, if_pos rfl]
      cases f x <;> cases xs.mapM f <;> rfl
    | succ j =>
      have htail := ih (j := j) fun i y hi => by simpa using h (i + 1) y (by simpa using hi)
      rw [List.mapM_cons, List.mapM_cons, htail, hx, if_neg (by omega)]
      cases f x <;> cases xs.mapM f <;> rfl

theorem getElem?_seqKeys {n i : Nat} (h : i < n) :
    (seqKeys n)[i]? = some (.num ((i : Int) + 1)) := by
  simp [seqKeys, h]

theorem readArray?_eq_some_iff {α : Type} {f : Value → Option α} {v : Value} {l : List α} :
    readArray? f v = some l ↔ ∃ kvs, v = .table kvs ∧ isSeq kvs ∧ l.length = kvs.length ∧
      ∀ i < l.length, l[i]? = f (lookup (.num ((i : Int) + 1)) kvs) := by
  cases v with
  | table kvs =>
    by_cases hseq : isSeq kvs
    · simp only [readArray?, if_pos hseq, mapM_eq_some_iff, length_seqKeys, Value.table.injEq]
      constructor
      · rintro ⟨hlen, hget⟩
        refine ⟨kvs, rfl, hseq, hlen, fun i hi => ?_⟩
        rw [hget i (by omega), getElem?_seqKeys (by omega), Option.bind_some]
      · rintro ⟨_, rfl, -, hlen, hget⟩
        refine ⟨hlen, fun i hi => ?_⟩
        rw [hget i (by omega), getElem?_seqKeys hi, Option.bind_some]
    · simp [readArray?, hseq]
  | nil | bool | num | str => simp [readArray?]

theorem mem_keys_of_isSeq {kvs : List (Key × Value)} (h : isSeq kvs) {i : Int} :
    Key.num i ∈ keys kvs ↔ 1 ≤ i ∧ i ≤ kvs.length := by
  rw [(List.isPerm_iff.1 h).mem_iff, mem_seqKeys]
  constructor
  · rintro ⟨j, hj, h1, hn⟩
    cases hj
    exact ⟨h1, hn⟩
  · rintro ⟨h1, hn⟩
    exact ⟨i, rfl, h1, hn⟩

theorem keys_store_of_mem {k : Key} {v : Value} {kvs : List (Key × Value)} (hk : k ∈ keys kvs)
    (hv : v ≠ .nil) : keys (store k v kvs) = keys kvs := by
  rw [store, if_neg hv, keys_insert, if_pos hk]

theorem length_store_of_mem {k : Key} {v : Value} {kvs : List (Key × Value)} (hk : k ∈ keys kvs)
    (hv : v ≠ .nil) : (store k v kvs).length = kvs.length := by
  have h := congrArg List.length (keys_store_of_mem hk hv)
  rwa [List.length_map, List.length_map] at h

/-- Assigning inside an entry of an array. -/
theorem readArray?_assign {α : Type} {f : Value → Option α} {g : α → α} {i : Int} {k : Key}
    {ks : List Key} {v v' x : Value} (h : v.assign? (.num i :: k :: ks) x = some v')
    (hf : ∀ u u', u.assign? (k :: ks) x = some u' → f u' = (f u).map g) :
    readArray? f v' = (readArray? f v).map fun l => l.modify (i - 1).toNat g := by
  obtain ⟨kvs, u', rfl, hu, rfl⟩ := Value.assign?_cons h
  obtain ⟨skvs, c, hsl, -, rfl⟩ := Value.assign?_cons hu
  have hfu := hf _ _ hu
  have hmem : Key.num i ∈ keys kvs := by
    by_contra hnot
    rw [lookup_eq_nil_of_notMem hnot] at hsl
    cases hsl
  have hne : Value.table (store k c skvs) ≠ .nil := by simp
  have hseq : isSeq (store (.num i) (.table (store k c skvs)) kvs) = isSeq kvs := by
    rw [isSeq, keys_store_of_mem hmem hne, length_store_of_mem hmem hne, isSeq]
  by_cases hs : isSeq kvs
  · obtain ⟨h1, -⟩ := (mem_keys_of_isSeq hs).1 hmem
    simp only [readArray?, hseq, hs, if_true, length_store_of_mem hmem hne]
    refine mapM_modify fun j k' hj => ?_
    have hjn : j < kvs.length := by
      by_contra hlt
      rw [List.getElem?_eq_none (by simpa using hlt)] at hj
      cases hj
    rw [getElem?_seqKeys hjn] at hj
    cases hj
    by_cases hji : (i - 1).toNat = j
    · have hij : (j : Int) + 1 = i := by omega
      rw [if_pos hji, hij, lookup_store_self, hfu]
    · have hij : Key.num ((j : Int) + 1) ≠ .num i := by
        intro h
        have := Key.num.inj h
        omega
      rw [if_neg hji, lookup_store_ne hij]
  · simp [readArray?, hseq, hs]

end NsBoot.Lua
