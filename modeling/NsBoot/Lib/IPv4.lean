import Mathlib.Algebra.Ring.Nat
import Mathlib.Data.List.Basic

/-!
# NsBoot.Lib.IPv4 — dotted addresses

* `Addr`: four octets; `text` writes one as a dotted quad.
* `Addr.of?` reads a dotted quad: four decimal numerals below 256, without
  leading zeros, with dots between them. `of?_eq_some_iff` says that exactly the
  texts `text` writes are read.
* `Addr.Within net mask`: membership in a subnet.
-/

namespace NsBoot.IPv4

@[ext]
structure Addr where
  a : UInt8
  b : UInt8
  c : UInt8
  d : UInt8
deriving DecidableEq, Repr

/-! ## Octets -/

def octetText (x : UInt8) : List Char := Nat.toDigits 10 x.toNat

def octet? (cs : List Char) : Option UInt8 :=
  let n := Nat.ofDigitChars 10 cs 0
  if n < 256 ∧ cs = Nat.toDigits 10 n then some (UInt8.ofNat n) else none

theorem octet?_toDigits (n : Nat) :
    octet? (Nat.toDigits 10 n) = if n < 256 then some (UInt8.ofNat n) else none := by
  simp only [octet?, Nat.ofDigitChars_ten_toDigits, and_true]

theorem octet?_eq_some_iff {cs : List Char} {x : UInt8} :
    octet? cs = some x ↔ cs = octetText x := by
  constructor
  · intro h
    simp only [octet?, Option.ite_none_right_eq_some, Option.some.injEq] at h
    obtain ⟨⟨hlt, hcs⟩, rfl⟩ := h
    rw [octetText, UInt8.toNat_ofNat', Nat.mod_eq_of_lt hlt]
    exact hcs
  · rintro rfl
    rw [octetText, octet?_toDigits, if_pos x.toNat_lt, UInt8.ofNat_toNat]

theorem octet?_octetText (x : UInt8) : octet? (octetText x) = some x := octet?_eq_some_iff.2 rfl

theorem dot_notMem_toDigits (n : Nat) : '.' ∉ Nat.toDigits 10 n := by
  intro h
  exact absurd (Nat.isDigit_of_mem_toDigits (by decide) (by decide) h) (by decide)

/-- A numeral behind another one is a numeral. -/
theorem toDigits_append {n : Nat} (hn : 0 < n) (k : Nat) :
    Nat.toDigits 10 n ++ Nat.toDigits 10 k =
      Nat.toDigits 10 (n * 10 ^ (Nat.toDigits 10 k).length + k) := by
  induction k using Nat.strongRecOn with
  | ind k ih =>
    by_cases hk : k < 10
    · have hone : (Nat.toDigits 10 k).length = 1 := by
        rw [Nat.toDigits_of_lt_base hk, List.length_singleton]
      rw [Nat.toDigits_append_toDigits (by decide) hn hk, hone, Nat.pow_one, Nat.mul_comm]
    · -- the last digit of `k` goes to the end, and the rest is a shorter numeral
      have hsplit : Nat.toDigits 10 (k / 10) ++ Nat.toDigits 10 (k % 10) = Nat.toDigits 10 k := by
        rw [Nat.toDigits_append_toDigits (by decide) (by omega) (by omega), Nat.div_add_mod]
      have hlen : (Nat.toDigits 10 k).length = (Nat.toDigits 10 (k / 10)).length + 1 := by
        rw [← hsplit, List.length_append, Nat.toDigits_of_lt_base (by omega : k % 10 < 10),
          List.length_singleton]
      rw [← hsplit, ← List.append_assoc, ih (k / 10) (by omega),
        Nat.toDigits_append_toDigits (by decide) (by omega) (by omega), hsplit, hlen, Nat.pow_succ]
      congr 1
      rw [Nat.mul_add, ← Nat.mul_assoc, Nat.add_assoc, Nat.div_add_mod]
      rw [Nat.mul_comm 10 n, Nat.mul_assoc, Nat.mul_comm 10]

/-! ## Quads -/

/-- Texts with dots between them. -/
def dotted (parts : List (List Char)) : List Char := ['.'].intercalate parts

def Addr.text (x : Addr) : String :=
  String.ofList (dotted [octetText x.a, octetText x.b, octetText x.c, octetText x.d])

def Addr.of? (s : String) : Option Addr :=
  match s.toList.splitOn '.' with
  | [a, b, c, d] => do
    let a ← octet? a
    let b ← octet? b
    let c ← octet? c
    let d ← octet? d
    return ⟨a, b, c, d⟩
  | _ => none

theorem splitOn_dotted {parts : List (List Char)} (h : ∀ p ∈ parts, '.' ∉ p) (hne : parts ≠ []) :
    (dotted parts).splitOn '.' = parts :=
  List.splitOn_intercalate '.' h hne

/-- Three octets and a numeral are an address when the numeral is below 256. -/
theorem Addr.of?_dotted (a b c : UInt8) (n : Nat) :
    Addr.of? (String.ofList (dotted [octetText a, octetText b, octetText c, Nat.toDigits 10 n])) =
      if n < 256 then some ⟨a, b, c, UInt8.ofNat n⟩ else none := by
  have hsplit : (dotted [octetText a, octetText b, octetText c, Nat.toDigits 10 n]).splitOn '.' =
      [octetText a, octetText b, octetText c, Nat.toDigits 10 n] := splitOn_dotted
    (by simp [octetText, dot_notMem_toDigits]) (by simp)
  rw [Addr.of?, String.toList_ofList, hsplit]
  simp only [octet?_octetText, octet?_toDigits, Option.bind_eq_bind, Option.bind_some,
    Option.pure_def]
  split <;> rfl

theorem Addr.of?_eq_some_iff {s : String} {x : Addr} : Addr.of? s = some x ↔ s = x.text := by
  constructor
  · intro h
    unfold Addr.of? at h
    split at h
    · next a b c d hsplit =>
      simp only [Option.bind_eq_bind, Option.bind_eq_some_iff, octet?_eq_some_iff, Option.pure_def,
        Option.some.injEq] at h
      obtain ⟨_, rfl, _, rfl, _, rfl, _, rfl, rfl⟩ := h
      apply String.toList_injective
      rw [Addr.text, String.toList_ofList, dotted, ← hsplit, List.intercalate_splitOn]
    · cases h
  · rintro rfl
    have hread := Addr.of?_dotted x.a x.b x.c x.d.toNat
    rw [if_pos x.d.toNat_lt, UInt8.ofNat_toNat] at hread
    exact hread

/-! ## Subnets -/

/-- The address lies in the subnet. -/
def Addr.Within (net mask x : Addr) : Prop :=
  x.a &&& mask.a = net.a &&& mask.a ∧ x.b &&& mask.b = net.b &&& mask.b ∧
  x.c &&& mask.c = net.c &&& mask.c ∧ x.d &&& mask.d = net.d &&& mask.d

instance (net mask x : Addr) : Decidable (Addr.Within net mask x) :=
  inferInstanceAs (Decidable (_ ∧ _))

end NsBoot.IPv4
