import NsBoot.Shipped

/-!
# The names of a workstation's resources

Everything a boot makes for a workstation has a name that is written together
from settings, a slot number or a path, and the `vid`, with nothing between the
last two that a path could not hold too. The `vid` of a MAC address has twelve
characters, so every such name can be taken apart again from its end.

* `IsMac` is a MAC address as it is written, with any separators.
* `NamesInjective` says what two equal names have in common, kind by kind.
* `names_injective` holds for any settings and any two MAC addresses.
-/

namespace NsBoot

open Lua

/-- A MAC address: twelve hexadecimal digits, and separators wherever one likes. -/
def IsMac (mac : String) : Prop :=
  (mac.toList.filter isHexDigit).length = 12 ∧
    ∀ c ∈ mac.toList, isHexDigit c ∨ c.isAlphanum = false

instance (mac : String) : Decidable (IsMac mac) :=
  @instDecidableAnd _ _ _ (List.decidableBAll _ _)

theorem isAlphanum_of_isHexDigit {c : Char} (h : isHexDigit c) : c.isAlphanum := by
  simp only [isHexDigit, Bool.or_eq_true, Bool.and_eq_true, decide_eq_true_eq] at h
  have hup : ('F' : Char).val ≤ 'Z'.val := by decide
  have hlow : ('f' : Char).val ≤ 'z'.val := by decide
  rw [Char.isAlphanum, Bool.or_eq_true]
  rcases h with (hdigit | hlower) | hupper
  · exact .inr hdigit
  · have hc : c.isLower = true := Bool.and_eq_true_iff.2
      ⟨decide_eq_true hlower.1, decide_eq_true (UInt32.le_trans hlower.2 hlow)⟩
    exact .inl (Bool.or_eq_true_iff.2 (.inr hc))
  · have hc : c.isUpper = true := decide_eq_true ⟨hupper.1, UInt32.le_trans hupper.2 hup⟩
    exact .inl (Bool.or_eq_true_iff.2 (.inl hc))

/-- `gsub('%W','')` leaves the twelve digits and nothing else. -/
theorem IsMac.isMacId {mac : String} (h : IsMac mac) : IsMacId (alnum mac) := by
  have hsame : mac.toList.filter Char.isAlphanum = mac.toList.filter isHexDigit := by
    apply List.filter_congr
    intro c hc
    rcases h.2 c hc with hhex | hsep
    · rw [hhex, isAlphanum_of_isHexDigit hhex]
    · have hnot : isHexDigit c = false := by
        by_contra hhex
        simp [isAlphanum_of_isHexDigit (by simpa using hhex)] at hsep
      rw [hsep, hnot]
  constructor
  · simpa [alnum, hsame] using h.1
  · intro c hc
    simp only [alnum, hsame, String.toList_ofList, List.mem_filter] at hc
    exact hc.2

/-- What two equal names of one kind, made with the `vid`s `u` and `v`, have in
common. -/
structure NamesInjective (s : Server) (u v : String) : Prop where
  lock : ∀ i j, lockName s i u = lockName s j v → i = j ∧ u = v
  child : ∀ p q, childName s p u = childName s q v → p = q ∧ u = v
  volume : ∀ p q, zvolSnap s u p = zvolSnap s v q → p = q ∧ u = v
  target : targetName s u = targetName s v → u = v
  mount : zpoint s u = zpoint s v → u = v
  dataset : zdest s u = zdest s v → u = v

theorem zvolSnap_inj {s : Server} {u v : String} (hlen : u.length = v.length) {p q : String}
    (h : zvolSnap s u p = zvolSnap s v q) : p = q ∧ u = v := by
  have hsplit := append_suffix_inj hlen h
  have hpath : s.snadev ++ "/" ++ p ++ "@" = s.snadev ++ "/" ++ q ++ "@" :=
    (append_suffix_inj rfl (append_suffix_inj rfl hsplit.1).1).1
  constructor
  · simpa using hpath
  · exact hsplit.2

/-- Of any two MAC addresses, whatever the settings are. The paths are any
strings: one that holds the image prefix, or a `vid`, makes no difference. -/
theorem names_injective (s : Server) {mac mac' : String} (h : IsMac mac) (h' : IsMac mac') :
    NamesInjective s (alnum mac) (alnum mac') := by
  have hlen : (alnum mac).length = (alnum mac').length := by
    rw [h.isMacId.1, h'.isMacId.1]
  constructor
  · intro i j heq
    exact lockName_inj hlen heq
  · intro p q heq
    exact childName_inj hlen heq
  · intro p q heq
    exact zvolSnap_inj hlen heq
  · intro heq
    exact (append_suffix_inj hlen heq).2
  · intro heq
    exact (append_suffix_inj hlen heq).2
  · intro heq
    exact (append_suffix_inj hlen heq).2

/-- Two ways to write addresses, with the shipped settings. -/
theorem names_injective_shipped :
    NamesInjective shippedServer (alnum "00:15:5D:01:0a:02") (alnum "0015.5d01.0a03") :=
  names_injective shippedServer (by decide +kernel) (by decide +kernel)

end NsBoot
