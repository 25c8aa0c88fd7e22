import NsBoot.Admin
import NsBoot.Lib.IPv4
import NsBoot.Shipped

/-!
# NsBoot.Listing — what the controller reads from `tgtadm --op show`

Whether a target is there and whether a workstation is connected are both decided
by greps over what `tgtadm --lld iscsi --op show --mode target` prints.

* `Tgtadm.used` and `Tgtadm.checkstatpc` are the two questions, over the printed
  lines; `supperCheck` is the handler that asks the second.
* `ShowsTargets` and `ShowsAddresses` say how targets and addresses are printed
  among other lines.
* `used_iff`, `checkstatpc_iff`: what the greps find, said of the targets and of
  the addresses.
* `used_exact_iff`, `connected_exact_iff`: when that is what was asked for.
-/

namespace NsBoot

open Lua Grep

namespace Tgtadm

/-- `cmd.tgt.used`. -/
def used (lines : List String) (name : String) : Bool :=
  lines.any fun l => grep "Target [0-9]:" l && grep name l

/-- `nsboot:checkstatpc`. -/
def checkstatpc (lines : List String) (ip : String) : Bool :=
  lines.any (grep ("IP Address: " ++ ip))

end Tgtadm

/-- A word that begins with a character the text before it does not have. -/
theorem infix_of_notMem {c : Char} {before u text : List Char} (hc : c ∉ before)
    (h : c :: u <:+: before ++ text) : c :: u <:+: text := by
  induction before with
  | nil => exact h
  | cons b before ih =>
    rw [List.mem_cons, not_or] at hc
    rw [List.cons_append, List.infix_cons_iff, List.cons_prefix_cons] at h
    rcases h with ⟨heq, -⟩ | h
    · exact absurd heq hc.1
    · exact ih hc.2 h

/-! ## Targets -/

/-- What the first grep looks for. -/
def IsMark (u : List Char) : Prop := ∃ d : Char, d.isDigit ∧ u = "Target ".toList ++ [d, ':']

def Marked (text : String) : Prop := ∃ u, u <:+: text.toList ∧ IsMark u

theorem grep_target {line : String} : grep "Target [0-9]:" line ↔ Marked line := by
  have hpieces : pieces "Target [0-9]:".toList.length "Target [0-9]:".toList =
      ("Target ".toList.map Atom.of ++ [Atom.set false [('0', '9')], Atom.char ':']).map .one := rfl
  have hmark (u : List Char) : List.Forall₂ (fun a c => Atom.accepts a c)
      ("Target ".toList.map Atom.of ++ [Atom.set false [('0', '9')], Atom.char ':']) u ↔
        IsMark u := by
    simp [IsMark, List.forall₂_cons_left_iff, Atom.of, Atom.accepts, Char.isDigit, Char.le_def]
  rw [grep_ones (by decide) hpieces]
  simp only [hmark]
  rfl

/-- The targets are printed one a line. No other line passes for one of theirs. -/
structure ShowsTargets (lines : List String) (ts : List Target) : Prop where
  tid : ∀ t ∈ ts, ∃ n : Nat, t.tid = toString n
  line : ∀ t ∈ ts, t.line ∈ lines
  other : ∀ l ∈ lines, (∃ t ∈ ts, l = t.line) ∨ ¬ Marked l

/-- The first grep lets the line of the target through. -/
def Target.Listed (t : Target) : Prop := t.tid.length = 1 ∨ Marked t.name

/-- Somewhere in the text, the expression is found. -/
def FitsIn (pattern text : String) : Prop := ∃ u, u <:+: text.toList ∧ Grep.Fits pattern.toList u

theorem Target.marked_line {t : Target} {n : Nat} (htid : t.tid = toString n) :
    Marked t.line ↔ t.Listed := by
  have hline : t.line.toList =
      'T' :: ("arget ".toList ++ (t.tid.toList ++ ": ".toList) ++ t.name.toList) := by
    simp [Target.line]
  have hdigits : ∀ c ∈ t.tid.toList, c.isDigit := by
    intro c hc
    rw [htid, Nat.toString_eq_repr, Nat.toList_repr] at hc
    exact Nat.isDigit_of_mem_toDigits (by decide) (by decide) hc
  constructor
  · rintro ⟨u, hu, d, hd, rfl⟩
    rw [hline, List.infix_cons_iff] at hu
    rcases hu with hu | hu
    · -- at the start of the line: the character behind the first digit is the colon
      left
      have hrest : d :: [':'] <+: t.tid.toList ++ (": ".toList ++ t.name.toList) := by
        simpa using hu
      rw [← String.length_toList]
      cases htext : t.tid.toList with
      | nil => simp [htext] at hrest
      | cons c cs =>
        cases cs with
        | nil => rfl
        | cons c' cs =>
          have hcolon : ':' = c' := by
            simp only [htext, List.cons_append, List.cons_prefix_cons] at hrest
            exact hrest.2.1
          have hdigit := hdigits c' (by simp [htext])
          rw [← hcolon] at hdigit
          exact absurd hdigit (by decide)
    · -- no other `T` stands before the name
      right
      have hT : 'T' ∉ "arget ".toList ++ (t.tid.toList ++ ": ".toList) := by
        simp only [List.mem_append, not_or]
        refine ⟨by decide, fun h => ?_, by decide⟩
        exact absurd (hdigits _ h) (by decide)
      exact ⟨_, infix_of_notMem hT hu, d, hd, rfl⟩
  · rintro (hlen | ⟨u, hu, hmark⟩)
    · rw [← String.length_toList, List.length_eq_one_iff] at hlen
      rcases hlen with ⟨d, htext⟩
      refine ⟨_, ⟨[], ' ' :: t.name.toList, ?_⟩, d, hdigits d (by simp [htext]), rfl⟩
      simp [hline, htext]
    · refine ⟨u, hu.trans ?_, hmark⟩
      rw [hline]
      exact (List.suffix_append _ _).isInfix.trans (List.suffix_cons _ _).isInfix

/-- The controller finds the targets whose lines get through the first grep and
hold a text that fits the name. -/
theorem used_iff {lines : List String} {ts : List Target} (h : ShowsTargets lines ts)
    {name : String}
    (hname : ∀ c ∈ name.toList, isOrdinary c) :
    Tgtadm.used lines name ↔ ∃ t ∈ ts, t.Listed ∧ FitsIn name t.line := by
  have hline (l : String) : (grep "Target [0-9]:" l && grep name l) = true ↔
      Marked l ∧ FitsIn name l := by
    rw [Bool.and_eq_true, grep_target, grep_ordinary hname]
    rfl
  simp only [Tgtadm.used, List.any_eq_true, hline]
  constructor
  · rintro ⟨l, hl, hmarked, hfits⟩
    rcases h.other l hl with ⟨t, ht, rfl⟩ | hother
    · rcases h.tid t ht with ⟨n, hn⟩
      exact ⟨t, ht, (Target.marked_line hn).1 hmarked, hfits⟩
    · exact absurd hmarked hother
  · rintro ⟨t, ht, hlisted, hfits⟩
    rcases h.tid t ht with ⟨n, hn⟩
    exact ⟨t.line, h.line t ht, (Target.marked_line hn).2 hlisted, hfits⟩

/-- Of a world the controller reads what `World.tgtUsed` says. -/
theorem used_eq_tgtUsed {lines : List String} {w : World} (h : ShowsTargets lines w.tgts)
    (name : String) : Tgtadm.used lines name = w.tgtUsed name := by
  rw [Bool.eq_iff_iff]
  simp only [Tgtadm.used, World.tgtUsed, List.any_eq_true, Bool.and_eq_true]
  constructor
  · rintro ⟨l, hl, hmark, hname⟩
    rcases h.other l hl with ⟨t, ht, rfl⟩ | hother
    · exact ⟨t, ht, hmark, hname⟩
    · exact absurd (grep_target.1 hmark) hother
  · rintro ⟨t, ht, hfound⟩
    exact ⟨t.line, h.line t ht, hfound⟩

/-- An iSCSI name as one writes it. A shell and grep take it as it stands, but for
its dots. -/
def IsIqn (iqn : String) : Prop :=
  iqn.toList.head? ≠ some '-' ∧
    ∀ c ∈ iqn.toList, c.isAlphanum ∨ c = '-' ∨ c = '.' ∨ c = ':'

instance (iqn : String) : Decidable (IsIqn iqn) :=
  @instDecidableAnd _ _ _ (List.decidableBAll _ _)

theorem isOrdinary_of_isAlphanum {c : Char} (h : c.isAlphanum) : isOrdinary c := by
  simp only [isOrdinary, Bool.and_eq_true, decide_eq_true_eq]
  refine ⟨⟨⟨⟨?_, ?_⟩, ?_⟩, ?_⟩, ?_⟩ <;>
    · rintro rfl
      exact absurd h (by decide)

theorem IsIqn.isOrdinary_targetName {s : Server} (h : IsIqn s.iqn) (mac : String) :
    ∀ c ∈ (targetName s (alnum mac)).toList, isOrdinary c := by
  intro c hc
  simp only [targetName, alnum, String.toList_append, List.mem_append, String.toList_ofList,
    List.mem_filter] at hc
  rcases hc with (hc | hc) | ⟨-, hc⟩
  · rcases h.2 c hc with halnum | rfl | rfl | rfl
    · exact isOrdinary_of_isAlphanum halnum
    · rfl
    · rfl
    · rfl
  · rw [List.mem_singleton.1 hc]
    rfl
  · exact isOrdinary_of_isAlphanum hc

/-- Another target that the two greps let through: its tid has one digit (or its name
holds the mark itself), and its line holds the name but for the dots. -/
def LooksAlike (name : String) (t : Target) : Prop := t.name ≠ name ∧ t.Listed ∧ FitsIn name t.line

/-- A target with the name has a tid of one digit, unless another one is found in its
place; and another one is found only beside a target with the name. -/
structure ToldApart (ts : List Target) (name : String) : Prop where
  digit : (∃ t ∈ ts, t.name = name) →
    (∃ t ∈ ts, t.name = name ∧ t.tid.length = 1) ∨ ∃ t ∈ ts, LooksAlike name t
  beside : (∃ t ∈ ts, LooksAlike name t) → ∃ t ∈ ts, t.name = name

/-- The name of a workstation's target has no blank, so it does not hold the mark. -/
theorem IsIqn.not_marked {s : Server} (h : IsIqn s.iqn) (mac : String) :
    ¬ Marked (targetName s (alnum mac)) := by
  rintro ⟨u, hu, d, -, rfl⟩
  have hblank : ' ' ∈ (targetName s (alnum mac)).toList := hu.subset (by simp)
  simp only [targetName, alnum, String.toList_append, List.mem_append, String.toList_ofList,
    List.mem_filter] at hblank
  rcases hblank with (hblank | hblank) | ⟨-, hblank⟩
  · rcases h.2 ' ' hblank with halnum | hc | hc | hc
    · exact absurd halnum (by decide)
    · exact absurd hc (by decide)
    · exact absurd hc (by decide)
    · exact absurd hc (by decide)
  · exact absurd hblank (by decide)
  · exact absurd hblank (by decide)

/-- The line of a target holds its name. -/
theorem fitsIn_own_line (t : Target) : FitsIn t.name t.line := by
  refine ⟨t.name.toList, ?_, Fits.refl _⟩
  simp only [Target.line, String.toList_append]
  exact (List.suffix_append _ _).isInfix

/-- What the greps find of a workstation's target: one with the name and a tid of one
digit, or one that looks alike. -/
theorem used_iff_or {lines : List String} {ts : List Target} (h : ShowsTargets lines ts)
    {s : Server} (hiqn : IsIqn s.iqn) (mac : String) :
    Tgtadm.used lines (targetName s (alnum mac)) ↔
      (∃ t ∈ ts, t.name = targetName s (alnum mac) ∧ t.tid.length = 1) ∨
        ∃ t ∈ ts, LooksAlike (targetName s (alnum mac)) t := by
  rw [used_iff h (hiqn.isOrdinary_targetName mac)]
  constructor
  · rintro ⟨t, ht, hlisted, hfits⟩
    by_cases hname : t.name = targetName s (alnum mac)
    · -- such a name is no mark, so the tid is short
      rcases hlisted with hlen | hmarked
      · exact .inl ⟨t, ht, hname, hlen⟩
      · rw [hname] at hmarked
        exact absurd hmarked (hiqn.not_marked mac)
    · exact .inr ⟨t, ht, hname, hlisted, hfits⟩
  · rintro (⟨t, ht, hname, hlen⟩ | ⟨t, ht, -, hlisted, hfits⟩)
    · refine ⟨t, ht, .inl hlen, ?_⟩
      rw [← hname]
      exact fitsIn_own_line t
    · exact ⟨t, ht, hlisted, hfits⟩

/-- **`cmd.tgt.used` is right about a workstation's target exactly when the dots of
the name and the tids of more than one digit make no difference.** -/
theorem used_exact_iff {lines : List String} {ts : List Target} (h : ShowsTargets lines ts)
    {s : Server} (hiqn : IsIqn s.iqn) (mac : String) :
    (Tgtadm.used lines (targetName s (alnum mac)) ↔ ∃ t ∈ ts, t.name = targetName s (alnum mac)) ↔
      ToldApart ts (targetName s (alnum mac)) := by
  rw [used_iff_or h hiqn mac]
  constructor
  · intro hexact
    exact ⟨hexact.2, fun halike => hexact.1 (.inr halike)⟩
  · intro htold
    refine ⟨?_, htold.digit⟩
    rintro (⟨t, ht, hname, -⟩ | halike)
    · exact ⟨t, ht, hname⟩
    · exact htold.beside halike

/-- No other lines are printed. -/
theorem showsTargets_lines {ts : List Target} (h : ∀ t ∈ ts, ∃ n : Nat, t.tid = toString n) :
    ShowsTargets (ts.map Target.line) ts where
  tid := h
  line t ht := List.mem_map_of_mem ht
  other l hl := by
    rcases List.mem_map.1 hl with ⟨t, ht, rfl⟩
    exact .inl ⟨t, ht, rfl⟩

/-- A target of one of two workstations, whose iSCSI names differ in a dot. -/
def targetNo (tid : Nat) (iqn : String) : Target := ⟨toString tid, iqn ++ ":b42e992cdd52", []⟩

theorem shows_targetNo (tid : Nat) (iqn : String) :
    ShowsTargets [(targetNo tid iqn).line] [targetNo tid iqn] := by
  have htid : ∀ t ∈ [targetNo tid iqn], ∃ n : Nat, t.tid = toString n := by
    intro t ht
    rw [List.mem_singleton.1 ht]
    exact ⟨tid, rfl⟩
  exact showsTargets_lines htid

/-- The twelfth target is there and is not found. Its neighbour with another letter
for a dot is not there and is found. -/
theorem used_wrong :
    (ShowsTargets [(targetNo 12 "2020-02-10.com.nsboot").line]
        [targetNo 12 "2020-02-10.com.nsboot"] ∧
      Tgtadm.used [(targetNo 12 "2020-02-10.com.nsboot").line]
        (targetName shippedServer (alnum "b4:2e:99:2c:dd:52")) = false ∧
      (targetNo 12 "2020-02-10.com.nsboot").name =
        targetName shippedServer (alnum "b4:2e:99:2c:dd:52")) ∧
    (ShowsTargets [(targetNo 1 "2020-02-10-com.nsboot").line] [targetNo 1 "2020-02-10-com.nsboot"] ∧
      Tgtadm.used [(targetNo 1 "2020-02-10-com.nsboot").line]
        (targetName shippedServer (alnum "b4:2e:99:2c:dd:52")) = true ∧
      (targetNo 1 "2020-02-10-com.nsboot").name ≠
        targetName shippedServer (alnum "b4:2e:99:2c:dd:52")) := by
  refine ⟨⟨shows_targetNo _ _, ?_, ?_⟩, shows_targetNo _ _, ?_, ?_⟩ <;> decide +kernel

/-- The first target is found, with the shipped settings. -/
theorem used_exact_shipped :
    Tgtadm.used [(targetNo 1 "2020-02-10.com.nsboot").line]
        (targetName shippedServer (alnum "b4:2e:99:2c:dd:52")) ↔
      ∃ t ∈ [targetNo 1 "2020-02-10.com.nsboot"],
        t.name = targetName shippedServer (alnum "b4:2e:99:2c:dd:52") := by
  have hname : (targetNo 1 "2020-02-10.com.nsboot").name =
      targetName shippedServer (alnum "b4:2e:99:2c:dd:52") := by decide
  refine (used_exact_iff (shows_targetNo _ _) (by decide) _).2 ⟨fun _ => .inl ?_, fun _ => ?_⟩
  · exact ⟨_, List.mem_singleton_self _, hname, by decide⟩
  · exact ⟨_, List.mem_singleton_self _, hname⟩

/-! ## Addresses -/

def addressLine (addr : String) : String := "                " ++ ("IP Address: " ++ addr)

/-- The addresses are words, printed one a line. No other line passes for one of
theirs. -/
structure ShowsAddresses (lines addrs : List String) : Prop where
  word : ∀ a ∈ addrs, ' ' ∉ a.toList
  line : ∀ a ∈ addrs, addressLine a ∈ lines
  other : ∀ l ∈ lines, (∃ a ∈ addrs, l = addressLine a) ∨ ¬ "IP Address: ".toList <:+: l.toList

/-- The text begins with one that fits the expression. -/
def FitsFront (pattern text : String) : Prop := ∃ u, u <+: text.toList ∧ Grep.Fits pattern.toList u

instance (pattern text : String) : Decidable (FitsFront pattern text) :=
  decidable_of_iff (∃ u ∈ text.toList.inits, Grep.Fits pattern.toList u) (by simp [FitsFront])

theorem isOrdinary_text (p : IPv4.Addr) : ∀ c ∈ p.text.toList, isOrdinary c := by
  have hoctet (x : UInt8) : ∀ c ∈ IPv4.octetText x, isOrdinary c := by
    intro c hc
    apply isOrdinary_of_isAlphanum
    rw [Char.isAlphanum, Nat.isDigit_of_mem_toDigits (by decide) (by decide) hc, Bool.or_true]
  intro c hc
  simp only [IPv4.Addr.text, IPv4.dotted, String.toList_ofList, List.intercalate, List.intersperse,
    List.flatten_cons, List.flatten_nil, List.mem_append, List.mem_singleton, List.not_mem_nil,
    or_false] at hc
  rcases hc with hc | rfl | hc | rfl | hc | rfl | hc
  · exact hoctet _ _ hc
  · rfl
  · exact hoctet _ _ hc
  · rfl
  · exact hoctet _ _ hc
  · rfl
  · exact hoctet _ _ hc

/-- Where such a line has room for the words and what fits `ip`. -/
theorem fits_addressLine {ip addr : String} (hword : ' ' ∉ addr.toList) :
    FitsIn ("IP Address: " ++ ip) (addressLine addr) ↔ FitsFront ip addr := by
  have hwords : "IP Address: ".toList = 'I' :: "P Address: ".toList := by decide
  have hline : (addressLine addr).toList =
      "                ".toList ++ ("IP Address: ".toList ++ addr.toList) :=
    (String.toList_append ..).trans (congrArg _ (String.toList_append ..))
  unfold FitsIn
  simp only [String.toList_append, fits_append_iff (show '.' ∉ "IP Address: ".toList by simp)]
  constructor
  · rintro ⟨_, hu, v, rfl, hv⟩
    rw [hline, hwords, List.cons_append, List.cons_append] at hu
    rcases List.infix_cons_iff.1 (infix_of_notMem (by simp) hu) with hfront | hinside
    · refine ⟨v, ?_, hv⟩
      rwa [List.cons_prefix_cons, List.prefix_append_right_inj, and_iff_right rfl] at hfront
    · -- the word itself has no blank
      have hblank : ' ' ∈ addr.toList :=
        (infix_of_notMem (by simp) hinside).subset (by simp)
      exact absurd hblank hword
  · rintro ⟨v, ⟨rest, hrest⟩, hv⟩
    refine ⟨_, ⟨"                ".toList, rest, ?_⟩, v, rfl, hv⟩
    simp only [hline, ← hrest, List.append_assoc]

/-- The controller takes for connected every address that begins, but for the dots,
with the one asked for. -/
theorem checkstatpc_iff {lines addrs : List String} (h : ShowsAddresses lines addrs)
    (p : IPv4.Addr) : Tgtadm.checkstatpc lines p.text ↔ ∃ a ∈ addrs, FitsFront p.text a := by
  have hordinary : ∀ c ∈ ("IP Address: " ++ p.text).toList, isOrdinary c := by
    intro c hc
    rw [String.toList_append, List.mem_append] at hc
    rcases hc with hc | hc
    · have hwords : "IP Address: ".toList.all isOrdinary := by decide
      exact List.all_eq_true.1 hwords c hc
    · exact isOrdinary_text p c hc
  simp only [Tgtadm.checkstatpc, List.any_eq_true, grep_ordinary hordinary]
  constructor
  · rintro ⟨l, hl, hfits⟩
    rcases h.other l hl with ⟨a, ha, rfl⟩ | hother
    · exact ⟨a, ha, (fits_addressLine (h.word a ha)).1 hfits⟩
    · rcases hfits with ⟨u, hu, hfits⟩
      rw [String.toList_append, fits_append_iff (by simp)] at hfits
      rcases hfits with ⟨v, rfl, -⟩
      exact absurd ((List.prefix_append _ _).isInfix.trans hu) hother
  · rintro ⟨a, ha, hfront⟩
    exact ⟨addressLine a, h.line a ha, (fits_addressLine (h.word a ha)).2 hfront⟩

/-! ## `supperCheck` -/

/-- What `supperCheck` answers, if it does. -/
def supperCheck (lines : List String) (c : Value) (id : String) : Option (Option String) := do
  if ← checkconf c then
    let v ← wksAt? c (numberOf id)
    if v = .nil ∨ v = .bool false then return none
    else
      let supper ← v.at? ["supper"]
      if supper.isOne then
        let ip ← (v.get "ipv4").concat?
        return some (if Tgtadm.checkstatpc lines ip then "2" else "1")
      else return some supper.tostring
  else return none

/-- The address is connected itself, or none that is connected looks like it. -/
def NoneAlike (addrs : List String) (ip : String) : Prop :=
  ip ∈ addrs ∨ ∀ a ∈ addrs, ¬ FitsFront ip a

theorem checkstatpc_exact_iff {lines addrs : List String} (h : ShowsAddresses lines addrs)
    (p : IPv4.Addr) :
    (Tgtadm.checkstatpc lines p.text ↔ p.text ∈ addrs) ↔ NoneAlike addrs p.text := by
  rw [checkstatpc_iff h]
  constructor
  · intro hexact
    by_cases hin : p.text ∈ addrs
    · exact .inl hin
    · right
      intro a ha hfront
      exact hin (hexact.1 ⟨a, ha, hfront⟩)
  · intro hnone
    constructor
    · rintro ⟨a, ha, hfront⟩
      exact hnone.resolve_right fun h => h a ha hfront
    · intro hin
      exact ⟨p.text, hin, _, List.prefix_rfl, .refl _⟩

/-- The answer about a workstation that has an address. -/
theorem supperCheck_eq {c v : Value} {id ip : String} (hconf : checkconf c = some true)
    (hv : wksAt? c (numberOf id) = some v) (hip : v.get "ipv4" = .str ip) (lines : List String) :
    supperCheck lines c id = some (some (
      if (v.get "supper").isOne then if Tgtadm.checkstatpc lines ip then "2" else "1"
      else (v.get "supper").tostring)) := by
  cases v with
  | table kvs =>
    have hsupper : (Value.table kvs).at? ["supper"] = some ((Value.table kvs).get "supper") := rfl
    simp only [supperCheck, hconf, hv, hip, hsupper, Option.bind_eq_bind, Option.bind_some, if_true,
      reduceCtorEq, or_self, if_false, Value.concat?]
    by_cases hone : ((Value.table kvs).get "supper").isOne
    · rw [if_pos hone, if_pos hone]
      rfl
    · rw [if_neg hone, if_neg hone]
      rfl
  | _ => cases hip

/-- **A workstation is taken for connected exactly when it is, if and only if no
connected address looks like its own; and `supperCheck` answers 2 for the workstations
in super mode that are connected, if and only if moreover their flag is not 2 itself.** -/
theorem connected_exact_iff {lines addrs : List String} (h : ShowsAddresses lines addrs)
    (p : IPv4.Addr) :
    ((Tgtadm.checkstatpc lines p.text ↔ p.text ∈ addrs) ↔ NoneAlike addrs p.text) ∧
    ∀ c id v, checkconf c = some true → wksAt? c (numberOf id) = some v →
      v.get "ipv4" = .str p.text →
      ((supperCheck lines c id = some (some "2") ↔ (v.get "supper").isOne ∧ p.text ∈ addrs) ↔
        ((v.get "supper").isOne → NoneAlike addrs p.text) ∧ (v.get "supper").tostring ≠ "2") := by
  constructor
  · exact checkstatpc_exact_iff h p
  · intro c id v hconf hv hip
    rw [supperCheck_eq hconf hv hip, ← checkstatpc_exact_iff h p]
    by_cases hone : (v.get "supper").isOne
    · have htwo : (v.get "supper").tostring ≠ "2" := by
        rw [hone]
        decide
      by_cases hconn : Tgtadm.checkstatpc lines p.text <;> simp [hone, htwo, hconn]
    · simp [hone]

/-- A workstation in super mode that is switched off, while another one, whose address
is longer by a digit, is running. -/
theorem connected_wrong :
    ShowsAddresses [addressLine "192.168.0.30"] ["192.168.0.30"] ∧
    Tgtadm.checkstatpc [addressLine "192.168.0.30"] "192.168.0.3" = true ∧
    (setSupper 1 (.str "1") oneStation.file.val).bind
      (supperCheck [addressLine "192.168.0.30"] · "1") = some (some "2") := by
  refine ⟨⟨?_, ?_, ?_⟩, ?_, ?_⟩
  · intro a ha
    rw [List.mem_singleton.1 ha]
    decide
  · simp
  · simp
  · decide +kernel
  · decide +kernel

/-- The station of `oneStation`, in super mode. -/
def superTree : Value := (((setSupper 1 (.str "1") oneStation.file.val).bind
  (wksAt? · (numberOf "1"))).getD .nil)

/-- The same two, when the first one is running as well. -/
theorem connected_exact_both :
    (Tgtadm.checkstatpc [addressLine "192.168.0.3", addressLine "192.168.0.30"]
      (IPv4.Addr.text ⟨192, 168, 0, 3⟩) ↔
      IPv4.Addr.text ⟨192, 168, 0, 3⟩ ∈ ["192.168.0.3", "192.168.0.30"]) ∧
    ∃ c, setSupper 1 (.str "1") oneStation.file.val = some c ∧
      (supperCheck [addressLine "192.168.0.3", addressLine "192.168.0.30"] c "1" = some (some "2") ↔
        (superTree.get "supper").isOne ∧
          IPv4.Addr.text ⟨192, 168, 0, 3⟩ ∈ ["192.168.0.3", "192.168.0.30"]) := by
  have hlines : ShowsAddresses [addressLine "192.168.0.3", addressLine "192.168.0.30"]
      ["192.168.0.3", "192.168.0.30"] := by
    refine ⟨?_, ?_, ?_⟩
    · decide
    · simp
    · simp
  have halike : NoneAlike ["192.168.0.3", "192.168.0.30"] (IPv4.Addr.text ⟨192, 168, 0, 3⟩) :=
    Or.inl (by decide)
  have hexact := connected_exact_iff hlines ⟨192, 168, 0, 3⟩
  refine ⟨hexact.1.2 halike, _, rfl, ?_⟩
  refine (hexact.2 _ "1" superTree ?_ ?_ ?_).2 ⟨fun _ => halike, ?_⟩
  · decide +kernel
  · decide +kernel
  · decide +kernel
  · decide +kernel

end NsBoot
