import NsBoot.Admin.Pages
import NsBoot.Lib.IPv4
import Mathlib.Data.Nat.Find

/-!
# NsBoot.Admin.Proposal — what `GetMy` proposes for a new machine

`GetMy` with `id=0` scans the table for an id and makes an address and a name of
it, without a look at the records there are.

* `Candidate`: the id the scan ends with, for any table: the first tombstone, or
  else the id after the last record whose `tid` is its key (`scanId_eq_iff`).
* `scanId_free_iff`: that id is free exactly when there is a tombstone or the last
  record has its key as its `tid`.
* `proposal_usable_iff`: when the address and the name made of it can be used.
-/

namespace NsBoot

open Lua IPv4 Prog

/-! ## The scan -/

/-- Row `k` is a tombstone. -/
def Tomb (c : Value) (k : Nat) : Prop :=
  ((wksOf c).get (.num k)).get "empty" = .str "true"

/-- The record in row `k` has its key as its `tid`. -/
def OwnTid (c : Value) (k : Nat) : Prop :=
  (((wksOf c).get (.num k)).get "tid").tonumber = some (k : Int)

instance (c : Value) (k : Nat) : Decidable (Tomb c k) := inferInstanceAs (Decidable (_ = _))

instance (c : Value) (k : Nat) : Decidable (OwnTid c k) := inferInstanceAs (Decidable (_ = _))

/-- `ipairs` visits the rows `1..m`, and they are records or tombstones. -/
structure Rows (m : Nat) (c : Value) : Prop where
  table : ∃ kvs, wksOf c = .table kvs
  row : ∀ k : Nat, 1 ≤ k → k ≤ m → ∃ fs, (wksOf c).get (.num k) = .table fs
  stop : (wksOf c).get (.num ((m : Int) + 1)) = .nil

theorem Rows.of_hasKeys {n : Nat} {c : Value} (h : HasKeys n c)
    (hrow : ∀ k ∈ seqKeys n, ∃ fs, (wksOf c).get k = .table fs) : Rows n c := by
  refine ⟨?_, ?_, ?_⟩
  · obtain ⟨kvs, hkvs, -⟩ := h
    exact ⟨kvs, hkvs⟩
  · intro k h1 hn
    exact hrow _ (mem_seqKeys.2 ⟨k, rfl, by omega, by omega⟩)
  · refine h.get_eq_nil fun hmem => ?_
    obtain ⟨i, hi, -, hn⟩ := mem_seqKeys.1 hmem
    cases hi
    omega

/-- Of the rows `1..m`, `k` is the first tombstone, or else the row after the last
one that has its key as its `tid`. -/
inductive Candidate (c : Value) (m : Nat) : Nat → Prop
  | tombstone {k : Nat} (h1 : 1 ≤ k) (hm : k ≤ m) (htomb : Tomb c k)
      (hfirst : ∀ j, 1 ≤ j → j < k → ¬ Tomb c j) : Candidate c m k
  | next {j : Nat} (h1 : 1 ≤ j) (hm : j ≤ m) (hlive : ∀ i, 1 ≤ i → i ≤ m → ¬ Tomb c i)
      (hown : OwnTid c j) (hlast : ∀ i, j < i → i ≤ m → ¬ OwnTid c i) : Candidate c m (j + 1)

theorem Candidate.unique {c : Value} {m k l : Nat} (hk : Candidate c m k) (hl : Candidate c m l) :
    k = l := by
  cases hk with
  | tombstone h1 hm htomb hfirst =>
    cases hl with
    | tombstone h1' hm' htomb' hfirst' =>
      rcases Nat.lt_trichotomy k l with hlt | heq | hgt
      · exact absurd htomb (hfirst' k h1 hlt)
      · exact heq
      · exact absurd htomb' (hfirst l h1' hgt)
    | next h1' hm' hlive => exact absurd htomb (hlive k h1 hm)
  | @next j h1 hm hlive hown hlast =>
    cases hl with
    | tombstone h1' hm' htomb' => exact absurd htomb' (hlive l h1' hm')
    | @next j' h1' hm' hlive' hown' hlast' =>
      rcases Nat.lt_trichotomy j j' with hlt | heq | hgt
      · exact absurd hown' (hlast j' hlt hm')
      · rw [heq]
      · exact absurd hown (hlast' j hgt hm)

section Scan

variable {c : Value} {m : Nat}

/-- The scan of the rows from `i` on: it stops at the first tombstone; without one
it ends with the id after the last record that has its own `tid`; without such a
record the candidate it came with is left. -/
theorem scanId_rows (h : Rows m c) {len i : Nat} (t : Option Int) (hi : 1 ≤ i)
    (hend : i + len = m + 1) {es : List (Int × Value)}
    (hes : es = (List.range' i len).map fun k : Nat => ((k : Int), (wksOf c).get (.num k))) :
    (∃ k, i ≤ k ∧ k ≤ m ∧ Tomb c k ∧ (∀ j, i ≤ j → j < k → ¬ Tomb c j) ∧
      scanId es t = some (some (k : Int))) ∨
    (∀ j, i ≤ j → j ≤ m → ¬ Tomb c j) ∧
      ((∃ k, i ≤ k ∧ k ≤ m ∧ OwnTid c k ∧ (∀ j, k < j → j ≤ m → ¬ OwnTid c j) ∧
        scanId es t = some (some ((k + 1 : Nat) : Int))) ∨
      (∀ j, i ≤ j → j ≤ m → ¬ OwnTid c j) ∧ scanId es t = some t) := by
  induction len generalizing i t es with
  | zero =>
    subst hes
    exact Or.inr ⟨fun j h1 h2 => absurd h1 (by omega), Or.inr ⟨fun j h1 h2 => absurd h1 (by omega),
      rfl⟩⟩
  | succ len ih =>
    rw [List.range'_succ, List.map_cons] at hes
    generalize hrest : (List.range' (i + 1) len).map
      (fun k : Nat => ((k : Int), (wksOf c).get (.num k))) = rest at hes
    obtain ⟨fs, hfs⟩ := h.row i hi (by omega)
    have hread : ((wksOf c).get (.num i)).at? ["empty"] =
        some (((wksOf c).get (.num i)).get "empty") := by
      rw [hfs]
      rfl
    by_cases htomb : Tomb c i
    · -- the scan stops here
      refine Or.inl ⟨i, le_rfl, by omega, htomb, fun j h1 h2 => absurd h1 (by omega), ?_⟩
      rw [hes, scanId, hread]
      exact if_pos htomb
    · have hstep : scanId es t = scanId rest (if OwnTid c i then some ((i : Int) + 1) else t) := by
        rw [hes, scanId, hread]
        exact if_neg htomb
      rw [hstep]
      -- what holds from `i + 1` on and at `i` holds from `i` on
      have hfrom {P : Nat → Prop} (hlater : ∀ j, i + 1 ≤ j → j ≤ m → ¬ P j) (hP : ¬ P i) :
          ∀ j, i ≤ j → j ≤ m → ¬ P j := by
        intro j h1 h2
        rcases Nat.eq_or_lt_of_le h1 with heq | hlt
        · rwa [← heq]
        · exact hlater j hlt h2
      rcases ih (i := i + 1) (if OwnTid c i then some ((i : Int) + 1) else t) (by omega) (by omega)
          hrest.symm with ⟨k, h1, h2, hk, hfirst, hscan⟩ | ⟨hlive, ⟨k, h1, h2, hown, hlast, hscan⟩ |
          ⟨hnone, hscan⟩⟩
      · refine Or.inl ⟨k, by omega, h2, hk, fun j hj1 hj2 => ?_, hscan⟩
        rcases Nat.eq_or_lt_of_le hj1 with heq | hlt
        · rwa [← heq]
        · exact hfirst j hlt hj2
      · exact Or.inr ⟨hfrom hlive htomb, Or.inl ⟨k, by omega, h2, hown, hlast, hscan⟩⟩
      · refine Or.inr ⟨hfrom hlive htomb, ?_⟩
        by_cases hown : OwnTid c i
        · rw [if_pos hown] at hscan ⊢
          exact Or.inl ⟨i, le_rfl, by omega, hown, fun j hj1 hj2 =>
            hnone j hj1 hj2, by simpa using hscan⟩
        · rw [if_neg hown] at hscan ⊢
          exact Or.inr ⟨hfrom hnone hown, hscan⟩

theorem Rows.ipairs {kvs : List (Key × Value)} (h : Rows m c) (hkvs : wksOf c = .table kvs) :
    ipairs kvs = (List.range' 1 m).map fun k : Nat => ((k : Int), (wksOf c).get (.num k)) := by
  have hget (k : Key) : (wksOf c).get k = lookup k kvs := by rw [hkvs, Value.get_table]
  simp only [hget]
  refine ipairs_eq (fun k h1 hm => ?_) (by rw [← hget]; exact h.stop)
  obtain ⟨fs, hfs⟩ := h.row k h1 hm
  rw [← hget, hfs]
  simp

/-- **What the scan ends with**, for any table: an id exactly when there is a
candidate, and then that one. -/
theorem scanId_eq_iff {kvs : List (Key × Value)} (h : Rows m c) (hkvs : wksOf c = .table kvs)
    {t : Int} : scanId (ipairs kvs) none = some (some t) ↔ ∃ k : Nat, Candidate c m k ∧ t = k := by
  have hscan : (∃ k : Nat, Candidate c m k ∧ scanId (Lua.ipairs kvs) none = some (some (k : Int))) ∨
      (¬ ∃ k, Candidate c m k) ∧ scanId (Lua.ipairs kvs) none = some none := by
    rcases scanId_rows h none le_rfl (by omega) (h.ipairs hkvs) with
      ⟨k, h1, hm, htomb, hfirst, hscan⟩ | ⟨hlive, ⟨k, h1, hm, hown, hlast, hscan⟩ | ⟨hnone, hscan⟩⟩
    · exact Or.inl ⟨k, .tombstone h1 hm htomb hfirst, hscan⟩
    · exact Or.inl ⟨k + 1, .next h1 hm hlive hown hlast, hscan⟩
    · refine Or.inr ⟨?_, hscan⟩
      rintro ⟨k, hk⟩
      cases hk with
      | tombstone h1 hm htomb => exact hlive _ h1 hm htomb
      | next h1 hm _ hown => exact hnone _ h1 hm hown
  constructor
  · intro ht
    rcases hscan with ⟨k, hk, heq⟩ | ⟨-, heq⟩
    · rw [heq] at ht
      exact ⟨k, hk, (Option.some.inj (Option.some.inj ht)).symm⟩
    · rw [heq] at ht
      cases ht
  · rintro ⟨k, hk, rfl⟩
    rcases hscan with ⟨l, hl, heq⟩ | ⟨hno, -⟩
    · rw [heq, hk.unique hl]
    · exact absurd ⟨k, hk⟩ hno

theorem Rows.live_iff (h : Rows m c) {k : Nat} (h1 : 1 ≤ k) (hm : k ≤ m) :
    Live c (.num k) ↔ ¬ Tomb c k := by
  obtain ⟨fs, hfs⟩ := h.row k h1 hm
  constructor
  · exact fun hlive => hlive.2
  · intro htomb
    exact ⟨by rw [hfs]; simp, htomb⟩

/-- Where there is a tombstone there is a first one. -/
theorem candidate_of_tomb {k : Nat} (h1 : 1 ≤ k) (hm : k ≤ m) (htomb : Tomb c k) :
    ∃ l, Candidate c m l ∧ 1 ≤ l ∧ l ≤ m ∧ Tomb c l := by
  have hex : ∃ l, 1 ≤ l ∧ l ≤ m ∧ Tomb c l := ⟨k, h1, hm, htomb⟩
  obtain ⟨hl1, hlm, hl⟩ := Nat.find_spec hex
  refine ⟨Nat.find hex, .tombstone hl1 hlm hl fun j hj1 hj => ?_, hl1, hlm, hl⟩
  intro hjt
  exact Nat.find_min hex hj ⟨hj1, by omega, hjt⟩

end Scan

/-- **The scan ends at a free slot** exactly when some slot is a tombstone or the
last record has its key as its `tid`. -/
theorem scanId_free_iff {n : Nat} {c : Value} {kvs : List (Key × Value)} (h : HasKeys n c)
    (hn : 1 ≤ n) (hrow : ∀ k ∈ seqKeys n, ∃ fs, (wksOf c).get k = .table fs)
    (hkvs : wksOf c = .table kvs) :
    (∃ t : Int, scanId (ipairs kvs) none = some (some t) ∧ 1 ≤ t ∧ t ≤ n + 1 ∧
      ¬ Live c (.num t)) ↔ (∃ k, 1 ≤ k ∧ k ≤ n ∧ Tomb c k) ∨ OwnTid c n := by
  have hrows : Rows n c := .of_hasKeys h hrow
  simp only [scanId_eq_iff hrows hkvs]
  constructor
  · rintro ⟨t, ⟨k, hk, rfl⟩, -, -, hfree⟩
    cases hk with
    | tombstone h1 hm htomb => exact Or.inl ⟨k, h1, hm, htomb⟩
    | @next j h1 hm hlive hown =>
      -- the slot after `j` is free only behind the last record
      rcases Nat.eq_or_lt_of_le hm with heq | hlt
      · exact Or.inr (heq ▸ hown)
      · exact absurd ((hrows.live_iff (by omega) hlt).2 (hlive (j + 1) (by omega) hlt)) hfree
  · intro hcond
    by_cases hex : ∃ k, 1 ≤ k ∧ k ≤ n ∧ Tomb c k
    · obtain ⟨k, h1, hm, htomb⟩ := hex
      obtain ⟨l, hl, hl1, hln, hlt⟩ := candidate_of_tomb h1 hm htomb
      exact ⟨l, ⟨l, hl, rfl⟩, by omega, by omega, fun hlive => hlive.2 hlt⟩
    · have hown : OwnTid c n := hcond.resolve_left hex
      refine ⟨(n + 1 : Nat), ⟨n + 1, .next hn le_rfl ?_ hown ?_, rfl⟩, by omega, by omega, ?_⟩
      · exact fun i h1 hm htomb => hex ⟨i, h1, hm, htomb⟩
      · exact fun i hi hm => absurd hi (by omega)
      · exact fun hlive => hlive.1 hrows.stop

/-- The workstations `cfg.lua` ships: the third one has the second one's `tid`. -/
def shippedRecords : List Value :=
  [shippedWks 1 "b4:2e:99:2c:dd:52" "192.168.0.3" "PC003" "win10cc.qcow2" "lord.qcow2",
   shippedWks 2 "b4:2e:99:2c:dd:df" "192.168.0.4" "PC004" "win10cc.qcow2" "lord.qcow2",
   shippedWks 2 "b4:2e:99:2c:de:5c" "192.168.0.5" "PC005" "win10cc.qcow2" "lord.qcow2"]

def shippedTable : World := World.initial (shippedCfg ⟨"", "", ""⟩ shippedRecords) []

/-- A new machine is to get the third workstation's slot, and takes it when it is
saved. -/
theorem scan_ends_at_live : HasKeys 3 shippedTable.file.val ∧
    (∃ kvs, wksOf shippedTable.file.val = .table kvs ∧
      scanId (ipairs kvs) none = some (some 3)) ∧
    Live shippedTable.file.val (.num 3) ∧
    ((wksOf (exec (post (savedAs "3" "b4:2e:99:2c:dd:01" "192.168.0.9"))
      shippedTable).final.file.val).get
      (.num 3)).get "mac" = .str "b4:2e:99:2c:dd:01" := by
  refine ⟨⟨_, rfl, by decide +kernel⟩,
    ⟨_, rfl, by decide +kernel⟩, by decide +kernel, by decide +kernel⟩

theorem scanId_free_office : ∃ t : Int, (∃ kvs, wksOf office.file.val = .table kvs ∧
    scanId (ipairs kvs) none = some (some t)) ∧ 1 ≤ t ∧ t ≤ 3 ∧
      ¬ Live office.file.val (.num t) := by
  have hrow : ∀ k ∈ seqKeys 2, ∃ fs, (wksOf office.file.val).get k = .table fs := by
    intro k hk
    rcases List.mem_pair.1 hk with rfl | rfl <;> exact ⟨_, rfl⟩
  obtain ⟨t, hscan, h1, hn, hfree⟩ := (scanId_free_iff office_wellFormed.keys (by decide) hrow
    rfl).2 (Or.inr (by decide +kernel))
  exact ⟨t, ⟨_, rfl, hscan⟩, h1, hn, hfree⟩

/-! ## The address and the name -/

/-- The last octet of the proposed address: the last digit of the network's gives
way to the id. -/
def lastOctet (d k : Nat) : Nat :=
  if d < 10 then k else d / 10 * 10 ^ (Nat.toDigits 10 k).length + k

theorem replaceLastDigit_ofList (cs : List Char) {x : Char} (hx : x.isDigit) (t : String) :
    replaceLastDigit (String.ofList (cs ++ [x])) t = String.ofList (cs ++ t.toList) := by
  apply String.toList_injective
  simp [replaceLastDigit, hx]

theorem dotted_append (a b c d e : List Char) :
    dotted [a, b, c, d ++ e] = dotted [a, b, c, d] ++ e := by
  simp [dotted, List.intercalate, List.intersperse]

/-- The text that is proposed for the address. -/
theorem replaceLastDigit_text (net : Addr) (k : Nat) :
    replaceLastDigit net.text (toString k) = String.ofList (dotted [octetText net.a,
      octetText net.b, octetText net.c, Nat.toDigits 10 (lastOctet net.d.toNat k)]) := by
  have hlast {init : List Char} {j : Nat} (hj : j < 10)
      (htext : octetText net.d = init ++ [j.digitChar]) :
      replaceLastDigit net.text (toString k) = String.ofList (dotted [octetText net.a,
        octetText net.b, octetText net.c, init ++ Nat.toDigits 10 k]) := by
    have hdigit : j.digitChar.isDigit = true := by
      rw [Nat.isDigit_digitChar]
      exact decide_eq_true hj
    rw [Addr.text, htext, dotted_append, replaceLastDigit_ofList _ hdigit, dotted_append]
    simp
  unfold lastOctet
  by_cases hd : net.d.toNat < 10
  · rw [if_pos hd]
    have htext : octetText net.d = [] ++ [net.d.toNat.digitChar] := Nat.toDigits_of_lt_base hd
    exact hlast hd htext
  · rw [if_neg hd, ← toDigits_append (by omega)]
    exact hlast (by omega) (Nat.toDigits_of_base_le (by decide) (by omega))

/-- A setting that is left out or is used as text. -/
def IsText (v : Value) : Prop := v = .nil ∨ ∃ s, v.concat? = some s

theorem firstText?_isSome {a b : Value} (d : String) (ha : IsText a) (hb : IsText b) :
    ∃ s, firstText? a b d = some s := by
  unfold firstText?
  rcases ha with rfl | ⟨s, hs⟩
  · rcases hb with rfl | ⟨s, hs⟩
    · exact ⟨d, by simp⟩
    · by_cases hb : b = .nil
      · exact ⟨d, by simp [hb]⟩
      · exact ⟨s, by simp [hb, hs]⟩
  · by_cases ha : a = .nil
    · rw [ha] at hs
      cases hs
    · exact ⟨s, by simp [ha, hs]⟩

/-- The settings the proposal is made of, with a first subnet. -/
structure Configured (c : Value) (net mask srv : Addr) : Prop where
  sub : c.at? ["dhcp", "config", "sub", .num 1, "sub"] = some (.str net.text)
  mask : c.at? ["dhcp", "config", "sub", .num 1, "mask"] = some (.str mask.text)
  server : c.at? ["server", "ipv4"] = some (.str srv.text)
  opt : ∃ opt, c.at? ["dhcp", "config", "opt"] = some (.table opt) ∧
    IsText (lookup "domain-name-servers" opt) ∧ IsText (lookup "routers" opt) ∧
    IsText (lookup "domain-name" opt)
  dns : ∃ v, c.at? ["server", "dns1"] = some v ∧ IsText v
  gateway : ∃ v, c.at? ["server", "gateway"] = some v ∧ IsText v
  zfs : ∃ v, c.at? ["zfs", "devpoint"] = some v
  groups : ∃ v, c.at? ["groups", "wks"] = some v

section Proposal

variable {c : Value} {m : Nat} {net mask srv : Addr} (arp : String → String)

/-- The proposal is made for the candidate, and there is none without one. -/
theorem proposal_eq_some_iff (h : Rows m c) (hc : Configured c net mask srv) :
    ∃ gw dns dsearch, ∀ v, proposal arp c = some v ↔ ∃ k : Nat, Candidate c m k ∧ ∃ mac,
      mac = String.ofList ((arp (replaceLastDigit net.text (toString k))).toList.filter (· ≠ '\n'))
        ∧
      v = proposedWks k (replaceLastDigit net.text (toString k)) mac gw dns dsearch := by
  obtain ⟨kvs, hkvs⟩ := h.table
  obtain ⟨opt, hopt, hns, hrouters, hdomain⟩ := hc.opt
  obtain ⟨dns1, hdns1, htext1⟩ := hc.dns
  obtain ⟨gateway, hgateway, htext2⟩ := hc.gateway
  obtain ⟨zfs, hzfs⟩ := hc.zfs
  obtain ⟨groups, hgroups⟩ := hc.groups
  obtain ⟨dns, hdns⟩ := firstText?_isSome "127.0.0.1" hns htext1
  obtain ⟨gw, hgw⟩ := firstText?_isSome "127.0.0.1" hrouters htext2
  obtain ⟨dsearch, hdsearch⟩ := firstText?_isSome "nsboot.local" hdomain (Or.inl rfl)
  have hwks : c.at? ["wks"] = some (.table kvs) := by
    cases c with
    | table top => exact congrArg some hkvs
    | nil | bool | num | str => cases hkvs
  refine ⟨gw, dns, dsearch, fun v => ?_⟩
  have hread (f : Key) : (Value.table opt).at? [f] = some (lookup f opt) := rfl
  have hcand (t : Int) := scanId_eq_iff h hkvs (t := t)
  unfold proposal
  simp only [hwks, hopt, hread, hdns1, hdns, hgateway, hgw, hdsearch, hc.sub, hzfs, hgroups,
    Option.bind_eq_bind, Option.bind_some, Option.pure_def]
  constructor
  · intro hv
    simp only [Option.bind_eq_some_iff, Option.some.injEq] at hv
    obtain ⟨t, ht, id, rfl, ip, hip, rfl⟩ := hv
    obtain ⟨k, hk, rfl⟩ := (hcand _).1 ht
    cases hip
    exact ⟨k, hk, _, rfl, rfl⟩
  · rintro ⟨k, hk, mac, rfl, rfl⟩
    rw [(hcand k).2 ⟨k, hk, rfl⟩]
    rfl

theorem proposedWks_fields (k : Int) (ip mac gw dns dsearch : String) :
    (proposedWks k ip mac gw dns dsearch).get "ipv4" = .str ip ∧
    (proposedWks k ip mac gw dns dsearch).get "name" = .str ("PC00" ++ toString k) := by
  simp [proposedWks, lookup]

/-- The proposed record can be used as it is. -/
structure Usable (c : Value) (net mask srv : Addr) (v : Value) : Prop where
  addr : ∃ x, (v.get "ipv4").str?.bind Addr.of? = some x ∧ Addr.Within net mask x ∧ x ≠ net ∧
    x ≠ srv
  freeAddr : ∀ k, Live c k → ((wksOf c).get k).get "ipv4" ≠ v.get "ipv4"
  freeName : ∀ k, Live c k → ((wksOf c).get k).get "name" ≠ v.get "name"

/-- The network's address with `o` as its last octet is one for a workstation. -/
structure Fits (net mask srv : Addr) (o : Nat) : Prop where
  octet : o < 256
  within : UInt8.ofNat o &&& mask.d = net.d &&& mask.d
  network : o ≠ net.d.toNat
  server : { net with d := UInt8.ofNat o } ≠ srv

/-- No live record has that address, or the name made of the id. -/
def Unused (c : Value) (net : Addr) (k o : Nat) : Prop :=
  ∀ l, Live c l → ((wksOf c).get l).get "ipv4" ≠ .str { net with d := UInt8.ofNat o }.text ∧
    ((wksOf c).get l).get "name" ≠ .str ("PC00" ++ toString k)

theorem of?_proposed (net : Addr) (k : Nat) :
    Addr.of? (replaceLastDigit net.text (toString k)) =
      if lastOctet net.d.toNat k < 256
      then some { net with d := UInt8.ofNat (lastOctet net.d.toNat k) } else none := by
  rw [replaceLastDigit_text, Addr.of?_dotted]

/-- Only the last octet decides whether the address is in the subnet. -/
theorem within_iff (net mask : Addr) (o : Nat) :
    Addr.Within net mask { net with d := UInt8.ofNat o } ↔
      UInt8.ofNat o &&& mask.d = net.d &&& mask.d := by
  simp [Addr.Within]

theorem ne_network_iff (net : Addr) {o : Nat} (ho : o < 256) :
    { net with d := UInt8.ofNat o } ≠ net ↔ o ≠ net.d.toNat := by
  rw [not_iff_not, Addr.ext_iff]
  simp only [true_and]
  constructor
  · intro heq
    rw [← heq, UInt8.toNat_ofNat', Nat.mod_eq_of_lt ho]
  · rintro rfl
    exact UInt8.ofNat_toNat

/-- The proposal can be used exactly when the candidate's octet fits and nobody has
the address or the name made of it. -/
theorem usable_iff_fits (h : Rows m c) (hc : Configured c net mask srv) :
    (∃ v, proposal arp c = some v ∧ Usable c net mask srv v) ↔
      ∃ k, Candidate c m k ∧ Fits net mask srv (lastOctet net.d.toNat k) ∧
        Unused c net k (lastOctet net.d.toNat k) := by
  obtain ⟨gw, dns, dsearch, hprop⟩ := proposal_eq_some_iff arp h hc
  constructor
  · rintro ⟨v, hv, husable⟩
    obtain ⟨k, hk, mac, -, rfl⟩ := (hprop v).1 hv
    obtain ⟨⟨x, hx, hwithin, hnet, hsrv⟩, haddr, hname⟩ := husable
    rw [(proposedWks_fields ..).1] at hx haddr
    rw [(proposedWks_fields ..).2] at hname
    rw [Value.str?, Option.bind_some] at hx
    have htext := Addr.of?_eq_some_iff.1 hx
    rw [of?_proposed] at hx
    split at hx
    · next ho =>
      cases hx
      refine ⟨k, hk, ⟨ho, (within_iff net mask _).1 hwithin, (ne_network_iff net ho).1 hnet, hsrv⟩,
        ?_⟩
      intro l hl
      refine ⟨?_, hname l hl⟩
      rw [← htext]
      exact haddr l hl
    · cases hx
  · rintro ⟨k, hk, hfits, hunused⟩
    have hx : Addr.of? (replaceLastDigit net.text (toString k)) =
        some { net with d := UInt8.ofNat (lastOctet net.d.toNat k) } := by
      rw [of?_proposed, if_pos hfits.octet]
    refine ⟨_, (hprop _).2 ⟨k, hk, _, rfl, rfl⟩, ?_, ?_, ?_⟩
    · rw [(proposedWks_fields ..).1, Value.str?, Option.bind_some]
      exact ⟨_, hx, (within_iff net mask _).2 hfits.within,
        (ne_network_iff net hfits.octet).2 hfits.network, hfits.server⟩
    · intro l hl
      rw [(proposedWks_fields ..).1, Addr.of?_eq_some_iff.1 hx]
      exact (hunused l hl).1
    · intro l hl
      rw [(proposedWks_fields ..).2]
      exact (hunused l hl).2

/-! The last octet in numbers: the network's last digit gives way to an id of one
digit, and an id of more digits fits only behind a network octet of one digit. -/

/-- The last octet of a subnet: `b` host bits, none of them set in the network's. -/
structure HostBits (net mask : Addr) (b : Nat) : Prop where
  bits : b ≤ 8
  mask : mask.d.toNat = 256 - 2 ^ b
  aligned : 2 ^ b ∣ net.d.toNat

theorem and_mask {b x : Nat} (hb : b ≤ 8) (hx : x < 256) : x &&& (256 - 2 ^ b) =
    x / 2 ^ b * 2 ^ b := by
  have hall : ∀ b ≤ 8, ∀ x < 256, x &&& (256 - 2 ^ b) = x / 2 ^ b * 2 ^ b := by decide +kernel
  exact hall b hb x hx

/-- The octets of a subnet are the `2 ^ b` ones from the network's on. -/
theorem HostBits.within_iff {b o : Nat} (hsub : HostBits net mask b) (ho : o < 256) :
    UInt8.ofNat o &&& mask.d = net.d &&& mask.d ↔
      net.d.toNat ≤ o ∧ o < net.d.toNat + 2 ^ b := by
  obtain ⟨q, hq⟩ := hsub.aligned
  have hpos : 0 < 2 ^ b := Nat.two_pow_pos b
  rw [← UInt8.toNat_inj, UInt8.toNat_and, UInt8.toNat_and, hsub.mask, UInt8.toNat_ofNat',
    Nat.mod_eq_of_lt ho, and_mask hsub.bits ho, and_mask hsub.bits net.d.toNat_lt, hq,
    Nat.mul_div_cancel_left q hpos, Nat.mul_comm q, Nat.mul_comm (o / 2 ^ b),
    Nat.mul_right_inj hpos.ne', Nat.div_eq_iff hpos]
  rw [Nat.mul_comm q]
  omega

/-- A subnet ends within the octet. -/
theorem HostBits.add_le {b : Nat} (hsub : HostBits net mask b) : net.d.toNat + 2 ^ b ≤ 256 := by
  obtain ⟨q, hq⟩ := hsub.aligned
  have hlt := net.d.toNat_lt
  have hsplit : 2 ^ b * 2 ^ (8 - b) = 256 := by
    rw [← Nat.pow_add, Nat.add_sub_cancel' hsub.bits]
  have hlt' : 2 ^ b * q < 2 ^ b * 2 ^ (8 - b) := by omega
  have hq' : q + 1 ≤ 2 ^ (8 - b) := Nat.lt_of_mul_lt_mul_left hlt'
  calc net.d.toNat + 2 ^ b = 2 ^ b * (q + 1) := by rw [hq, Nat.mul_succ]
    _ ≤ 2 ^ b * 2 ^ (8 - b) := Nat.mul_le_mul_left _ hq'
    _ = 256 := hsplit

theorem lastOctet_of_short {d k : Nat} (h : d < 10 ∨ k < 10) :
    lastOctet d k = d - d % 10 + k := by
  unfold lastOctet
  split
  · omega
  · next hd =>
    rw [Nat.toDigits_of_lt_base (h.resolve_left hd), List.length_singleton]
    omega

/-- An id of two digits behind a network octet of two digits is a hundred times too
much. -/
theorem le_lastOctet {d k : Nat} (hd : 10 ≤ d) (hk : 10 ≤ k) : 2 * d ≤ lastOctet d k := by
  have hlen : 2 ≤ (Nat.toDigits 10 k).length := by
    rw [Nat.toDigits_of_base_le (by decide) hk, List.length_append, List.length_singleton]
    have := List.length_pos_iff.2 (Nat.toDigits_ne_nil (n := k / 10) (b := 10))
    omega
  have hpow : 10 ^ 2 ≤ 10 ^ (Nat.toDigits 10 k).length := Nat.pow_le_pow_right (by decide) hlen
  have hmul := Nat.mul_le_mul_left (d / 10) hpow
  rw [lastOctet, if_neg (by omega)]
  omega

/-- The network's last octet has room for the id `k`: one of the two has one digit,
and `k` is one of the `2 ^ b - 1` numbers after the network's last digit. -/
def Room (net : Addr) (b k : Nat) : Prop :=
  (net.d.toNat < 10 ∨ k < 10) ∧ net.d.toNat % 10 < k ∧ k < net.d.toNat % 10 + 2 ^ b

/-- An address of the network whose last octet is `k` beyond the network's last
digit. -/
def Clashes (net : Addr) (k : Nat) (x : Addr) : Prop :=
  (x.a = net.a ∧ x.b = net.b ∧ x.c = net.c) ∧
    x.d.toNat + net.d.toNat % 10 = net.d.toNat + k

instance (net : Addr) (k : Nat) (x : Addr) : Decidable (Clashes net k x) :=
  inferInstanceAs (Decidable (_ ∧ _))

theorem HostBits.room_iff {b k : Nat} (hsub : HostBits net mask b) :
    (lastOctet net.d.toNat k < 256 ∧
      UInt8.ofNat (lastOctet net.d.toNat k) &&& mask.d = net.d &&& mask.d ∧
      lastOctet net.d.toNat k ≠ net.d.toNat) ↔ Room net b k := by
  have hend := hsub.add_le
  unfold Room
  by_cases hshort : net.d.toNat < 10 ∨ k < 10
  · have ho := lastOctet_of_short hshort
    have hmod := Nat.mod_le net.d.toNat 10
    constructor
    · rintro ⟨hlt, hwithin, hne⟩
      have hin := (hsub.within_iff hlt).1 hwithin
      exact ⟨hshort, by omega, by omega⟩
    · rintro ⟨-, hlow, hhigh⟩
      have hlt : lastOctet net.d.toNat k < 256 := by omega
      exact ⟨hlt, (hsub.within_iff hlt).2 (by omega), by omega⟩
  · -- The subnet is no longer than its first octet, so the long id leaves it.
    have hle := le_lastOctet (d := net.d.toNat) (k := k) (by omega) (by omega)
    have hsize : 2 ^ b ≤ net.d.toNat := Nat.le_of_dvd (by omega) hsub.aligned
    constructor
    · rintro ⟨hlt, hwithin, -⟩
      have hin := (hsub.within_iff hlt).1 hwithin
      omega
    · rintro ⟨h, -⟩
      exact absurd h hshort

theorem clashes_iff {b k : Nat} (hsub : HostBits net mask b) (hroom : Room net b k) (x : Addr) :
    x = { net with d := UInt8.ofNat (lastOctet net.d.toNat k) } ↔ Clashes net k x := by
  have hlt := (hsub.room_iff.2 hroom).1
  have ho := lastOctet_of_short hroom.1
  have hmod := Nat.mod_le net.d.toNat 10
  rw [Addr.ext_iff]
  simp only [Clashes, ← UInt8.toNat_inj (a := x.d), UInt8.toNat_ofNat', Nat.mod_eq_of_lt hlt,
    and_assoc]
  refine and_congr_right fun _ => and_congr_right fun _ => and_congr_right fun _ => ?_
  omega

/-- **When the proposal can be used**: the row in question is the first tombstone or
else the one after the last row that has its key as its `tid`; the network's last
octet has room for its number `k`; and neither the server's address nor a live
record's is `k` beyond the network's last digit, nor is a live record called `PC00k`. -/
theorem proposal_usable_iff {b : Nat} (h : Rows m c) (hc : Configured c net mask srv)
    (hsub : HostBits net mask b) :
    (∃ v, proposal arp c = some v ∧ Usable c net mask srv v) ↔
      ∃ k, Candidate c m k ∧ Room net b k ∧ ¬ Clashes net k srv ∧
        ∀ l, Live c l →
          (∀ x : Addr, ((wksOf c).get l).get "ipv4" = .str x.text → ¬ Clashes net k x) ∧
          ((wksOf c).get l).get "name" ≠ .str ("PC00" ++ toString k) := by
  rw [usable_iff_fits arp h hc]
  refine exists_congr fun k => and_congr_right fun _ => ?_
  constructor
  · rintro ⟨⟨hlt, hwithin, hnet, hsrv⟩, hunused⟩
    have hroom := hsub.room_iff.1 ⟨hlt, hwithin, hnet⟩
    refine ⟨hroom, fun hclash => hsrv ((clashes_iff hsub hroom srv).2 hclash).symm, ?_⟩
    intro l hl
    refine ⟨fun x hx hclash => (hunused l hl).1 ?_, (hunused l hl).2⟩
    rw [hx, (clashes_iff hsub hroom x).2 hclash]
  · rintro ⟨hroom, hsrv, hrec⟩
    obtain ⟨hlt, hwithin, hnet⟩ := hsub.room_iff.2 hroom
    refine ⟨⟨hlt, hwithin, hnet, fun heq => hsrv ((clashes_iff hsub hroom srv).1 heq.symm)⟩, ?_⟩
    intro l hl
    exact ⟨fun heq => (hrec l hl).1 _ heq ((clashes_iff hsub hroom _).1 rfl), (hrec l hl).2⟩

end Proposal

/-- The shipped settings, whatever the workstations are. -/
theorem shipped_configured (texts : Texts) (wks : List Value) :
    Configured (shippedCfg texts wks) ⟨192, 168, 0, 0⟩ ⟨255, 255, 255, 0⟩ ⟨192, 168, 0, 2⟩ := by
  have htext (s : String) : IsText (.str s) := Or.inr ⟨s, rfl⟩
  have hnet : Addr.text ⟨192, 168, 0, 0⟩ = "192.168.0.0" := by decide
  have hmask : Addr.text ⟨255, 255, 255, 0⟩ = "255.255.255.0" := by decide
  have hsrv : Addr.text ⟨192, 168, 0, 2⟩ = "192.168.0.2" := by decide
  constructor <;>
    simp [shippedCfg, Value.at?, lookup, array, hnet, hmask, hsrv, htext]

/-- With the shipped workstations the first one's address and name are proposed;
with one workstation, the server's address. -/
theorem proposal_taken :
    (∃ v, proposal (fun _ => "") (shippedCfg ⟨"", "", ""⟩ shippedRecords) = some v ∧
      Live (shippedCfg ⟨"", "", ""⟩ shippedRecords) (.num 1) ∧
      ((wksOf (shippedCfg ⟨"", "", ""⟩ shippedRecords)).get (.num 1)).get "ipv4" = v.get "ipv4" ∧
      ((wksOf (shippedCfg ⟨"", "", ""⟩ shippedRecords)).get (.num 1)).get "name" = v.get "name") ∧
    ∃ v, proposal (fun _ => "") (shippedCfg ⟨"", "", ""⟩ (shippedRecords.take 1)) = some v ∧
      v.get "ipv4" = .str "192.168.0.2" :=
  ⟨⟨proposedWks 3 "192.168.0.3" "" "192.168.0.210" "8.8.8.8" "nsboot.local", by decide +kernel⟩,
    ⟨proposedWks 2 "192.168.0.2" "" "192.168.0.210" "8.8.8.8" "nsboot.local", by decide +kernel⟩⟩

/-- Two workstations whose addresses are not the next ids. -/
def roomyCfg : Value :=
  shippedCfg ⟨"", "", ""⟩
    [shippedWks 1 "b4:2e:99:2c:dd:52" "192.168.0.21" "PC001" "win10cc.qcow2" "lord.qcow2",
     shippedWks 2 "b4:2e:99:2c:dd:df" "192.168.0.22" "PC002" "win10cc.qcow2" "lord.qcow2"]

theorem proposal_usable_roomy : ∃ v, proposal (fun _ => "") roomyCfg = some v ∧
    Usable roomyCfg ⟨192, 168, 0, 0⟩ ⟨255, 255, 255, 0⟩ ⟨192, 168, 0, 2⟩ v := by
  have hkeys : ∀ l, Live roomyCfg l → l = .num 1 ∨ l = .num 2 := by
    intro l hl
    have hmem := (show HasKeys 2 roomyCfg from ⟨_, rfl, by decide⟩).mem_of_get hl.1
    exact List.mem_pair.1 hmem
  have hrows : Rows 2 roomyCfg := by
    refine ⟨⟨_, rfl⟩, fun k h1 hm => ?_, rfl⟩
    obtain rfl | rfl : k = 1 ∨ k = 2 := by omega
    · exact ⟨_, rfl⟩
    · exact ⟨_, rfl⟩
  have hsub : HostBits ⟨192, 168, 0, 0⟩ ⟨255, 255, 255, 0⟩ 8 := ⟨le_rfl, by decide, by decide⟩
  refine (proposal_usable_iff _ hrows (shipped_configured _ _) hsub).2 ⟨3, .next (j := 2)
    (by decide) le_rfl ?_ (by decide +kernel) (fun i hi hm => absurd hi (by omega)), ?_, ?_, ?_⟩
  · intro i h1 hm
    obtain rfl | rfl : i = 1 ∨ i = 2 := by omega
    · decide +kernel
    · decide +kernel
  · exact ⟨by decide, by decide, by decide⟩
  · decide
  · have hfar (s : String) (y : Addr) (hy : Addr.of? s = some y)
        (hne : ¬ Clashes ⟨192, 168, 0, 0⟩ 3 y) (x : Addr)
        (hx : Value.str s = .str x.text) : ¬ Clashes ⟨192, 168, 0, 0⟩ 3 x := by
      injection hx with htext
      rw [Addr.of?_eq_some_iff.2 htext, Option.some.injEq] at hy
      rwa [hy]
    intro l hl
    rcases hkeys l hl with rfl | rfl
    · exact ⟨hfar "192.168.0.21" ⟨192, 168, 0, 21⟩ (by decide) (by decide), by decide +kernel⟩
    · exact ⟨hfar "192.168.0.22" ⟨192, 168, 0, 22⟩ (by decide) (by decide), by decide +kernel⟩

end NsBoot
