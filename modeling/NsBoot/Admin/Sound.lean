import NsBoot.Admin.Keep
import NsBoot.Lib.Trace

/-!
# NsBoot.Admin.Sound — the super-mode handlers come to their end

A handler stops with an error when it meets a value of the wrong type on its way. A
configuration is `Sound` when it has the settings the handlers read, and texts in the
fields they join to names; then each handler returns:

* `freeByIPv4_runs`: `tgtstop` and `nbdFree` of the workstation with an address;
* `commitSlots_runs`: the loop of `disableCommit`, with the commits it starts;
* `clearFlags_exists`, `setFlags_exists`: the flags, for a record with three slots.
-/

namespace NsBoot

open Lua Prog Relation

/-- The fields that `tgtstop` and `nbdFree` use as texts. -/
structure Readable (r : Wks) : Prop where
  tid : r.tid.concat?.isSome
  paths : ∀ v ∈ r.img, v.path.concat?.isSome

instance : DecidablePred Readable := fun r =>
  decidable_of_iff (r.tid.concat?.isSome ∧ ∀ v ∈ r.img, v.path.concat?.isSome)
    ⟨fun h => ⟨h.1, h.2⟩, fun h => ⟨h.tid, h.paths⟩⟩

/-- An entry of the table: a record that can be read if it has an address. -/
structure Entry (v : Value) : Prop where
  table : ∃ kvs, v = .table kvs
  addressed : v.get "ipv4" ≠ .nil → ∃ r, coreOf v = some r ∧ Readable r

theorem readable_core {r : Wks} : Readable r.core ↔ Readable r := by
  constructor
  · intro h
    refine ⟨h.tid, ?_⟩
    intro v hv
    exact h.paths v.core (List.mem_map_of_mem hv)
  · intro h
    refine ⟨h.tid, ?_⟩
    intro v hv
    rcases List.mem_map.1 hv with ⟨u, hu, rfl⟩
    exact h.paths u hu

/-- A configuration the handlers can work on. -/
structure Sound (N : Nat) (c : Value) : Prop where
  keys : HasKeys N c
  conf : checkconf c = some true
  back : (Server.back? c).isSome
  entries : ∀ k ∈ seqKeys N, Entry ((wksOf c).get k)

/-! ## Edits keep it -/

theorem FlagStep.entry {x : String} {v v' : Value} (h : FlagStep x v v') (hv : Entry v) :
    Entry v' := by
  constructor
  · cases h with
    | supper h | commit i h =>
      rcases Value.assign?_cons h with ⟨kvs, u, -, -, hv'⟩
      exact ⟨_, hv'⟩
  · rw [h.get_ne (by decide) (by decide), h.core]
    exact hv.addressed

theorem NbdStep.entry {v v' : Value} (h : NbdStep v v') (hv : Entry v) : Entry v' := by
  constructor
  · rcases h with ⟨i, x, -, h⟩
    rcases Value.assign?_cons h with ⟨kvs, u, -, -, hv'⟩
    exact ⟨_, hv'⟩
  · rw [h.get_ne (by decide), h.core]
    exact hv.addressed

theorem Sound.puts {N : Nat} {S : Value → Value → Prop} (hS : ∀ v v', S v v' → Entry v → Entry v')
    (hne : ∀ v v', S v v' → v ≠ .nil) {k : Key} {c c' : Value} (hc : Sound N c)
    (h : Puts S k c c') : Sound N c' := by
  refine ⟨h.hasKeys hc.keys hne, ?_, ?_, ?_⟩
  · rw [h.sameSettings.checkconf, hc.conf]
  · rw [h.sameSettings.back]
    exact hc.back
  · intro l hl
    by_cases hlk : l = k
    · subst hlk
      rcases h with ⟨v, hv, -, hput⟩
      rw [hput.get_self]
      clear hput
      induction hv with
      | refl => exact hc.entries l hl
      | tail _ hstep ih => exact hS _ _ hstep ih
    · rw [h.get_ne hlk]
      exact hc.entries l hl

theorem Sound.reload {N : Nat} {c : Value} (hc : Sound N c) (hmem : InMemory c) :
    Sound N c.reload := by
  refine ⟨hc.keys.reload hmem, ?_, ?_, ?_⟩
  · rw [hmem.sameSettings_reload.checkconf, hc.conf]
  · rw [hmem.sameSettings_reload.back]
    exact hc.back
  · intro k hk
    have htame := hmem.records k
    rcases hc.entries k hk with ⟨⟨kvs, hkvs⟩, haddr⟩
    rw [hc.keys.get_reload hmem]
    constructor
    · rw [hkvs]
      exact ⟨_, rfl⟩
    · rw [htame.get_reload rfl (by decide), htame.core_reload]
      exact haddr

/-! ## Assignments that succeed -/

/-- The record under a key. -/
structure Reads (c : Value) (k : Key) (r : Wks) : Prop where
  wks : ∃ kvs, wksOf c = .table kvs
  record : Wks.of? ((wksOf c).get k) = some r

theorem Put.reads {k : Key} {v c c' : Value} {r : Wks} (h : Put k v c c')
    (hv : Wks.of? v = some r) :
    Reads c' k r := by
  rcases h.wks with ⟨kvs, -, hwks⟩
  exact ⟨⟨_, hwks⟩, by rw [h.get_self, hv]⟩

theorem Wks.table_of {v : Value} {r : Wks} (h : Wks.of? v = some r) :
    ∃ kvs ikvs, v = .table kvs ∧ lookup "img" kvs = .table ikvs ∧ isSeq ikvs ∧
      r.img.length = ikvs.length ∧
      ∀ i < r.img.length, r.img[i]? = Img.of? (lookup (.num ((i : Int) + 1)) ikvs) := by
  simp only [Wks.of?, Option.bind_eq_bind, Option.bind_eq_some_iff, Option.pure_def,
    Option.some.injEq] at h
  rcases h with ⟨m, -, mac, -, img, himg, rfl⟩
  rcases readArray?_eq_some_iff.1 himg with ⟨ikvs, hi, hseq, hlen, hget⟩
  cases v with
  | table kvs => exact ⟨kvs, ikvs, rfl, hi, hseq, hlen, hget⟩
  | nil | bool | num | str => simp [Value.get] at hi

theorem Wks.supper_of {v : Value} {r : Wks} (h : Wks.of? v = some r) :
    r.supper = v.get "supper" := by
  simp only [Wks.of?, Option.bind_eq_bind, Option.bind_eq_some_iff, Option.pure_def,
    Option.some.injEq] at h
  rcases h with ⟨m, -, mac, -, img, -, rfl⟩
  rfl

theorem Img.table_of {u : Value} {v : Img} (h : Img.of? u = some v) : ∃ kvs, u = .table kvs := by
  cases u with
  | table kvs => exact ⟨kvs, rfl⟩
  | nil | bool | num | str => cases h

section Assign

variable {c : Value} {k : Key} {r : Wks} (hr : Reads c k r)

include hr

theorem Reads.tables : ∃ top wkvs kvs, c = .table top ∧ lookup "wks" top = .table wkvs ∧
    lookup k wkvs = .table kvs ∧ Wks.of? (.table kvs) = some r := by
  rcases hr.wks with ⟨wkvs, hwks⟩
  have hrec := hr.record
  rcases Wks.table_of hrec with ⟨kvs, -, hkvs, -⟩
  rw [hkvs] at hrec
  rw [hwks, Value.get_table] at hkvs
  cases c with
  | table top => exact ⟨top, wkvs, kvs, rfl, hwks, hkvs, hrec⟩
  | nil | bool | num | str => simp [wksOf, Value.get] at hwks

/-- An assignment inside the record. -/
theorem Reads.assign {q : List Key} {x v' : Value} (hq : ((wksOf c).get k).assign? q x = some v') :
    ∃ c', c.assign? (.str "wks" :: k :: q) x = some c' ∧ Put k v' c c' := by
  rcases hr.tables with ⟨top, wkvs, kvs, rfl, hwks, hkvs, -⟩
  have hget : (wksOf (.table top)).get k = .table kvs := by
    rw [wksOf, Value.get_table, hwks, Value.get_table, hkvs]
  rw [hget] at hq
  have hput : ∃ c', Put k v' (.table top) c' := by
    simp only [Put, Value.assign?, hwks, Option.map_some]
    exact ⟨_, rfl⟩
  rcases hput with ⟨c', hput⟩
  refine ⟨c', Value.assign?_of_append (p := [.str "wks", k]) ?_ hq hput, hput⟩
  simp only [Value.at?, hwks, hkvs]

theorem Reads.assign_supper (x : Value) :
    ∃ c', c.assign? ["wks", k, "supper"] x = some c' ∧ Reads c' k { r with supper := x } := by
  rcases Wks.table_of hr.record with ⟨kvs, -, hkvs, -⟩
  have hassign : ((wksOf c).get k).assign? ["supper"] x = some (.table (store "supper" x kvs)) := by
    rw [hkvs]
    rfl
  rcases hr.assign hassign with ⟨c', hc', hput⟩
  refine ⟨c', hc', hput.reads ?_⟩
  rw [Wks.of?_assign_supper hassign, hr.record, Option.map_some]

theorem Reads.assign_slot {i : Nat} (hi : i < r.img.length) {f : String} {x : Value} {g : Img → Img}
    (hg : ∀ u u', u.assign? [.str f] x = some u' → Img.of? u' = (Img.of? u).map g) :
    ∃ c', c.assign? ["wks", k, "img", .num ((i : Int) + 1), .str f] x = some c' ∧
      Reads c' k { r with img := r.img.modify i g } := by
  rcases Wks.table_of hr.record with ⟨kvs, ikvs, hkvs, himg, -, -, hget⟩
  have hslot := hget i hi
  rw [List.getElem?_eq_getElem hi] at hslot
  rcases Img.table_of hslot.symm with ⟨skvs, hskvs⟩
  have hassign : ∃ v', ((wksOf c).get k).assign? ["img", .num ((i : Int) + 1), .str f] x =
      some v' := by
    rw [hkvs]
    simp only [Value.assign?, himg, hskvs, Option.map_some]
    exact ⟨_, rfl⟩
  rcases hassign with ⟨v', hv'⟩
  rcases hr.assign hv' with ⟨c', hc', hput⟩
  refine ⟨c', hc', hput.reads ?_⟩
  rw [Wks.of?_assign_slot hv' hg, hr.record, Option.map_some]
  simp

end Assign

/-! ## Flags and devices -/

/-- `v.nbd` of slots that are there. -/
theorem setNbds_exists {k : Key} {r : Wks} {nbds : List Value} (hlen : nbds.length ≤ r.img.length)
    {c : Value} (hr : Reads c k r) : ∃ c', setNbds k nbds c = some c' ∧ Reads c' k r := by
  have hloop : ∀ vis : List (Value × Nat), (∀ vi ∈ vis, 1 ≤ vi.2 ∧ vi.2 ≤ r.img.length) → ∀ c,
      Reads c k r → ∃ c', vis.foldlM
        (fun c vi => c.assign? ["wks", k, "img", .num (vi.2 : Int), "nbd"] vi.1) c = some c' ∧
        Reads c' k r := by
    intro vis
    induction vis with
    | nil => exact fun _ c hr => ⟨c, rfl, hr⟩
    | cons vi vis ih =>
      intro hvis c hr
      have hvi := hvis vi List.mem_cons_self
      have hi : vi.2 - 1 < r.img.length := by omega
      rcases hr.assign_slot hi (x := vi.1) fun _ _ => Img.of?_assign_nbd with ⟨c₁, hc₁, hr₁⟩
      have hnum : ((vi.2 - 1 : Nat) : Int) + 1 = (vi.2 : Int) := by omega
      rw [hnum] at hc₁
      rw [List.modify_id] at hr₁
      rcases ih (fun vj hvj => hvis vj (List.mem_cons_of_mem _ hvj)) c₁ hr₁ with ⟨c', hc', hr'⟩
      refine ⟨c', ?_, hr'⟩
      rw [List.foldlM_cons, hc₁]
      exact hc'
  refine hloop _ ?_ c hr
  intro vi hvi
  rcases List.mem_zipIdx_iff_le_and_getElem?_sub.1 hvi with ⟨hle, hget⟩
  have hlt := (List.getElem?_eq_some_iff.1 hget).1
  omega

/-- The flag of slot `i` (from 0). -/
def Wks.setCommit (r : Wks) (x : Value) (i : Nat) : Wks :=
  { r with img := r.img.modify i fun v => { v with commit := x } }

/-- The flags of several slots. -/
def Wks.setCommits (r : Wks) (x : Value) (is : List Nat) : Wks :=
  is.foldl (fun r i => r.setCommit x i) r

theorem getElem?_setCommits (r : Wks) (x : Value) (is : List Nat) (j : Nat) :
    (r.setCommits x is).img[j]? =
      (r.img[j]?).map fun v => if j ∈ is then { v with commit := x } else v := by
  induction is generalizing r with
  | nil => simp [Wks.setCommits]
  | cons i is ih =>
    have hcons : r.setCommits x (i :: is) = (r.setCommit x i).setCommits x is := rfl
    rw [hcons, ih, Wks.setCommit, List.getElem?_modify]
    cases r.img[j]? with
    | none => rfl
    | some v =>
      by_cases hj : j ∈ is
      · by_cases hij : i = j <;> simp [hj, hij]
      · by_cases hij : i = j
        · simp [hij]
        · simp [hj, hij, Ne.symm hij]

theorem setCommits_rest (r : Wks) (x : Value) (is : List Nat) :
    (r.setCommits x is).supper = r.supper ∧ (r.setCommits x is).img.length = r.img.length := by
  induction is generalizing r with
  | nil => exact ⟨rfl, rfl⟩
  | cons i is ih =>
    have hcons : r.setCommits x (i :: is) = (r.setCommit x i).setCommits x is := rfl
    rw [hcons, (ih _).1, (ih _).2]
    exact ⟨rfl, List.length_modify _ _ _⟩

/-- The record after its flags were cleared. -/
def Wks.cleared (r : Wks) : Wks := { r with supper := .str "0" }.setCommits (.str "0") [0, 1, 2]

theorem setCommits_exists {n : Int} {x : Value} {is : List Nat} {c : Value} {r : Wks}
    (hr : Reads c (.num n) r) (his : ∀ i ∈ is, i < r.img.length) :
    ∃ c', is.foldlM (fun c (i : Nat) => setCommit n ((i : Int) + 1) x c) c = some c' ∧
      Reads c' (.num n) (r.setCommits x is) := by
  induction is generalizing c r with
  | nil => exact ⟨c, rfl, hr⟩
  | cons i is ih =>
    rcases hr.assign_slot (his i List.mem_cons_self) fun _ _ => Img.of?_assign_commit (x := x)
      with ⟨c₁, hc₁, hr₁⟩
    have hrest : ∀ j ∈ is, j < (r.setCommit x i).img.length := by
      intro j hj
      rw [Wks.setCommit, List.length_modify]
      exact his j (List.mem_cons_of_mem _ hj)
    rcases ih hr₁ hrest with ⟨c', hc', hr'⟩
    refine ⟨c', ?_, hr'⟩
    rw [List.foldlM_cons, setCommit, hc₁]
    exact hc'

/-- Clearing the flags of a record with at least three slots. -/
theorem clearFlags_exists {n : Int} {c : Value} {r : Wks} (hr : Reads c (.num n) r)
    (hlen : 3 ≤ r.img.length) : ∃ c', clearFlags n c = some c' ∧
      Reads c' (.num n) r.cleared := by
  rcases hr.assign_supper (.str "0") with ⟨c₁, hc₁, hr₁⟩
  have hslots : ∀ i ∈ [0, 1, 2], i < r.img.length := by
    intro i hi
    simp only [List.mem_cons, List.not_mem_nil, or_false] at hi
    omega
  rcases setCommits_exists (x := .str "0") hr₁ hslots with ⟨c', hc', hr'⟩
  refine ⟨c', ?_, hr'⟩
  rw [clearFlags, setSupper, hc₁]
  exact hc'

/-- Only a slot that is there gets a flag. -/
theorem setCommit_lt {n : Int} {i : Nat} {x c c' : Value} {r : Wks} (hr : Reads c (.num n) r)
    (h : setCommit n ((i : Int) + 1) x c = some c') : i < r.img.length := by
  rcases hr.tables with ⟨top, wkvs, kvs, rfl, hwks, hkvs, hrec⟩
  rcases Wks.table_of hrec with ⟨_, ikvs, hk, himg, hseq, hlen, -⟩
  cases hk
  rcases Value.assign?_append (p := ["wks", .num n, "img", .num ((i : Int) + 1)]) h
    with ⟨u, u', hu, hassign, -⟩
  rcases Value.assign?_cons hassign with ⟨skvs, -, rfl, -, -⟩
  have hlook : lookup (.num ((i : Int) + 1)) ikvs = .table skvs := by
    simpa only [Value.at?, hwks, hkvs, himg, Option.some.injEq] using hu
  have hmem : Key.num ((i : Int) + 1) ∈ keys ikvs := by
    by_contra hnot
    rw [lookup_eq_nil_of_notMem hnot] at hlook
    cases hlook
  have hbound := (mem_keys_of_isSeq hseq).1 hmem
  omega

theorem setCommits_lt {n : Int} {x : Value} {is : List Nat} {c c' : Value} {r : Wks}
    (hr : Reads c (.num n) r)
    (h : is.foldlM (fun c (i : Nat) => setCommit n ((i : Int) + 1) x c) c = some c') :
    ∀ i ∈ is, i < r.img.length := by
  induction is generalizing c r with
  | nil => simp
  | cons i is ih =>
    rw [List.foldlM_cons, Option.bind_eq_bind, Option.bind_eq_some_iff] at h
    rcases h with ⟨c₁, hc₁, h⟩
    have hi := setCommit_lt hr hc₁
    rcases hr.assign_slot hi fun _ _ => Img.of?_assign_commit (x := x) with ⟨c₂, hc₂, hr₂⟩
    rw [setCommit, hc₂] at hc₁
    cases hc₁
    intro j hj
    rcases List.mem_cons.1 hj with rfl | hj
    · exact hi
    · have hlt := ih hr₂ h j hj
      rwa [List.length_modify] at hlt

/-- Clearing the flags of a record with fewer than three slots is an error. -/
theorem clearFlags_length {n : Int} {c c' : Value} {r : Wks} (hr : Reads c (.num n) r)
    (h : clearFlags n c = some c') : 3 ≤ r.img.length := by
  rcases hr.assign_supper (.str "0") with ⟨c₁, hc₁, hr₁⟩
  rw [clearFlags, setSupper, hc₁] at h
  have hloop : [0, 1, 2].foldlM (fun c (i : Nat) => setCommit n ((i : Int) + 1) (.str "0") c) c₁ =
      some c' := h
  exact setCommits_lt hr₁ hloop 2 (by simp)

/-- The slots that a posted list names, from 0. -/
def slotsIn? (us : List (Int × Value)) : Option (List Nat) :=
  us.mapM fun u => (u.2.tonumber).bind fun i => if 1 ≤ i then some (i - 1).toNat else none

/-- Choosing slots that are there. -/
theorem setFlags_exists {n : Int} {c : Value} {r : Wks} (hr : Reads c (.num n) r) {d : Json}
    {us : List (Key × Value)} (hd : d.val = .table us) {is : List Nat}
    (his : slotsIn? (ipairs us) = some is) (hlen : ∀ i ∈ is, i < r.img.length) :
    ∃ c', setFlags n (some d) c = some c' ∧
      Reads c' (.num n) { r.setCommits (.str "1") is with supper := .str "1" } := by
  have hloop : ∀ (us : List (Int × Value)) (is : List Nat) (c : Value), slotsIn? us = some is →
      us.foldlM (fun c u => do setCommit n (← u.2.tonumber) (.str "1") c) c =
        is.foldlM (fun c (i : Nat) => setCommit n ((i : Int) + 1) (.str "1") c) c := by
    intro us
    induction us with
    | nil =>
      intro is c h
      cases h
      rfl
    | cons u us ih =>
      intro is c h
      simp only [slotsIn?, List.mapM_cons, Option.bind_eq_bind, Option.bind_eq_some_iff,
        Option.pure_def, Option.some.injEq] at h
      rcases h with ⟨i, ⟨m, hm, hif⟩, js, hjs, rfl⟩
      split at hif
      · next hle =>
        cases hif
        have hnum : ((m - 1).toNat : Int) + 1 = m := by omega
        rw [List.foldlM_cons, List.foldlM_cons, hm, hnum]
        exact congrArg (Option.bind (setCommit n m (.str "1") c)) (funext fun c₁ => ih js c₁ hjs)
      · cases hif
  rcases setCommits_exists (x := .str "1") hr hlen with ⟨c₁, hc₁, hr₁⟩
  rcases hr₁.assign_supper (.str "1") with ⟨c', hc', hr'⟩
  refine ⟨c', ?_, hr'⟩
  simp only [setFlags, Option.bind_eq_bind, Option.bind_some, hd]
  have hfold := hloop (ipairs us) is c his
  simp only [Option.bind_eq_bind] at hfold
  rw [hfold, hc₁, Option.bind_some, setSupper, hc']

/-! ## Targets and devices -/

section Stop

variable {s : Server} {r : Wks}

theorem tgtstop_total (h : r.tid.concat?.isSome) (w : World) :
    Ends (fun _ => False) (fun _ _ => True) (tgtstop s r) w := by
  rcases Option.isSome_iff_exists.1 h with ⟨tid, htid⟩
  refine Ends.get_bind ?_
  unfold Prog.when
  rw [htid]
  exact Ends.ite (fun _ => trivial) fun _ => trivial

theorem nbdFreeSlot_total (h : Readable r) {v : Img} (hv : v ∈ r.img) (w : World) :
    Ends (fun _ => False) (fun _ _ => True) (nbdFreeSlot s r v) w := by
  rcases Option.isSome_iff_exists.1 (h.paths v hv) with ⟨path, hpath⟩
  unfold nbdFreeSlot
  rw [hpath, lift_some_bind]
  refine Ends.get_bind ?_
  split
  · exact Ends.bind (tgtstop_total h.tid w) fun _ _ _ => trivial
  · trivial

theorem nbdFree_total (h : Readable r) (w : World) :
    Ends (fun _ => False) (fun nbds _ => nbds.length = r.img.length) (nbdFree s r) w :=
  (Ends.mapM (J := fun _ => True) (fun _ hv w _ => nbdFreeSlot_total h hv w) trivial).mono
    fun _ _ h => h.1

end Stop

/-- The children and the configuration are as they were. -/
def Still (w w' : World) : Prop := w'.child = w.child ∧ w'.file = w.file

theorem StopAct.still {t : Option String} {o : Op} {w w' : World} (h : StopAct t o w w') :
    Same (fun w => (w.child, w.file)) w w' := by
  have himages := h.images
  simp only [World.images, Prod.mk.injEq] at himages
  exact Prod.ext himages.2.1 himages.1

/-- A part that only stops targets and servers, and returns. -/
theorem Runs.stop {α : Type} {P : α → Prop} {x : Sys α} {t : Option String}
    (h : Does (StopAct t) P x) {f : Op → Bool} (hf : f .tau = false)
    {Q : α → World → Prop} {w : World}
    (htotal : Ends (fun _ => False) Q x w) :
    Runs f [] (fun a w' => Q a w' ∧ P a ∧ Still w w') x w := by
  have hframe : Ends (fun _ => True) (fun a w' => P a ∧ Still w w') x w := by
    refine Ends.of_does (h.weaken fun _ _ _ => StopAct.still) (fun _ _ => trivial) ?_
    intro a w' ha hsame
    simp only [Same, Prod.mk.injEq] at hsame
    exact ⟨ha, hsame⟩
  refine Runs.quiet h ?_ ((htotal.and hframe).imp (fun _ h => h.1) fun _ _ => id)
  intro o w₁ w₂ hstep
  cases hstep with
  | kill hkill => cases hkill <;> exact hf
  | nbdDel => exact hf

/-- An address that a record of the table has is found. -/
theorem findIPv4_exists {ip : Value} {kvs : List (Key × Value)}
    (htable : ∀ e ∈ kvs, ∃ t, e.2 = .table t) {e : Key × Value} (he : e ∈ kvs)
    (hip : e.2.get "ipv4" = ip) : ∃ l, findIPv4 ip kvs = some (some l) := by
  induction kvs with
  | nil => cases he
  | cons a kvs ih =>
    rcases htable a List.mem_cons_self with ⟨t, ht⟩
    have hat : a.2.at? ["ipv4"] = some (a.2.get "ipv4") := by
      rw [ht]
      rfl
    obtain ⟨k, v⟩ := a
    simp only [findIPv4, hat, Option.bind_eq_bind, Option.bind_some]
    by_cases heq : ip = v.get "ipv4"
    · exact ⟨k, if_pos heq⟩
    · rw [if_neg heq]
      rcases List.mem_cons.1 he with rfl | he
      · exact absurd hip.symm heq
      · exact ih (fun b hb => htable b (List.mem_cons_of_mem _ hb)) he

section Free

variable {N : Nat} {c : Value} (hc : Sound N c)

include hc

theorem Sound.getIDFromIPv4_exists {k : Key} (hk : k ∈ seqKeys N) {ip : Value}
    (hip : ((wksOf c).get k).get "ipv4" = ip) (hne : ip ≠ .nil) :
    ∃ l r, getIDFromIPv4 c ip = some (some l) ∧ Reads c l r ∧ Readable r := by
  rcases hc.keys with ⟨kvs, hkvs, hkeys⟩
  have hnodup : (Lua.keys kvs).Nodup := by
    rw [hkeys]
    exact seqKeys_nodup N
  have hentry : ∀ e ∈ kvs, Entry e.2 := by
    rintro ⟨l, v⟩ he
    have hl : l ∈ seqKeys N := by
      rw [← hkeys]
      exact List.mem_map_of_mem (f := Prod.fst) he
    have hentry := hc.entries l hl
    rw [hkvs, Value.get_table, lookup_of_mem hnodup he] at hentry
    exact hentry
  have hmem : (k, (wksOf c).get k) ∈ kvs := by
    rcases (hc.entries k hk).table with ⟨t, ht⟩
    rw [hkvs, Value.get_table] at ht ⊢
    refine mem_of_lookup_ne_nil ?_
    simp [ht]
  rcases findIPv4_exists (fun e he => (hentry e he).table) hmem hip with ⟨l, hl⟩
  have hfind : getIDFromIPv4 c ip = some (some l) := by
    simp only [getIDFromIPv4, hc.conf, Option.bind_eq_bind, Option.bind_some, hkvs]
    rw [if_pos ⟨trivial, hne⟩]
    exact hl
  rcases findIPv4_mem hl with ⟨v, hv, hat⟩
  have hget : (wksOf c).get l = v := by
    rw [hkvs, Value.get_table, lookup_of_mem hnodup hv]
  rcases (hentry _ hv).addressed (by rw [at?_one hat]; exact hne) with ⟨r, hr, hread⟩
  rcases Option.map_eq_some_iff.1 hr with ⟨r₀, hr₀, rfl⟩
  exact ⟨l, r₀, hfind, ⟨⟨kvs, hkvs⟩, by rw [hget, hr₀]⟩, readable_core.1 hread⟩

theorem Sound.freeByIPv4_runs {k : Key} (hk : k ∈ seqKeys N) {ip : Value}
    (hip : ((wksOf c).get k).get "ipv4" = ip) (hne : ip ≠ .nil) (s : Server) {f : Op → Bool}
    (hf : f .tau = false) (w : World) :
    Runs f [] (fun c' w' => (c' = c ∨ ∃ l, Puts NbdStep l c c') ∧ Still w w')
      (freeByIPv4 s ip c) w := by
  rcases hc.getIDFromIPv4_exists hk hip hne with ⟨l, r, hfind, hreads, hread⟩
  have hbare : Wks.ofBare? ((wksOf c).get l) = some r := by
    rcases Wks.table_of hreads.record with ⟨kvs, ikvs, hkvs, himg, -⟩
    have hne : ((wksOf c).get l).get "img" ≠ .nil := by
      rw [hkvs, Value.get_table, himg]
      simp
    rw [Wks.ofBare?, if_neg hne, hreads.record]
  unfold freeByIPv4
  rw [hfind, lift_some_bind, lift_some_bind, hbare, lift_some_bind]
  refine Runs.bind_quiet
    (Runs.stop (tgtstop_does.weaken fun _ _ _ => .kill) hf (tgtstop_total hread.tid w)) ?_
  rintro _ w₁ ⟨-, -, hstill₁⟩
  refine Runs.bind_quiet (Runs.stop nbdFree_does hf (nbdFree_total hread w₁)) ?_
  rintro nbds w₂ ⟨hlen, hnormal, hstill₂⟩
  rcases setNbds_exists (le_of_eq hlen) hreads with ⟨c', hc', -⟩
  refine Runs.lift hc' ⟨?_, hstill₂.1.trans hstill₁.1, hstill₂.2.trans hstill₁.2⟩
  rcases setNbds_puts hnormal hc' with hsame | hput
  · exact Or.inl hsame
  · exact Or.inr ⟨l, hput⟩

end Free

/-! ## The commits -/

/-- A slot whose child `disableCommit` commits, if there is one. -/
def Img.Chosen (v : Img) : Prop := v.enable.isOne ∧ v.commit.isOne ∧ v.type ≠ .str "iso"

instance (v : Img) : Decidable v.Chosen := inferInstanceAs (Decidable (_ ∧ _))

/-- The child of the slot, if it is to be committed. -/
def Img.toCommit (s : Server) (r : Wks) (w : World) (v : Img) : Option String :=
  (v.path.concat?.map fun path => childName s path r.vid).filter fun f =>
    v.Chosen ∧ (w.child f).isSome

/-- The children that are to be committed. -/
def Wks.toCommit (s : Server) (r : Wks) (w : World) : List String :=
  r.img.filterMap (Img.toCommit s r w)

/-- The commits that the loop starts at a key of the slots' table. -/
def Wks.commitsAt (s : Server) (r : Wks) (w : World) : Key → List Op
  | .num m => ((r.img[(m - 1).toNat]?).bind (Img.toCommit s r w)).toList.map .commit
  | .str _ => []

/-- The steps that are told apart: commits, and the save. -/
def Op.shown : Op → Bool
  | .save => true
  | .commit _ => true
  | _ => false

/-- What the loop of `disableCommit` keeps. -/
structure Committing (N : Nat) (n : Int) (s : Server) (r : Wks) (w₀ : World) (c : Value)
    (w : World) :
    Prop where
  sound : Sound N c
  mem : InMemory c
  reads : Reads c (.num n) r
  back : Server.back? c = some s
  still : Still w₀ w

theorem Committing.puts {N : Nat} {n : Int} {s : Server} {r : Wks} {w₀ w : World} {c c' : Value}
    {l : Key} (h : Committing N n s r w₀ c w) (hput : Puts NbdStep l c c') :
    Committing N n s r w₀ c' w := by
  refine ⟨h.sound.puts (fun _ _ => NbdStep.entry) (fun _ _ => NbdStep.ne_nil) hput,
    hput.inMemory (fun _ _ => NbdStep.tame) h.mem, ⟨?_, ?_⟩, ?_, h.still⟩
  · rcases hput with ⟨v, -, -, hput⟩
    rcases hput.wks with ⟨kvs, -, hwks⟩
    exact ⟨_, hwks⟩
  · rw [hput.same (g := Wks.of?) (fun _ _ => NbdStep.of?) (.num n)]
    exact h.reads.record
  · rw [hput.sameSettings.back, h.back]

/-- The fields of a record that is read. -/
theorem Reads.fields {c : Value} {n : Int} {r : Wks} (hr : Reads c (.num n) r) :
    (c.at? ["wks", .num n, "mac"]).bind Value.str? = some r.mac ∧
    c.at? ["wks", .num n, "ipv4"] = some (((wksOf c).get (.num n)).get "ipv4") ∧
    ∀ (i : Nat) (v : Img), r.img[i]? = some v → ∃ u,
      c.at? ["wks", .num n, "img", .num ((i : Int) + 1)] = some u ∧
      u.at? ["enable"] = some v.enable ∧ u.get "commit" = v.commit ∧ u.get "type" = v.type ∧
      u.get "path" = v.path := by
  rcases hr.tables with ⟨top, wkvs, kvs, rfl, hwks, hkvs, hrec⟩
  have hmac := hrec
  simp only [Wks.of?, Option.bind_eq_bind, Option.bind_eq_some_iff, Option.pure_def,
    Option.some.injEq] at hmac
  rcases hmac with ⟨m, hm, mac, hstr, img, -, hr'⟩
  rcases Wks.table_of hrec with ⟨_, ikvs, hk, himg, -, -, hget⟩
  cases hk
  refine ⟨?_, ?_, ?_⟩
  · simp only [Value.at?] at hm ⊢
    rw [hwks]
    simp only [Value.at?, hkvs]
    rw [hm, ← hr']
    exact hstr
  · simp only [Value.at?, hwks, hkvs, wksOf, Value.get_table]
  · intro i v hv
    have hi : i < r.img.length := (List.getElem?_eq_some_iff.1 hv).1
    have hslot := hget i hi
    rw [hv] at hslot
    rcases Img.table_of hslot.symm with ⟨skvs, hskvs⟩
    rw [hskvs] at hslot
    cases hslot
    refine ⟨.table skvs, ?_, rfl, rfl, rfl, rfl⟩
    simp only [Value.at?, hwks, hkvs, himg, hskvs]

/-- Going over a list by its indices. -/
theorem flatMap_range_getElem? {α β : Type} (l : List α) (g : α → Option β) :
    (List.range l.length).flatMap (fun i => ((l[i]?).bind g).toList) = l.filterMap g := by
  induction l with
  | nil => rfl
  | cons a l ih =>
    rw [List.length_cons, List.range_succ_eq_map, List.flatMap_cons, List.flatMap_map]
    simp only [List.getElem?_cons_zero, List.getElem?_cons_succ, Option.bind_some, ih]
    cases hg : g a with
    | none => simp [hg]
    | some b => simp [hg]

section Commit

variable {N : Nat} {n : Int} {s : Server} {r : Wks} {w₀ : World} (hread : Readable r)

include hread

/-- One slot of `disableCommit`. -/
theorem commitSlot_runs {i : Nat} {v : Img} (hv : r.img[i]? = some v) {c : Value} {w : World}
    (h : Committing N n s r w₀ c w) :
    Runs Op.shown ((v.toCommit s r w₀).toList.map .commit) (Committing N n s r w₀)
      (commitSlot n (.num ((i : Int) + 1)) c) w := by
  rcases h.reads.fields with ⟨hmac, hip, hslots⟩
  rcases hslots i v hv with ⟨u, hat, henable, hflag, htype, hupath⟩
  rcases Option.isSome_iff_exists.1 (hread.paths v (List.mem_of_getElem? hv)) with ⟨path, hpath⟩
  have hslot : v.toCommit s r w₀ =
      if v.Chosen ∧ (w₀.child (childName s path (alnum r.mac))).isSome
        then some (childName s path (alnum r.mac)) else none := by
    rw [Img.toCommit, hpath, Option.map_some, Option.filter_some]
    simp only [decide_eq_true_eq]
    rfl
  unfold commitSlot
  rw [hat, lift_some_bind, henable, lift_some_bind, hflag, htype, hupath, hslot]
  by_cases hchosen : v.enable.isOne ∧ v.commit.isOne ∧ v.type ≠ .str "iso"
  · rw [if_pos hchosen, h.back, lift_some_bind, hpath, lift_some_bind, hmac, lift_some_bind]
    refine Runs.get_bind rfl ?_
    rw [h.still.1]
    by_cases hchild : (w₀.child (childName s path (alnum r.mac))).isSome
    · rw [if_pos hchild, hip, lift_some_bind, if_pos ⟨hchosen, hchild⟩]
      -- the target and the servers first
      refine Runs.bind_quiet (Q := Committing N n s r w₀) ?_ ?_
      · refine Runs.ite (fun hne => ?_) fun _ => Runs.pure h
        have hmem : Key.num n ∈ seqKeys N := by
          refine h.sound.keys.mem_of_get ?_
          intro hnil
          have hrec := h.reads.record
          rw [hnil] at hrec
          cases hrec
        refine (h.sound.freeByIPv4_runs hmem rfl hne s rfl w).mono ?_
        rintro c' w' ⟨hsame | ⟨l, hput⟩, hstill⟩
        · rw [hsame]
          exact ⟨h.sound, h.mem, h.reads, h.back, hstill.1.trans h.still.1,
            hstill.2.trans h.still.2⟩
        · have h' := h.puts hput
          exact ⟨h'.sound, h'.mem, h'.reads, h'.back, hstill.1.trans h.still.1,
            hstill.2.trans h.still.2⟩
      · intro c' w' h'
        refine Runs.bind (Q := fun _ => Committing N n s r w₀ c') (Runs.perform rfl ?_)
          fun _ w'' h'' => Runs.pure h''
        have hsame : Still w' (w'.startCommit (childName s path (alnum r.mac))) := by
          unfold World.startCommit
          split <;> exact ⟨rfl, rfl⟩
        exact ⟨h'.sound, h'.mem, h'.reads, h'.back, hsame.1.trans h'.still.1,
          hsame.2.trans h'.still.2⟩
    · rw [if_neg hchild, if_neg fun hif => hchild hif.2]
      exact Runs.pure h
  · rw [if_neg hchosen, if_neg fun hif => hchosen hif.1]
    exact Runs.pure h

omit hread in
/-- Without the flag, as a string, there is no loop. -/
theorem commitSlots_skips (hsup : r.supper ≠ .str "1") {c : Value} {w : World}
    (h : Committing N n s r w₀ c w) :
    Runs Op.shown [] (Committing N n s r w₀) (commitSlots n c) w := by
  rcases h.reads.tables with ⟨top, wkvs, kvs, hc, hwks, hkvs, hrec⟩
  have hat : c.at? ["wks", .num n] = some (.table kvs) := by
    rw [hc]
    simp only [Value.at?, hwks, hkvs]
  have hflag : (Value.table kvs).at? ["supper"] = some r.supper := by
    rw [Wks.supper_of hrec]
    rfl
  unfold commitSlots
  rw [hat, lift_some_bind, if_neg (by simp), hflag, lift_some_bind, if_neg hsup]
  exact Runs.pure h

/-- The loop of `disableCommit`. -/
theorem commitSlots_runs (hsup : r.supper = .str "1") {c : Value} (hnormal : c.Normal) {w : World}
    (h : Committing N n s r w₀ c w) :
    Runs Op.shown ((r.toCommit s w₀).map .commit) (Committing N n s r w₀) (commitSlots n c) w := by
  rcases h.reads.tables with ⟨top, wkvs, kvs, hc, hwks, hkvs, hrec⟩
  have hat : c.at? ["wks", .num n] = some (.table kvs) := by
    rw [hc]
    simp only [Value.at?, hwks, hkvs]
  have hflag : (Value.table kvs).at? ["supper"] = some (.str "1") := by
    rw [← hsup, Wks.supper_of hrec]
    rfl
  rcases Wks.table_of hrec with ⟨_, ikvs, hk, himg, hseq, hlen, -⟩
  cases hk
  have hkeys : keys ikvs = seqKeys r.img.length := by
    have hshape : (Value.table ikvs).Normal := by
      have hget := Value.All.get (Value.All.get (Value.All.get hnormal "wks") (.num n)) "img"
      rw [hc, Value.get_table, hwks, Value.get_table, hkvs, Value.get_table, himg] at hget
      exact hget
    rw [hlen]
    exact Shape.keys_of_isSeq hshape.1 hseq
  unfold commitSlots
  rw [hat, lift_some_bind, if_neg (by simp), hflag, lift_some_bind, if_pos rfl, Value.get_table,
    himg]
  simp only
  rw [hkeys]
  -- the visible steps of the loop, by slot
  have hslots : (seqKeys r.img.length).flatMap (r.commitsAt s w₀) =
      (r.toCommit s w₀).map .commit := by
    rw [Wks.toCommit, ← flatMap_range_getElem?, List.map_flatMap, seqKeys, List.flatMap_map]
    refine List.flatMap_congr fun i _ => ?_
    have hidx : ((i : Int) + 1 - 1).toNat = i := by omega
    simp only [Wks.commitsAt, hidx]
  rw [← hslots]
  refine Runs.foldlM ?_ h
  intro c' w' h' u hu
  rcases List.mem_map.1 hu with ⟨i, hi, rfl⟩
  have hi : i < r.img.length := List.mem_range.1 hi
  have hv := List.getElem?_eq_getElem hi
  have hidx : ((i : Int) + 1 - 1).toNat = i := by omega
  simp only [Wks.commitsAt, hidx, hv, Option.bind_some]
  exact commitSlot_runs hread hv h'

end Commit

/-! ## Whole handlers -/

section Handlers

variable {N : Nat} {n : Int} {r : Wks} {w : World} (hsound : Sound N w.file.val)
  (hr : Reads w.file.val (.num n) r)

/-- What was saved: a sound configuration with the record `r`. -/
structure SavedAs (N : Nat) (n : Int) (r : Wks) (w : World) : Prop where
  sound : Sound N w.file.val
  reads : Reads w.file.val (.num n) r

theorem saveToFile_runs {c : Value} (hc : Sound N c) (hmem : InMemory c) (hr : Reads c (.num n) r)
    (w : World) : Runs Op.shown [.save] (fun _ => SavedAs N n r) (saveToFile c) w := by
  unfold saveToFile
  rw [hc.conf, lift_some_bind, Prog.when, if_pos rfl]
  refine Runs.perform rfl ⟨hc.reload hmem, ?_, ?_⟩
  · rcases hmem.wks with ⟨kvs, hkvs, -⟩
    exact ⟨_, by rw [show wksOf (encode c).val = (wksOf c).reload from hmem.wksOf_reload, hkvs,
      Value.reload]⟩
  · show Wks.of? ((wksOf c.reload).get (.num n)) = some r
    rw [hc.keys.get_reload hmem, (hmem.records _).of?_reload, hr.record]

/-- The end of every handler. -/
theorem saveAndReturn_runs {S : Value → Value → Prop} (hS : ∀ v v', S v v' → Entry v → Entry v')
    (hne : ∀ v v', S v v' → v ≠ .nil) (htame : ∀ v v', S v v' → Tame v → Tame v') {k : Key}
    {c c' : Value} (hc : Sound N c) (hmem : InMemory c) (hput : Puts S k c c')
    (hr : Reads c' (.num n) r) (w : World) :
    Runs Op.shown [.save] (fun _ => SavedAs N n r) (do saveToFile c'; return c' : Sys Value) w :=
  Runs.bind (saveToFile_runs (hc.puts hS hne hput) (hput.inMemory htame hmem) hr w)
    fun _ _ hw' => Runs.pure hw'

include hsound hr

theorem endSession_runs (hlen : 3 ≤ r.img.length) :
    Runs Op.shown [.save]
      (fun _ => SavedAs N n r.cleared)
      (endSession n) w := by
  refine Runs.bind_quiet (Runs.observe rfl ⟨rfl, rfl⟩) (Q := fun c w' => c = w.file.val ∧ w = w') ?_
  rintro _ _ ⟨rfl, rfl⟩
  rcases clearFlags_exists hr hlen with ⟨c', hc', hr'⟩
  have hput := clearFlags_puts hc'
  rw [hc', lift_some_bind]
  exact saveAndReturn_runs (fun _ _ => FlagStep.entry) (fun _ _ => FlagStep.ne_nil)
    (fun _ _ => FlagStep.tame) hsound hsound.keys.inMemory hput hr' w

theorem supperTrue_runs {d : Json} {us : List (Key × Value)} (hd : d.val = .table us)
    {is : List Nat} (his : slotsIn? (ipairs us) = some is) (hlen : ∀ i ∈ is, i < r.img.length) :
    Runs Op.shown [.save]
      (fun _ => SavedAs N n { r.setCommits (.str "1") is with supper := .str "1" })
      (supperTrue n (some (some d))) w := by
  refine Runs.bind_quiet (Runs.observe rfl ⟨rfl, rfl⟩) (Q := fun c w' => c = w.file.val ∧ w = w') ?_
  rintro _ _ ⟨rfl, rfl⟩
  rcases setFlags_exists hr hd his hlen with ⟨c', hc', hr'⟩
  have hput := setFlags_puts hc'
  simp only
  rw [hc', lift_some_bind]
  exact saveAndReturn_runs (fun _ _ => FlagStep.entry) (fun _ _ => FlagStep.ne_nil)
    (fun _ _ => FlagStep.tame) hsound hsound.keys.inMemory hput hr' w

/-- `disableCommit`: the commits, and then the save. -/
theorem disableCommit_runs (hread : Readable r) (hlen : 3 ≤ r.img.length) {s : Server}
    (hs : Server.back? w.file.val = some s) :
    Runs Op.shown
      ((if r.supper = .str "1" then (r.toCommit s w).map .commit else []) ++ [.save])
      (fun _ => SavedAs N n r.cleared) (disableCommit n) w := by
  refine Runs.bind_quiet (Runs.observe rfl ⟨rfl, rfl⟩) (Q := fun c w' => c = w.file.val ∧ w = w') ?_
  rintro _ _ ⟨rfl, rfl⟩
  have hstart : Committing N n s r w w.file.val w :=
    ⟨hsound, hsound.keys.inMemory, hr, hs, rfl, rfl⟩
  refine Runs.bind (Q := Committing N n s r w) ?_ ?_
  · by_cases hsup : r.supper = .str "1"
    · rw [if_pos hsup]
      exact commitSlots_runs hread hsup w.file.property hstart
    · rw [if_neg hsup]
      exact commitSlots_skips hsup hstart
  intro c₁ w₁ h₁
  rcases clearFlags_exists h₁.reads hlen with ⟨c', hc', hr'⟩
  rw [hc', lift_some_bind]
  exact saveAndReturn_runs (fun _ _ => FlagStep.entry) (fun _ _ => FlagStep.ne_nil)
    (fun _ _ => FlagStep.tame) h₁.sound h₁.mem (clearFlags_puts hc') hr' w₁

end Handlers

/-! ## Whole requests -/

/-- What the handler of a command does with the configuration it has read. -/
def SupperCmd.edit (n : Int) (data : Option (Option Json)) (c : Value) : SupperCmd → Sys Value
  | .enable =>
    match data with
    | none => return c
    | some data => do
      let c ← lift (setFlags n data c)
      saveToFile c
      return c
  | .disableUncommit | .disableCommitPoint => do
    let c ← lift (clearFlags n c)
    saveToFile c
    return c
  | .disableCommit => do
    let c ← commitSlots n c
    let c ← lift (clearFlags n c)
    saveToFile c
    return c
  | .supperCheck | .diskList => return c

/-- For a record that is there the request gets to the handler. -/
theorem supperPart_table {p : Post} {n : Int} {cmd : SupperCmd} {c : Value}
    {kvs : List (Key × Value)} (hid : p.id.bind numberOf = some n)
    (hcmd : p.supper.bind SupperCmd.of? = some cmd) (hset : cmd.Sets)
    (hconf : checkconf c = some true) (hat : c.at? ["wks", .num n] = some (.table kvs)) :
    supperPart p c = loadFromFile >>= (cmd.edit n p.jsondata ·) := by
  rcases Option.bind_eq_some_iff.1 hid with ⟨id, hid', hn⟩
  have hat' : wksAt? c (some n) = some (.table kvs) := hat
  unfold supperPart
  rw [hid', hcmd]
  simp only
  rw [hconf, lift_some_bind, if_pos rfl, hn, hat', lift_some_bind]
  simp only [if_neg (show Value.table kvs ≠ .nil by simp),
    if_neg (show Value.table kvs ≠ .bool false by simp)]
  cases cmd with
  | enable | disableUncommit | disableCommit | disableCommitPoint => rfl
  | supperCheck => exact absurd rfl hset.1
  | diskList => exact absurd rfl hset.2

/-- For a workstation whose record can be read, too. -/
theorem supperPart_eq {p : Post} {n : Int} {t : String} {cmd : SupperCmd} {c : Value} {r : Wks}
    (hp : p.Is n t) (hcmd : SupperCmd.of? t = some cmd) (hset : cmd.Sets)
    (hconf : checkconf c = some true) (hr : Reads c (.num n) r) :
    supperPart p c = loadFromFile >>= (cmd.edit n p.jsondata ·) := by
  rcases hr.tables with ⟨top, wkvs, kvs, rfl, hwks, hkvs, -⟩
  have hat : Value.at? ["wks", .num n] (.table top) = some (.table kvs) := by
    simp only [Value.at?, hwks, hkvs]
  have hcmd' : p.supper.bind SupperCmd.of? = some cmd := by rw [hp.2, Option.bind_some, hcmd]
  exact supperPart_table hp.1 hcmd' hset hconf hat

/-- A request with a super-mode command only is its handler. -/
theorem post_super_runs {p : Post} (hp : SuperOnly p) {w : World}
    (hconf : checkconf w.file.val = some true) {ops : List Op} {Q : World → Prop}
    (h : Runs Op.shown ops (fun _ => Q) (supperPart p w.file.val) w) :
    Runs Op.shown ops (fun _ => Q) (post p) w := by
  unfold post loadFromFile
  refine Runs.bind_quiet (Runs.observe rfl ⟨rfl, rfl⟩) (Q := fun c w' => c = w.file.val ∧ w = w') ?_
  rintro _ _ ⟨rfl, rfl⟩
  rw [hconf, lift_some_bind, if_pos rfl]
  refine Runs.bind_quiet (Runs.observe rfl ⟨rfl, rfl⟩) (Q := fun c w' => c = w.file.val ∧ w = w') ?_
  rintro _ _ ⟨rfl, rfl⟩
  rw [← List.append_nil ops]
  refine Runs.bind h ?_
  intro c w' hw'
  -- the other handlers find nothing to do
  have hmy : getMy p w'.arp c = some none := by simp [getMy, hp.wksCmd]
  have happly : applyMy p c = pure c := by simp [applyMy, hp.wksCmd]
  have hdelete : deleteMachine p c = pure () := by simp [deleteMachine, hp.wksCmd]
  rw [powerOn_of_none hp.cmd, pure_bind]
  refine Runs.get_bind rfl ?_
  rw [hmy, lift_some_bind, happly]
  refine Runs.bind_quiet (Q := fun c' w'' => c' = c ∧ Q w'') (Runs.pure ⟨rfl, hw'⟩) ?_
  rintro _ w'' ⟨rfl, hw''⟩
  rw [hdelete]
  exact ⟨none, w'', rfl, rfl, hw''⟩

end NsBoot
