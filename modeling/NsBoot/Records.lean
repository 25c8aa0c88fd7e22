import NsBoot.Config
import Mathlib.Logic.Relation

/-!
# NsBoot.Records — changing one workstation record

Every handler that modifies the configuration replaces one record of `cfg.wks`
(`Put`), and most replace it by the same record with a flag or a device changed
(`FlagStep`, `NbdStep`). This file says what such changes mean to the views of
`NsBoot.Config`, in memory and after a save and a load:

* `SameSettings`: nothing outside `cfg.wks` is affected;
* `Wks.core`: the part of a record that flags and devices are not in;
* `Tame`: records that read the same after a save and a load.
-/

namespace NsBoot

open Lua

/-! ## Settings -/

/-- Equal outside `cfg.wks`. -/
structure SameSettings (c c' : Value) : Prop where
  table : ∃ top, c = .table top
  table' : ∃ top, c' = .table top
  get : ∀ f, f ≠ .str "wks" → c'.get f = c.get f
  wks : wksOf c ≠ .nil
  wks' : wksOf c' ≠ .nil

namespace SameSettings

variable {c c' c'' : Value}

theorem trans (h : SameSettings c c') (h' : SameSettings c' c'') : SameSettings c c'' where
  table := h.table
  table' := h'.table'
  get f hf := (h'.get f hf).trans (h.get f hf)
  wks := h.wks
  wks' := h'.wks'

theorem at? (h : SameSettings c c') {f : Key} (hf : f ≠ .str "wks") (fs : List Key) :
    c'.at? (f :: fs) = c.at? (f :: fs) := by
  obtain ⟨top, rfl⟩ := h.table
  obtain ⟨top', rfl⟩ := h.table'
  have hget := h.get f hf
  simp only [Value.get_table] at hget
  simp [Value.at?, hget]

theorem textAt? (h : SameSettings c c') {f : Key} (hf : f ≠ .str "wks") (fs : List Key) :
    NsBoot.textAt? c' (f :: fs) = NsBoot.textAt? c (f :: fs) := by
  rw [NsBoot.textAt?, NsBoot.textAt?, h.at? hf]

theorem server (h : SameSettings c c') : Server.of? c' = Server.of? c := by
  simp only [Server.of?, h.textAt? (show Key.str "server" ≠ .str "wks" by decide),
    h.textAt? (show Key.str "iscsi" ≠ .str "wks" by decide),
    h.textAt? (show Key.str "zfs" ≠ .str "wks" by decide),
    h.at? (show Key.str "server" ≠ .str "wks" by decide)]

theorem back (h : SameSettings c c') : Server.back? c' = Server.back? c := by
  simp only [Server.back?, h.textAt? (show Key.str "server" ≠ .str "wks" by decide),
    h.textAt? (show Key.str "iscsi" ≠ .str "wks" by decide)]

/-- No checked field but the table itself is inside the table of workstations. -/
theorem checkedFields_head : ∀ path ∈ checkedFields,
    path = ["wks"] ∨ path.headD "" ≠ .str "wks" := by
  decide

theorem present? (h : SameSettings c c') {path : List Key} (hp : path ∈ checkedFields) :
    NsBoot.present? c' path = NsBoot.present? c path := by
  by_cases hw : path = ["wks"]
  · -- the table of workstations is there on both sides
    obtain ⟨top, rfl⟩ := h.table
    obtain ⟨top', rfl⟩ := h.table'
    have h1 := h.wks
    have h2 := h.wks'
    simp only [wksOf, Value.get_table] at h1 h2
    simp [hw, NsBoot.present?, Value.at?, h1, h2]
  · cases path with
    | nil => exact absurd hp (by decide)
    | cons f fs =>
      have hf : f ≠ .str "wks" := (checkedFields_head _ hp).resolve_left hw
      rw [NsBoot.present?, NsBoot.present?, h.at? hf]

theorem checkconf (h : SameSettings c c') : NsBoot.checkconf c' = NsBoot.checkconf c := by
  obtain ⟨top, htop⟩ := h.table
  obtain ⟨top', htop'⟩ := h.table'
  have hc : c ≠ .nil := by simp [htop]
  have hc' : c' ≠ .nil := by simp [htop']
  rw [NsBoot.checkconf, NsBoot.checkconf, if_neg hc, if_neg hc']
  have hfold : ∀ (ps : List (List Key)), (∀ p ∈ ps, p ∈ checkedFields) → ∀ ok : Bool,
      ps.foldlM (fun ok path => (NsBoot.present? c' path).map (ok && ·)) ok =
        ps.foldlM (fun ok path => (NsBoot.present? c path).map (ok && ·)) ok := by
    intro ps
    induction ps with
    | nil => exact fun _ _ => rfl
    | cons p ps ih =>
      intro hps ok
      rw [List.foldlM_cons, List.foldlM_cons, h.present? (hps p List.mem_cons_self)]
      congr 1
      funext b
      exact ih (fun q hq => hps q (List.mem_cons_of_mem _ hq)) b
  exact hfold checkedFields (fun _ => id) true

end SameSettings

/-! ## Replacing a record -/

/-- `nsboot.cfg.wks[k] = v`. -/
def Put (k : Key) (v c c' : Value) : Prop := c.assign? ["wks", k] v = some c'

theorem at?_wks {c v : Value} {k : Key} (h : c.at? ["wks", k] = some v) : (wksOf c).get k = v := by
  cases c with
  | table top =>
    simp only [Value.at?] at h
    rw [wksOf, Value.get_table]
    cases hw : lookup "wks" top with
    | table kvs =>
      rw [hw] at h
      simpa [Value.at?] using h
    | str s =>
      rw [hw] at h
      simpa [Value.at?, Value.get] using h
    | nil | bool | num =>
      rw [hw] at h
      simp [Value.at?] at h
  | nil | bool | num | str => simp [Value.at?] at h

namespace Put

variable {k : Key} {v v' c c' c'' : Value}

theorem tables (h : Put k v c c') : ∃ top kvs, c = .table top ∧ wksOf c = .table kvs ∧
    c' = .table (store "wks" (.table (store k v kvs)) top) := by
  obtain ⟨top, w, rfl, hw, rfl⟩ := Value.assign?_cons h
  obtain ⟨kvs, x, hkvs, hx, rfl⟩ := Value.assign?_cons hw
  cases hx
  exact ⟨top, kvs, rfl, hkvs, rfl⟩

theorem wks (h : Put k v c c') :
    ∃ kvs, wksOf c = .table kvs ∧ wksOf c' = .table (store k v kvs) := by
  obtain ⟨top, kvs, rfl, hkvs, rfl⟩ := h.tables
  exact ⟨kvs, hkvs, by simp [wksOf]⟩

theorem get_self (h : Put k v c c') : (wksOf c').get k = v := by
  obtain ⟨kvs, -, hw⟩ := h.wks
  simp [hw]

theorem get_ne (h : Put k v c c') {l : Key} (hl : l ≠ k) :
    (wksOf c').get l = (wksOf c).get l := by
  obtain ⟨kvs, hw, hw'⟩ := h.wks
  simp [hw, hw', hl]

theorem sameSettings (h : Put k v c c') : SameSettings c c' := by
  obtain ⟨top, kvs, rfl, hkvs, rfl⟩ := h.tables
  refine ⟨⟨top, rfl⟩, ⟨_, rfl⟩, fun f hf => ?_, by simp [hkvs], by simp [wksOf]⟩
  exact lookup_store_ne hf _ _

theorem put (h : Put k v c c') (h' : Put k v' c' c'') (hv : v ≠ .nil) (hv' : v' ≠ .nil) :
    Put k v' c c'' := by
  obtain ⟨top, kvs, rfl, hkvs, rfl⟩ := h.tables
  obtain ⟨top', kvs', htop', hkvs', rfl⟩ := h'.tables
  cases htop'
  have hk : kvs' = store k v kvs := by simpa [wksOf] using hkvs'.symm
  subst hk
  have hlook : lookup "wks" top = .table kvs := hkvs
  rw [store_store hv hv', store_store (by simp) (by simp)]
  simp [Put, Value.assign?, hlook]

end Put

/-! ## Flags and devices -/

/-- A record without its super-mode flags. -/
def Img.core (v : Img) : Img := { v with commit := .nil }

def Wks.core (r : Wks) : Wks := { r with supper := .nil, img := r.img.map Img.core }

/-- What flags and devices are not part of. -/
def coreOf (v : Value) : Option Wks := (Wks.of? v).map Wks.core

/-- A super-mode flag of the record is set to `x`. -/
inductive FlagStep (x : String) : Value → Value → Prop
  | supper {v v' : Value} (h : v.assign? ["supper"] (.str x) = some v') : FlagStep x v v'
  | commit {v v' : Value} (i : Int) (h : v.assign? ["img", .num i, "commit"] (.str x) = some v') :
      FlagStep x v v'

/-- The device of a slot is set, or cleared. -/
inductive NbdStep : Value → Value → Prop
  | nbd {v v' : Value} (i : Int) (x : Value) (hx : x.Normal)
      (h : v.assign? ["img", .num i, "nbd"] x = some v') : NbdStep v v'

theorem Img.of?_assign_commit {u u' x : Value} (h : u.assign? ["commit"] x = some u') :
    Img.of? u' = (Img.of? u).map fun v => { v with commit := x } := by
  obtain ⟨kvs, c, rfl, hc, rfl⟩ := Value.assign?_cons h
  cases hc
  simp [Img.of?]

theorem Img.of?_assign_nbd {u u' x : Value} (h : u.assign? ["nbd"] x = some u') :
    Img.of? u' = (Img.of? u).map id := by
  obtain ⟨kvs, c, rfl, hc, rfl⟩ := Value.assign?_cons h
  cases hc
  simp [Img.of?]

theorem Wks.of?_assign_supper {v v' x : Value} (h : v.assign? ["supper"] x = some v') :
    Wks.of? v' = (Wks.of? v).map fun r => { r with supper := x } := by
  obtain ⟨kvs, c, rfl, hc, rfl⟩ := Value.assign?_cons h
  cases hc
  cases hmac : (lookup "mac" kvs).str? <;>
    cases himg : readArray? Img.of? (lookup "img" kvs) <;>
      simp [Wks.of?, Value.at?, hmac, himg]

/-- Assigning inside a slot. -/
theorem Wks.of?_assign_slot {v v' x : Value} {i : Int} {f : Key} {g : Img → Img}
    (h : v.assign? ["img", .num i, f] x = some v')
    (hg : ∀ u u', u.assign? [f] x = some u' → Img.of? u' = (Img.of? u).map g) :
    Wks.of? v' = (Wks.of? v).map fun r => { r with img := r.img.modify (i - 1).toNat g } := by
  obtain ⟨kvs, img', rfl, himg, rfl⟩ := Value.assign?_cons h
  have hread := readArray?_assign himg hg
  cases hmac : (lookup "mac" kvs).str? <;>
    cases himg : readArray? Img.of? (lookup "img" kvs) <;>
      simp [Wks.of?, Value.at?, hread, hmac, himg]

theorem NbdStep.of? {v v' : Value} (h : NbdStep v v') : Wks.of? v' = Wks.of? v := by
  obtain ⟨i, x, -, h⟩ := h
  rw [Wks.of?_assign_slot h fun _ _ => Img.of?_assign_nbd]
  simp

theorem NbdStep.core {v v' : Value} (h : NbdStep v v') : coreOf v' = coreOf v := by
  rw [coreOf, h.of?, coreOf]

theorem map_core_modify (l : List Img) (j : Nat) (x : Value) :
    (l.modify j fun v => { v with commit := x }).map Img.core = l.map Img.core := by
  refine List.ext_getElem? fun i => ?_
  rw [List.getElem?_map, List.getElem?_map, List.getElem?_modify]
  cases l[i]? with
  | none => rfl
  | some v => by_cases hj : j = i <;> simp [hj, Img.core]

theorem FlagStep.core {x : String} {v v' : Value} (h : FlagStep x v v') : coreOf v' = coreOf v := by
  unfold coreOf
  cases h with
  | supper h =>
    rw [Wks.of?_assign_supper h, Option.map_map]
    rfl
  | commit i h =>
    rw [Wks.of?_assign_slot h fun _ _ => Img.of?_assign_commit, Option.map_map]
    congr 1
    funext r
    exact congrArg (fun img => { r with supper := .nil, img }) (map_core_modify r.img _ _)

/-! ## Saved and loaded -/

/-- A slot that reads the same after a save and a load. -/
structure SlotTame (u : Value) : Prop where
  distinct : u.Distinct
  fields : ∀ f, isField f → (u.get (.str f)).Normal

/-- A record that reads the same after a save and a load. -/
structure Tame (v : Value) : Prop where
  distinct : v.Distinct
  fields : ∀ f, isField f → f ≠ "img" → (v.get (.str f)).Normal
  slots : ∀ k, SlotTame ((v.get "img").get k)

theorem SlotTame.of_normal {u : Value} (h : u.Normal) : SlotTame u :=
  ⟨h.distinct, fun f _ => Value.All.get h (.str f)⟩

theorem Tame.of_normal {v : Value} (h : v.Normal) : Tame v where
  distinct := h.distinct
  fields f _ _ := Value.All.get h (.str f)
  slots k := .of_normal (Value.All.get (Value.All.get h "img") k)

theorem SlotTame.get_reload {u : Value} (h : SlotTame u) {f : String} (hf : isField f) :
    u.reload.get f = u.get f := by
  rw [reload_get_field hf h.distinct, (h.fields f hf).reload_eq]

theorem SlotTame.of?_reload {u : Value} (h : SlotTame u) : Img.of? u.reload = Img.of? u := by
  have hget {f : String} (hf : isField f) := h.get_reload hf
  cases u with
  | table kvs =>
    simp only [Value.reload, Value.get_table] at hget
    simp only [Value.reload, Img.of?]
    rw [hget (f := "path") rfl, hget (f := "type") rfl, hget (f := "enable") rfl,
      hget (f := "commit") rfl, hget (f := "boot") rfl, hget (f := "cache") rfl]
  | nil | bool | num | str => rfl

theorem Tame.get_reload {v : Value} (h : Tame v) {f : String} (hf : isField f) (hi : f ≠ "img") :
    v.reload.get f = v.get f := by
  rw [reload_get_field hf h.distinct, (h.fields f hf hi).reload_eq]

theorem Tame.of?_reload {v : Value} (h : Tame v) : Wks.of? v.reload = Wks.of? v := by
  have hget {f : String} (hf : isField f) (hi : f ≠ "img") := h.get_reload hf hi
  have himg : readArray? Img.of? (v.reload.get "img") = readArray? Img.of? (v.get "img") := by
    rw [reload_get_field rfl h.distinct]
    exact readArray?_reload fun k => (h.slots k).of?_reload
  cases v with
  | table kvs =>
    simp only [Value.reload, Value.get_table] at hget himg
    simp only [Value.reload, Wks.of?, Value.at?, Value.get_table]
    rw [himg, hget (f := "mac") rfl (by decide), hget (f := "ipv4") rfl (by decide),
      hget (f := "tid") rfl (by decide), hget (f := "enable") rfl (by decide),
      hget (f := "supper") rfl (by decide)]
  | nil | bool | num | str => rfl

/-- Assigning a loaded value to a field other than `img`. -/
theorem Tame.assign {v v' x : Value} {f : String} (h : Tame v) (hx : x.Normal) (hf : f ≠ "img")
    (ha : v.assign? [.str f] x = some v') : Tame v' := by
  have hne {g : String} (hg : g ≠ f) : v'.get g = v.get g :=
    Value.assign?_get_ne ha (by simpa using hg)
  refine ⟨Value.assign?_distinct h.distinct hx.distinct ha, fun g hgf hgi => ?_, fun k => ?_⟩
  · by_cases hg : g = f
    · subst hg
      have := Value.assign?_get_self ha
      cases this
      exact hx
    · rw [hne hg]
      exact h.fields g hgf hgi
  · rw [hne hf.symm]
    exact h.slots k

/-- Assigning a loaded value to a field of a slot. -/
theorem Tame.assign_slot {v v' x : Value} {i : Int} {f : String} (h : Tame v) (hx : x.Normal)
    (ha : v.assign? ["img", .num i, .str f] x = some v') : Tame v' := by
  have himg := Value.assign?_get_self ha
  refine ⟨Value.assign?_distinct h.distinct hx.distinct ha, fun g hgf hgi => ?_, fun k => ?_⟩
  · rw [Value.assign?_get_ne ha (by simpa using hgi)]
    exact h.fields g hgf hgi
  · by_cases hk : k = .num i
    · subst hk
      have hslot := Value.assign?_get_self himg
      refine ⟨Value.assign?_distinct (h.slots _).distinct hx.distinct hslot, fun g hgf => ?_⟩
      by_cases hg : g = f
      · subst hg
        have := Value.assign?_get_self hslot
        cases this
        exact hx
      · rw [Value.assign?_get_ne hslot (by simpa using hg)]
        exact (h.slots _).fields g hgf
    · rw [Value.assign?_get_ne himg hk]
      exact h.slots k

theorem FlagStep.tame {x : String} {v v' : Value} (h : FlagStep x v v') (hv : Tame v) :
    Tame v' := by
  cases h with
  | supper h => exact hv.assign (by simp [Value.Normal, Value.All]) (by decide) h
  | commit i h => exact hv.assign_slot (by simp [Value.Normal, Value.All]) h

theorem NbdStep.tame {v v' : Value} (h : NbdStep v v') (hv : Tame v) : Tame v' := by
  obtain ⟨i, x, hx, h⟩ := h
  exact hv.assign_slot hx h

end NsBoot
