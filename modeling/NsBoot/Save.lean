import NsBoot.Lib.JsonText
import NsBoot.Shipped
import Mathlib.Logic.Relation

/-!
# NsBoot.Save — the steps inside a save

`nsboot:SaveToFile` opens the file for writing, encodes the configuration, writes
and closes. Elsewhere it is one step of a request; here it is taken apart, because
another request can read the file between any two of these, and each of them can
fail.

* `Codec`: the `json` library, of which only the round trip is assumed.
* `Stage`, `Step`: where the save stands, and what it does next. A text that is
  written is on its way to the disk until the stream is closed, and any part of it
  may be there before.
* `Phase`: what the file holds at each stage.
* `saveToFile_final`: a save that comes to its end without a failed step is the one
  step of `saveToFile`.
-/

namespace NsBoot.Save

open Lua Prog

/-- The contents of a file. -/
abbrev Bytes := List UInt8

/-- The encoder and decoder of the `json` library; `none` is an error raised. -/
structure Codec where
  encode : Value → Option Bytes
  decode : Bytes → Option Value
  decode_encode : ∀ {v t}, encode v = some t → decode t = some v.reload

/-- Where the save stands. The last five are ends. -/
inductive Stage where
  | called
  | checked
  | opened
  | encoded (text : Bytes)
  /-- Written to the stream; `rest` has not reached the disk. -/
  | flushing (rest : Bytes)
  /-- `checkconf` said no. -/
  | declined
  /-- An error before the file was opened. -/
  | refused
  /-- An error of the encoder. -/
  | raised
  /-- A write failed. Its result is not looked at, and `true` is returned. -/
  | cut
  | saved
deriving DecidableEq

/-- Nothing was opened for writing yet, and will not be at the ends among them. -/
def Stage.Untouched : Stage → Prop
  | called | checked | declined | refused => True
  | _ => False

structure State where
  file : Bytes
  stage : Stage

/-- What `LoadFromFile` of another request returns now. -/
def State.load (codec : Codec) (s : State) : Option Value := codec.decode s.file

section Steps

variable (codec : Codec) (c : Value)

/-- The steps of `nsboot:SaveToFile` with the configuration `c`. -/
inductive Step : State → State → Prop where
  | decline {f} (h : checkconf c = some false) : Step ⟨f, .called⟩ ⟨f, .declined⟩
  | checkRaises {f} (h : checkconf c = none) : Step ⟨f, .called⟩ ⟨f, .refused⟩
  | check {f} (h : checkconf c = some true) : Step ⟨f, .called⟩ ⟨f, .checked⟩
  -- `io.open` gives nil, and `file:write` is then an error
  | openFails {f} : Step ⟨f, .checked⟩ ⟨f, .refused⟩
  | openFile {f} : Step ⟨f, .checked⟩ ⟨[], .opened⟩
  | encode {f t} (h : codec.encode c = some t) : Step ⟨f, .opened⟩ ⟨f, .encoded t⟩
  | encodeRaises {f} (h : codec.encode c = none) : Step ⟨f, .opened⟩ ⟨f, .raised⟩
  | write {f t} : Step ⟨f, .encoded t⟩ ⟨f, .flushing t⟩
  | flush {f part rest} : Step ⟨f, .flushing (part ++ rest)⟩ ⟨f ++ part, .flushing rest⟩
  | flushFails {f rest} : Step ⟨f, .flushing rest⟩ ⟨f, .cut⟩
  | close {f} : Step ⟨f, .flushing []⟩ ⟨f, .saved⟩

/-- The states in which another request can find the file, from the call on. -/
def Reach (old : Bytes) : State → Prop := Relation.ReflTransGen (Step codec c) ⟨old, .called⟩

/-- What the file holds at each stage of the save. -/
def Phase (old : Bytes) (s : State) : Prop :=
  match s.stage with
  | .called | .checked | .declined | .refused => s.file = old
  | .opened => s.file = []
  | .raised => s.file = [] ∧ codec.encode c = none
  | .encoded t => s.file = [] ∧ codec.encode c = some t
  | .flushing rest => codec.encode c = some (s.file ++ rest)
  | .cut => ∃ rest, codec.encode c = some (s.file ++ rest)
  | .saved => codec.encode c = some s.file

end Steps

variable {codec : Codec} {c : Value} {old : Bytes}

theorem Step.phase {s s' : State} (h : Step codec c s s') (hs : Phase codec c old s) :
    Phase codec c old s' := by
  cases h with
  | decline => exact hs
  | checkRaises => exact hs
  | check => exact hs
  | openFails => exact hs
  | openFile => rfl
  | encode ht => exact ⟨hs, ht⟩
  | encodeRaises ht => exact ⟨hs, ht⟩
  | write =>
    rcases hs with ⟨hf, ht⟩
    change codec.encode c = some (_ ++ _)
    rw [ht, show _ = ([] : Bytes) from hf, List.nil_append]
  | flush =>
    change codec.encode c = some (_ ++ _)
    rw [List.append_assoc]
    exact hs
  | flushFails => exact ⟨_, hs⟩
  | close =>
    change codec.encode c = some _
    simpa [Phase] using hs

theorem Reach.phase {s : State} (h : Reach codec c old s) : Phase codec c old s := by
  induction h with
  | refl => rfl
  | tail _ hstep ih => exact hstep.phase ih

/-- What `checkconf` said, as long as it decides where the save stands. -/
def Checked (c : Value) (s : State) : Prop :=
  match s.stage with
  | .called | .refused => True
  | .declined => checkconf c = some false
  | _ => checkconf c = some true

theorem Step.checked {s s' : State} (h : Step codec c s s') (hs : Checked c s) : Checked c s' := by
  cases h with
  | decline h => exact h
  | checkRaises => trivial
  | check h => exact h
  | openFails => trivial
  | _ => exact hs

theorem Reach.checked {s : State} (h : Reach codec c old s) : Checked c s := by
  induction h with
  | refl => trivial
  | tail _ hstep ih => exact hstep.checked ih

theorem exec_saveToFile {b : Bool} (hc : checkconf c = some b) (w : World) :
    (exec (saveToFile c) w).final = if b then { w with file := encode c } else w := by
  cases b <;> simp [saveToFile, hc, exec_bind, exec, when, perform, lift, Result.final]

/-- A save that comes to its end without a failed step leaves what the one step of
`saveToFile` leaves. -/
theorem saveToFile_final {w : World} {s : State} (h : Reach codec c old s)
    (hold : codec.decode old = some w.file.val) (hend : s.stage = .declined ∨ s.stage = .saved) :
    s.load codec = some (exec (saveToFile c) w).final.file.val := by
  have hphase := h.phase
  have hchecked := h.checked
  rcases s with ⟨f, st⟩
  rcases hend with rfl | rfl
  · have hf : f = old := hphase
    rw [exec_saveToFile hchecked, hf]
    exact hold
  · rw [exec_saveToFile hchecked]
    exact codec.decode_encode hphase


/-! ## What another request can read -/

theorem Reach.step {s s' : State} (h : Reach codec c old s) (hs : Step codec c s s') :
    Reach codec c old s' := Relation.ReflTransGen.tail h hs

theorem reach_opened (hc : checkconf c = some true) : Reach codec c old ⟨[], .opened⟩ :=
  have h : Reach codec c old ⟨old, .checked⟩ := Relation.ReflTransGen.single (.check hc)
  h.step .openFile

/-- Any beginning of the new text can have reached the disk when the rest has not. -/
theorem reach_flushing (hc : checkconf c = some true) {part rest : Bytes}
    (ht : codec.encode c = some (part ++ rest)) :
    Reach codec c old ⟨part, .flushing rest⟩ :=
  (((reach_opened hc).step (.encode ht)).step .write).step .flush

/-- The contents that another request can find, while the save is under way or after
it: the old text, and every beginning of the new one. -/
theorem reach_file_iff (hc : checkconf c = some true) {text : Bytes}
    (ht : codec.encode c = some text) (x : Bytes) :
    (∃ s, Reach codec c old s ∧ s.file = x) ↔ x = old ∨ x <+: text := by
  constructor
  · rintro ⟨⟨f, st⟩, h, rfl⟩
    have hphase := h.phase
    cases st with
    | called => exact .inl hphase
    | checked => exact .inl hphase
    | declined => exact .inl hphase
    | refused => exact .inl hphase
    | opened =>
      have hf : f = [] := hphase
      exact .inr (hf ▸ List.nil_prefix)
    | raised => exact .inr (hphase.1 ▸ List.nil_prefix)
    | encoded => exact .inr (hphase.1 ▸ List.nil_prefix)
    | flushing rest => exact .inr ⟨rest, Option.some.inj (hphase.symm.trans ht)⟩
    | cut =>
      rcases hphase with ⟨rest, hrest⟩
      exact .inr ⟨rest, Option.some.inj (hrest.symm.trans ht)⟩
    | saved =>
      have hf : f = text := Option.some.inj (hphase.symm.trans ht)
      exact .inr (hf ▸ List.prefix_rfl)
  · rintro (rfl | ⟨rest, rfl⟩)
    · exact ⟨_, .refl, rfl⟩
    · exact ⟨_, reach_flushing hc ht, rfl⟩

/-- The save replaces the file in place. Until the open, and if it is never reached,
the file is the old one and is loaded as such; once everything is written and closed,
a load gives the new configuration; in between, and for good after a failed step, it is
empty or a beginning of the new text. -/
theorem load_during_save {s : State} (h : Reach codec c old s) :
    (s.stage.Untouched → s.file = old ∧ s.load codec = codec.decode old) ∧
    (s.stage = .saved → s.load codec = some (Lua.encode c).val) ∧
    (¬ s.stage.Untouched →
      s.file = [] ∨ ∃ text, codec.encode c = some text ∧ s.file <+: text) := by
  have hphase := h.phase
  rcases s with ⟨f, st⟩
  refine ⟨fun hst => ?_, fun hst => ?_, fun hst => ?_⟩
  · have hf : f = old := by
      cases st with
      | called => exact hphase
      | checked => exact hphase
      | declined => exact hphase
      | refused => exact hphase
      | _ => exact hst.elim
    exact ⟨hf, congrArg codec.decode hf⟩
  · cases hst
    exact codec.decode_encode hphase
  · cases st with
    | opened => exact .inl hphase
    | raised => exact .inl hphase.1
    | encoded => exact .inl hphase.1
    | flushing rest => exact .inr ⟨_, hphase, rest, rfl⟩
    | cut =>
      rcases hphase with ⟨rest, hrest⟩
      exact .inr ⟨_, hrest, rest, rfl⟩
    | saved => exact .inr ⟨_, hphase, List.prefix_rfl⟩
    | _ => exact (hst trivial).elim

/-! ## The text of the shipped configuration -/

/-- A string as `json.encode` writes it, with `\/` for a slash. -/
def stringText (s : String) : Bytes :=
  JsonText.quote (s.toList.flatMap fun c =>
    if c = '"' ∨ c = '\\' ∨ c = '/' then [0x5C, UInt8.ofNat c.toNat] else [UInt8.ofNat c.toNat])

mutual

/-- `json.encode`, for ASCII texts without control characters: a table with the keys
`1..n` is an array, any other one an object. -/
def jsonText : Value → Bytes
  | .nil => JsonText.ascii "null"
  | .bool b => JsonText.ascii (toString b)
  | .num n => JsonText.ascii (toString n)
  | .str s => stringText s
  | .table kvs =>
    if isSeq kvs then 0x5B :: ([0x2C].intercalate ((entryTexts kvs).map Prod.snd) ++ [0x5D])
    else 0x7B :: ([0x2C].intercalate ((entryTexts kvs).map fun e => e.1 ++ 0x3A :: e.2) ++ [0x7D])

/-- The texts of a table's keys and values. -/
def entryTexts : List (Key × Value) → List (Bytes × Bytes)
  | [] => []
  | (k, v) :: kvs => (stringText k.text, jsonText v) :: entryTexts kvs

end

/-- The `json` library at one configuration: its text is decoded again, and nothing
else is. -/
def Codec.single (c : Value) : Codec where
  encode v := if v = c then some (jsonText c) else none
  decode t := if t = jsonText c then some c.reload else none
  decode_encode := by
    intro v t h
    split at h
    · next hv =>
      cases h
      rw [if_pos rfl, hv]
    · cases h

/-- The configuration as shipped, with one workstation, saved over itself. -/
def shippedAgain : Value := shippedCfg ⟨"", "", ""⟩
  [shippedWks 1 "b4:2e:99:2c:dd:52" "192.168.0.3" "PC001" "win10cc.qcow2" "lord.qcow2"]

theorem jsonText_table_ne_nil (kvs : List (Key × Value)) : [] ≠ jsonText (.table kvs) := by
  unfold jsonText
  split
  · exact (List.cons_ne_nil _ _).symm
  · exact (List.cons_ne_nil _ _).symm

/-- Saving what is already there: between the open and the write the file is empty, and
a request that loads it then cannot decode it. -/
theorem load_finds_nothing :
    ∃ s, Reach (.single shippedAgain) shippedAgain (jsonText shippedAgain) s ∧
      s.file ≠ jsonText shippedAgain ∧ s.load (.single shippedAgain) = none := by
  have hne : [] ≠ jsonText shippedAgain := jsonText_table_ne_nil _
  refine ⟨⟨[], .opened⟩, reach_opened (shipped_checkconf _ _), hne, ?_⟩
  simp only [State.load, Codec.single]
  exact if_neg hne

theorem load_during_save_shipped :
    (⟨jsonText shippedAgain, .saved⟩ : State).load (.single shippedAgain) =
      some (Lua.encode shippedAgain).val := by
  have ht : (Codec.single shippedAgain).encode shippedAgain =
      some (jsonText shippedAgain ++ []) := by
    simp only [Codec.single, if_true, List.append_nil]
  have h : Reach (.single shippedAgain) shippedAgain [] ⟨jsonText shippedAgain, .saved⟩ :=
    (reach_flushing (shipped_checkconf _ _) ht).step .close
  exact (load_during_save h).2.1 rfl

end NsBoot.Save
