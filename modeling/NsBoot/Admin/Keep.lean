import NsBoot.Admin.Super

/-!
# NsBoot.Admin.Keep — what POST requests keep of the records

Rules for whole requests, whatever becomes of the keys when the file is written:

* `post_records`: a property that holds of every record of the table, when flags,
  devices, posted records and tombstones keep it;
* `post_apart`: a relation between any two records of the table that does not
  depend on flags and devices.
-/

namespace NsBoot

open Lua Prog Relation

theorem Edited.settings {p : Post} {c c' : Value} (h : Edited p c c') :
    c' = c ∨ SameSettings c c' := by
  rcases h with ⟨c₁, hsuper, hrec⟩
  have hfirst := SuperEdits.settings hsuper
  rcases hrec with rfl | hrec
  · exact hfirst
  · right
    rcases hfirst with rfl | hfirst
    · exact hrec.sameSettings
    · exact hfirst.trans hrec.sameSettings

/-- No request changes the settings. -/
theorem post_server {p : Post} {w : World} (hw : InMemory w.file.val) :
    Server.of? (exec (post p) w).final.file.val = Server.of? w.file.val := by
  rcases post_file (p := p) hw with hsame | ⟨c, hedit, hc, hfile⟩
  · rw [hsame]
  · rw [hfile, hc.sameSettings_reload.server]
    rcases hedit.settings with rfl | hset
    · rfl
    · exact hset.server

section Records

variable {P : Value → Prop} {p : Post} {c₀ : Value}

/-- `P` is kept by the super-mode commands of the request. -/
structure KeptBySuper (P : Value → Prop) (p : Post) (c₀ : Value) : Prop where
  flag : ∀ n cmd, p.id.bind numberOf = some n → p.supper.bind SupperCmd.of? = some cmd → cmd.Sets →
    ∀ v v', coreOf v = coreOf ((wksOf c₀).get (.num n)) → FlagStep cmd.flag v v' → P v → P v'
  nbd : ∀ v v', NbdStep v v' → P v → P v'

theorem KeptBySuper.edits (hP : KeptBySuper P p c₀) (h₀ : ∀ k, P ((wksOf c₀).get k)) {c : Value}
    (h : SuperEdits p c₀ c) : ∀ k, P ((wksOf c).get k) := by
  induction h with
  | refl => exact h₀
  | @tail c₁ c₂ hfirst hstep ih =>
    intro k
    cases hstep with
    | @flags n cmd hid hcmd hset hput =>
      by_cases hk : k = .num n
      · -- the record whose flags change, one flag after the other
        subst hk
        rcases hput with ⟨v, hv, -, hput⟩
        have hcore := SuperEdits.core hfirst (.num n)
        rw [hput.get_self]
        have hboth : coreOf v = coreOf ((wksOf c₀).get (.num n)) ∧ P v := by
          clear hput
          induction hv with
          | refl => exact ⟨hcore, ih _⟩
          | tail _ hflag ihv =>
            exact ⟨hflag.core.trans ihv.1, hP.flag n cmd hid hcmd hset _ _ ihv.1 hflag ihv.2⟩
        exact hboth.2
      · rw [hput.get_ne hk]
        exact ih k
    | @nbd ip n l hid hsup hip hne hfind hput =>
      by_cases hk : k = l
      · subst hk
        rcases hput with ⟨v, hv, -, hput⟩
        rw [hput.get_self]
        clear hput
        induction hv with
        | refl => exact ih _
        | tail _ hnbd ihv => exact hP.nbd _ _ hnbd ihv
      · rw [hput.get_ne hk]
        exact ih k

/-- A property of all records, over a whole request. -/
theorem post_records {w : World} (hw : InMemory w.file.val)
    (h : ∀ k, P ((wksOf w.file.val).get k)) (hsuper : KeptBySuper P p w.file.val)
    (happly : p.wksCmd = some "ApplyMy" → ∀ d, p.jsondata = some (some d) → P (d.val.get "WKS"))
    (hdelete : P tombstone) (hnil : P .nil) (hreload : ∀ v, Tame v → P v → P v.reload) :
    ∀ k, P ((wksOf (exec (post p) w).final.file.val).get k) := by
  rcases post_file (p := p) hw with hsame | ⟨c, ⟨c₁, hfirst, hrec⟩, hc, hfile⟩
  · rw [hsame]
    exact h
  · have h₁ : ∀ k, P ((wksOf c₁).get k) := hsuper.edits h hfirst
    have hall : ∀ k, P ((wksOf c).get k) := by
      intro k
      rcases hrec with rfl | hrec
      · exact h₁ k
      · cases hrec with
        | @apply tid d n hcmd hdata htid hfree hn hput =>
          by_cases hk : k = .num n
          · subst hk
            rw [hput.get_self]
            exact happly hcmd d hdata
          · rw [hput.get_ne hk]
            exact h₁ k
        | @delete v tid id n hid hcmd hn hold hv htid heq hput =>
          by_cases hk : k = .num n
          · subst hk
            rw [hput.get_self]
            exact hdelete
          · rw [hput.get_ne hk]
            exact h₁ k
    -- every record that is loaded again was saved
    intro k
    rw [hfile]
    by_cases hk : (wksOf c.reload).get k = .nil
    · rw [hk]
      exact hnil
    · rcases hc.record_source with ⟨f, hf⟩
      rcases hf k hk with ⟨l, -, hl⟩
      rw [hl]
      exact hreload _ (hc.records l) (hall l)

end Records

/-- A property that does not depend on flags and devices. -/
theorem KeptBySuper.of_core {P : Value → Prop} {p : Post} {c₀ : Value}
    (hP : ∀ v v', coreOf v' = coreOf v → P v → P v') : KeptBySuper P p c₀ := by
  constructor
  · intro n cmd _ _ _ v v' _ hflag hv
    exact hP v v' hflag.core hv
  · intro v v' hnbd hv
    exact hP v v' hnbd.core hv

/-! ## Two records -/

/-- `D` holds between any two records under different keys. -/
def AllPairs (D : Option Wks → Option Wks → Prop) (c : Value) : Prop :=
  ∀ k l, k ≠ l → D (coreOf ((wksOf c).get k)) (coreOf ((wksOf c).get l))

section Pairs

variable {D : Option Wks → Option Wks → Prop}

theorem AllPairs.put (hsymm : ∀ a b, D a b → D b a) {k : Key} {v c c' : Value} (h : AllPairs D c)
    (hput : Put k v c c') (hv : ∀ l, l ≠ k → D (coreOf v) (coreOf ((wksOf c).get l))) :
    AllPairs D c' := by
  intro a b hab
  by_cases ha : a = k
  · subst ha
    rw [hput.get_self, hput.get_ne hab.symm]
    exact hv b hab.symm
  · by_cases hb : b = k
    · subst hb
      rw [hput.get_self, hput.get_ne ha]
      exact hsymm _ _ (hv a ha)
    · rw [hput.get_ne ha, hput.get_ne hb]
      exact h a b hab

theorem Tame.core_reload {v : Value} (h : Tame v) : coreOf v.reload = coreOf v := by
  rw [coreOf, h.of?_reload, coreOf]

/-- Saved and loaded, different keys come from different keys. -/
theorem AllPairs.reload (hnone : ∀ a, D none a) (hsymm : ∀ a b, D a b → D b a) {c : Value}
    (h : AllPairs D c) (hc : InMemory c) : AllPairs D c.reload := by
  rcases hc.record_source with ⟨f, hf⟩
  intro k l hkl
  by_cases hk : (wksOf c.reload).get k = .nil
  · rw [hk]
    exact hnone _
  by_cases hl : (wksOf c.reload).get l = .nil
  · rw [hl]
    exact hsymm _ _ (hnone _)
  rcases hf k hk with ⟨k₀, rfl, hk₀⟩
  rcases hf l hl with ⟨l₀, rfl, hl₀⟩
  rw [hk₀, hl₀, (hc.records k₀).core_reload, (hc.records l₀).core_reload]
  refine h k₀ l₀ ?_
  rintro rfl
  exact hkl rfl

/-- A relation between the records, over a whole request. -/
theorem post_apart (hnone : ∀ a, D none a) (hsymm : ∀ a b, D a b → D b a) {p : Post} {w : World}
    (hw : InMemory w.file.val) (h : AllPairs D w.file.val)
    (happly : p.wksCmd = some "ApplyMy" → ∀ d n, p.jsondata = some (some d) →
      p.tid?.bind Value.tonumber = some n → ∀ l, l ≠ .num n →
      D (coreOf (d.val.get "WKS")) (coreOf ((wksOf w.file.val).get l))) :
    AllPairs D (exec (post p) w).final.file.val := by
  rcases post_file (p := p) hw with hsame | ⟨c, ⟨c₁, hfirst, hrec⟩, hc, hfile⟩
  · rw [hsame]
    exact h
  · have hcore := SuperEdits.core hfirst
    have h₁ : AllPairs D c₁ := by
      intro k l hkl
      rw [hcore k, hcore l]
      exact h k l hkl
    rw [hfile]
    refine AllPairs.reload hnone hsymm ?_ hc
    rcases hrec with rfl | hrec
    · exact h₁
    · cases hrec with
      | @apply tid d n hcmd hdata htid hfree hn hput =>
        refine h₁.put hsymm hput ?_
        intro l hl
        rw [hcore l]
        refine happly hcmd d n hdata ?_ l hl
        rw [Post.tid?_eq hdata htid]
        exact hn
      | @delete v tid id n hid hcmd hn hold hv htid heq hput =>
        exact h₁.put hsymm hput fun l _ => hnone _

end Pairs

end NsBoot
