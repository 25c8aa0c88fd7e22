import NsBoot.Admin.Frame
import NsBoot.Machine

/-!
# NsBoot.Admin.Super — requests that carry a super-mode command only

The page's super-mode buttons send `id` and `supper`, and nothing that any other
handler looks at (`SuperOnly`). Such a request is its super-mode handler
(`exec_post_super`); it leaves the settings and everything in the records but the
flags and devices alone.

* `SuperEdits.supper`: the flag of a workstation changes only by a command for it,
  to what the command sets;
* `post_kin`: settings, keys and records stay, and with them the children the
  workstations write to (`Kin.childOf?`);
* `disableUncommit_ok`: the flag is off after a `disableUncommit`;
* `post_disableCommit_off`: `disableCommit` starts no process while the flag is not
  the string `"1"`.
-/

namespace NsBoot

open Lua Prog Relation

/-- A body with a super-mode command only. -/
structure SuperOnly (p : Post) : Prop where
  cmd : p.cmd = none
  wksCmd : p.wksCmd = none

instance (p : Post) : Decidable (SuperOnly p) :=
  decidable_of_iff (p.cmd = none ∧ p.wksCmd = none)
    ⟨fun h => ⟨h.1, h.2⟩, fun h => ⟨h.cmd, h.wksCmd⟩⟩

/-- The super-mode flag of a workstation, as it is in the record. -/
def supperOf (c : Value) (n : Int) : Value := ((wksOf c).get (.num n)).get "supper"

/-- The request is the command `t` for workstation `n`. -/
def Post.Is (p : Post) (n : Int) (t : String) : Prop :=
  p.id.bind numberOf = some n ∧ p.supper = some t

instance (p : Post) (n : Int) (t : String) : Decidable (p.Is n t) :=
  inferInstanceAs (Decidable (_ ∧ _))

section Request

variable {p : Post} (hp : SuperOnly p)

include hp

/-- The other handlers do nothing. -/
theorem exec_post_super {w : World} (hconf : checkconf w.file.val = some true) :
    exec (post p) w = match exec (supperPart p w.file.val) w with
      | .ok _ w' => .ok none w'
      | .error w' => .error w'
      | .hang w' => .hang w' := by
  have hrest (c : Value) (w' : World) : exec (do
      powerOn p c
      let reply ← lift (getMy p (← get).arp c)
      let c ← applyMy p c
      deleteMachine p c
      return reply : Sys (Option Value)) w' = .ok none w' := by
    simp [powerOn_of_none hp.cmd, getMy, applyMy, deleteMachine, hp.wksCmd]
    rfl
  unfold post loadFromFile
  rw [exec_observe_bind, hconf, lift_some_bind, if_pos rfl, exec_observe_bind, exec_bind]
  cases exec (supperPart p w.file.val) w with
  | ok c w' => exact hrest c w'
  | error w' => rfl
  | hang w' => rfl

/-- What such a request saves. -/
theorem post_super_saved (w : World) :
    (exec (post p) w).final.file = w.file ∨
    ∃ c, SuperEdits p w.file.val c ∧ checkconf c = some true ∧
      (exec (post p) w).final.file = encode c := by
  rcases post_saved p w with hsame | ⟨c, ⟨c₁, hsuper, hrec⟩, hconf, hfile⟩
  · exact Or.inl hsame
  · rcases hrec with rfl | hrec
    · exact Or.inr ⟨c, hsuper, hconf, hfile⟩
    · -- no record was posted or deleted
      cases hrec with
      | apply hcmd => simp [hp.wksCmd] at hcmd
      | delete _ hcmd => simp [hp.wksCmd] at hcmd

end Request

/-! ## The flag -/

theorem FlagStep.supper_get {x : String} {v v' : Value} (h : FlagStep x v v') :
    v'.get "supper" = v.get "supper" ∨ v'.get "supper" = .str x := by
  cases h with
  | supper h =>
    have hself := Value.assign?_get_self h
    exact Or.inr (Option.some.inj hself).symm
  | commit i h => exact Or.inl (Value.assign?_get_ne h (by decide))

theorem flagSteps_supper {x : String} {v v' : Value} (h : ReflTransGen (FlagStep x) v v') :
    v'.get "supper" = v.get "supper" ∨ v'.get "supper" = .str x := by
  induction h with
  | refl => exact Or.inl rfl
  | tail _ hstep ih =>
    rcases hstep.supper_get with hsame | hset
    · rwa [hsame]
    · exact Or.inr hset

/-- The flag of a workstation changes only by a command for it. -/
theorem SuperEdit.supper {p : Post} {c c' : Value} (h : SuperEdit p c c') (n : Int) :
    supperOf c' n = supperOf c n ∨ p.id.bind numberOf = some n ∧
      ∃ cmd, p.supper.bind SupperCmd.of? = some cmd ∧ supperOf c' n = .str cmd.flag := by
  cases h with
  | @flags m cmd hid hcmd hset hput =>
    by_cases hn : Key.num n = .num m
    · -- the record the command is for
      cases hn
      rcases hput with ⟨v, hv, -, hput⟩
      unfold supperOf
      rw [hput.get_self]
      rcases flagSteps_supper hv with hsame | hset
      · exact Or.inl hsame
      · exact Or.inr ⟨hid, cmd, hcmd, hset⟩
    · refine Or.inl ?_
      unfold supperOf
      rw [hput.get_ne hn]
  | nbd _ _ _ _ _ hput =>
    exact Or.inl (hput.same (g := fun v => v.get "supper")
      (fun _ _ hstep => hstep.get_ne (by decide)) (.num n))

theorem SuperEdits.supper {p : Post} {c c' : Value} (h : SuperEdits p c c') (n : Int) :
    supperOf c' n = supperOf c n ∨ p.id.bind numberOf = some n ∧
      ∃ cmd, p.supper.bind SupperCmd.of? = some cmd ∧ supperOf c' n = .str cmd.flag := by
  induction h with
  | refl => exact Or.inl rfl
  | tail _ hstep ih =>
    rcases hstep.supper n with hsame | hset
    · rwa [hsame]
    · exact Or.inr hset

/-! ## The rest of the record -/

theorem SuperEdits.core {p : Post} {c c' : Value} (h : SuperEdits p c c') (k : Key) :
    coreOf ((wksOf c').get k) = coreOf ((wksOf c).get k) :=
  h.same (fun _ _ _ => FlagStep.core) (fun _ _ => NbdStep.core) k

theorem SuperEdits.hasKeys {p : Post} {N : Nat} {c c' : Value} (h : SuperEdits p c c')
    (hc : HasKeys N c) : HasKeys N c' := by
  induction h with
  | refl => exact hc
  | tail _ hstep ih =>
    cases hstep with
    | flags _ _ _ hput => exact hput.hasKeys ih fun _ _ => FlagStep.ne_nil
    | nbd _ _ _ _ _ hput => exact hput.hasKeys ih fun _ _ => NbdStep.ne_nil

theorem SuperEdits.settings {p : Post} {c c' : Value} (h : SuperEdits p c c') :
    c' = c ∨ SameSettings c c' := by
  induction h with
  | refl => exact Or.inl rfl
  | @tail c₁ c₂ _ hstep ih =>
    have hset : SameSettings c₁ c₂ := by
      cases hstep with
      | flags _ _ _ hput => exact hput.sameSettings
      | nbd _ _ _ _ _ hput => exact hput.sameSettings
    rcases ih with rfl | ih
    · exact Or.inr hset
    · exact Or.inr (ih.trans hset)

/-- A configuration after super-mode requests: the settings, the keys, and the
records but for flags and devices, are those it had before. -/
structure Kin (N : Nat) (c c' : Value) : Prop where
  keys : HasKeys N c'
  server : Server.of? c' = Server.of? c
  checkconf : NsBoot.checkconf c' = NsBoot.checkconf c
  core : ∀ k, coreOf ((wksOf c').get k) = coreOf ((wksOf c).get k)

theorem SuperEdits.kin {p : Post} {N : Nat} {c c' : Value} (h : SuperEdits p c c')
    (hc : HasKeys N c) : Kin N c c' := by
  refine ⟨SuperEdits.hasKeys h hc, ?_, ?_, SuperEdits.core h⟩
  · rcases SuperEdits.settings h with rfl | hset
    · rfl
    · exact hset.server
  · rcases SuperEdits.settings h with rfl | hset
    · rfl
    · exact hset.checkconf

theorem Kin.reload {N : Nat} {c c' : Value} (h : Kin N c c') (hc : InMemory c') :
    Kin N c c'.reload := by
  refine ⟨h.keys.reload hc, ?_, ?_, ?_⟩
  · rw [hc.sameSettings_reload.server, h.server]
  · rw [hc.sameSettings_reload.checkconf, h.checkconf]
  · intro k
    rw [h.keys.get_reload hc, ← h.core k]
    unfold coreOf
    rw [(hc.records k).of?_reload]

/-- What a workstation writes to does not depend on the flags. -/
theorem childOf?_eq (c : Value) (k : Key) (i : Nat) : childOf? c k i = (do
    let s ← Server.of? c
    let r ← coreOf ((wksOf c).get k)
    let v ← r.img[i]?
    let path ← v.path.concat?
    if v.enable.isOne ∧ v.isDyn then some (childName s path r.vid) else none) := by
  unfold childOf? coreOf
  cases Server.of? c with
  | none => rfl
  | some s =>
    cases Wks.of? ((wksOf c).get k) with
    | none => rfl
    | some r =>
      simp only [Option.map_some, Option.bind_eq_bind, Option.bind_some, Wks.core,
        List.getElem?_map]
      cases r.img[i]? with
      | none => rfl
      | some v => rfl

theorem Kin.childOf? {N : Nat} {c c' : Value} (h : Kin N c c') (k : Key) (i : Nat) :
    NsBoot.childOf? c' k i = NsBoot.childOf? c k i := by
  rw [childOf?_eq, childOf?_eq, h.server, h.core]

/-! ## Through the file -/

theorem supperOf_reload {N : Nat} {c : Value} (hkeys : HasKeys N c) (hmem : InMemory c) (n : Int) :
    supperOf c.reload n = supperOf c n := by
  unfold supperOf
  rw [hkeys.get_reload hmem]
  exact (hmem.records _).get_reload rfl (by decide)

section File

variable {p : Post} (hp : SuperOnly p) {N : Nat} {w : World} (hkeys : HasKeys N w.file.val)

include hp hkeys

/-- The file after a super-mode request, by what the request did in memory. -/
theorem post_super_file : (exec (post p) w).final.file = w.file ∨ ∃ c, SuperEdits p w.file.val c ∧
    InMemory c ∧ (exec (post p) w).final.file.val = c.reload := by
  rcases post_super_saved hp w with hsame | ⟨c, hedits, -, hfile⟩
  · exact Or.inl hsame
  · refine Or.inr ⟨c, hedits, SuperEdits.inMemory hedits hkeys.inMemory, ?_⟩
    rw [hfile]
    rfl

theorem post_kin : Kin N w.file.val (exec (post p) w).final.file.val := by
  rcases post_super_file hp hkeys with hsame | ⟨c, hedits, hmem, hfile⟩
  · rw [hsame]
    exact ⟨hkeys, rfl, rfl, fun _ => rfl⟩
  · rw [hfile]
    exact (SuperEdits.kin hedits hkeys).reload hmem

theorem post_supper (n : Int) :
    supperOf (exec (post p) w).final.file.val n = supperOf w.file.val n ∨
    p.id.bind numberOf = some n ∧ ∃ cmd, p.supper.bind SupperCmd.of? = some cmd ∧
      supperOf (exec (post p) w).final.file.val n = .str cmd.flag := by
  rcases post_super_file hp hkeys with hsame | ⟨c, hedits, hmem, hfile⟩
  · rw [hsame]
    exact Or.inl rfl
  · rw [hfile, supperOf_reload (SuperEdits.hasKeys hedits hkeys) hmem]
    exact SuperEdits.supper hedits n

end File

/-! ## Ending a session -/

theorem clearFlags_supper {n : Int} {c c' : Value} (h : clearFlags n c = some c') :
    supperOf c' n = .str "0" := by
  simp only [clearFlags, Option.bind_eq_bind, Option.bind_eq_some_iff] at h
  rcases h with ⟨c₁, hsup, hfold⟩
  have hone : supperOf c₁ n = .str "0" := by
    rcases Value.assign?_append (p := ["wks", .num n]) hsup with ⟨v, v', -, hassign, hput⟩
    unfold supperOf
    rw [Put.get_self hput]
    exact (Option.some.inj (Value.assign?_get_self hassign)).symm
  rcases Puts.of_foldlM (S := FlagStep "0") (k := .num n) (fun i _ c c' hi => setCommit_puts hi)
    hfold with rfl | ⟨v, hv, -, hput⟩
  · exact hone
  · -- clearing the slots can only clear the flag again
    unfold supperOf at hone ⊢
    rw [hput.get_self]
    rcases flagSteps_supper hv with hsame | hset
    · rw [hsame, hone]
    · exact hset

theorem saveToFile_file {c : Value} (hconf : checkconf c = some true) {w w' : World} {u : Unit}
    (h : exec (saveToFile c) w = .ok u w') : w'.file = encode c := by
  unfold saveToFile at h
  rw [hconf, lift_some_bind, exec_when_ok_iff] at h
  rcases h with ⟨-, hsave⟩ | ⟨hno, -⟩
  · rw [← exec_perform_ok_iff.1 hsave]
  · exact absurd rfl hno

section Ending

variable {p : Post} {N : Nat} {w : World} (hkeys : HasKeys N w.file.val)
  (hconf : checkconf w.file.val = some true)

include hkeys hconf

/-- The handler of `disableUncommit`, when it returns. -/
theorem endSession_ok {n : Int} (hcmd : p.Is n "disableUncommit") {c : Value} {w' : World}
    (h : exec (endSession n) w = .ok c w') : supperOf w'.file.val n = .str "0" := by
  unfold endSession loadFromFile at h
  rw [exec_observe_bind] at h
  obtain ⟨c₁, _, hlift, h⟩ := exec_bind_ok_iff.1 h
  obtain ⟨hclear, rfl⟩ := exec_lift_ok_iff.1 hlift
  obtain ⟨_, w₁, hsave, h⟩ := exec_bind_ok_iff.1 h
  obtain ⟨rfl, rfl⟩ := exec_pure_ok_iff.1 h
  have hedits : SuperEdits p w.file.val c₁ := by
    have hof : p.supper.bind SupperCmd.of? = some .disableUncommit := by
      rw [hcmd.2]
      rfl
    exact .single (.flags hcmd.1 hof (by decide) (clearFlags_puts hclear))
  have hmem : InMemory c₁ := SuperEdits.inMemory hedits hkeys.inMemory
  have hconf₁ : checkconf c₁ = some true := by
    rw [(SuperEdits.kin hedits hkeys).checkconf, hconf]
  rw [saveToFile_file hconf₁ hsave, ← clearFlags_supper hclear]
  exact supperOf_reload (SuperEdits.hasKeys hedits hkeys) hmem n

theorem disableUncommit_ok {n : Int} (hp : SuperOnly p) (hcmd : p.Is n "disableUncommit")
    {a : Option Value} {w' : World} (h : exec (post p) w = .ok a w') :
    supperOf w'.file.val n ≠ .str "1" := by
  rcases Option.bind_eq_some_iff.1 hcmd.1 with ⟨id, hid, hn⟩
  rw [exec_post_super hp hconf] at h
  cases hpart : exec (supperPart p w.file.val) w with
  | error w₁ | hang w₁ => simp [hpart] at h
  | ok c w₁ =>
    rw [hpart] at h
    simp only [Result.ok.injEq] at h
    rw [← h.2]
    simp only [supperPart, hid, hcmd.2, Option.bind_some, SupperCmd.of?, hconf, lift_some_bind,
      if_true, hn] at hpart
    obtain ⟨v, _, hlift, hpart⟩ := exec_bind_ok_iff.1 hpart
    obtain ⟨hv, rfl⟩ := exec_lift_ok_iff.1 hlift
    have hget : (wksOf w.file.val).get (.num n) = v := at?_wks hv
    rcases exec_ite_ok_iff.1 hpart with ⟨hnil, hret⟩ | ⟨-, hpart⟩
    · -- there is no such workstation
      obtain ⟨-, rfl⟩ := exec_pure_ok_iff.1 hret
      rw [supperOf, hget, hnil]
      decide
    · rcases exec_ite_ok_iff.1 hpart with ⟨hfalse, hret⟩ | ⟨-, hend⟩
      · obtain ⟨-, rfl⟩ := exec_pure_ok_iff.1 hret
        rw [supperOf, hget, hfalse]
        decide
      · rw [endSession_ok hkeys hconf hcmd hend]
        decide

end Ending

/-- The loop of `disableCommit` is skipped unless the flag is the string `"1"`. -/
theorem commitSlots_off {n : Int} {c : Value} (hoff : supperOf c n ≠ .str "1") (w : World) :
    (exec (commitSlots n c) w).final = w := by
  unfold commitSlots
  cases hv : c.at? ["wks", .num n] with
  | none => rfl
  | some v =>
    rw [lift_some_bind]
    split
    · rfl
    · cases hs : v.at? ["supper"] with
      | none => rfl
      | some supper =>
        have hne : supper ≠ .str "1" := by
          intro h
          apply hoff
          unfold supperOf
          rw [at?_wks hv, at?_one hs, h]
        rw [lift_some_bind, if_neg hne]
        rfl

/-- Out of super mode `disableCommit` starts no process. -/
theorem disableCommit_off {n : Int} {w : World} (hoff : supperOf w.file.val n ≠ .str "1") :
    Same World.procs w (exec (disableCommit n) w).final := by
  have hsave (c : Value) : Does (fun _ => Same World.procs) (fun _ => True)
      (do let c ← lift (clearFlags n c); saveToFile c; return c : Sys Value) := by
    refine Does.bind (Does.lift fun _ _ => trivial) fun c' _ =>
      Does.bind (Does.bind (Does.lift fun _ _ => trivial) fun _ _ => Does.when fun _ => ?_)
        fun _ _ =>
        Does.done _
    exact Does.perform fun _ => rfl
  have hloop := commitSlots_off hoff w
  unfold disableCommit loadFromFile
  rw [exec_observe_bind, exec_bind]
  cases hslots : exec (commitSlots n w.file.val) w with
  | error w₁ | hang w₁ =>
    rw [hslots] at hloop
    exact congrArg World.procs hloop
  | ok c w₁ =>
    rw [hslots] at hloop
    obtain rfl : w₁ = w := hloop
    exact (hsave c).final w₁

theorem post_disableCommit_off {p : Post} {n : Int} (hp : SuperOnly p)
    (hcmd : p.Is n "disableCommit") {w : World} (hconf : checkconf w.file.val = some true)
    (hoff : supperOf w.file.val n ≠ .str "1") : (exec (post p) w).final.procs = w.procs := by
  rcases Option.bind_eq_some_iff.1 hcmd.1 with ⟨id, hid, hn⟩
  have hpart : (exec (supperPart p w.file.val) w).final.procs = w.procs := by
    simp only [supperPart, hid, hcmd.2, Option.bind_some, SupperCmd.of?, hconf, lift_some_bind,
      if_true, hn]
    cases wksAt? w.file.val (some n) with
    | none => rfl
    | some v =>
      rw [lift_some_bind]
      split
      · rfl
      · split
        · rfl
        · exact disableCommit_off hoff
  rw [exec_post_super hp hconf]
  cases hx : exec (supperPart p w.file.val) w with
  | ok c w' | error w' | hang w' =>
    rw [hx] at hpart
    exact hpart

end NsBoot
