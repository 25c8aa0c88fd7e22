import NsBoot.Admin.Pages
import NsBoot.Lib.Hangs
import NsBoot.Listing
import NsBoot.Machine

/-!
# NsBoot.Boot.Loop — the loop that waits for the target

`LunAdd` repeats `tgtstart` until the listing of tgtd shows the workstation's target.

* `LoopEnds`: the loop, round by round.
* `Seen`: the line of a target passes the two greps.
* `lun_loop_ends_iff`: the loop ends exactly when the target is seen already, or when
  the services listen, the workstation is enabled, nobody has its tid or its name, and
  the target will be seen.
* `hangs_lunAdd_iff`: what `lunAdd` waits for is the end of this loop.
-/

namespace NsBoot

open Lua Prog Run

variable (s : Server) (r : Wks)

/-- The loop comes to its end: the target is seen, or a round raises an error, or a
round returns and the loop ends from there. -/
inductive LoopEnds : World → Prop where
  | seen {w} (h : w.tgtUsed (targetName s r.vid)) : LoopEnds w
  | raises {w w'} (h : ¬ w.tgtUsed (targetName s r.vid))
      (hround : exec (tgtstart s r) w = .error w') : LoopEnds w
  | again {w w'} (h : ¬ w.tgtUsed (targetName s r.vid))
      (hround : exec (tgtstart s r) w = .ok () w') (hrest : LoopEnds w') : LoopEnds w

/-- The line of the target passes the greps of `cmd.tgt.used`. -/
def Seen (t : Target) (name : String) : Prop :=
  Grep.grep "Target [0-9]:" t.line ∧ Grep.grep name t.line

instance (t : Target) (name : String) : Decidable (Seen t name) :=
  inferInstanceAs (Decidable (_ ∧ _))

/-- The target is seen already; or it will be made, and seen then. -/
def Startable (w : World) : Prop :=
  w.tgtUsed (targetName s r.vid) ∨
  (w.services ∧ r.enable.isOne) ∧ ∀ tid ∈ r.tid.concat?,
    (∀ t ∈ w.tgts, t.tid ≠ tid ∧ t.name ≠ targetName s r.vid) ∧
    Seen ⟨tid, targetName s r.vid, []⟩ (targetName s r.vid)

instance (w : World) : Decidable (Startable s r w) :=
  inferInstanceAs (Decidable (_ ∨ _ ∧ ∀ tid ∈ r.tid.concat?, _ ∧ _))

variable {s r} {w : World}

theorem tgtUsed_iff {name : String} : w.tgtUsed name ↔ ∃ t ∈ w.tgts, Seen t name := by
  simp [World.tgtUsed, Seen]

/-! ## One round -/

theorem exec_tgtstart_off (hen : ¬ (w.services ∧ r.enable.isOne)) :
    exec (tgtstart s r) w = .ok () w := by
  unfold tgtstart when
  rw [exec_get_bind, if_neg fun h => hen ⟨h.1, h.2.2⟩]
  rfl

theorem exec_tgtstart_none (h : ¬ w.tgtUsed (targetName s r.vid))
    (hen : w.services ∧ r.enable.isOne) (htid : r.tid.concat? = none) :
    exec (tgtstart s r) w = .error w := by
  simp [tgtstart, when, h, hen, htid]

theorem exec_tgtstart_some (h : ¬ w.tgtUsed (targetName s r.vid))
    (hen : w.services ∧ r.enable.isOne) {tid : String} (htid : r.tid.concat? = some tid) :
    exec (tgtstart s r) w = .ok () (w.tgtNew tid (targetName s r.vid)) := by
  simp [tgtstart, when, h, hen, htid]

/-- tgtd takes a target whose tid and name nobody has. -/
theorem tgtNew_of_free {tid name : String} (h : ∀ t ∈ w.tgts, t.tid ≠ tid ∧ t.name ≠ name) :
    w.tgtNew tid name = { w with tgts := w.tgts ++ [⟨tid, name, []⟩] } := by
  unfold World.tgtNew
  rw [if_neg]
  simp only [List.any_eq_true, decide_eq_true_eq, not_exists, not_and, not_or]
  exact h

theorem tgtNew_of_taken {tid name : String} (h : ¬ ∀ t ∈ w.tgts, t.tid ≠ tid ∧ t.name ≠ name) :
    w.tgtNew tid name = w := by
  unfold World.tgtNew
  rw [if_pos]
  by_contra hany
  simp only [List.any_eq_true, decide_eq_true_eq, not_exists, not_and, not_or] at hany
  exact h hany

/-! ## The loop -/

theorem LoopEnds.startable (h : LoopEnds s r w) : Startable s r w := by
  induction h with
  | seen h => exact .inl h
  | @raises w _ h hround =>
    by_cases hen : w.services ∧ r.enable.isOne
    · cases htid : r.tid.concat? with
      | none =>
        refine .inr ⟨hen, fun tid hmem => ?_⟩
        rw [htid] at hmem
        cases hmem
      | some tid =>
        rw [exec_tgtstart_some h hen htid] at hround
        cases hround
    · rw [exec_tgtstart_off hen] at hround
      cases hround
  | @again w w' h hround _ ih =>
    by_cases hen : w.services ∧ r.enable.isOne
    · cases htid : r.tid.concat? with
      | none =>
        rw [exec_tgtstart_none h hen htid] at hround
        cases hround
      | some tid =>
        rw [exec_tgtstart_some h hen htid] at hround
        cases hround
        by_cases hfree : ∀ t ∈ w.tgts, t.tid ≠ tid ∧ t.name ≠ targetName s r.vid
        · -- the new target is the only one that can have made the difference
          rw [tgtNew_of_free hfree] at ih
          have hseen : Seen ⟨tid, targetName s r.vid, []⟩ (targetName s r.vid) := by
            rcases ih with hused | ⟨-, hall⟩
            · rcases tgtUsed_iff.1 hused with ⟨t, ht, hseen⟩
              rcases List.mem_append.1 ht with ht | ht
              · exact absurd (tgtUsed_iff.2 ⟨t, ht, hseen⟩) h
              · rw [List.mem_singleton.1 ht] at hseen
                exact hseen
            · exact (hall tid htid).2
          refine .inr ⟨hen, fun tid' htid' => ?_⟩
          rw [htid, Option.mem_some_iff] at htid'
          subst htid'
          exact ⟨hfree, hseen⟩
        · rwa [tgtNew_of_taken hfree] at ih
    · rw [exec_tgtstart_off hen] at hround
      cases hround
      exact ih

/-- One round is enough. -/
theorem Startable.round (h : Startable s r w) (hused : ¬ w.tgtUsed (targetName s r.vid)) :
    exec (tgtstart s r) w = .error w ∨
    ∃ w', exec (tgtstart s r) w = .ok () w' ∧ w'.tgtUsed (targetName s r.vid) := by
  rcases h.resolve_left hused with ⟨hen, hall⟩
  cases htid : r.tid.concat? with
  | none => exact .inl (exec_tgtstart_none hused hen htid)
  | some tid =>
    rcases hall tid htid with ⟨hfree, hseen⟩
    refine .inr ⟨_, exec_tgtstart_some hused hen htid, ?_⟩
    rw [tgtNew_of_free hfree]
    exact tgtUsed_iff.2 ⟨_, List.mem_append_right _ (List.mem_singleton_self _), hseen⟩

theorem Startable.loopEnds (h : Startable s r w) : LoopEnds s r w := by
  by_cases hused : w.tgtUsed (targetName s r.vid)
  · exact .seen hused
  · rcases h.round hused with herror | ⟨w', hround, hused'⟩
    · exact .raises hused herror
    · exact .again hused hround (.seen hused')

/-- **The loop ends exactly when the workstation's target is seen already, or can be
made and will be seen.** -/
theorem lun_loop_ends_iff (s : Server) (r : Wks) (w : World) :
    LoopEnds s r w ↔ Startable s r w := ⟨LoopEnds.startable, Startable.loopEnds⟩

/-! ## The model's wait -/

theorem lunAddSlot_prompt (tid : Value) (i : Nat) (v : Img) (dev : Option String) :
    Prompt (lunAddSlot s tid i v dev) := by
  refine Prompt.bind (Prompt.when ?_) fun _ => Prompt.when ?_
  · exact Prompt.bind (.lift _) fun _ => Prompt.bind (.lift _) fun _ => .modify _
  · refine Prompt.bind (.lift _) fun _ => Prompt.bind .get fun _ => Prompt.when ?_
    exact Prompt.bind (.lift _) fun _ => .modify _

/-- `lunAdd` runs one round and then waits; what it waits for does not come exactly
when the loop never ends. -/
theorem hangs_lunAdd_iff (devs : List (Option String)) :
    Hangs (lunAdd s r devs) w ↔ ¬ LoopEnds s r w := by
  have hslots : Prompt ((r.img.zipIdx 1).forM fun vi =>
      lunAddSlot s r.tid vi.2 vi.1 ((devs[vi.2 - 1]?).join)) :=
    Prompt.forM fun vi _ => lunAddSlot_prompt _ _ _ _
  have hstart : Prompt (tgtstart s r) :=
    Prompt.bind .get fun _ => Prompt.when (Prompt.bind (.lift _) fun _ => .modify _)
  unfold lunAdd
  rw [hangs_bind_of_ok (exec_get w), hangs_bind_iff, hangs_when_iff, hangs_bind_iff]
  constructor
  · rintro (⟨hused, hhang | ⟨_, w', hround, hhang⟩⟩ | ⟨_, w', -, hhang⟩) hends
    · exact hstart w hhang
    · rw [hangs_wait_iff] at hhang
      rcases hends.startable.round hused with herror | ⟨w'', hround', hused'⟩
      · rw [herror] at hround
        cases hround
      · rw [hround'] at hround
        cases hround
        rw [hused'] at hhang
        cases hhang
    · exact hslots w' hhang
  · intro hends
    have hused : ¬ w.tgtUsed (targetName s r.vid) := fun h => hends (.seen h)
    refine .inl ⟨hused, .inr ?_⟩
    cases hround : exec (tgtstart s r) w with
    | ok a w' =>
      refine ⟨a, w', rfl, hangs_wait_iff.2 ?_⟩
      by_contra hused'
      exact hends (.again hused hround (.seen (by simpa using hused')))
    | error w' => exact absurd (.raises hused hround) hends
    | hang w' => exact absurd ⟨w', hround⟩ (hstart w)

/-! ## Loops that never end -/

/-- A record for the first slot, as the dialog saves it. -/
def editedAs (enable : Int) (mac : String) : Post :=
  ⟨some "1", none, none, some "ApplyMy", some (some (encode (.table [("WKS",
    .table [("enable", .num enable), ("tid", .str "1"), ("mac", .str mac),
      ("ipv4", .str "192.168.0.3"), ("name", .str "PC001"), ("fileboot", .str "ipxe"),
      ("supper", .num 0), ("opt", array []), ("img", array [])])])))⟩

/-- The record as it is stored. -/
def editedWks (enable : Int) (mac : String) : Wks :=
  ⟨mac, .str "192.168.0.3", .str "1", .num enable, .num 0, []⟩

/-- The workstation is switched off. -/
def switchedOff : List Event := [.post (editedAs 0 "b4:2e:99:2c:dd:52")]

/-- The workstation boots, and gets another network card. -/
def newCard : List Event := [.boot "192.168.0.3", .post (editedAs 1 "b4:2e:99:2c:dd:53")]

/-- A workstation that is switched off asks for its boot script: no round makes its
target. A workstation that got another network card does: its tid belongs to the target
of the old one, and no round makes another. -/
theorem lun_loop_forever :
    (∃ k s r, Booted (run World.step oneStation switchedOff) "192.168.0.3" k s r ∧
      ¬ LoopEnds s r (run World.step oneStation switchedOff)) ∧
    ∃ k s r, Booted (run World.step oneStation newCard) "192.168.0.3" k s r ∧
      ¬ LoopEnds s r (run World.step oneStation newCard) := by
  constructor
  · refine ⟨.num 1, shippedServer, editedWks 0 "b4:2e:99:2c:dd:52", ⟨?_, ?_, ?_, ?_, ?_⟩, ?_⟩
    · decide +kernel
    · decide
    · decide +kernel
    · decide +kernel
    · decide +kernel
    · intro h
      exact absurd h.startable (by decide +kernel)
  · refine ⟨.num 1, shippedServer, editedWks 1 "b4:2e:99:2c:dd:53", ⟨?_, ?_, ?_, ?_, ?_⟩, ?_⟩
    · decide +kernel
    · decide
    · decide +kernel
    · decide +kernel
    · decide +kernel
    · intro h
      exact absurd h.startable (by decide +kernel)

end NsBoot
