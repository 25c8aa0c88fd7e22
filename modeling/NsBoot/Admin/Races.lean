import NsBoot.Admin.Sound
import NsBoot.Lib.Pool
import NsBoot.Shipped

/-!
# NsBoot.Admin.Races — two POST requests at once

nginx may serve two requests in two workers at once, and nothing keeps the one from
reading and writing `nsboot.json` while the other is at work. A request reads the whole
file, at most three times, and then writes the whole file, at most once.

* `OneSave`: until it writes, a request leaves the file alone; afterwards it only writes
  dhcpd.conf.
* `afterSecond_cases`: after its second read a request may read once more, and then no
  more.
* `posts_serial`: when the one has written the file before the other reads it for the last
  time, the file ends as it does when the requests run one after the other.
-/

namespace NsBoot

open Lua Prog Run

/-! ## A request, read by read -/

/-- The handlers that follow the super-mode ones. -/
def otherHandlers (p : Post) (c : Value) : Sys (Option Value) := do
  powerOn p c
  let reply ← lift (getMy p (← get).arp c)
  let c ← applyMy p c
  deleteMachine p c
  return reply

/-- What is left of a request that has read the file twice. -/
def afterSecond (p : Post) (c : Value) : Sys (Option Value) := supperPart p c >>= otherHandlers p

/-- What is left of a request that has read the file once. -/
def afterFirst (p : Post) (c : Value) : Sys (Option Value) := do
  if ← lift (checkconf c) then
    let c ← loadFromFile
    afterSecond p c
  else return none

theorem post_eq (p : Post) : post p = loadFromFile >>= afterFirst p := rfl

/-- A body with a super-mode command, or with a command for a record, but not both. -/
def Post.Single (p : Post) : Prop := p.wksCmd = none ∨ p.supper.bind SupperCmd.of? = none

instance (p : Post) : Decidable p.Single := inferInstanceAs (Decidable (_ ∨ _))

/-! ## dhcpd.conf is not read -/

/-- The states differ in dhcpd.conf at most. -/
def BesideDhcpd (w w' : World) : Prop := ∃ t, w' = { w with dhcpd := t }

instance : IsPreorder World BesideDhcpd where
  refl w := ⟨w.dhcpd, rfl⟩
  trans := by
    rintro w _ _ ⟨t, rfl⟩ ⟨t', rfl⟩
    exact ⟨t', rfl⟩

theorem BesideDhcpd.file {w w' : World} (h : BesideDhcpd w w') : w'.file = w.file := by
  rcases h with ⟨t, rfl⟩
  rfl

section Respects

variable {s : Server} {r : Wks}

theorem loadFromFile_bind_respects {α : Type} {k : Value → Sys α}
    (hk : ∀ c, Respects BesideDhcpd (k c)) : Respects BesideDhcpd (loadFromFile >>= k) := by
  refine Respects.observe_bind ?_ fun w => hk _
  rintro w _ ⟨t, rfl⟩
  rfl

theorem saveToFile_respects (c : Value) : Respects BesideDhcpd (saveToFile c) := by
  refine Respects.bind (.lift _) fun _ => Respects.when fun _ => Respects.perform ?_
  rintro w _ ⟨t, rfl⟩
  exact ⟨t, rfl⟩

theorem tgtstop_respects : Respects BesideDhcpd (tgtstop s r) := by
  refine Respects.get_bind ?_ fun w => Respects.when fun _ =>
    Respects.bind (.lift _) fun tid => Respects.modify ?_
  · rintro w _ ⟨t, rfl⟩
    rfl
  · rintro w _ ⟨t, rfl⟩
    exact ⟨t, rfl⟩

theorem nbdFreeSlot_respects (v : Img) : Respects BesideDhcpd (nbdFreeSlot s r v) := by
  refine Respects.bind (.lift _) fun path => Respects.get_bind ?_ fun w => ?_
  · rintro w _ ⟨t, rfl⟩
    rfl
  · split
    · refine Respects.bind tgtstop_respects fun _ =>
        Respects.bind (Respects.modify ?_) fun _ => .pure _
      rintro w _ ⟨t, rfl⟩
      exact ⟨t, rfl⟩
    · exact .pure _

theorem freeByIPv4_respects (ip c : Value) : Respects BesideDhcpd (freeByIPv4 s ip c) :=
  Respects.bind (.lift _) fun _ => Respects.bind (.lift _) fun _ => Respects.bind (.lift _) fun _ =>
    Respects.bind tgtstop_respects fun _ =>
      Respects.bind (Respects.mapM nbdFreeSlot_respects) fun _ => .lift _

theorem imgCommit_respects (f : String) : Respects BesideDhcpd (imgCommit f) := by
  refine Respects.perform ?_
  rintro w _ ⟨t, rfl⟩
  refine ⟨t, ?_⟩
  simp only [World.startCommit]
  cases w.child f with
  | some o => rfl
  | none => rfl

theorem commitSlot_respects (n : Int) (u : Key) (c : Value) :
    Respects BesideDhcpd (commitSlot n u c) := by
  refine Respects.bind (.lift _) fun v => Respects.bind (.lift _) fun enable =>
    Respects.ite (fun _ => ?_) fun _ => .pure _
  refine Respects.bind (.lift _) fun s => Respects.bind (.lift _) fun path =>
    Respects.bind (.lift _) fun mac => Respects.get_bind ?_ fun w => ?_
  · rintro w _ ⟨t, rfl⟩
    rfl
  · refine Respects.ite (fun _ => ?_) fun _ => .pure _
    refine Respects.bind (.lift _) fun ip => Respects.bind ?_ fun c' =>
      Respects.bind (imgCommit_respects _) fun _ => .pure _
    exact Respects.ite (fun _ => freeByIPv4_respects ip c) fun _ => .pure _

theorem commitSlots_respects (n : Int) (c : Value) : Respects BesideDhcpd (commitSlots n c) := by
  refine Respects.bind (.lift _) fun v => Respects.ite (fun _ => .pure _) fun _ =>
    Respects.bind (.lift _) fun supper => Respects.ite (fun _ => ?_) fun _ => .pure _
  split
  · exact Respects.foldlM (fun c' u => commitSlot_respects n u c') c
  · exact .fail

theorem saveEdited_respects (x : Option Value) :
    Respects BesideDhcpd (do let c ← lift x; saveToFile c; return c : Sys Value) :=
  Respects.bind (.lift _) fun c => Respects.bind (saveToFile_respects c) fun _ => .pure _

theorem askConnected_respects (v : Value) : Respects BesideDhcpd (askConnected v) := by
  have hask (ip : String) : Respects BesideDhcpd (perform (.ask ip) id : Sys Unit) :=
    Respects.perform fun _ _ h => h
  refine Respects.bind (.lift _) fun supper => Respects.when fun _ =>
    Respects.bind (.lift _) fun ip => Respects.bind (hask ip) fun _ =>
      Respects.get_bind ?_ fun w => Respects.when fun _ => hask ip
  rintro w _ ⟨t, rfl⟩
  rfl

theorem powerOn_respects (p : Post) (c : Value) : Respects BesideDhcpd (powerOn p c) := by
  refine Respects.when fun _ => Respects.bind (.lift _) fun _ => Respects.when fun _ =>
    Respects.bind (.lift _) fun v => Respects.when fun _ => Respects.bind (.lift _) fun enable =>
      Respects.when fun _ => Respects.bind (.lift _) fun ifaces => ?_
  split
  · exact Respects.forM fun e => Respects.bind (.lift _) fun iface =>
      Respects.bind (.lift _) fun mac => Respects.perform fun _ _ h => h
  · exact .fail

theorem supperPart_respects (p : Post) (c : Value) : Respects BesideDhcpd (supperPart p c) := by
  unfold supperPart
  split
  · next id cmd _ _ =>
    refine Respects.bind (.lift _) fun _ => Respects.ite (fun _ => ?_) fun _ => .pure _
    refine Respects.bind (.lift _) fun v => ?_
    cases numberOf _ with
    | none => exact .pure _
    | some n =>
      refine Respects.ite (fun _ => .pure _) fun _ => ?_
      cases cmd with
      | enable =>
        refine loadFromFile_bind_respects fun c' => ?_
        split
        · exact .pure _
        · exact saveEdited_respects _
      | disableUncommit | disableCommitPoint =>
        exact Respects.ite (fun _ => .pure _) fun _ =>
          loadFromFile_bind_respects fun c' => saveEdited_respects _
      | disableCommit =>
        exact Respects.ite (fun _ => .pure _) fun _ => loadFromFile_bind_respects fun c' =>
          Respects.bind (commitSlots_respects n c') fun c'' => saveEdited_respects _
      | supperCheck =>
        exact Respects.ite (fun _ => .pure _) fun _ =>
          Respects.bind (askConnected_respects v) fun _ => .pure _
      | diskList =>
        exact Respects.ite (fun _ => .pure _) fun _ => Respects.bind (.lift _) fun _ => .pure _
  · exact .pure _

theorem exportDHCP_respects (c : Value) : Respects BesideDhcpd (exportDHCP c) := by
  have hwrite (t : String) : Respects BesideDhcpd
      (modify fun w => { w with dhcpd := t } : Sys PUnit) := by
    refine Respects.modify ?_
    rintro w _ ⟨t', rfl⟩
    exact ⟨t, rfl⟩
  refine Respects.bind (.lift _) fun _ => Respects.when fun _ =>
    Respects.bind (.lift _) fun _ => ?_
  split
  · exact hwrite _
  · exact Respects.bind (hwrite _) fun _ => .fail

theorem applyMy_respects (p : Post) (c : Value) : Respects BesideDhcpd (applyMy p c) := by
  unfold applyMy
  split
  · refine Respects.bind (.lift _) fun v => Respects.bind (.lift _) fun tid =>
      Respects.bind (.lift _) fun wks => Respects.ite (fun _ => .pure _) fun _ =>
        Respects.bind (.lift _) fun old => Respects.ite (fun _ => ?_) fun _ => .pure _
    exact Respects.bind (.lift _) fun n => Respects.bind (.lift _) fun c' =>
      Respects.bind (saveToFile_respects c') fun _ =>
        Respects.bind (exportDHCP_respects c') fun _ => .pure _
  · exact .pure _

theorem deleteMachine_respects (p : Post) (c : Value) :
    Respects BesideDhcpd (deleteMachine p c) := by
  unfold deleteMachine
  split
  · exact Respects.bind (.lift _) fun c' => saveToFile_respects c'
  · exact .pure _

theorem afterSecond_respects (p : Post) (c : Value) : Respects BesideDhcpd (afterSecond p c) := by
  refine Respects.bind (supperPart_respects p c) fun c' =>
    Respects.bind (powerOn_respects p c') fun _ => Respects.get_bind ?_ fun w =>
      Respects.bind (.lift _) fun reply =>
      Respects.bind (applyMy_respects p c') fun c'' =>
        Respects.bind (deleteMachine_respects p c'') fun _ => .pure _
  rintro w _ ⟨t, rfl⟩
  rfl

theorem afterFirst_respects (p : Post) (c : Value) : Respects BesideDhcpd (afterFirst p c) :=
  Respects.bind (.lift _) fun _ =>
    Respects.ite (fun _ => loadFromFile_bind_respects (afterSecond_respects p)) fun _ => .pure _

theorem post_respects (p : Post) : Respects BesideDhcpd (post p) := by
  rw [post_eq]
  exact loadFromFile_bind_respects (afterFirst_respects p)

end Respects

/-! ## One write -/

/-- The program neither writes nor changes anything but dhcpd.conf. -/
abbrev Quiet {α : Type} (x : Sys α) : Prop :=
  Does (fun l w w' => l ≠ .save ∧ BesideDhcpd w w') (fun _ => True) x

/-- The program does not write the file. -/
abbrev Unsaved {α : Type} (x : Sys α) : Prop :=
  Does (fun l w w' => l ≠ .save ∧ w'.file = w.file) (fun _ => True) x

/-- The program does not read the file. -/
abbrev NoLoad {α : Type} (x : Sys α) : Prop := Does (fun l _ _ => l ≠ .load) (fun _ => True) x

/-- The file is written once at most, and nothing else but dhcpd.conf after it. -/
def OneSave {α : Type} : Sys α → Prop
  | .ret _ => True
  | .fail => True
  | .await _ k => OneSave k
  | .act l f k => (l = .save → ∀ w, Quiet (k w)) ∧
      (l ≠ .save → ∀ w, (f w).file = w.file ∧ OneSave (k w))

section OneSave

variable {α β : Type}

theorem Quiet.unsaved {x : Sys α} (h : Quiet x) : Unsaved x :=
  h.weaken fun _ _ _ hstep => ⟨hstep.1, hstep.2.file⟩

theorem OneSave.of_unsaved {x : Sys α} (h : Unsaved x) : OneSave x := by
  induction x with
  | ret a => trivial
  | fail => trivial
  | await b k ih => exact ih h
  | act l f k ih =>
    constructor
    · intro hl w
      exact absurd hl (h.1 w).1
    · intro _ w
      exact ⟨(h.1 w).2, ih w (h.2 w)⟩

/-- The write comes in the second part. -/
theorem OneSave.unsaved_bind {x : Sys α} {g : α → Sys β} (hx : Unsaved x)
    (hg : ∀ a, OneSave (g a)) : OneSave (x >>= g) := by
  change OneSave (x.bind g)
  induction x with
  | ret a => exact hg a
  | fail => trivial
  | await b k ih => exact ih hx
  | act l f k ih =>
    constructor
    · intro hl w
      exact absurd hl (hx.1 w).1
    · intro _ w
      exact ⟨(hx.1 w).2, ih w (hx.2 w)⟩

/-- The write comes in the first part. -/
theorem OneSave.bind_quiet {x : Sys α} {g : α → Sys β} (hx : OneSave x)
    (hg : ∀ a, Quiet (g a)) : OneSave (x >>= g) := by
  change OneSave (x.bind g)
  induction x with
  | ret a => exact OneSave.of_unsaved (hg a).unsaved
  | fail => trivial
  | await b k ih => exact ih hx
  | act l f k ih =>
    constructor
    · intro hl w
      exact Does.bind (hx.1 hl w) fun a _ => hg a
    · intro hl w
      rcases hx.2 hl w with ⟨hf, hk⟩
      exact ⟨hf, ih w hk⟩

theorem OneSave.ite {p : Prop} [Decidable p] {x y : Sys α} (hx : p → OneSave x)
    (hy : ¬ p → OneSave y) : OneSave (if p then x else y) := by
  split
  · next h => exact hx h
  · next h => exact hy h

end OneSave

theorem unsaved_lift {α : Type} (x : Option α) : Unsaved (lift x : Sys α) :=
  Does.lift fun _ _ => trivial

theorem noLoad_lift {α : Type} (x : Option α) : NoLoad (lift x : Sys α) :=
  Does.lift fun _ _ => trivial

theorem unsaved_load : Unsaved loadFromFile :=
  Does.observe (fun _ => ⟨nofun, rfl⟩) fun _ => trivial

theorem AskAct.label {o : Op} {w w' : World} (h : AskAct o w w') : o ≠ .save ∧ o ≠ .load := by
  cases h with
  | idle | wake | ask => exact ⟨nofun, nofun⟩

theorem AskAct.unsaved {o : Op} {w w' : World} (h : AskAct o w w') :
    o ≠ .save ∧ w'.file = w.file := ⟨h.label.1, by rw [h.eq]⟩

theorem FreeAct.label {o : Op} {w w' : World} (h : FreeAct o w w') : o ≠ .save ∧ o ≠ .load := by
  cases h with
  | stop h =>
    cases h with
    | kill h => cases h <;> exact ⟨nofun, nofun⟩
    | nbdDel => exact ⟨nofun, nofun⟩
  | commit => exact ⟨nofun, nofun⟩
  | dhcpd => exact ⟨nofun, nofun⟩
  | ask h => exact h.label

theorem exportDHCP_quiet (c : Value) : Quiet (exportDHCP c) := by
  refine Does.bind (Does.lift fun _ _ => trivial) fun ok _ => Does.when fun _ =>
    Does.bind (Does.lift fun _ _ => trivial) fun _ _ => ?_
  split
  · exact Does.modify fun w => ⟨nofun, _, rfl⟩
  · exact Does.bind (Does.modify fun w => ⟨nofun, _, rfl⟩) fun _ _ => Does.fail

theorem saveToFile_oneSave (c : Value) : OneSave (saveToFile c) := by
  refine OneSave.unsaved_bind (unsaved_lift _) fun ok => OneSave.ite (fun _ => ?_) fun _ => trivial
  exact ⟨fun _ _ => trivial, fun hl => absurd rfl hl⟩

theorem saveToFile_noLoad (c : Value) : NoLoad (saveToFile c) :=
  Does.bind (noLoad_lift _) fun _ _ => Does.when fun _ => Does.perform fun _ => nofun

/-! ## The handlers -/

theorem saveEdited_oneSave (x : Option Value) :
    OneSave (do let c ← lift x; saveToFile c; return c : Sys Value) :=
  OneSave.unsaved_bind (unsaved_lift _) fun c =>
    OneSave.bind_quiet (saveToFile_oneSave c) fun _ => trivial

theorem saveEdited_noLoad (x : Option Value) :
    NoLoad (do let c ← lift x; saveToFile c; return c : Sys Value) :=
  Does.bind (noLoad_lift _) fun c _ => Does.bind (saveToFile_noLoad c) fun _ _ => Does.done _

section Edit

variable {p : Post} {n : Int} {cmd : SupperCmd} (hid : p.id.bind numberOf = some n)
  (hcmd : p.supper.bind SupperCmd.of? = some cmd)

include hid hcmd

theorem edit_oneSave (c : Value) : OneSave (cmd.edit n p.jsondata c) := by
  cases cmd with
  | enable =>
    simp only [SupperCmd.edit]
    split
    · trivial
    · exact saveEdited_oneSave _
  | disableUncommit => exact saveEdited_oneSave _
  | disableCommitPoint => exact saveEdited_oneSave _
  | disableCommit =>
    refine OneSave.unsaved_bind ?_ fun c' => saveEdited_oneSave _
    refine (commitSlots_does hid (eq_disableCommit hcmd) c).mono ?_ fun _ _ => trivial
    intro l w w' h
    exact ⟨h.free.label.1, h.free.file⟩
  | supperCheck => trivial
  | diskList => trivial

theorem edit_noLoad (c : Value) : NoLoad (cmd.edit n p.jsondata c) := by
  cases cmd with
  | enable =>
    simp only [SupperCmd.edit]
    split
    · exact Does.done _
    · exact saveEdited_noLoad _
  | disableUncommit => exact saveEdited_noLoad _
  | disableCommitPoint => exact saveEdited_noLoad _
  | disableCommit =>
    refine Does.bind (P := fun _ => True) ?_ fun c' _ => saveEdited_noLoad _
    refine (commitSlots_does hid (eq_disableCommit hcmd) c).mono ?_ fun _ _ => trivial
    intro l w w' h
    exact h.free.label.2
  | supperCheck => exact Does.done _
  | diskList => exact Does.done _

end Edit

/-- The super-mode handlers ask at most, or read the file and edit it. -/
theorem supperPart_cases (p : Post) (c : Value) :
    Does AskAct (fun c' => c' = c) (supperPart p c) ∨
    ∃ n cmd, p.id.bind numberOf = some n ∧ p.supper.bind SupperCmd.of? = some cmd ∧
      cmd.Sets ∧ checkconf c = some true ∧
      supperPart p c = loadFromFile >>= (cmd.edit n p.jsondata ·) := by
  have hkeep : Does AskAct (fun c' => c' = c) (pure c : Sys Value) := Does.pure rfl
  unfold supperPart
  split
  · next id cmd hid hcmd =>
    cases hconf : checkconf c with
    | none => exact .inl Does.fail
    | some ok =>
      rw [lift_some_bind]
      split
      · next hok =>
        cases hv : wksAt? c (numberOf id) with
        | none => exact .inl Does.fail
        | some v =>
          rw [lift_some_bind]
          cases hn : numberOf id with
          | none => exact .inl hkeep
          | some n =>
            have hid' : p.id.bind numberOf = some n := by rw [hid, Option.bind_some, hn]
            simp only
            split
            · exact .inl hkeep
            · cases cmd with
              | enable => exact .inr ⟨n, _, hid', hcmd, by decide, by rw [hok], rfl⟩
              | disableUncommit | disableCommit | disableCommitPoint =>
                simp only
                split
                · exact .inl hkeep
                · exact .inr ⟨n, _, hid', hcmd, by decide, by rw [hok], rfl⟩
              | supperCheck =>
                exact .inl (Does.ite (fun _ => hkeep) fun _ =>
                  Does.bind (askConnected_does v) fun _ _ => hkeep)
              | diskList =>
                exact .inl (Does.ite (fun _ => hkeep) fun _ =>
                  Does.bind (Does.lift fun _ _ => trivial) fun _ _ => hkeep)
      · exact .inl hkeep
  · exact .inl hkeep

section Absent

variable {c : Value} {n : Int} (h : ∀ kvs, c.at? ["wks", .num n] ≠ some (.table kvs))

include h

theorem assign?_absent (f : Key) (fs : List Key) (x : Value) :
    c.assign? ("wks" :: .num n :: f :: fs) x = none := by
  rw [Option.eq_none_iff_forall_ne_some]
  intro c' hc'
  rcases Value.assign?_append (p := ["wks", .num n]) hc' with ⟨v, v', hv, hassign, -⟩
  rcases Value.assign?_cons hassign with ⟨kvs, u, rfl, -, -⟩
  exact h kvs hv

theorem setFlags_absent (data : Option Json) : setFlags n data c = none := by
  cases data with
  | none => rfl
  | some d =>
    unfold setFlags
    simp only [Option.bind_eq_bind, Option.bind_some]
    split
    · next us _ =>
      cases ipairs us with
      | nil => exact assign?_absent h _ _ _
      | cons u us =>
        have hfirst : (u.2.tonumber.bind fun i => setCommit n i (.str "1") c) = none := by
          cases u.2.tonumber with
          | none => rfl
          | some i => exact assign?_absent h _ _ _
        rw [List.foldlM_cons, Option.bind_eq_bind, hfirst]
        rfl
    · rfl

theorem clearFlags_absent : clearFlags n c = none := by
  unfold clearFlags setSupper
  rw [assign?_absent h]
  rfl

theorem commitSlots_absent : commitSlots n c = fail ∨ commitSlots n c = pure c := by
  unfold commitSlots
  cases hv : c.at? ["wks", .num n] with
  | none => exact .inl rfl
  | some v =>
    cases v with
    | nil => exact .inr rfl
    | bool b => exact .inl rfl
    | num m => exact .inl rfl
    | str t => exact .inr rfl
    | table kvs => exact absurd hv (h kvs)

/-- Without a record there is nothing to edit. -/
theorem edit_absent (data : Option (Option Json)) (cmd : SupperCmd) :
    cmd.edit n data c = fail ∨ cmd.edit n data c = pure c := by
  cases cmd with
  | enable =>
    cases data with
    | none => exact .inr rfl
    | some d =>
      simp only [SupperCmd.edit]
      rw [setFlags_absent h]
      exact .inl rfl
  | disableUncommit | disableCommitPoint =>
    simp only [SupperCmd.edit]
    rw [clearFlags_absent h]
    exact .inl rfl
  | disableCommit =>
    simp only [SupperCmd.edit]
    rcases commitSlots_absent h with hfail | hpure
    · rw [hfail]
      exact .inl rfl
    · rw [hpure, pure_bind, clearFlags_absent h]
      exact .inl rfl
  | supperCheck | diskList => exact .inr rfl

end Absent

/-! ## The rest of a request -/

section Rest

variable (p : Post)

theorem otherHandlers_quiet (h : p.wksCmd = none) (c : Value) : Quiet (otherHandlers p c) := by
  have happly (c' : Value) : applyMy p c' = pure c' := by simp [applyMy, h]
  have hdelete (c' : Value) : deleteMachine p c' = pure () := by simp [deleteMachine, h]
  refine Does.bind ((powerOn_does p c).weaken fun _ w _ h =>
    ⟨h.label.1, h.eq ▸ refl_of BesideDhcpd w⟩)
    fun _ _ => Does.bind (Does.get fun w => ⟨fun hsave => ?_, refl_of BesideDhcpd w⟩) fun w _ =>
      Does.bind (Does.lift fun _ _ => trivial) fun reply _ => ?_
  · cases hsave
  · rw [happly, pure_bind, hdelete]
    exact Does.done _

theorem applyMy_oneSave (c : Value) : OneSave (applyMy p c) := by
  unfold applyMy
  split
  · refine OneSave.unsaved_bind (unsaved_lift _) fun v => OneSave.unsaved_bind (unsaved_lift _)
      fun tid => OneSave.unsaved_bind (unsaved_lift _) fun wks => OneSave.ite (fun _ => trivial)
        fun _ => OneSave.unsaved_bind (unsaved_lift _) fun old => OneSave.ite (fun _ => ?_)
          fun _ => trivial
    refine OneSave.unsaved_bind (unsaved_lift _) fun n => OneSave.unsaved_bind (unsaved_lift _)
      fun c' => OneSave.bind_quiet (saveToFile_oneSave c') fun _ => ?_
    exact Does.bind (exportDHCP_quiet c') fun _ _ => Does.done _
  · trivial

theorem deleteMachine_oneSave (c : Value) : OneSave (deleteMachine p c) := by
  unfold deleteMachine
  split
  · exact OneSave.unsaved_bind (unsaved_lift _) fun c' => saveToFile_oneSave c'
  · trivial

theorem otherHandlers_oneSave (c : Value) : OneSave (otherHandlers p c) := by
  refine OneSave.unsaved_bind ((powerOn_does p c).weaken fun _ _ _ => AskAct.unsaved) fun _ =>
    OneSave.unsaved_bind (Does.get fun w => ⟨nofun, rfl⟩) fun w =>
      OneSave.unsaved_bind (unsaved_lift _) fun reply => ?_
  -- only one of the two handlers is meant
  by_cases hcmd : p.wksCmd = some "ApplyMy"
  · have hdelete (c' : Value) : deleteMachine p c' = pure () := by simp [deleteMachine, hcmd]
    refine OneSave.bind_quiet (applyMy_oneSave p c) fun c' => ?_
    rw [hdelete]
    exact Does.done _
  · have happly : applyMy p c = pure c := by
      unfold applyMy
      split
      · next h _ => exact absurd h hcmd
      · rfl
    rw [happly, pure_bind]
    exact OneSave.bind_quiet (deleteMachine_oneSave p c) fun _ => trivial

theorem exportDHCP_noLoad (c : Value) : NoLoad (exportDHCP c) :=
  (exportDHCP_does c).weaken fun _ _ _ h => h.label.2

theorem otherHandlers_noLoad (c : Value) : NoLoad (otherHandlers p c) := by
  refine Does.bind ((powerOn_does p c).weaken fun _ _ _ h => h.label.2) fun _ _ =>
    Does.bind (Does.get fun w => nofun) fun w _ => Does.bind (noLoad_lift _) fun reply _ =>
      Does.bind (P := fun _ => True) ?_ fun c' _ =>
      Does.bind (P := fun _ => True) ?_ fun _ _ => Does.done _
  · unfold applyMy
    split
    · refine Does.bind (noLoad_lift _) fun v _ => Does.bind (noLoad_lift _) fun tid _ =>
        Does.bind (noLoad_lift _) fun wks _ => Does.ite (fun _ => Does.done _) fun _ =>
          Does.bind (noLoad_lift _) fun old _ => Does.ite (fun _ => ?_) fun _ => Does.done _
      exact Does.bind (noLoad_lift _) fun n _ => Does.bind (noLoad_lift _) fun c' _ =>
        Does.bind (saveToFile_noLoad c') fun _ _ =>
          Does.bind (exportDHCP_noLoad c') fun _ _ => Does.done _
    · exact Does.done _
  · unfold deleteMachine
    split
    · exact Does.bind (noLoad_lift _) fun c'' _ => saveToFile_noLoad c''
    · exact Does.done _

theorem afterSecond_oneSave (h : p.Single) (c : Value) : OneSave (afterSecond p c) := by
  unfold afterSecond
  rcases supperPart_cases p c with hasks | ⟨n, cmd, hid, hcmd, hset, -, heq⟩
  · exact OneSave.unsaved_bind (hasks.mono (fun _ _ _ => AskAct.unsaved) fun _ _ => trivial)
      (otherHandlers_oneSave p)
  · rw [heq]
    refine OneSave.bind_quiet (OneSave.unsaved_bind unsaved_load (edit_oneSave hid hcmd))
      fun c' => ?_
    rcases h with hnone | hnone
    · exact otherHandlers_quiet p hnone c'
    · rw [hnone] at hcmd
      cases hcmd

theorem post_oneSave (h : p.Single) : OneSave (post p) := by
  rw [post_eq]
  refine OneSave.unsaved_bind unsaved_load fun c => ?_
  refine OneSave.unsaved_bind (unsaved_lift _) fun ok => OneSave.ite (fun _ => ?_) fun _ => trivial
  exact OneSave.unsaved_bind unsaved_load (afterSecond_oneSave p h)

/-- With settings that pass the check a request reads the file once more. -/
theorem afterFirst_cases (c : Value) : NoLoad (afterFirst p c) ∨
    checkconf c = some true ∧ afterFirst p c = loadFromFile >>= afterSecond p := by
  unfold afterFirst
  cases checkconf c with
  | none => exact .inl Does.fail
  | some ok =>
    cases ok with
    | false => exact .inl (Does.done _)
    | true => exact .inr ⟨rfl, rfl⟩

/-- After its second read a request may read the file a third time, for a super-mode
handler, and then no more. -/
theorem afterSecond_cases (c : Value) : NoLoad (afterSecond p c) ∨
    ∃ n cmd, p.id.bind numberOf = some n ∧ p.supper.bind SupperCmd.of? = some cmd ∧ cmd.Sets ∧
      checkconf c = some true ∧
      afterSecond p c = loadFromFile >>= fun c' =>
        cmd.edit n p.jsondata c' >>= otherHandlers p := by
  unfold afterSecond
  rcases supperPart_cases p c with hasks | ⟨n, cmd, hid, hcmd, hset, hconf, heq⟩
  · exact .inl (Does.bind (hasks.weaken fun _ _ _ h => h.label.2) fun c' _ =>
      otherHandlers_noLoad p c')
  · rw [heq]
    exact .inr ⟨n, cmd, hid, hcmd, hset, hconf, rfl⟩

end Rest

/-! ## Reading late -/

/-- A request that will read the file again, after reading `c` at most twice. -/
def Reading (q : Post) (c : Value) (x : Sys (Option Value)) : Prop :=
  x = post q ∨ x = afterFirst q c ∨ x = afterSecond q c

section Reading

variable {q : Post} {c : Value} {x : Sys (Option Value)} {w : World}

theorem exec_post_conf (hconf : checkconf w.file.val = some true) :
    exec (post q) w = exec (afterSecond q w.file.val) w := by
  rw [post_eq]
  unfold loadFromFile
  rw [exec_observe_bind]
  unfold afterFirst
  rw [hconf, lift_some_bind, if_pos rfl]
  unfold loadFromFile
  rw [exec_observe_bind]

/-- The handler edits the file as it finds it, whatever the guards in front of it have
seen: without a record for the workstation it changes nothing. -/
theorem edit_file (hq : q.Single) {n : Int} {cmd : SupperCmd} (hid : q.id.bind numberOf = some n)
    (hcmd : q.supper.bind SupperCmd.of? = some cmd) (hset : cmd.Sets)
    (hconf : checkconf w.file.val = some true) :
    (exec (cmd.edit n q.jsondata w.file.val >>= otherHandlers q) w).final.file =
      (exec (afterSecond q w.file.val) w).final.file := by
  have hwks : q.wksCmd = none := by
    rcases hq with hnone | hnone
    · exact hnone
    · rw [hnone] at hcmd
      cases hcmd
  have hrest (c : Value) : (exec (otherHandlers q c) w).final.file = w.file :=
    (((otherHandlers_quiet q hwks c).weaken fun _ _ _ h => h.2).final w).file
  by_cases hat : ∃ kvs, w.file.val.at? ["wks", .num n] = some (.table kvs)
  · rcases hat with ⟨kvs, hat⟩
    unfold afterSecond
    rw [supperPart_table hid hcmd hset hconf hat]
    rfl
  · have habsent : ∀ kvs, w.file.val.at? ["wks", .num n] ≠ some (.table kvs) :=
      fun kvs h => hat ⟨kvs, h⟩
    have hleft : (exec (cmd.edit n q.jsondata w.file.val >>= otherHandlers q) w).final.file =
        w.file := by
      rcases edit_absent habsent q.jsondata cmd with heq | heq
      · rw [heq]
        rfl
      · rw [heq, pure_bind]
        exact hrest _
    unfold afterSecond
    rcases supperPart_cases q w.file.val with hasks | ⟨m, cmd', hid', hcmd', -, -, heq⟩
    · have hright : Does (fun _ => Same World.file) (fun _ => True)
          (supperPart q w.file.val >>= otherHandlers q) :=
        Does.bind (hasks.weaken fun _ _ _ h => h.unsaved.2) fun c _ =>
          (otherHandlers_quiet q hwks c).weaken fun _ _ _ h => h.2.file
      rw [hleft]
      exact (hright.final w).symm
    · cases hid.symm.trans hid'
      cases hcmd.symm.trans hcmd'
      rw [heq]
      rfl

theorem Reading.respects (h : Reading q c x) : Respects BesideDhcpd x := by
  rcases h with rfl | rfl | rfl
  · exact post_respects q
  · exact afterFirst_respects q c
  · exact afterSecond_respects q c

/-- What such a request leaves in the file does not depend on what it read before. -/
theorem Reading.final (h : Reading q c x) (hq : q.Single) (hx : ¬ NoLoad x)
    (hconf : checkconf c = some true → checkconf w.file.val = some true) :
    (exec x w).final.file = (exec (post q) w).final.file := by
  rcases h with rfl | rfl | rfl
  · rfl
  · rcases afterFirst_cases q c with hno | ⟨hc, heq⟩
    · exact absurd hno hx
    · rw [heq, exec_post_conf (hconf hc)]
      unfold loadFromFile
      rw [exec_observe_bind]
  · rcases afterSecond_cases q c with hno | ⟨n, cmd, hid, hcmd, hset, hc, heq⟩
    · exact absurd hno hx
    · rw [heq, exec_post_conf (hconf hc)]
      unfold loadFromFile
      rw [exec_observe_bind]
      exact edit_file hq hid hcmd hset (hconf hc)

end Reading

/-! ## What is written passes the check -/

theorem Put.wks_table {k : Key} {v c c' : Value} (h : Put k v c c') :
    ∃ kvs, wksOf c = .table kvs := by
  rcases Value.assign?_cons h with ⟨top, d, rfl, hd, -⟩
  rcases Value.assign?_cons hd with ⟨kvs, -, hkvs, -, -⟩
  exact ⟨kvs, hkvs⟩

theorem SuperEdit.wks_table {p : Post} {c c' : Value} (h : SuperEdit p c c') :
    ∃ kvs, wksOf c = .table kvs := by
  cases h with
  | flags _ _ _ hputs | nbd _ _ _ _ _ hputs =>
    rcases hputs with ⟨v, -, -, hput⟩
    exact Put.wks_table hput

theorem RecordEdit.wks_table {p : Post} {c c' : Value} (h : RecordEdit p c c') :
    ∃ kvs, wksOf c = .table kvs := by
  cases h with
  | apply _ _ _ _ _ hput | delete _ _ _ _ _ _ _ hput => exact Put.wks_table hput

/-- Only a table of workstations is edited. -/
theorem Edited.wks_table {p : Post} {c c' : Value} (h : Edited p c c') :
    c' = c ∨ ∃ kvs, wksOf c = .table kvs := by
  rcases h with ⟨c₁, hsuper, hrec⟩
  rcases Relation.ReflTransGen.cases_head hsuper with rfl | ⟨c₂, hfirst, -⟩
  · rcases hrec with rfl | hrec
    · exact .inl rfl
    · exact .inr hrec.wks_table
  · exact .inr hfirst.wks_table

theorem handle_checkconf (p : Post) {w : World} (hconf : checkconf w.file.val = some true) :
    checkconf (handle w p).file.val = some true := by
  rcases post_saved p w with hsame | ⟨c, hedit, hc, hfile⟩
  · rw [handle, hsame]
    exact hconf
  · rw [handle, hfile]
    show checkconf c.reload = some true
    rcases hedit.wks_table with rfl | ⟨kvs, hkvs⟩
    · rwa [w.file.property.reload_eq]
    · rw [(hedit.inMemory (.of_json hkvs)).sameSettings_reload.checkconf]
      exact hc

/-! ## Two requests -/

/-- The two requests, in the workers `true` and `false`. -/
def posts (req : Bool → Post) (w : World) : Pool Bool Op World (Option Value) :=
  ⟨fun i => post (req i), w⟩

section Posts

variable {req : Bool → Post} {w : World} {c : Pool Bool Op World (Option Value)} {i j : Bool}

theorem step_load {k : Value → Sys (Option Value)} (h : c.threads j = loadFromFile >>= k) :
    (c.step j).threads j = k c.state.file.val ∧ (c.step j).state = c.state := by
  have hnext : (c.threads j).next = some .load := by
    rw [h]
    rfl
  rcases Pool.step_of_next hnext with ⟨f, k', heq, hk, hstate⟩
  rw [h] at heq
  cases heq
  exact ⟨hk, hstate⟩

/-- A read changes nothing but what is left of the request. -/
theorem step_reading {q : Post} (hfile : c.state.file = w.file)
    (h : Reading q w.file.val (c.threads j)) (hload : ¬ NoLoad (c.threads j)) :
    (c.step j).state = c.state ∧
      (Reading q w.file.val ((c.step j).threads j) ∨ NoLoad ((c.step j).threads j)) := by
  rcases h with h | h | h
  · rcases step_load (k := afterFirst q) h with ⟨hk, hstate⟩
    refine ⟨hstate, .inl (.inr (.inl ?_))⟩
    rw [hk, hfile]
  · rw [h] at hload
    rcases afterFirst_cases q w.file.val with hno | ⟨-, heq⟩
    · exact absurd hno hload
    · rcases step_load (h.trans heq) with ⟨hk, hstate⟩
      refine ⟨hstate, .inl (.inr (.inr ?_))⟩
      rw [hk, hfile]
  · rw [h] at hload
    rcases afterSecond_cases q w.file.val with hno | ⟨n, cmd, hid, hcmd, -, -, heq⟩
    · exact absurd hno hload
    · rcases step_load (h.trans heq) with ⟨hk, hstate⟩
      refine ⟨hstate, .inr ?_⟩
      rw [hk]
      exact Does.bind (edit_noLoad hid hcmd _) fun c' _ => otherHandlers_noLoad q c'

/-- Before `i` writes and while `j` will still read: `i` has run as it would alone, and
the file is the one they started from. -/
structure Before (req : Bool → Post) (w : World) (i j : Bool)
    (c : Pool Bool Op World (Option Value)) : Prop where
  alone : exec (c.threads i) c.state = exec (post (req i)) w
  file : c.state.file = w.file
  oneSave : OneSave (c.threads i)
  reading : Reading (req j) w.file.val (c.threads j)

/-- Each step keeps that, or is the write of `i`, or the last read of `j`. -/
theorem step_before (hij : j ≠ i) (h : Before req w i j c) (hload : ¬ NoLoad (c.threads j))
    (e : Bool) : Before req w i j (c.step e) ∨ Quiet ((c.step e).threads i) ∨
      NoLoad ((c.step e).threads j) := by
  rcases h with ⟨halone, hfile, hone, hreading⟩
  by_cases hie : e = i
  · subst hie
    rcases c.step_cases e with heq | ⟨b, k, he, hb, hk, hstate⟩ | ⟨l, f, k, he, hk, hstate⟩
    · rw [heq]
      exact .inl ⟨halone, hfile, hone, hreading⟩
    · rw [he] at halone hone
      simp only [exec, if_pos hb] at halone
      refine .inl ⟨?_, ?_, ?_, ?_⟩
      · rw [hk, hstate, halone]
      · rw [hstate, hfile]
      · rw [hk]
        exact hone
      · rwa [Pool.step_other hij]
    · rw [he] at halone hone
      by_cases hl : l = .save
      · rw [hk]
        exact .inr (.inl (hone.1 hl c.state))
      · rcases hone.2 hl c.state with ⟨hf, hone'⟩
        refine .inl ⟨?_, ?_, ?_, ?_⟩
        · rw [hk, hstate, ← halone]
          rfl
        · rw [hstate, hf, hfile]
        · rwa [hk]
        · rwa [Pool.step_other hij]
  · -- there are two workers only
    have hej : e = j := by
      cases e <;> cases i <;> cases j <;> simp_all
    subst hej
    rcases step_reading hfile hreading hload with ⟨hstate, hnext | hnext⟩
    · refine .inl ⟨?_, ?_, ?_, hnext⟩
      · rw [Pool.step_other (Ne.symm hij), hstate, halone]
      · rw [hstate, hfile]
      · rwa [Pool.step_other (Ne.symm hij)]
    · exact .inr (.inr hnext)

theorem run_before (hreq : (req i).Single) (hij : j ≠ i) (es : List Bool) :
    Before req w i j (run Pool.step (posts req w) es) ∨
      Quiet ((run Pool.step (posts req w) es).threads i) ∨
      NoLoad ((run Pool.step (posts req w) es).threads j) := by
  induction es using List.reverseRecOn with
  | nil => exact .inl ⟨rfl, rfl, post_oneSave _ hreq, .inl rfl⟩
  | append_singleton es e ih =>
    rw [run_append]
    rcases ih with hbefore | hquiet | hno
    · by_cases hload : NoLoad ((run Pool.step (posts req w) es).threads j)
      · exact .inr (.inr (Pool.step_does hload e))
      · exact step_before hij hbefore hload e
    · exact .inr (.inl (Pool.step_does hquiet e))
    · exact .inr (.inr (Pool.step_does hno e))

theorem not_noLoad (w : World) {x : Sys (Option Value)} (h : x.next = some .load) : ¬ NoLoad x := by
  intro hno
  cases x with
  | ret a | fail | await b k => cases h
  | act l f k =>
    cases h
    exact (hno.1 w) rfl

end Posts

/-- When one request has written the file before the other reads it for the last time, the
file ends as it does when they run in this order, one after the other. -/
theorem posts_serial (req : Bool → Post) (hreq : ∀ i, (req i).Single) (w : World) (i : Bool)
    (before between after : List Bool)
    (hsave : ((run Pool.step (posts req w) before).threads i).next = some .save)
    (hload : ((run Pool.step (posts req w) (before ++ i :: between)).threads !i).next = some .load)
    (hended : ((run Pool.step (posts req w) (before ++ i :: between ++ after)).threads !i).Ended) :
    (run Pool.step (posts req w) (before ++ i :: between ++ after)).state.file =
      (handle (handle w (req i)) (req !i)).file := by
  have hij : (!i) ≠ i := by
    cases i <;> decide
  rw [List.append_assoc, List.cons_append, run_append, run_cons] at hended ⊢
  rw [run_append, run_cons] at hload
  rcases Pool.step_of_next hsave with ⟨f, k, hi, hk, hstate⟩
  have hlate : ¬ NoLoad ((run Pool.step (posts req w) before).threads !i) := by
    intro hno
    exact not_noLoad w hload (Pool.run_does (Pool.step_does hno i) between)
  rcases run_before (hreq i) hij before with hbefore | hquiet | hno
  · rcases hbefore with ⟨halone, -, hone, hreading⟩
    generalize run Pool.step (posts req w) before = c at *
    rw [hi] at halone hone
    -- from the write on, the writer changes dhcpd.conf only
    have hwriter : Quiet ((c.step i).threads i) := by
      rw [hk]
      exact hone.1 rfl c.state
    have hwritten : BesideDhcpd (c.step i).state (handle w (req i)) := by
      have hfinal := (hwriter.weaken fun _ _ _ h => h.2).final (c.step i).state
      have hrun : exec ((c.step i).threads i) (c.step i).state = exec (post (req i)) w := by
        rw [hk, hstate, ← halone]
        rfl
      rwa [hrun] at hfinal
    -- so the other one ends as it would have ended alone
    have hreader : (c.step i).threads (!i) = c.threads !i := Pool.step_other hij
    have hend : BesideDhcpd (exec (c.threads !i) (c.step i).state).final
        (run Pool.step (c.step i) (between ++ after)).state := by
      rw [← hreader]
      refine Pool.alone ?_ ?_ hended
      · rw [hreader]
        exact hreading.respects
      · intro j hj
        have hji : j = i := by
          cases i <;> cases j <;> simp_all
        rw [hji]
        exact hwriter.weaken fun _ _ _ h => h.2
    have hconf (h : checkconf w.file.val = some true) :
        checkconf (c.step i).state.file.val = some true := by
      rw [← hwritten.file]
      exact handle_checkconf (req i) h
    calc (run Pool.step (c.step i) (between ++ after)).state.file
      _ = (exec (c.threads !i) (c.step i).state).final.file := hend.file
      _ = (exec (post (req !i)) (c.step i).state).final.file :=
        hreading.final (hreq _) hlate hconf
      _ = (handle (handle w (req i)) (req !i)).file :=
        ((post_respects _).final hwritten).file.symm
  · rw [hi] at hquiet
    exact absurd rfl (hquiet.1 w).1
  · exact absurd hno hlate

/-- Two workstations with the shipped settings. -/
def twoMachines : World :=
  World.initial (shippedCfg ⟨"", "", ""⟩
    [shippedWks 1 "b4:2e:99:2c:dd:51" "192.168.0.2" "PC001" "win10cc.qcow2" "lord.qcow2",
     shippedWks 2 "b4:2e:99:2c:dd:52" "192.168.0.3" "PC002" "win10cc.qcow2" "lord.qcow2"]) []

/-- `supper=true` for the first disk of one of them, in each worker. -/
def bothSupper (i : Bool) : Post where
  id := some (if i then "1" else "2")
  supper := some "true"
  cmd := none
  wksCmd := none
  jsondata := some (some (encode (array [.num 1])))

/-- The second worker has read the file twice when the first one writes it, and still the
file ends with the flags of both. -/
theorem posts_serial_interleaved :
    (run Pool.step (posts bothSupper twoMachines)
      ([true, false, true, false, true] ++ true :: [true] ++ [false, false, false])).state.file =
        (handle (handle twoMachines (bothSupper true)) (bothSupper false)).file ∧
    supperOf (handle (handle twoMachines (bothSupper true)) (bothSupper false)).file.val 1 =
      .str "1" ∧
    supperOf (handle (handle twoMachines (bothSupper true)) (bothSupper false)).file.val 2 =
      .str "1" :=
  ⟨posts_serial bothSupper (by decide) twoMachines true [true, false, true, false, true] [true]
    [false, false, false] (by decide +kernel) (by decide +kernel) (by decide +kernel),
    by decide +kernel, by decide +kernel⟩

/-- Both workers read the file before either writes it: both requests end, and the flag of
the first workstation is lost. In either serial order it is set. -/
theorem posts_lost_update :
    ∃ es : List Bool, (∀ i, ((run Pool.step (posts bothSupper twoMachines) es).threads i).Ended) ∧
      supperOf (run Pool.step (posts bothSupper twoMachines) es).state.file.val 1 = .num 0 ∧
      supperOf (handle (handle twoMachines (bothSupper true)) (bothSupper false)).file.val 1 =
        .str "1" ∧
      supperOf (handle (handle twoMachines (bothSupper false)) (bothSupper true)).file.val 1 =
        .str "1" := by
  refine ⟨[true, true, true, false, false, false, true, false, true, false], ?_, ?_, ?_, ?_⟩
  · decide +kernel
  · decide +kernel
  · decide +kernel
  · decide +kernel

end NsBoot
