import NsBoot.Admin.Super
import NsBoot.Boot.Reset

/-!
# NsBoot.Session.Dropped — what a dropped session leaves behind

A super-mode session is ended by `disableCommit`, which commits the children, or
by `disableUncommit`, which only clears the flags. The children and the lock
files of a dropped session stay until the next normal boot throws them away; a
session that starts before that boot finds them and keeps them.

`History` follows one workstation through a run: the times of the writes of the
open session and of the dropped ones, and whether a normal boot is still pending
after a drop. When no session starts while it is pending, `disableCommit` commits
no dropped write (`dropped_not_committed`); `dropped_write_reaches_base` is a run
in which one does.
-/

namespace NsBoot

open Lua Prog Run

/-- A run, with what matters of the sessions of one workstation. -/
structure History where
  world : World
  /-- When the writes of the open session were made. -/
  session : List Nat
  /-- When the writes of the sessions ended by `disableUncommit` were made. -/
  dropped : List Nat
  /-- No normal boot was completed since a session with writes was dropped. -/
  pending : Bool

/-- The boot request completes a normal boot of workstation `n`. -/
def NormalBoot (n : Int) (ip : String) (w : World) : Prop :=
  (exec (bootRequest ip) w).isOk ∧ ip ≠ "::1" ∧
  getIDFromIPv4 w.file.val (.str ip) = some (some (.num n)) ∧
  ((Wks.of? ((wksOf w.file.val).get (.num n))).any fun r => r.Plain)

instance (n : Int) (ip : String) (w : World) : Decidable (NormalBoot n ip w) :=
  inferInstanceAs (Decidable (_ ∧ _))

namespace History

def start (w : World) : History := ⟨w, [], [], false⟩

/-- What an event means to the sessions of workstation `n`. -/
def note (n : Int) (h : History) : Event → History
  | .boot ip => { h with pending := h.pending && !decide (NormalBoot n ip h.world) }
  | .post p =>
    if (exec (post p) h.world).isOk ∧ p.Is n "disableUncommit" then
      { h with
        session := []
        dropped := h.dropped ++ h.session
        pending := h.pending || !h.session.isEmpty }
    else if (exec (post p) h.world).isOk ∧ p.Is n "disableCommit" then { h with session := [] }
    else h
  | .write k i b data =>
    -- a write that found its nbd server takes a tick of the clock
    if k = .num n ∧ (supperOf h.world.file.val n).isOne ∧
        (h.world.writeVia k i b data).clock ≠ h.world.clock then
      { h with session := h.session ++ [h.world.clock] }
    else h
  | .copy _ => h

def step (n : Int) (h : History) (e : Event) : History :=
  { h.note n e with world := h.world.step e }

/-- A write adds at most its own time to the open session. -/
theorem note_write (n : Int) (h : History) (k : Key) (i b data : Nat) :
    (h.note n (.write k i b data)).dropped = h.dropped ∧
    (h.note n (.write k i b data)).pending = h.pending ∧
    ∀ t ∈ (h.note n (.write k i b data)).session, t ∈ h.session ∨
      t = h.world.clock ∧ k = .num n ∧ (h.world.writeVia k i b data).clock ≠ h.world.clock := by
  simp only [note]
  split
  · next hif =>
    refine ⟨rfl, rfl, ?_⟩
    intro t ht
    rcases List.mem_append.1 ht with hold | hnew
    · exact Or.inl hold
    · exact Or.inr ⟨List.mem_singleton.1 hnew, hif.1, hif.2.2⟩
  · exact ⟨rfl, rfl, fun t ht => Or.inl ht⟩

/-- A POST request drops the open session, or at most forgets it. -/
theorem note_post (n : Int) (h : History) (p : Post) :
    ((exec (post p) h.world).isOk ∧ p.Is n "disableUncommit" ∧ h.note n (.post p) =
      { h with
        session := []
        dropped := h.dropped ++ h.session
        pending := h.pending || !h.session.isEmpty }) ∨
    ((h.note n (.post p)).dropped = h.dropped ∧ (h.note n (.post p)).pending = h.pending ∧
      (h.note n (.post p)).session ⊆ h.session) := by
  simp only [note]
  split
  · next hif => exact Or.inl ⟨hif.1, hif.2, rfl⟩
  · right
    split
    · exact ⟨rfl, rfl, List.nil_subset _⟩
    · exact ⟨rfl, rfl, fun _ => id⟩

theorem note_post_times (n : Int) (h : History) (p : Post) {t : Nat}
    (ht : t ∈ (h.note n (.post p)).session ++ (h.note n (.post p)).dropped) :
    t ∈ h.session ++ h.dropped := by
  rcases h.note_post n p with ⟨-, -, hnote⟩ | ⟨hdropped, -, hsession⟩
  · rw [hnote] at ht
    simpa [or_comm] using ht
  · rw [hdropped] at ht
    rcases List.mem_append.1 ht with ht | ht
    · exact List.mem_append_left _ (hsession ht)
    · exact List.mem_append_right _ ht

end History

/-- No session of the workstation starts while a normal boot is pending. The POST
requests are the super-mode commands. -/
def RebootsFirst (n : Int) (h : History) : Event → Prop
  | .post p => SuperOnly p ∧ (h.pending → ¬ p.Is n "true")
  | _ => True

instance (n : Int) (h : History) : (e : Event) → Decidable (RebootsFirst n h e)
  | .post _ => inferInstanceAs (Decidable (_ ∧ (_ → ¬ _)))
  | .boot _ | .write .. | .copy _ => isTrue trivial

/-- A `disableCommit` of the workstation starts no commit of a dropped write. -/
def CommitsNoDropped (n : Int) (h : History) : Event → Prop
  | .post p => p.Is n "disableCommit" → ∀ q ∈ (h.world.step (.post p)).procs, q ∉ h.world.procs →
    ∀ base blocks copied, q.job = .commit base blocks copied →
      ∀ e ∈ blocks, e.2.time ∉ h.dropped
  | _ => True

/-! ## The invariant -/

/-- The child `f` has a block that was written at time `t`. -/
def World.Holds (w : World) (f : String) (t : Nat) : Prop :=
  ∃ o, w.child f = some o ∧ ∃ e ∈ o.blocks, e.2.time = t

structure Tracked (n : Int) (N : Nat) (h : History) : Prop where
  keys : HasKeys N h.world.file.val
  conf : checkconf h.world.file.val = some true
  past : ∀ f t, h.world.Holds f t → t < h.world.clock
  times : ∀ t ∈ h.session ++ h.dropped, t < h.world.clock
  /-- The writes of the workstation are in its own children. -/
  own : ∀ f t, h.world.Holds f t → t ∈ h.session ++ h.dropped →
    ∃ i, childOf? h.world.file.val (.num n) i = some f
  /-- Once it booted normally nothing that was dropped is left. -/
  clean : h.pending = false → ∀ f t, h.world.Holds f t → t ∉ h.dropped
  /-- Until then it is not in super mode. -/
  off : h.pending = true → supperOf h.world.file.val n ≠ .str "1"

theorem Shrinks.holds {w w' : World} (h : Shrinks w w') {f : String} {t : Nat}
    (hf : w'.Holds f t) : w.Holds f t := by
  rcases hf with ⟨o, ho, e, he, ht⟩
  rcases h.child f o ho with hold | hempty
  · exact ⟨o, hold, e, he, ht⟩
  · rw [hempty] at he
    cases he

theorem holds_congr {w w' : World} (h : w'.child = w.child) {f : String} {t : Nat} :
    w'.Holds f t ↔ w.Holds f t := by
  unfold World.Holds
  rw [h]

/-- After a write a child holds what it held, and the write. -/
theorem writeVia_holds {w : World} {k : Key} {i b data : Nat} {f : String} {t : Nat}
    (h : (w.writeVia k i b data).Holds f t) :
    w.Holds f t ∨ t = w.clock ∧ childOf? w.file.val k i = some f ∧
      (w.writeVia k i b data).clock ≠ w.clock := by
  rcases writeVia_cases w k i b data with hsame | ⟨g, o, hg, ho, hnew⟩
  · rw [hsame] at h
    exact Or.inl h
  · rw [hnew] at h ⊢
    rcases h with ⟨o', ho', e, he, rfl⟩
    simp only at ho'
    split at ho'
    · next hfg =>
      -- the child that was written to
      subst hfg
      cases ho'
      rcases Blocks.mem_write he with hold | rfl
      · exact Or.inl ⟨o, ho, e, hold, rfl⟩
      · exact Or.inr ⟨rfl, hg, by simp⟩
    · exact Or.inl ⟨o', ho', e, he, rfl⟩

theorem writeVia_clock_lt {w : World} {k : Key} {i b data : Nat}
    (h : (w.writeVia k i b data).clock ≠ w.clock) : w.clock < (w.writeVia k i b data).clock :=
  lt_of_le_of_ne (writeVia_frame w k i b data).2 (Ne.symm h)

/-! ## One step -/

section Steps

variable {n : Int} {N : Nat} {h : History}

theorem childOf?_ownChild {c : Value} {k : Key} {i : Nat} {f : String} {s : Server} {r : Wks}
    (hs : Server.of? c = some s) (hr : Wks.of? ((wksOf c).get k) = some r)
    (h : childOf? c k i = some f) : OwnChild s r f := by
  simp only [childOf?, hs, hr, Option.bind_eq_bind, Option.bind_some, Option.bind_eq_some_iff] at h
  rcases h with ⟨v, hv, path, hpath, hif⟩
  split at hif
  · next hdyn =>
    cases hif
    exact ⟨v, List.mem_of_getElem? hv, hdyn.1, hdyn.2, path, hpath, rfl⟩
  · cases hif

/-- A completed normal boot leaves the workstation's children empty. -/
theorem NormalBoot.empty {ip : String} {w : World} (hboot : NormalBoot n ip w)
    (hconf : checkconf w.file.val = some true) {i : Nat} {f : String}
    (hf : childOf? w.file.val (.num n) i = some f) (t : Nat) :
    ¬ (w.step (.boot ip)).Holds f t := by
  rcases hboot with ⟨hok, hip, hid, hplain⟩
  rcases bootRequest_cases ip w with ⟨-, hno⟩ | ⟨k, s, r, hb, hrun⟩
  · exact absurd (hno hok hconf) hip
  · have hk : k = .num n := by
      have := hb.id
      rw [hid] at this
      simpa using this.symm
    subst hk
    rw [hb.wks, Option.any_some, decide_eq_true_iff] at hplain
    rw [hrun] at hok
    have hdone := Result.eq_ok_of_isOk hok
    rcases pipeline_empty hplain hdone (childOf?_ownChild hb.server hb.wks hf) with ⟨o, ho, hempty⟩
    rintro ⟨o', ho', e, he, -⟩
    simp only [World.step, hrun] at ho'
    rw [ho] at ho'
    cases ho'
    rw [hempty] at he
    cases he

theorem Tracked.boot (hh : Tracked n N h) (ip : String) : Tracked n N (h.step n (.boot ip)) := by
  have hshrinks : Shrinks h.world (h.world.step (.boot ip)) := boot_shrinks ip h.world
  have hfile : (h.step n (.boot ip)).world.file = h.world.file := hshrinks.file
  constructor
  · rw [hfile]
    exact hh.keys
  · rw [hfile]
    exact hh.conf
  · intro f t hf
    exact lt_of_lt_of_le (hh.past f t (hshrinks.holds hf)) hshrinks.clock
  · intro t ht
    exact lt_of_lt_of_le (hh.times t ht) hshrinks.clock
  · intro f t hf ht
    rw [hfile]
    exact hh.own f t (hshrinks.holds hf) ht
  · intro hpending f t hf ht
    have hpending : (h.pending && !decide (NormalBoot n ip h.world)) = false := hpending
    have hold : h.world.Holds f t := hshrinks.holds hf
    cases hp : h.pending with
    | false => exact hh.clean hp f t hold ht
    | true =>
      -- the boot was a normal one: it emptied the child
      rw [hp, Bool.true_and, Bool.not_eq_false', decide_eq_true_iff] at hpending
      rcases hh.own f t hold (List.mem_append_right _ ht) with ⟨i, hi⟩
      exact hpending.empty hh.conf hi t hf
  · intro hpending
    have hpending : (h.pending && !decide (NormalBoot n ip h.world)) = true := hpending
    rw [hfile]
    exact hh.off (Bool.and_eq_true_iff.1 hpending).1

theorem Tracked.write (hh : Tracked n N h) (k : Key) (i b data : Nat) :
    Tracked n N (h.step n (.write k i b data)) := by
  rcases writeVia_frame h.world k i b data with ⟨hfile, hclock⟩
  rcases h.note_write n k i b data with ⟨hdropped, hpending, hsession⟩
  have hfile : (h.step n (.write k i b data)).world.file = h.world.file := hfile
  have hdropped : (h.step n (.write k i b data)).dropped = h.dropped := hdropped
  have hpending : (h.step n (.write k i b data)).pending = h.pending := hpending
  constructor
  · rw [hfile]
    exact hh.keys
  · rw [hfile]
    exact hh.conf
  · intro f t hf
    rcases writeVia_holds hf with hold | ⟨rfl, -, hne⟩
    · exact lt_of_lt_of_le (hh.past f t hold) hclock
    · exact writeVia_clock_lt hne
  · intro t ht
    rw [hdropped] at ht
    rcases List.mem_append.1 ht with ht | ht
    · rcases hsession t ht with hold | ⟨rfl, -, hne⟩
      · exact lt_of_lt_of_le (hh.times t (List.mem_append_left _ hold)) hclock
      · exact writeVia_clock_lt hne
    · exact lt_of_lt_of_le (hh.times t (List.mem_append_right _ ht)) hclock
  · intro f t hf ht
    rw [hdropped] at ht
    rw [hfile]
    rcases writeVia_holds hf with hold | ⟨rfl, hchild, -⟩
    · -- an old block: its time is not the time of this write
      have hlt := hh.past f t hold
      rcases List.mem_append.1 ht with ht | ht
      · rcases hsession t ht with hs | ⟨rfl, -, -⟩
        · exact hh.own f t hold (List.mem_append_left _ hs)
        · exact absurd hlt (lt_irrefl _)
      · exact hh.own f t hold (List.mem_append_right _ ht)
    · rcases List.mem_append.1 ht with ht | ht
      · rcases hsession _ ht with hs | ⟨-, rfl, -⟩
        · exact absurd (hh.times _ (List.mem_append_left _ hs)) (lt_irrefl _)
        · exact ⟨i, hchild⟩
      · exact absurd (hh.times _ (List.mem_append_right _ ht)) (lt_irrefl _)
  · intro hp f t hf ht
    rw [hpending] at hp
    rw [hdropped] at ht
    rcases writeVia_holds hf with hold | ⟨rfl, -, -⟩
    · exact hh.clean hp f t hold ht
    · exact absurd (hh.times _ (List.mem_append_right _ ht)) (lt_irrefl _)
  · intro hp
    rw [hpending] at hp
    rw [hfile]
    exact hh.off hp

theorem Tracked.copy (hh : Tracked n N h) (pid : Nat) : Tracked n N (h.step n (.copy pid)) := by
  rcases copyBlock_stores h.world pid with ⟨hfile, hchild, -, hclock⟩
  have hfile : (h.step n (.copy pid)).world.file = h.world.file := hfile
  have hclock : (h.step n (.copy pid)).world.clock = h.world.clock := hclock
  constructor
  · rw [hfile]
    exact hh.keys
  · rw [hfile]
    exact hh.conf
  · intro f t hf
    rw [hclock]
    exact hh.past f t ((holds_congr hchild).1 hf)
  · intro t ht
    rw [hclock]
    exact hh.times t ht
  · intro f t hf ht
    rw [hfile]
    exact hh.own f t ((holds_congr hchild).1 hf) ht
  · intro hp f t hf
    exact hh.clean hp f t ((holds_congr hchild).1 hf)
  · intro hp
    rw [hfile]
    exact hh.off hp

/-- The flag stays off under every command but `true`. -/
theorem supperOf_off {p : Post} (hp : SuperOnly p) {w : World} (hkeys : HasKeys N w.file.val)
    (htrue : ¬ p.Is n "true") (hoff : supperOf w.file.val n ≠ .str "1") :
    supperOf (w.step (.post p)).file.val n ≠ .str "1" := by
  rcases post_supper hp hkeys n with hsame | ⟨hid, cmd, hcmd, hset⟩
  · exact hsame ▸ hoff
  · have hzero : cmd.flag ≠ "1" := by
      intro hone
      rcases Option.bind_eq_some_iff.1 hcmd with ⟨t, ht, hof⟩
      apply htrue
      refine ⟨hid, ?_⟩
      rw [ht]
      unfold SupperCmd.of? at hof
      split at hof <;> cases hof <;> simp_all [SupperCmd.flag]
    exact fun h => hzero (Value.str.inj (hset.symm.trans h))

theorem Tracked.post (hh : Tracked n N h) {p : Post} (hp : RebootsFirst n h (.post p)) :
    Tracked n N (h.step n (.post p)) := by
  rcases hp with ⟨hsuper, htrue⟩
  have hstores := post_stores p h.world
  simp only [World.stores, Prod.mk.injEq] at hstores
  have hkin := post_kin hsuper hh.keys
  have hchild : (h.step n (.post p)).world.child = h.world.child := hstores.1
  have hclock : (h.step n (.post p)).world.clock = h.world.clock := hstores.2.2.2
  constructor
  · exact hkin.keys
  · exact hkin.checkconf.trans hh.conf
  · intro f t hf
    rw [hclock]
    exact hh.past f t ((holds_congr hchild).1 hf)
  · intro t ht
    rw [hclock]
    exact hh.times t (h.note_post_times n p ht)
  · intro f t hf ht
    rcases hh.own f t ((holds_congr hchild).1 hf) (h.note_post_times n p ht) with ⟨i, hi⟩
    exact ⟨i, (hkin.childOf? (.num n) i).trans hi⟩
  · intro hpending f t hf ht
    have hpending : (h.note n (.post p)).pending = false := hpending
    have ht : t ∈ (h.note n (.post p)).dropped := ht
    have hold : h.world.Holds f t := (holds_congr hchild).1 hf
    rcases h.note_post n p with ⟨-, -, hnote⟩ | ⟨hdropped, hpend, -⟩
    · -- the session that was dropped had no writes
      rw [hnote] at hpending ht
      simp only [Bool.or_eq_false_iff, Bool.not_eq_false', List.isEmpty_iff] at hpending
      rw [hpending.2, List.append_nil] at ht
      exact hh.clean hpending.1 f t hold ht
    · rw [hpend] at hpending
      rw [hdropped] at ht
      exact hh.clean hpending f t hold ht
  · intro hpending
    have hpending : (h.note n (.post p)).pending = true := hpending
    rcases h.note_post n p with ⟨hok, hcmd, -⟩ | ⟨-, hpend, -⟩
    · rcases Result.exists_of_isOk hok with ⟨a, w', hrun⟩
      have hflag := disableUncommit_ok hh.keys hh.conf hsuper hcmd hrun
      simp only [History.step, World.step, hrun]
      exact hflag
    · rw [hpend] at hpending
      exact supperOf_off hsuper hh.keys (htrue hpending) (hh.off hpending)

theorem tracked_step (hh : Tracked n N h) (e : Event) (he : RebootsFirst n h e) :
    Tracked n N (h.step n e) := by
  cases e with
  | boot ip => exact hh.boot ip
  | post p => exact hh.post he
  | write k i b data => exact hh.write k i b data
  | copy pid => exact hh.copy pid

/-- What is committed is in the children; a dropped write is in none of them, or the
workstation is not in super mode. -/
theorem Tracked.commits (hh : Tracked n N h) (e : Event) (he : RebootsFirst n h e) :
    CommitsNoDropped n h e := by
  cases e with
  | boot ip => trivial
  | write k i b data => trivial
  | copy pid => trivial
  | post p =>
    intro hcmd q hq hnew base blocks copied hjob e hmem hdropped
    cases hpending : h.pending with
    | true =>
      have hprocs := post_disableCommit_off he.1 hcmd hh.conf (hh.off hpending)
      simp only [World.step, hprocs] at hq
      exact hnew hq
    | false =>
      rcases (post_started p h.world).procs q hq with hold | ⟨f, o, ho, hstart⟩
      · exact hnew hold
      · rw [hjob] at hstart
        cases hstart
        exact hh.clean hpending f _ ⟨o, ho, e, hmem, rfl⟩ hdropped

end Steps

/-- **A dropped session stays dropped**, as long as the workstation completes a
normal boot after it before its next session starts. -/
theorem dropped_not_committed {n : Int} {N : Nat} {w : World} {es : List Event}
    (hkeys : HasKeys N w.file.val) (hconf : checkconf w.file.val = some true)
    (hpast : ∀ f t, w.Holds f t → t < w.clock)
    (hes : Along (History.step n) (RebootsFirst n) (.start w) es) :
    Along (History.step n) (CommitsNoDropped n) (.start w) es := by
  have hstart : Tracked n N (.start w) := by
    constructor
    · exact hkeys
    · exact hconf
    · exact hpast
    · intro t ht
      cases ht
    · intro f t hf ht
      cases ht
    · intro hp f t hf ht
      cases ht
    · intro hp
      cases hp
  exact Along.imp_of_inv (fun h e hh he => tracked_step hh e he)
    (fun h e hh he => hh.commits e he) hstart hes

/-! ## Two runs -/

/-- Super mode for the first slot. -/
def superOn : Event :=
  .post ⟨some "1", some "true", none, none, some (some (encode (array [.num 1])))⟩

def superEnd (t : String) : Event := .post ⟨some "1", some t, none, none, none⟩

/-- A session with a write that is dropped. -/
def droppedSession : List Event :=
  [superOn, .boot "192.168.0.3", .write (.num 1) 0 5 77, superEnd "disableUncommit"]

/-- A session with a write that is committed. -/
def committedSession : List Event :=
  [superOn, .boot "192.168.0.3", .write (.num 1) 0 6 78, superEnd "disableCommit"]

/-- With a normal boot between two sessions the first one stays dropped. -/
theorem dropped_not_committed_office :
    Along (History.step 1) (CommitsNoDropped 1) (.start oneStation)
      (droppedSession ++ .boot "192.168.0.3" :: committedSession) :=
  dropped_not_committed (N := 1) ⟨_, rfl, by decide +kernel⟩ (by decide +kernel)
    (fun _ _ h => by rcases h with ⟨o, ho, -⟩; cases ho) (by decide +kernel)

/-- The workstation is put in super mode again before it boots: the write of the
dropped session is in the base image at the end. -/
theorem dropped_write_reaches_base :
    let h := run (History.step 1) (.start oneStation)
      (droppedSession ++ [superOn, superEnd "disableCommit", .copy 1])
    h.dropped = [2] ∧
      h.world.disk "/srv/images/boot/win10cc.qcow2" = some ⟨[(5, ⟨77, 2⟩)], false⟩ := by
  decide +kernel

end NsBoot
