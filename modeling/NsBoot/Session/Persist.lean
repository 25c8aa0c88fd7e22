import NsBoot.Admin.Keep
import NsBoot.Boot.Frame
import NsBoot.Session.Dropped

/-!
# NsBoot.Session.Persist — a super-mode session keeps its disk

While a workstation is in super mode, a slot that was chosen for it keeps its child
from boot to boot: `mkChild` keeps a child when the slot has both a lock file and a
child, and the first boot of the session leaves both, whichever branch it takes.

`Session` follows one slot of one workstation through a run. `expected` is the child
the first boot of the session left, with the workstation's writes since then.
`session_persists` says that the child is just that after every event, other
workstations' boots, writes and requests included.
-/

namespace NsBoot

open Lua Prog Run

/-- The slot a session is about: slot `i` (from 0) of the workstation `vid`, with the
image `path`, and the settings. -/
structure Slot where
  s : Server
  vid : String
  i : Nat
  path : String

namespace Slot

variable (x : Slot)

def child : String := childName x.s x.path x.vid

def lock : String := lockName x.s (x.i + 1) x.vid

end Slot

/-- The workstation is in super mode, with the slot chosen for it, and no other enabled
slot uses the image. -/
structure Slot.InSession (x : Slot) (r : Wks) : Prop where
  enable : r.enable.isOne
  supper : r.supper.isOne
  slot : ∃ v, r.img[x.i]? = some v ∧ v.enable.isOne ∧ v.isDyn ∧ v.commit.isOne ∧
    v.path.concat? = some x.path
  alone : ∀ j v, r.img[j]? = some v → v.enable.isOne → v.path.concat? = some x.path → j = x.i

/-- A record is the workstation's, and in the session, or it has another MAC. -/
def Slot.Record (x : Slot) (v : Value) : Prop :=
  ∀ r, Wks.of? v = some r → (r.vid = x.vid → x.InSession r) ∧ (r.vid ≠ x.vid → IsMacId r.vid)

/-- The `vid` under a key. -/
def vidAt (c : Value) (k : Key) : Option String := (Wks.of? ((wksOf c).get k)).map Wks.vid

/-- The workstation that a boot request from the address is for. -/
def bootVid (w : World) (ip : String) : Option String :=
  match getIDFromIPv4 w.file.val (.str ip) with
  | some (some k) => if ip = "::1" then none else vidAt w.file.val k
  | _ => none

/-- A run, with the child as it should be. -/
structure Session where
  world : World
  expected : Option Overlay

namespace Session

variable (x : Slot)

def start (w : World) : Session := ⟨w, none⟩

/-- The child after the event: the first boot makes it, the workstation's own writes to
the slot change it, and nothing else does. -/
def expect (h : Session) : Event → Option Overlay
  | .boot ip =>
    if h.expected = none ∧ bootVid h.world ip = some x.vid then
      (h.world.step (.boot ip)).child x.child
    else h.expected
  | .write k j b data =>
    if vidAt h.world.file.val k = some x.vid ∧ j = x.i ∧
        (h.world.writeVia k j b data).clock ≠ h.world.clock then
      h.expected.map fun o => { o with blocks := Blocks.write o.blocks b ⟨data, h.world.clock⟩ }
    else h.expected
  | _ => h.expected

def step (h : Session) (e : Event) : Session := ⟨h.world.step e, h.expect x e⟩

end Session

/-- The requests that leave the session alone: of super mode, the workstation itself
only gets `true` and the ones that answer; posted records have other MACs. -/
structure Slot.Harmless (x : Slot) (c : Value) (p : Post) : Prop where
  super : ∀ n cmd, p.id.bind numberOf = some n → p.supper.bind SupperCmd.of? = some cmd →
    cmd.Sets → cmd = .enable ∨ vidAt c (.num n) ≠ some x.vid
  apply : p.wksCmd = some "ApplyMy" → ∀ d, p.jsondata = some (some d) →
    ∀ r, Wks.of? (d.val.get "WKS") = some r → IsMacId r.vid ∧ r.vid ≠ x.vid

/-- The events of a session: the workstation's own boots complete, the first of them with
a `qemu-img create` that succeeds, and requests are harmless. Writes, boots of others and
running commits are free. -/
def Slot.Allowed (x : Slot) (h : Session) : Event → Prop
  | .boot ip => bootVid h.world ip = some x.vid → (exec (bootRequest ip) h.world).isOk ∧
    (h.expected = none → ((h.world.step (.boot ip)).child x.child).isSome)
  | .post p => x.Harmless h.world.file.val p
  | _ => True

/-- A boot of the workstation leaves a child; after the first boot, the one there was. -/
def Slot.Survives (x : Slot) (h : Session) : Event → Prop
  | .boot ip => bootVid h.world ip = some x.vid →
    ((h.world.step (.boot ip)).child x.child).isSome ∧
    (h.expected ≠ none → (h.world.step (.boot ip)).child x.child = h.world.child x.child)
  | _ => True

/-! ## One boot -/

section Boot

variable {x : Slot} {r : Wks}

theorem Slot.InSession.super (hr : x.InSession r) {v : Img} (hv : r.img[x.i]? = some v) :
    v.Super r ∧ v.isDyn ∧ v.path.concat? = some x.path := by
  rcases hr.slot with ⟨v', hv', hen, hdyn, hcommit, hpath⟩
  rw [hv] at hv'
  cases hv'
  exact ⟨⟨hr.enable, hr.supper, hen, hcommit⟩, hdyn, hpath⟩

/-- The child and the lock are there. -/
def Slot.Held (x : Slot) (o : Overlay) (w : World) : Prop :=
  w.child x.child = some o ∧ w.lock x.lock = true

theorem Slot.Held.of_overlays {o : Overlay} {w w' : World} (h : w'.overlays = w.overlays)
    (hw : x.Held o w) : x.Held o w' := by
  simp only [World.overlays, Prod.mk.injEq] at h
  unfold Slot.Held
  rw [h.1, h.2]
  exact hw

variable (hvid : r.vid = x.vid)

include hvid

theorem lockName_ne_of_slot {j : Nat} (hj : j ≠ x.i) : x.lock ≠ lockName x.s (j + 1) r.vid := by
  intro heq
  rw [Slot.lock, hvid] at heq
  have hnum := (lockName_inj rfl heq).1
  omega

variable (hr : x.InSession r)

include hr

/-- Another slot that is enabled has another child. -/
theorem childName_ne_of_slot {j : Nat} {v : Img} (hv : r.img[j]? = some v)
    (hen : v.enable.isOne) {path : String} (hpath : v.path.concat? = some path) (hj : j ≠ x.i) :
    x.child ≠ childName x.s path r.vid := by
  intro heq
  rw [Slot.child, hvid] at heq
  rcases childName_inj rfl heq with ⟨rfl, -⟩
  exact hj (hr.alone j v hv hen hpath)

/-- One iteration keeps the child of the session. -/
theorem slotStep_held {o : Overlay} {j : Nat} {v : Img} (hv : r.img[j]? = some v) {w w' : World}
    (hw : x.Held o w) (h : SlotStep x.s r v (j + 1) w w') : x.Held o w' := by
  cases h with
  | idle h => exact hw
  | kept hdyn hpath hsuper hlock hchild hkept hlock' =>
    exact hw.of_overlays (by rw [World.overlays, World.overlays, hkept.child, hlock'])
  | @made _ path k hen hdyn hpath hk hnot hmade hlock' hdisk =>
    by_cases hj : j = x.i
    · -- the slot itself: lock and child are there, so it is kept
      subst hj
      rcases hr.super hv with ⟨hsuper, -, hpath'⟩
      rw [hpath] at hpath'
      cases hpath'
      have hlock : w.lock (lockName x.s (x.i + 1) r.vid) = true := by
        rw [hvid]
        exact hw.2
      have hchild : (w.child (childName x.s x.path r.vid)).isSome := by
        rw [hvid]
        exact Option.isSome_iff_exists.2 ⟨o, hw.1⟩
      exact absurd hchild (hnot hsuper hlock)
    · constructor
      · rw [hmade.child_ne (childName_ne_of_slot hvid hr hv hen hpath hj)]
        exact hw.1
      · rw [hlock']
        simp only [World.setLock, if_neg (lockName_ne_of_slot hvid hj)]
        exact hw.2
  | @gone _ path hdyn hpath hsuper hlock hdisk hgone hlock' =>
    have hj : j ≠ x.i := by
      rintro rfl
      rw [hvid] at hlock
      exact hlock hw.2
    constructor
    · rw [hgone.child_ne (childName_ne_of_slot hvid hr hv hsuper.2.2.1 hpath hj)]
      exact hw.1
    · rw [hlock']
      simp only [World.setLock, if_neg (lockName_ne_of_slot hvid hj)]
      exact hw.2

/-- The iterations of the other slots do not touch the child. -/
theorem slotStep_child {j : Nat} {v : Img} (hv : r.img[j]? = some v) (hj : j ≠ x.i)
    {w w' : World} (h : SlotStep x.s r v (j + 1) w w') :
    w'.child x.child = w.child x.child := by
  cases h with
  | idle => rfl
  | kept _ _ _ _ _ hkept => rw [hkept.child]
  | made hen _ hpath _ _ hmade =>
    exact hmade.child_ne (childName_ne_of_slot hvid hr hv hen hpath hj)
  | gone _ hpath hsuper _ _ hgone =>
    exact hgone.child_ne (childName_ne_of_slot hvid hr hv hsuper.2.2.1 hpath hj)

/-- The slot's own iteration leaves lock and child, or no child: there is no image to make
it over. -/
theorem slotStep_holds {v : Img} (hv : r.img[x.i]? = some v) {w w' : World}
    (h : SlotStep x.s r v (x.i + 1) w w') :
    w'.child x.child = none ∨ ∃ o, x.Held o w' := by
  rcases hr.super hv with ⟨hsuper, hdyn, hpath⟩
  cases h with
  | idle hidle =>
    -- a chosen slot has a parent
    have hnone := hidle hsuper.2.2.1 hdyn
    rw [parrentKind_of_super hsuper] at hnone
    cases hnone
  | kept hdyn' hpath' hsuper' hlock hchild hkept hlock' =>
    rw [hpath] at hpath'
    cases hpath'
    rcases Option.isSome_iff_exists.1 hchild with ⟨o, ho⟩
    refine .inr ⟨o, ?_, ?_⟩
    · rw [hkept.child, Slot.child, ← hvid]
      exact ho
    · rw [hlock', Slot.lock, ← hvid]
      exact hlock
  | made hen hdyn' hpath' hk hnot hmade hlock' hdisk =>
    rw [hpath] at hpath'
    cases hpath'
    have hself := hmade.child_self
    rw [hvid] at hself
    refine .inr ⟨_, hself, ?_⟩
    rw [hlock', Slot.lock, ← hvid, decide_eq_true hsuper]
    simp [World.setLock]
  | gone hdyn' hpath' hsuper' hlock hdisk hgone hlock' =>
    rw [hpath] at hpath'
    cases hpath'
    have hself := hgone.child_self
    rw [hvid] at hself
    exact .inl hself

theorem slotStuck_held {o : Overlay} {j : Nat} {v : Img} (hv : r.img[j]? = some v) {w w' : World}
    (hw : x.Held o w) (h : SlotStuck x.s r v (j + 1) w w') : x.Held o w' := by
  cases h with
  | stop => exact hw
  | locked hdyn =>
    have hj : j ≠ x.i := by
      rintro rfl
      exact hdyn (hr.super hv).2.1
    refine ⟨hw.1, ?_⟩
    simp only [World.setLock, if_neg (lockName_ne_of_slot hvid hj)]
    exact hw.2
  | @waits path hen hdyn hpath hnot =>
    have hj : j ≠ x.i := by
      rintro rfl
      rcases hr.super hv with ⟨hsuper, -, hpath'⟩
      rw [hpath] at hpath'
      cases hpath'
      refine hnot hsuper ?_ ?_
      · rw [hvid]
        exact hw.2
      · rw [hvid]
        exact Option.isSome_iff_exists.2 ⟨o, hw.1⟩
    constructor
    · rw [cleared_child]
      simp only [World.del, if_neg (childName_ne_of_slot hvid hr hv hen hpath hj)]
      exact hw.1
    · rw [cleared_lock]
      simp only [World.setLock, if_neg (lockName_ne_of_slot hvid hj)]
      exact hw.2

theorem mkChild_held {o : Overlay} {w : World} (hw : x.Held o w) :
    x.Held o (exec (mkChild x.s r) w).final :=
  mkChild_keeps (fun _ _ hv _ _ => slotStep_held hvid hr hv)
    (fun _ _ hv _ _ => slotStuck_held hvid hr hv) hw

/-- The first boot: the slot's own iteration leaves lock and child, and the others keep
what it left. -/
theorem mkChild_holds {w w' : World} (h : exec (mkChild x.s r) w = .ok () w') :
    w'.child x.child = none ∨ ∃ o, x.Held o w' := by
  rcases hr.slot with ⟨v, hv, -⟩
  refine (mkChild_ok hr.enable h).establishes
    (I := fun w => w.child x.child = none ∨ ∃ o, x.Held o w) (mem_zipIdx_of_slot hv) ?_ ?_
  · exact fun _ _ => slotStep_holds hvid hr hv
  · intro vj hvj w₁ w₂ hw₁ hstep
    rcases slot_of_mem_zipIdx hvj with ⟨j, hj, hget⟩
    rw [hj] at hstep
    by_cases hji : j = x.i
    · subst hji
      exact slotStep_holds hvid hr hget hstep
    · rcases hw₁ with hnone | ⟨o, ho⟩
      · exact .inl ((slotStep_child hvid hr hget hji hstep).trans hnone)
      · exact .inr ⟨o, slotStep_held hvid hr hget ho hstep⟩

end Boot

/-- The boot of a workstation with another MAC. -/
theorem mkChild_held_other {x : Slot} {r : Wks} (hlen : r.vid.length = x.vid.length)
    (hne : r.vid ≠ x.vid) {o : Overlay} {w : World} (hw : x.Held o w) :
    x.Held o (exec (mkChild x.s r) w).final := by
  have helse := mkChild_elsewhere (s := x.s) (r := r) w
  have hchild := helse.child x.child fun path heq => hne (childName_inj hlen.symm heq).2.symm
  have hlock := helse.lock x.lock fun i heq => hne (lockName_inj hlen.symm heq).2.symm
  exact ⟨hchild.trans hw.1, hlock.trans hw.2⟩

/-! ## One event -/

/-- What holds of the records, and the child once the session's first boot is over. -/
structure Slot.Tended (x : Slot) (h : Session) : Prop where
  mem : InMemory h.world.file.val
  server : Server.of? h.world.file.val = some x.s
  records : ∀ k, x.Record ((wksOf h.world.file.val).get k)
  held : ∀ o, h.expected = some o → x.Held o h.world

theorem bootVid_of_booted {w : World} {ip : String} {k : Key} {s : Server} {r : Wks}
    (h : Booted w ip k s r) : bootVid w ip = some r.vid := by
  simp [bootVid, h.id, h.addr, vidAt, h.wks]

theorem checkconf_of_bootVid {w : World} {ip vid : String} (h : bootVid w ip = some vid) :
    checkconf w.file.val = some true ∧ ip ≠ "::1" := by
  unfold bootVid at h
  split at h
  · next k hid =>
    split at h
    · cases h
    · next hip =>
      refine ⟨?_, hip⟩
      simp only [getIDFromIPv4, Option.bind_eq_bind, Option.bind_eq_some_iff] at hid
      rcases hid with ⟨ok, hok, hid⟩
      split at hid
      · next hif => rw [hok, hif.1]
      · cases hid
  · cases h

section Events

variable {x : Slot} (hmac : IsMacId x.vid) {h : Session} (hh : x.Tended h)

include hmac hh

/-- No boot touches the child of the session once it is there. -/
theorem Slot.Tended.boot_held {ip : String} {o : Overlay} (hw : x.Held o h.world) :
    x.Held o (h.world.step (.boot ip)) := by
  refine boot_keeps (I := x.Held o) (fun _ _ hsame hw => hw.of_overlays hsame) ?_ hw
  intro k s r hb w' hw'
  have hs : s = x.s := Option.some.inj (hb.server.symm.trans hh.server)
  subst hs
  rcases hh.records k r hb.wks with ⟨hown, hother⟩
  by_cases hvid : r.vid = x.vid
  · exact mkChild_held hvid (hown hvid) hw'
  · exact mkChild_held_other ((hother hvid).1.trans hmac.1.symm) hvid hw'

omit hmac in
/-- A boot of the workstation that leaves a child leaves its lock too. -/
theorem Slot.Tended.boot_holds {ip : String} (hown : bootVid h.world ip = some x.vid)
    (hok : (exec (bootRequest ip) h.world).isOk)
    (hsome : ((h.world.step (.boot ip)).child x.child).isSome) :
    ∃ o, x.Held o (h.world.step (.boot ip)) := by
  rcases checkconf_of_bootVid hown with ⟨hconf, hip⟩
  rcases bootRequest_cases ip h.world with ⟨-, hno⟩ | ⟨k, s, r, hb, hrun⟩
  · exact absurd (hno hok hconf) hip
  · have hs : s = x.s := Option.some.inj (hb.server.symm.trans hh.server)
    subst hs
    have hvid : r.vid = x.vid := Option.some.inj ((bootVid_of_booted hb).symm.trans hown)
    have hr : x.InSession r := (hh.records k r hb.wks).1 hvid
    rw [hrun] at hok
    have hdone := pipeline_establishes
      (I := fun w => w.child x.child = none ∨ ∃ o, x.Held o w)
      (fun w w' hsame hw => by
        rcases hw with hnone | ⟨o, ho⟩
        · simp only [World.overlays, Prod.mk.injEq] at hsame
          exact .inl (by rw [hsame.1, hnone])
        · exact .inr ⟨o, ho.of_overlays hsame⟩)
      (fun _ _ => mkChild_holds hvid hr) (Result.eq_ok_of_isOk hok)
    simp only [World.step, hrun] at hsome ⊢
    exact hdone.resolve_left (Option.isSome_iff_ne_none.1 hsome)

theorem Slot.Tended.boot {ip : String} (hallowed : x.Allowed h (.boot ip)) :
    x.Tended (h.step x (.boot ip)) := by
  have hfile : (h.step x (.boot ip)).world.file = h.world.file := (boot_shrinks ip h.world).file
  constructor
  · rw [hfile]
    exact hh.mem
  · rw [hfile]
    exact hh.server
  · rw [hfile]
    exact hh.records
  · intro o ho
    simp only [Session.step, Session.expect] at ho
    split at ho
    · next hif =>
      -- the session's first boot
      have hdone := hallowed hif.2
      rcases hh.boot_holds hif.2 hdone.1 (hdone.2 hif.1) with ⟨o', ho'⟩
      have heq : o' = o := Option.some.inj (ho'.1.symm.trans ho)
      subst heq
      exact ho'
    · exact hh.boot_held hmac (hh.held o ho)

omit hmac in
theorem Slot.Tended.childOf_own {k : Key} {r : Wks}
    (hr : Wks.of? ((wksOf h.world.file.val).get k) = some r) (hvid : r.vid = x.vid) {j : Nat}
    {f : String} (hf : childOf? h.world.file.val k j = some f) : f = x.child ↔ j = x.i := by
  have hin : x.InSession r := (hh.records k r hr).1 hvid
  simp only [childOf?, hh.server, hr, Option.bind_eq_bind, Option.bind_some,
    Option.bind_eq_some_iff] at hf
  rcases hf with ⟨v, hv, path, hpath, hif⟩
  split at hif
  · next hdyn =>
    cases hif
    constructor
    · intro heq
      by_contra hj
      exact childName_ne_of_slot hvid hin hv hdyn.1 hpath hj heq.symm
    · rintro rfl
      have hpath' := (hin.super hv).2.2
      rw [hpath] at hpath'
      cases hpath'
      rw [hvid]
      rfl
  · cases hif

/-- A write goes to the child of the session just when it is the workstation's own, to
the slot. -/
theorem Slot.Tended.childOf_eq {k : Key} {j : Nat} {f : String}
    (hf : childOf? h.world.file.val k j = some f) :
    f = x.child ↔ vidAt h.world.file.val k = some x.vid ∧ j = x.i := by
  have hf' := hf
  simp only [childOf?, hh.server, Option.bind_eq_bind, Option.bind_some,
    Option.bind_eq_some_iff] at hf'
  rcases hf' with ⟨r, hr, v, hv, path, hpath, hif⟩
  have hat : vidAt h.world.file.val k = some r.vid := by rw [vidAt, hr, Option.map_some]
  rw [hat, Option.some.injEq]
  by_cases hvid : r.vid = x.vid
  · rw [hh.childOf_own hr hvid hf]
    exact ⟨fun hj => ⟨hvid, hj⟩, fun hj => hj.2⟩
  · -- another workstation: its names end in another MAC
    refine ⟨fun heq => absurd ?_ hvid, fun hj => absurd hj.1 hvid⟩
    split at hif
    · cases hif
      have hlen : r.vid.length = x.vid.length :=
        ((hh.records k r hr).2 hvid).1.trans hmac.1.symm
      exact (childName_inj hlen heq).2
    · cases hif

/-- The workstation's own writes to the slot change the child as they change what is
expected; other writes do not reach it. -/
theorem Slot.Tended.write_held {k : Key} {j b data : Nat} {o : Overlay}
    (ho : h.expect x (.write k j b data) = some o) :
    x.Held o (h.world.writeVia k j b data) := by
  simp only [Session.expect] at ho
  rcases writeVia_cases h.world k j b data with hsame | ⟨f, o₁, hf, ho₁, hnew⟩
  · rw [hsame] at ho ⊢
    rw [if_neg (fun hif => hif.2.2 rfl)] at ho
    exact hh.held o ho
  · rw [hnew] at ho ⊢
    by_cases hfx : f = x.child
    · -- the write goes to the child of the session
      rcases (hh.childOf_eq hmac hf).1 hfx with ⟨hvid, hj⟩
      rw [if_pos ⟨hvid, hj, Nat.succ_ne_self _⟩, Option.map_eq_some_iff] at ho
      rcases ho with ⟨o₀, ho₀, rfl⟩
      have hheld := hh.held o₀ ho₀
      rw [hfx, hheld.1] at ho₁
      cases ho₁
      refine ⟨?_, hheld.2⟩
      simp only [hfx, if_pos]
    · have hnot : ¬ (vidAt h.world.file.val k = some x.vid ∧ j = x.i) :=
        fun hown => hfx ((hh.childOf_eq hmac hf).2 hown)
      rw [if_neg (fun hif => hnot ⟨hif.1, hif.2.1⟩)] at ho
      have hheld := hh.held o ho
      refine ⟨?_, hheld.2⟩
      simp only [if_neg (Ne.symm hfx)]
      exact hheld.1

theorem Slot.Tended.write (k : Key) (j b data : Nat) :
    x.Tended (h.step x (.write k j b data)) := by
  have hfile : (h.step x (.write k j b data)).world.file = h.world.file :=
    (writeVia_frame h.world k j b data).1
  constructor
  · rw [hfile]
    exact hh.mem
  · rw [hfile]
    exact hh.server
  · rw [hfile]
    exact hh.records
  · intro o ho
    exact hh.write_held hmac ho

omit hmac in
theorem Slot.Tended.copy (pid : Nat) : x.Tended (h.step x (.copy pid)) := by
  rcases copyBlock_stores h.world pid with ⟨hfile, hchild, hlock, -⟩
  have hfile : (h.step x (.copy pid)).world.file = h.world.file := hfile
  constructor
  · rw [hfile]
    exact hh.mem
  · rw [hfile]
    exact hh.server
  · rw [hfile]
    exact hh.records
  · intro o ho
    refine (hh.held o ho).of_overlays ?_
    show (h.world.copyBlock pid).overlays = _
    rw [World.overlays, World.overlays, hchild, hlock]

end Events

/-! ### Requests -/

section Requests

variable {x : Slot}

theorem Slot.InSession.supper_one {r : Wks} (hr : x.InSession r) :
    x.InSession { r with supper := .str "1" } :=
  ⟨hr.enable, isOne_one, hr.slot, hr.alone⟩

/-- Choosing a slot, the session's or another one. -/
theorem Slot.InSession.commit_one {r : Wks} (hr : x.InSession r) (i : Nat) :
    x.InSession { r with img := r.img.modify i fun v => { v with commit := .str "1" } } := by
  refine ⟨hr.enable, hr.supper, ?_, ?_⟩
  · rcases hr.slot with ⟨v, hv, hen, hdyn, hcommit, hpath⟩
    rw [List.getElem?_modify, hv]
    by_cases hi : i = x.i
    · simp only [if_pos hi]
      exact ⟨_, rfl, hen, hdyn, isOne_one, hpath⟩
    · simp only [if_neg hi]
      exact ⟨v, rfl, hen, hdyn, hcommit, hpath⟩
  · intro j v hv hen hpath
    rw [List.getElem?_modify] at hv
    rcases Option.map_eq_some_iff.1 hv with ⟨u, hu, rfl⟩
    refine hr.alone j u hu ?_ ?_
    · split at hen <;> exact hen
    · split at hpath <;> exact hpath

/-- `supper=true` for the workstation itself keeps the session. -/
theorem Slot.Record.flag_one {v v' : Value} (hv : x.Record v) (h : FlagStep "1" v v') :
    x.Record v' := by
  intro r' hr'
  cases h with
  | supper h =>
    rw [Wks.of?_assign_supper h] at hr'
    rcases Option.map_eq_some_iff.1 hr' with ⟨r, hr, rfl⟩
    rcases hv r hr with ⟨hown, hother⟩
    exact ⟨fun hvid => (hown hvid).supper_one, hother⟩
  | commit i h =>
    rw [Wks.of?_assign_slot h fun _ _ => Img.of?_assign_commit] at hr'
    rcases Option.map_eq_some_iff.1 hr' with ⟨r, hr, rfl⟩
    rcases hv r hr with ⟨hown, hother⟩
    exact ⟨fun hvid => (hown hvid).commit_one _, hother⟩

theorem vid_of_core {v v' : Value} {r r' : Wks} (hr : Wks.of? v = some r)
    (hr' : Wks.of? v' = some r')
    (h : coreOf v' = coreOf v) : r'.vid = r.vid := by
  unfold coreOf at h
  rw [hr, hr', Option.map_some, Option.map_some, Option.some.injEq] at h
  have hvid : r'.core.vid = r.core.vid := congrArg Wks.vid h
  exact hvid

/-- The flags of another workstation. -/
theorem Slot.Record.flag_other {y : String} {v v' : Value} (hv : x.Record v)
    (hne : (Wks.of? v).map Wks.vid ≠ some x.vid) (h : FlagStep y v v') : x.Record v' := by
  intro r' hr'
  have hcore := h.core
  cases hr : Wks.of? v with
  | none =>
    unfold coreOf at hcore
    rw [hr, hr'] at hcore
    cases hcore
  | some r =>
    rw [hr, Option.map_some, ne_eq, Option.some.injEq] at hne
    rw [vid_of_core hr hr' hcore]
    exact ⟨fun hvid => absurd hvid hne, (hv r hr).2⟩

theorem Slot.Harmless.keptBySuper {c : Value} {p : Post} (hp : x.Harmless c p) :
    KeptBySuper x.Record p c := by
  constructor
  · intro n cmd hid hcmd hset v v' hcore hflag hv
    rcases hp.super n cmd hid hcmd hset with rfl | hne
    · exact hv.flag_one hflag
    · refine hv.flag_other ?_ hflag
      -- the record still has the MAC it had in the file
      intro hvid
      refine hne ?_
      unfold coreOf at hcore
      unfold vidAt
      have hmap := congrArg (Option.map Wks.vid) hcore
      rw [Option.map_map, Option.map_map] at hmap
      exact hmap.symm.trans hvid
  · intro v v' hnbd hv r hr
    rw [hnbd.of?] at hr
    exact hv r hr

theorem Slot.Tended.post {h : Session} (hh : x.Tended h) {p : Post}
    (hp : x.Harmless h.world.file.val p) : x.Tended (h.step x (.post p)) := by
  constructor
  · exact hh.mem.post
  · exact (post_server hh.mem).trans hh.server
  · refine post_records hh.mem hh.records hp.keptBySuper ?_ ?_ ?_ ?_
    · intro hcmd d hd r hr
      rcases hp.apply hcmd d hd r hr with ⟨hmac, hne⟩
      exact ⟨fun hvid => absurd hvid hne, fun _ => hmac⟩
    · intro r hr
      cases hr
    · intro r hr
      cases hr
    · intro v htame hv r hr
      rw [htame.of?_reload] at hr
      exact hv r hr
  · intro o ho
    refine (hh.held o ho).of_overlays ?_
    have hstores := post_stores p h.world
    simp only [World.stores, Prod.mk.injEq] at hstores
    show (exec (NsBoot.post p) h.world).final.overlays = _
    rw [World.overlays, World.overlays, hstores.1, hstores.2.1]

end Requests

/-! ## Whole runs -/

theorem Slot.Tended.step {x : Slot} (hmac : IsMacId x.vid) (h : Session) (e : Event)
    (hh : x.Tended h) (hallowed : x.Allowed h e) : x.Tended (h.step x e) := by
  cases e with
  | boot ip => exact hh.boot hmac hallowed
  | post p => exact hh.post hallowed
  | write k j b data => exact hh.write hmac k j b data
  | copy pid => exact hh.copy pid

theorem Slot.Tended.survives {x : Slot} (hmac : IsMacId x.vid) (h : Session) (e : Event)
    (hh : x.Tended h) (hallowed : x.Allowed h e) : x.Survives h e := by
  cases e with
  | boot ip =>
    intro hown
    rcases hallowed hown with ⟨-, hfirst⟩
    cases hexp : h.expected with
    | none => exact ⟨hfirst hexp, fun hne => absurd rfl hne⟩
    | some o =>
      have hheld := hh.held o hexp
      have hafter : x.Held o (h.world.step (.boot ip)) := hh.boot_held hmac hheld
      exact ⟨Option.isSome_iff_exists.2 ⟨o, hafter.1⟩, fun _ => hafter.1.trans hheld.1.symm⟩
  | post _ | write | copy => trivial

/-- A super-mode session keeps its disk: from the second boot on, a boot leaves the
child as it was, and at any time the child is what the first boot left, with the
workstation's writes since then. -/
theorem session_persists (x : Slot) (hmac : IsMacId x.vid) (w : World)
    (hmem : InMemory w.file.val) (hserver : Server.of? w.file.val = some x.s)
    (hrecords : ∀ k, x.Record ((wksOf w.file.val).get k)) (es : List Event)
    (hes : Along (Session.step x) x.Allowed (Session.start w) es) :
    Along (Session.step x) x.Survives (Session.start w) es ∧
    ∀ o, (run (Session.step x) (Session.start w) es).expected = some o →
      (run (Session.step x) (Session.start w) es).world.child x.child = some o := by
  have hstart : x.Tended (Session.start w) := ⟨hmem, hserver, hrecords, fun o ho => by cases ho⟩
  constructor
  · exact hes.imp_of_inv (Slot.Tended.step hmac) (Slot.Tended.survives hmac) hstart
  · intro o ho
    exact ((hes.invariant (Slot.Tended.step hmac) hstart).held o ho).1

/-! ## A session -/

/-- The first disk of the workstation. -/
def firstSlot : Slot := ⟨shippedServer, "b42e992cdd52", 0, "win10cc.qcow2"⟩

/-- The workstation after `supper=true` for its first disk. -/
def superStation : World := oneStation.step superOn

theorem superRecord_inSession : firstSlot.InSession superRecord := by
  refine ⟨by decide, by decide, ⟨_, rfl, by decide, by decide, by decide, by decide⟩, ?_⟩
  intro j v hv hen hpath
  match j, hv with
  | 0, _ => rfl
  | 1, rfl => exact absurd hpath (by decide)
  | 2, rfl => exact absurd hpath (by decide)

theorem superStation_record (k : Key) :
    firstSlot.Record ((wksOf superStation.file.val).get k) := by
  have hkeys : HasKeys 1 superStation.file.val := ⟨_, rfl, by decide +kernel⟩
  intro r hr
  by_cases hk : k ∈ seqKeys 1
  · rw [show seqKeys 1 = [Key.num 1] from rfl, List.mem_singleton] at hk
    subst hk
    have hread : Wks.of? ((wksOf superStation.file.val).get (.num 1)) = some superRecord := by
      decide +kernel
    rw [hread] at hr
    cases hr
    exact ⟨fun _ => superRecord_inSession, fun hne => absurd (by decide) hne⟩
  · rw [hkeys.get_eq_nil hk] at hr
    cases hr

theorem superOn_harmless (c : Value) (p : Post) (h : Event.post p = superOn) :
    firstSlot.Harmless c p := by
  cases h
  constructor
  · intro n cmd _ hcmd _
    cases hcmd
    exact Or.inl rfl
  · intro hcmd
    cases hcmd

/-- Two boots, with a write after each and `supper=true` once more. -/
def superSession : List Event :=
  [.boot "192.168.0.3", .write (.num 1) 0 5 77, .boot "192.168.0.3", superOn,
    .write (.num 1) 0 6 78]

/-- Both writes are in the child at the end. -/
theorem session_persists_office :
    (run (Session.step firstSlot) (.start superStation)
      superSession).world.child firstSlot.child =
      some ⟨"/srv/images/boot/win10cc.qcow2", [(5, ⟨77, 2⟩), (6, ⟨78, 4⟩)], 0⟩ := by
  have hes : Along (Session.step firstSlot) firstSlot.Allowed (.start superStation)
      superSession :=
    ⟨fun _ => ⟨by decide +kernel, fun _ => by decide +kernel⟩, trivial,
      fun _ => ⟨by decide +kernel, fun _ => by decide +kernel⟩, superOn_harmless _ _ rfl, trivial,
        trivial⟩
  have hrun := session_persists firstSlot (by decide +kernel) superStation
    (HasKeys.inMemory (n := 1) ⟨_, rfl, by decide +kernel⟩) (by decide +kernel)
    superStation_record _ hes
  exact hrun.2 _ (by decide +kernel)

end NsBoot
