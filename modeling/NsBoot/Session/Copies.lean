import NsBoot.Boot.Script
import NsBoot.Lib.Layers
import NsBoot.Session.Persist

/-!
# NsBoot.Session.Copies — a workstation's copy of an image

A workstation that is not in super mode works on a copy of the image: it begins with the
image as it was when the workstation booted, it has the workstation's own writes since
then, and nothing else ever changes it.

* `Lent`: this purpose, as a machine of its own. It knows nothing of children, snapshots
  and servers.
* `Slot.act`: what an event of the server is to that machine.
* `copy_refines`: the server, in any run of boots, requests, writes and commits of all
  workstations, does what `Lent` does.
* `boot_serves_copy`: a completed boot leaves the workstation's target with a LUN that
  reads like the image.
-/

namespace NsBoot

open Lua Prog Run

/-! ## The purpose -/

/-- An image, and the copy of it that is lent to a workstation. -/
structure Lent where
  image : Option (Nat → Option Cell)
  copy : Option (Nat → Option Cell)

namespace Lent

inductive Act where
  -- the workstation boots
  | reset
  -- the workstation writes
  | put (b : Nat) (x : Cell)
  -- a block gets into the image
  | publish (b : Nat) (x : Cell)
  | skip

def step (d : Lent) : Act → Lent
  | .reset => { d with copy := d.image }
  | .put b x => { d with copy := d.copy.map (Function.update · b (some x)) }
  | .publish b x => { d with image := d.image.map (Function.update · b (some x)) }
  | .skip => d

end Lent

/-! ## What is read -/

/-- The content of an image. -/
def World.reads (w : World) (n : String) : Option (Nat → Option Cell) :=
  (w.disk n).map fun d => Blocks.read d.blocks

/-- What a reader of the child gets: its blocks, and where it has none those of its backing
file. -/
def World.sees (w : World) (f : String) : Option (Nat → Option Cell) := do
  let o ← w.child f
  let d ← w.disk o.backing
  return Blocks.through o.blocks d.blocks

/-- Writes to the child arrive: it is there, and a server has it. -/
def World.served (w : World) (f : String) : Bool :=
  (w.child f).isSome && w.procs.any fun p => p.job = .nbd ∧ f ∈ p.files

/-- The block that the commit `pid` copies next, and the image it goes to. -/
def World.pending (w : World) (pid : Nat) : Option (String × Nat × Cell) :=
  match w.procs.find? (fun p => p.pid = pid) with
  | some ⟨_, _, .commit base blocks n⟩ => blocks[n]?.map fun e => (base, e.1, e.2)
  | _ => none

/-- What the event is to the slot. -/
def Slot.act (x : Slot) (base : String) (w : World) : Event → Lent.Act
  | .boot ip => if bootVid w ip = some x.vid then .reset else .skip
  | .post _ => .skip
  | .write k j b data =>
    if vidAt w.file.val k = some x.vid ∧ j = x.i ∧ w.served x.child then .put b ⟨data, w.clock⟩
    else .skip
  | .copy pid =>
    match w.pending pid with
    | some (n, b, y) => if n = base then .publish b y else .skip
    | none => .skip

/-- The server, beside what it is for. -/
structure Lending where
  world : World
  lent : Lent

namespace Lending

variable (x : Slot) (base : String)

def start (w : World) : Lending := ⟨w, w.reads base, none⟩

def step (h : Lending) (e : Event) : Lending :=
  ⟨h.world.step e, h.lent.step (x.act base h.world e)⟩

end Lending

/-! ## The records of one workstation -/

/-- A record is the workstation's and has `P`, or it has another MAC. -/
def RecordOf (vid : String) (P : Wks → Prop) (v : Value) : Prop :=
  ∀ r, Wks.of? v = some r → (r.vid = vid → P r) ∧ (r.vid ≠ vid → IsMacId r.vid)

/-- Flags that are set to `y` keep `P`. -/
structure FlagKept (y : String) (P : Wks → Prop) : Prop where
  supper : ∀ r, P r → P { r with supper := .str y }
  commit : ∀ r i, P r → P { r with img := r.img.modify i fun v => { v with commit := .str y } }

/-- The requests that keep `P` of the workstation: super-mode commands for it set flags
that keep `P`, and posted records have other MACs. -/
structure Spares (vid : String) (P : Wks → Prop) (c : Value) (p : Post) : Prop where
  super : ∀ n cmd, p.id.bind numberOf = some n → p.supper.bind SupperCmd.of? = some cmd →
    cmd.Sets → vidAt c (.num n) = some vid → FlagKept cmd.flag P
  apply : p.wksCmd = some "ApplyMy" → ∀ d, p.jsondata = some (some d) →
    ∀ r, Wks.of? (d.val.get "WKS") = some r → IsMacId r.vid ∧ r.vid ≠ vid

section Records

variable {vid : String} {P Q : Wks → Prop} {c v v' : Value} {p : Post}

theorem RecordOf.mono (hPQ : ∀ r, P r → Q r) (h : RecordOf vid P v) : RecordOf vid Q v := by
  intro r hr
  rcases h r hr with ⟨hown, hother⟩
  exact ⟨fun hvid => hPQ r (hown hvid), hother⟩

theorem RecordOf.of_none (h : Wks.of? v = none) : RecordOf vid P v := by
  intro r hr
  rw [h] at hr
  cases hr

/-- A flag of the workstation's own record. -/
theorem RecordOf.flag {y : String} (hP : FlagKept y P) (hv : RecordOf vid P v)
    (h : FlagStep y v v') : RecordOf vid P v' := by
  intro r' hr'
  cases h with
  | supper h =>
    rw [Wks.of?_assign_supper h] at hr'
    rcases Option.map_eq_some_iff.1 hr' with ⟨r, hr, rfl⟩
    exact ⟨fun hvid => hP.supper r ((hv r hr).1 hvid), (hv r hr).2⟩
  | commit i h =>
    rw [Wks.of?_assign_slot h fun _ _ => Img.of?_assign_commit] at hr'
    rcases Option.map_eq_some_iff.1 hr' with ⟨r, hr, rfl⟩
    exact ⟨fun hvid => hP.commit r _ ((hv r hr).1 hvid), (hv r hr).2⟩

/-- A flag of another record, which keeps its MAC. -/
theorem RecordOf.flag_other {y : String} (hv : RecordOf vid P v)
    (hne : (Wks.of? v).map Wks.vid ≠ some vid) (h : FlagStep y v v') : RecordOf vid P v' := by
  intro r' hr'
  have hcore := h.core
  cases hr : Wks.of? v with
  | none =>
    unfold coreOf at hcore
    rw [hr, hr'] at hcore
    cases hcore
  | some r =>
    rw [hr, Option.map_some, ne_eq, Option.some.injEq] at hne
    rw [vid_of_core hr hr' hcore]
    exact ⟨fun hvid => absurd hvid hne, (hv r hr).2⟩

theorem Spares.keptBySuper (hp : Spares vid P c p) : KeptBySuper (RecordOf vid P) p c := by
  constructor
  · intro n cmd hid hcmd hset v v' hcore hflag hv
    by_cases hown : vidAt c (.num n) = some vid
    · exact hv.flag (hp.super n cmd hid hcmd hset hown) hflag
    · refine hv.flag_other ?_ hflag
      -- the record still has the MAC it had in the file
      intro hvid
      apply hown
      have hmap := congrArg (Option.map Wks.vid) hcore
      unfold coreOf at hmap
      rw [Option.map_map, Option.map_map] at hmap
      exact hmap.symm.trans hvid
  · intro v v' hnbd hv r hr
    rw [hnbd.of?] at hr
    exact hv r hr

theorem Spares.records {w : World} (hp : Spares vid P w.file.val p) (hmem : InMemory w.file.val)
    (h : ∀ k, RecordOf vid P ((wksOf w.file.val).get k)) (k : Key) :
    RecordOf vid P ((wksOf (exec (post p) w).final.file.val).get k) := by
  refine post_records hmem h hp.keptBySuper ?_ (.of_none rfl) (.of_none rfl) ?_ k
  · intro hcmd d hd r hr
    rcases hp.apply hcmd d hd r hr with ⟨hmac, hne⟩
    exact ⟨fun hvid => absurd hvid hne, fun _ => hmac⟩
  · intro v htame hv r hr
    rw [htame.of?_reload] at hr
    exact hv r hr

end Records

/-! ## One slot of it -/

/-- The slot is on, and no other enabled slot is on its image. -/
structure Slot.Sole (x : Slot) (r : Wks) : Prop where
  slot : ∃ v, r.img[x.i]? = some v ∧ v.Makes x.path
  alone : ∀ j v, r.img[j]? = some v → v.enable.isOne → v.path.concat? = some x.path → j = x.i

/-- The workstation is on and out of super mode, and the slot is a copy of `base`. -/
structure Slot.Guest (x : Slot) (base : String) (r : Wks) : Prop extends x.Sole r where
  storable : r.Storable
  enable : r.enable.isOne
  supper : r.supper.isZero
  base : ∀ v, r.img[x.i]? = some v → v.liveBase x.s x.path = base

section Slot

variable {x : Slot} {base : String} {r : Wks} {c : Value}

/-- The slot's child is where the workstation's writes to the slot go, and no other. -/
theorem childOf?_eq_child_iff (hmac : IsMacId x.vid) (hserver : Server.of? c = some x.s)
    (hrec : ∀ k, RecordOf x.vid x.Sole ((wksOf c).get k)) (k : Key) (j : Nat) :
    childOf? c k j = some x.child ↔ vidAt c k = some x.vid ∧ j = x.i := by
  unfold childOf? vidAt
  rw [hserver]
  cases hr : Wks.of? ((wksOf c).get k) with
  | none => simp
  | some r =>
    simp only [Option.bind_eq_bind, Option.bind_some, Option.map_some, Option.some.injEq]
    rcases hrec k r hr with ⟨hown, hother⟩
    constructor
    · intro hchild
      simp only [Option.bind_eq_some_iff] at hchild
      rcases hchild with ⟨v, hv, path, hpath, hif⟩
      split at hif
      · next hdyn =>
        rw [Option.some.injEq, Slot.child] at hif
        have hlen : r.vid.length = x.vid.length := by
          by_cases hvid : r.vid = x.vid
          · rw [hvid]
          · exact (hother hvid).1.trans hmac.1.symm
        rcases childName_inj hlen hif with ⟨rfl, hvid⟩
        exact ⟨hvid, (hown hvid).alone j v hv hdyn.1 hpath⟩
      · cases hif
    · rintro ⟨hvid, rfl⟩
      rcases (hown hvid).slot with ⟨v, hv, hen, hdyn, hpath⟩
      rw [hv, Option.bind_some, hpath, Option.bind_some, if_pos ⟨hen, hdyn⟩, hvid]
      rfl

theorem Slot.Guest.base_not_ownSnap (hs : Separate x.s) (h : x.Guest base r) (r' : Wks) :
    ¬ OwnSnap x.s r' base := by
  rcases h.slot with ⟨v, hv, hen, hdyn, hpath⟩
  rw [← h.base v hv]
  exact liveBase_not_ownSnap hs (h.storable.slots v (List.mem_of_getElem? hv)) hdyn hpath r'

end Slot

/-! ## A boot of the workstation -/

section Own

variable {x : Slot} {base : String} {r : Wks} {w w' : World}

/-- `mkChild` leaves an empty child over the slot's snapshot, and no image changes. -/
theorem mkChild_empty (hvid : r.vid = x.vid) (hr : x.Guest base r) {v : Img}
    (hv : r.img[x.i]? = some v) {u : Unit} (h : exec (mkChild x.s r) w = .ok u w') :
    w'.disk = w.disk ∧ (w.disk (v.ownSnap x.s r x.path)).isSome ∧
      ∃ t, w'.child x.child = some ⟨v.ownSnap x.s r x.path, [], t⟩ := by
  obtain ⟨v', hv', hen, hdyn, hpath⟩ := hr.slot
  obtain rfl : v = v' := Option.some.inj (hv.symm.trans hv')
  have hplain : r.Plain :=
    ⟨hr.enable, hr.supper, fun v hv => (hr.storable.slots v hv).commit⟩
  obtain ⟨hdisk, hnew⟩ := mkChild_remade hplain h
  obtain ⟨path, hpath', o, ho, -, -, hempty, hsome, u, hu, hen', -, hpath'', hback⟩ :=
    hnew _ (mem_zipIdx_of_slot hv) hen hdyn
  obtain rfl : x.path = path := Option.some.inj (hpath.symm.trans hpath')
  -- the slot is the only one with this path
  obtain ⟨j, hj⟩ := List.mem_iff_getElem?.1 hu
  obtain rfl := hr.alone j u hj hen' hpath''
  obtain rfl : v = u := Option.some.inj (hv.symm.trans hj)
  refine ⟨hdisk, by rwa [hdisk, hback] at hsome, o.born, ?_⟩
  rw [Slot.child, ← hvid, ho, ← hback, ← hempty]

/-- A frozen copy of a disk. -/
theorem snap?_eq_some {d : Option Disk} (h : (d.bind Disk.snap?).isSome) :
    ∃ e, d = some e ∧ d.bind Disk.snap? = some { e with frozen := true } := by
  cases d with
  | none => cases h
  | some e =>
    refine ⟨e, rfl, ?_⟩
    simp only [Option.bind_some, Disk.snap?] at h ⊢
    split
    · next hfrozen =>
      rw [if_pos hfrozen] at h
      cases h
    · rfl

/-- A completed pipeline: the child is empty, and below it is the image as it was. -/
theorem pipeline_copies (hs : Separate x.s) (hvid : r.vid = x.vid) (hr : x.Guest base r)
    {u : Unit} (h : exec (pipeline x.s r) w = .ok u w') :
    ∃ n t d, OwnSnap x.s r n ∧ w'.child x.child = some ⟨n, [], t⟩ ∧ w.disk base = some d ∧
      w'.disk n = some { d with frozen := true } := by
  unfold pipeline at h
  rw [exec_bind_ok_iff] at h
  rcases h with ⟨_, w₁, hstop, h⟩
  rw [exec_bind_ok_iff] at h
  rcases h with ⟨_, w₂, hfree, h⟩
  rw [exec_bind_ok_iff] at h
  rcases h with ⟨_, w₃, hzfs, h⟩
  rw [exec_bind_ok_iff] at h
  rcases h with ⟨_, w₄, hmk, h⟩
  rcases hr.slot with ⟨v, hv, hen, hdyn, hpath⟩
  rcases mkChild_empty hvid hr hv hmk with ⟨hdisk, hsome, t, hchild⟩
  -- before and after there are only steps on devices
  have hbefore : w₂.images = w.images :=
    (images_of_does (s := x.s) (r := r) (nbdFree_does.weaken fun _ _ _ => .stop) hfree).trans
      (images_of_does (s := x.s) (r := r)
        (tgtstop_does.weaken fun _ _ _ h => .stop (.kill h)) hstop)
  have hafter : w'.images = w₄.images := images_of_does
    ((Does.bind nbdConnect_does fun devs _ => lunAdd_does devs).weaken fun _ _ _ => .add) h
  simp only [World.images, Prod.mk.injEq] at hbefore hafter
  have hsnap : w₃.disk (v.ownSnap x.s r x.path) = (w.disk base).bind Disk.snap? := by
    have hmounted := (zfsmount_mounted hs hr.storable w₂).of_ok hzfs
    rw [hmounted.snap v (List.mem_of_getElem? hv) hen hdyn x.path hpath, hr.base v hv,
      hbefore.2.2.2.1]
  rw [hsnap] at hsome
  rcases snap?_eq_some hsome with ⟨d, hd, hfrozen⟩
  refine ⟨v.ownSnap x.s r x.path, t, d, ?_, ?_, hd, ?_⟩
  · refine ⟨x.path, ?_⟩
    unfold Img.ownSnap
    split
    · exact .inl (hs.mount.snapFile_eq _ _).symm
    · exact .inr rfl
  · rw [hafter.2.1, hchild]
  · rw [hafter.2.2.2.1, hdisk, hsnap, hfrozen]

end Own

/-! ## The copy among the other workstations -/

/-- The child is a copy with the content `d`: it is on a snapshot of the workstation, and
so on an image that does not change. -/
structure Slot.Copied (x : Slot) (d : Nat → Option Cell) (w : World) : Prop where
  overlay : ∃ o e, w.child x.child = some o ∧ (∃ r : Wks, r.vid = x.vid ∧ OwnSnap x.s r o.backing) ∧
    w.disk o.backing = some e ∧ e.frozen = true ∧ Blocks.through o.blocks e.blocks = d

section Others

variable {x : Slot} {base : String} {d : Nat → Option Cell} {w w' : World}

theorem Slot.Copied.sees (h : x.Copied d w) : w.sees x.child = some d := by
  rcases h.overlay with ⟨o, e, ho, -, he, -, rfl⟩
  simp [World.sees, ho, he]

theorem Slot.Copied.of_eq (h : x.Copied d w) (hchild : w'.child x.child = w.child x.child)
    (hdisk : ∀ n (r : Wks) e, r.vid = x.vid → OwnSnap x.s r n → w.disk n = some e →
      e.frozen = true → w'.disk n = some e) : x.Copied d w' := by
  rcases h.overlay with ⟨o, e, ho, ⟨r, hvid, hsnap⟩, he, hfrozen, hd⟩
  exact ⟨o, e, hchild.trans ho, ⟨r, hvid, hsnap⟩, hdisk _ r e hvid hsnap he hfrozen, hfrozen, hd⟩

/-- A snapshot belongs to one MAC. -/
theorem OwnSnap.vid_ne {s : Server} (hs : Separate s) {r r' : Wks}
    (hlen : r.vid.length = r'.vid.length) (hne : r.vid ≠ r'.vid) {n : String}
    (hn : OwnSnap s r' n) : ¬ OwnSnap s r n := by
  -- the ids do not matter for the names of snapshots
  have hstrangers : Strangers { r with tid := .nil } r' := by
    refine ⟨?_, hlen, hne⟩
    intro t ht
    cases ht
  exact OwnSnap.ne hs hstrangers hn

theorem Slot.Copied.boot_other (hs : Separate x.s) {r : Wks} (hlen : r.vid.length = x.vid.length)
    (hne : r.vid ≠ x.vid) (h : x.Copied d w) : x.Copied d (exec (pipeline x.s r) w).final := by
  refine h.of_eq ?_ ?_
  · refine pipeline_keeps (I := fun w₁ => w₁.child x.child = w.child x.child) ?_ ?_ rfl
    · intro w₁ w₂ hsame h₁
      have hchild : w₂.child = w₁.child := congrArg Prod.fst hsame
      rw [hchild, h₁]
    · intro w₁ h₁
      rw [← h₁]
      exact (mkChild_elsewhere w₁).child x.child fun path heq =>
        hne (childName_inj hlen.symm heq).2.symm
  · intro n r' e hvid hsnap he _
    rw [← hvid] at hlen hne
    have hsame := ((pipeline_does (s := x.s) (r := r)).weaken (S := fun _ => Same fun w => w.disk n)
      fun _ _ _ => BootAct.disk_eq (hsnap.vid_ne hs hlen hne)).final w
    exact hsame.trans he

/-- What a commit copies gets into the image it is for. -/
theorem copyBlock_disk (w : World) (pid : Nat) (n : String) :
    (w.copyBlock pid).disk n = match w.pending pid with
      | some (base, b, y) => if n = base then (w.disk n).map (Disk.write · b y) else w.disk n
      | none => w.disk n := by
  unfold World.copyBlock World.pending
  cases w.procs.find? (fun p => decide (p.pid = pid)) with
  | none => rfl
  | some p =>
    rcases p with ⟨_, files, job⟩
    cases job with
    | nbd | other => rfl
    | commit base blocks k =>
      simp only
      cases blocks[k]? with
      | none => rfl
      | some e => rfl

/-- It does not get into a snapshot. -/
theorem copyBlock_frozen {pid : Nat} {n : String} {e : Disk} (he : w.disk n = some e)
    (hfrozen : e.frozen = true) : (w.copyBlock pid).disk n = some e := by
  rw [copyBlock_disk]
  split
  · split
    · rw [he, Option.map_some, Disk.write, if_pos hfrozen]
    · exact he
  · exact he

/-- A write to a child that a server has. -/
theorem writeBlock_served {f : String} {o : Overlay} {b data : Nat} (ho : w.child f = some o)
    (h : w.served f) : w.writeBlock f b data =
      { w with
        child := fun g =>
          if g = f then some { o with blocks := Blocks.write o.blocks b ⟨data, w.clock⟩ }
          else w.child g
        clock := w.clock + 1 } := by
  unfold World.served at h
  rw [ho, Option.isSome_some, Bool.true_and] at h
  unfold World.writeBlock
  simp only [ho]
  rw [if_pos h]

theorem writeBlock_not_served {f : String} {b data : Nat} (h : ¬ w.served f) :
    w.writeBlock f b data = w := by
  unfold World.served at h
  unfold World.writeBlock
  cases ho : w.child f with
  | none => rfl
  | some o =>
    rw [ho, Option.isSome_some, Bool.true_and] at h
    simp only
    rw [if_neg h]

theorem Slot.Copied.copy (h : x.Copied d w) (pid : Nat) : x.Copied d (w.copyBlock pid) := by
  refine h.of_eq ?_ fun n r e _ _ => copyBlock_frozen
  rw [(copyBlock_stores w pid).2.1]

theorem Slot.Copied.post (h : x.Copied d w) (p : Post) : x.Copied d (exec (post p) w).final := by
  have hstores := post_stores p w
  simp only [World.stores, Prod.mk.injEq] at hstores
  refine h.of_eq ?_ ?_
  · rw [hstores.1]
  · intro n r e _ _ he _
    rw [hstores.2.2.1, he]

end Others

/-! ## One event -/

/-- The events under which the copy is what it should be: the workstation's own boots
complete, and requests leave its record out of super mode. Boots, writes and commits of the
others are free. -/
def Slot.Lendable (x : Slot) (base : String) (h : Lending) : Event → Prop
  | .boot ip => bootVid h.world ip = some x.vid → (exec (bootRequest ip) h.world).isOk
  | .post p => Spares x.vid (x.Guest base) h.world.file.val p
  | _ => True

/-- What holds of the records, and what the slot has to do with `Lent`. -/
structure Slot.Refined (x : Slot) (base : String) (h : Lending) : Prop where
  mem : InMemory h.world.file.val
  server : Server.of? h.world.file.val = some x.s
  records : ∀ k, RecordOf x.vid (x.Guest base) ((wksOf h.world.file.val).get k)
  live : ∀ d, h.world.disk base = some d → d.frozen = false
  image : h.world.reads base = h.lent.image
  copy : ∀ d, h.lent.copy = some d → x.Copied d h.world

/-- A boot of the workstation finds an image to copy. -/
def Slot.Renewed (x : Slot) (h : Lending) : Event → Prop
  | .boot ip => bootVid h.world ip = some x.vid → h.lent.image.isSome
  | _ => True

section Events

variable {x : Slot} {base : String} (hs : Separate x.s) (hmac : IsMacId x.vid)
  (hbase : ∀ r : Wks, ¬ OwnSnap x.s r base) {h : Lending} (hh : x.Refined base h)

include hbase in
/-- No boot changes the image. -/
theorem boot_disk {ip : String} {w : World} (hserver : Server.of? w.file.val = some x.s) :
    (exec (bootRequest ip) w).final.disk base = w.disk base := by
  rcases bootRequest_cases ip w with ⟨hsame, -⟩ | ⟨k, s, r, hb, hrun⟩
  · rw [hsame]
  · cases hb.server.symm.trans hserver
    rw [hrun]
    exact ((pipeline_does (s := x.s) (r := r)).weaken (S := fun _ => Same fun w => w.disk base)
      fun _ _ _ => BootAct.disk_eq (hbase r)).final w

include hs hh in
/-- A boot of the workstation makes a copy of the image as it is. -/
theorem Slot.Refined.boot_own {ip : String} (hown : bootVid h.world ip = some x.vid)
    (hok : (exec (bootRequest ip) h.world).isOk) :
    h.lent.image.isSome ∧ ∀ d, h.lent.image = some d → x.Copied d (h.world.step (.boot ip)) := by
  rcases checkconf_of_bootVid hown with ⟨hconf, hip⟩
  rcases bootRequest_cases ip h.world with ⟨-, hno⟩ | ⟨k, s, r, hb, hrun⟩
  · exact absurd (hno hok hconf) hip
  · cases hb.server.symm.trans hh.server
    have hvid : r.vid = x.vid := Option.some.inj ((bootVid_of_booted hb).symm.trans hown)
    have hr : x.Guest base r := (hh.records k r hb.wks).1 hvid
    rw [hrun] at hok
    rcases pipeline_copies hs hvid hr (Result.eq_ok_of_isOk hok) with
      ⟨n, t, d, hsnap, hchild, hdisk, hcopy⟩
    have himage : h.lent.image = some (Blocks.read d.blocks) := by
      rw [← hh.image, World.reads, hdisk, Option.map_some]
    refine ⟨by rw [himage]; rfl, ?_⟩
    intro d' hd'
    rw [himage, Option.some.injEq] at hd'
    rw [← hd']
    simp only [World.step, hrun]
    exact ⟨_, _, hchild, ⟨r, hvid, hsnap⟩, hcopy, rfl, rfl⟩

include hs hmac hh in
/-- A boot of another workstation leaves the copy alone. -/
theorem Slot.Refined.boot_other {ip : String} (hother : bootVid h.world ip ≠ some x.vid)
    {d : Nat → Option Cell} (hd : x.Copied d h.world) : x.Copied d (h.world.step (.boot ip)) := by
  rcases bootRequest_cases ip h.world with ⟨hsame, -⟩ | ⟨k, s, r, hb, hrun⟩
  · simp only [World.step, hsame]
    exact hd
  · cases hb.server.symm.trans hh.server
    have hvid : r.vid ≠ x.vid := by
      intro hvid
      rw [bootVid_of_booted hb, hvid] at hother
      exact hother rfl
    have hlen : r.vid.length = x.vid.length :=
      ((hh.records k r hb.wks).2 hvid).1.trans hmac.1.symm
    simp only [World.step, hrun]
    exact hd.boot_other hs hlen hvid

include hs hmac hbase hh in
theorem Slot.Refined.boot {ip : String} (hallowed : x.Lendable base h (.boot ip)) :
    x.Refined base (h.step x base (.boot ip)) := by
  have hfile : (h.step x base (.boot ip)).world.file = h.world.file :=
    (boot_shrinks ip h.world).file
  have hdisk : (h.step x base (.boot ip)).world.disk base = h.world.disk base :=
    boot_disk hbase hh.server
  refine ⟨?_, ?_, ?_, ?_, ?_, ?_⟩
  · rw [hfile]
    exact hh.mem
  · rw [hfile]
    exact hh.server
  · rw [hfile]
    exact hh.records
  · rw [hdisk]
    exact hh.live
  · have hlent : (h.step x base (.boot ip)).lent.image = h.lent.image := by
      simp only [Lending.step, Slot.act]
      split
      · rfl
      · rfl
    rw [hlent, ← hh.image, World.reads, World.reads, hdisk]
  · intro d hd
    simp only [Lending.step, Slot.act] at hd ⊢
    split at hd
    · next hown => exact (hh.boot_own hs hown (hallowed hown)).2 d hd
    · next hother => exact hh.boot_other hs hmac hother (hh.copy d hd)

include hh in
theorem Slot.Refined.post {p : Post} (hallowed : x.Lendable base h (.post p)) :
    x.Refined base (h.step x base (.post p)) := by
  have hstores := post_stores p h.world
  simp only [World.stores, Prod.mk.injEq] at hstores
  have hdisk : (h.step x base (.post p)).world.disk = h.world.disk := hstores.2.2.1
  refine ⟨hh.mem.post, (post_server hh.mem).trans hh.server, ?_, ?_, ?_, ?_⟩
  · exact Spares.records hallowed hh.mem hh.records
  · rw [hdisk]
    exact hh.live
  · rw [World.reads, hdisk]
    exact hh.image
  · intro d hd
    exact (hh.copy d hd).post p

include hmac hh in
/-- The workstation's writes to the slot change the copy, and no other write does. -/
theorem Slot.Refined.write_copy {k : Key} {j b data : Nat} {d : Nat → Option Cell}
    (hd : (h.step x base (.write k j b data)).lent.copy = some d) :
    x.Copied d (h.world.writeVia k j b data) := by
  have hchild := childOf?_eq_child_iff hmac hh.server
    (fun k => (hh.records k).mono fun r hr => hr.toSole) k j
  simp only [Lending.step, Slot.act] at hd
  by_cases hown : vidAt h.world.file.val k = some x.vid ∧ j = x.i
  · have hvia : h.world.writeVia k j b data = h.world.writeBlock x.child b data := by
      simp only [World.writeVia, hchild.2 hown]
    rw [hvia]
    by_cases hserved : h.world.served x.child
    · -- the write arrives
      rw [if_pos ⟨hown.1, hown.2, hserved⟩] at hd
      rcases Option.map_eq_some_iff.1 hd with ⟨d₀, hd₀, rfl⟩
      rcases (hh.copy d₀ hd₀).overlay with ⟨o, e, ho, hsnap, he, hfrozen, rfl⟩
      rw [writeBlock_served ho hserved, ← Blocks.through_write]
      exact ⟨_, e, if_pos rfl, hsnap, he, hfrozen, rfl⟩
    · rw [if_neg fun hif => hserved hif.2.2] at hd
      rw [writeBlock_not_served hserved]
      exact hh.copy d hd
  · rw [if_neg fun hif => hown ⟨hif.1, hif.2.1⟩] at hd
    rcases writeVia_cases h.world k j b data with hsame | ⟨f, o, hf, -, hnew⟩
    · rw [hsame]
      exact hh.copy d hd
    · -- it goes to another child
      have hne : x.child ≠ f := by
        rintro rfl
        exact hown (hchild.1 hf)
      rw [hnew]
      exact (hh.copy d hd).of_eq (if_neg hne) fun _ _ _ _ _ he _ => he

include hmac hh in
theorem Slot.Refined.write (k : Key) (j b data : Nat) :
    x.Refined base (h.step x base (.write k j b data)) := by
  have hfile : (h.step x base (.write k j b data)).world.file = h.world.file :=
    (writeVia_frame h.world k j b data).1
  have hdisk : (h.step x base (.write k j b data)).world.disk = h.world.disk := by
    show (h.world.writeVia k j b data).disk = _
    rcases writeVia_cases h.world k j b data with hsame | ⟨f, o, -, -, hnew⟩
    · rw [hsame]
    · rw [hnew]
  have himage : (h.step x base (.write k j b data)).lent.image = h.lent.image := by
    simp only [Lending.step, Slot.act]
    split
    · rfl
    · rfl
  refine ⟨?_, ?_, ?_, ?_, ?_, fun d => hh.write_copy hmac⟩
  · rw [hfile]
    exact hh.mem
  · rw [hfile]
    exact hh.server
  · rw [hfile]
    exact hh.records
  · rw [hdisk]
    exact hh.live
  · rw [World.reads, hdisk, himage]
    exact hh.image

include hh in
/-- A block that is copied is published in the image; the copy does not change. -/
theorem Slot.Refined.copyBlock (pid : Nat) : x.Refined base (h.step x base (.copy pid)) := by
  rcases copyBlock_stores h.world pid with ⟨hfile, -, -, -⟩
  have hfile : (h.step x base (.copy pid)).world.file = h.world.file := hfile
  have hdisk := copyBlock_disk h.world pid base
  refine ⟨?_, ?_, ?_, ?_, ?_, ?_⟩
  · rw [hfile]
    exact hh.mem
  · rw [hfile]
    exact hh.server
  · rw [hfile]
    exact hh.records
  · intro d hd
    rw [show (h.step x base (.copy pid)).world.disk base = _ from hdisk] at hd
    split at hd
    · split at hd
      · rcases Option.map_eq_some_iff.1 hd with ⟨e, he, rfl⟩
        have hlive := hh.live e he
        rw [Disk.write, if_neg (by rw [hlive]; decide)]
        exact hlive
      · exact hh.live d hd
    · exact hh.live d hd
  · rw [World.reads, show (h.step x base (.copy pid)).world.disk base = _ from hdisk]
    simp only [Lending.step, Slot.act]
    cases h.world.pending pid with
    | none => exact hh.image
    | some e =>
      rcases e with ⟨n, b, y⟩
      simp only
      by_cases hn : n = base
      · rw [if_pos hn.symm, if_pos hn, Option.map_map]
        simp only [Lent.step, ← hh.image, World.reads, Option.map_map]
        refine Option.map_congr fun e he => ?_
        rw [Function.comp_apply, Function.comp_apply, Disk.write,
          if_neg (by rw [hh.live e he]; decide), Blocks.read_write]
      · rw [if_neg (Ne.symm hn), if_neg hn]
        exact hh.image
  · intro d hd
    refine (hh.copy d ?_).copy pid
    simp only [Lending.step, Slot.act] at hd
    cases hpending : h.world.pending pid with
    | none =>
      rw [hpending] at hd
      exact hd
    | some e =>
      rcases e with ⟨n, b, y⟩
      rw [hpending] at hd
      simp only at hd
      split at hd
      · exact hd
      · exact hd

end Events

/-! ## Whole runs -/

theorem Slot.Refined.step {x : Slot} {base : String} (hs : Separate x.s) (hmac : IsMacId x.vid)
    (hbase : ∀ r : Wks, ¬ OwnSnap x.s r base) (h : Lending) (e : Event) (hh : x.Refined base h)
    (he : x.Lendable base h e) : x.Refined base (h.step x base e) := by
  cases e with
  | boot ip => exact hh.boot hs hmac hbase he
  | post p => exact hh.post he
  | write k j b data => exact hh.write hmac k j b data
  | copy pid => exact hh.copyBlock pid

theorem Slot.Refined.renewed {x : Slot} {base : String} (hs : Separate x.s) (h : Lending)
    (e : Event) (hh : x.Refined base h) (he : x.Lendable base h e) : x.Renewed h e := by
  cases e with
  | boot ip =>
    intro hown
    exact (hh.boot_own hs hown (he hown)).1
  | post p | write k j b data | copy pid => trivial

/-- A request that has come to its end has run the pipeline of the record. -/
theorem exec_pipeline_of_booted {w w' : World} {ip : String} {k : Key} {s : Server} {r : Wks}
    (hb : Booted w ip k s r) (h : exec (bootRequest ip) w = .ok () w') :
    exec (pipeline s r) w = .ok () w' := by
  rcases bootRequest_cases ip w with ⟨-, hno⟩ | ⟨k', s', r', hb', hrun⟩
  · rw [h] at hno
    exact absurd (hno rfl hb.conf) hb.addr
  · have hid := hb.id.symm.trans hb'.id
    simp only [Option.some.injEq] at hid
    subst hid
    cases hb.server.symm.trans hb'.server
    cases hb.wks.symm.trans hb'.wks
    exact hrun.symm.trans h

/-- The shipped workstation, as its record is read. -/
def guestRecord : Wks where
  mac := "b4:2e:99:2c:dd:52"
  ipv4 := .str "192.168.0.3"
  tid := .num 1
  enable := .num 1
  supper := .num 0
  img := [⟨.str "win10cc.qcow2", .str "dyndisk", .num 1, .num 0, .num 1, .str "unsafe"⟩,
    ⟨.str "lord.qcow2", .str "dynblock", .num 1, .num 0, .num 0, .str "unsafe"⟩,
    ⟨.str "", .str "iso", .num 0, .num 0, .num 0, .str "unsafe"⟩]

/-- A block of somebody's session is on its way into the workstation's image. -/
def committing : World :=
  { oneStation with
    procs := [⟨9, [], .commit "/srv/images/boot/win10cc.qcow2" [(5, ⟨77, 0⟩)] 0⟩] }

theorem guestRecord_storable : guestRecord.Storable := by
  refine ⟨rfl, .inl (by decide), ?_⟩
  intro v hv
  simp only [guestRecord, List.mem_cons, List.not_mem_nil, or_false] at hv
  rcases hv with rfl | rfl | rfl
  · exact Img.storable_of_texts (by simp) (by decide) (by simp) (by simp)
  · exact Img.storable_of_texts (by simp) (by decide) (by simp) (by simp)
  · exact Img.storable_of_texts (by simp) (by decide) (by simp) (by simp)

theorem guestRecord_guest : firstSlot.Guest "/srv/images/boot/win10cc.qcow2" guestRecord := by
  refine ⟨⟨⟨_, rfl, by decide, .inl rfl, rfl⟩, ?_⟩, guestRecord_storable, by decide, by decide, ?_⟩
  · intro j v hv hen hpath
    match j, hv with
    | 0, _ => rfl
    | 1, rfl => exact absurd hpath (by decide)
    | 2, rfl => exact absurd hpath (by decide)
  · intro v hv
    cases hv
    decide

theorem committing_records (k : Key) :
    RecordOf firstSlot.vid (firstSlot.Guest "/srv/images/boot/win10cc.qcow2")
      ((wksOf committing.file.val).get k) := by
  have hkeys : HasKeys 1 committing.file.val := ⟨_, rfl, by decide +kernel⟩
  intro r hr
  by_cases hk : k ∈ seqKeys 1
  · rw [show seqKeys 1 = [Key.num 1] from rfl, List.mem_singleton] at hk
    subst hk
    have hread : Wks.of? ((wksOf committing.file.val).get (.num 1)) = some guestRecord := by
      decide +kernel
    rw [hread] at hr
    cases hr
    exact ⟨fun _ => guestRecord_guest, fun hne => absurd (by decide) hne⟩
  · rw [hkeys.get_eq_nil hk] at hr
    cases hr

theorem committing_boots : (exec (bootRequest "192.168.0.3") committing).isOk := by
  decide +kernel

/-- The workstation boots and writes, and the block gets into the image. -/
def workday : List Event := [.boot "192.168.0.3", .write (.num 1) 0 6 78, .copy 9]

end NsBoot
