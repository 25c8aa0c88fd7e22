import Mathlib.Data.Fintype.Basic
import NsBoot.Boot
import NsBoot.Lib.Run
import NsBoot.Shipped

/-!
# NsBoot.Boot.Devices — workstations that choose nbd devices at once

`nbdConnect` looks for a device that nobody has open, and hands a command to the daemon
that attaches the device some time later. Here it is taken apart into its single tests and
commands (`Phase`, `nbdConnectStep`), so that the loops of several workstations, the daemon
and the rest of the machine can take turns in any order (`Devices.step`).

* `Exclusive`: no two slots have one device, from the choice of the device to the end of
  its server, and no chosen device has a server yet.
* `Devices.InTurn`: a device is chosen only while no other slot waits for its own.
* `devices_exclusive`: then devices are exclusive, and `nbd.del` of `nbdConnect` hits no
  server.
* `device_taken_twice`: without that they are not.
-/

namespace NsBoot

open Lua Run

/-! ## One workstation -/

/-- `/dev/nbdN`, for the device that is tried after `k` others. -/
def nbdDev (k : Nat) : String := "/dev/nbd" ++ toString (k + 1)

/-- `cmd.nbd.used`. -/
def World.nbdUsed (w : World) : Option String → Bool
  | some dev => w.devUsed dev
  | none => false

/-- One round of the loop of `nbdConnect`: what `search_nbd` found, the slot, and the slots
that follow. -/
structure Turn where
  dev : Option String
  img : Img
  rest : List Img

/-- Where `nbdConnect` stands. -/
inductive Phase where
  | next (rest : List Img)
  /-- in `search_nbd`, after `tried` devices -/
  | scan (tried : Nat) (img : Img) (rest : List Img)
  /-- at the head of the loop that frees the device -/
  | busy (t : Turn)
  /-- at the test for tgtd -/
  | who (t : Turn)
  /-- in the loop that stops the target -/
  | stop (t : Turn)
  /-- at the test for qemu-nbd -/
  | whoNbd (t : Turn)
  /-- before `nbd.del` -/
  | del (t : Turn)
  /-- in the loop that waits for the device -/
  | clear (t : Turn)
  /-- at the tests before `nbd.add` -/
  | test (t : Turn)
  /-- before `nbd.add` -/
  | add (t : Turn)
  | error

/-- The device that the slot has chosen. -/
def Phase.choice : Phase → Option String
  | busy t | who t | stop t | whoNbd t | del t | clear t | test t | add t => t.dev
  | next _ | scan .. | error => none

/-- The next test or command, and what is handed to the daemon: a device and a child. -/
def nbdConnectStep (s : Server) (r : Wks) (w : World) :
    Phase → Phase × World × List (String × String)
  | .next [] => (.next [], w, [])
  | .next (v :: rest) => (.scan 0 v rest, w, [])
  | .scan k v rest =>
    if k < s.nbdNbds then
      if w.devUsed (nbdDev k) then (.scan (k + 1) v rest, w, [])
      else (.busy ⟨some (nbdDev k), v, rest⟩, w, [])
    else (.busy ⟨none, v, rest⟩, w, [])
  | .busy t => if w.nbdUsed t.dev then (.who t, w, []) else (.clear t, w, [])
  | .who t =>
    if t.dev.bind w.usewho = some .tgtd then (.stop t, w, []) else (.whoNbd t, w, [])
  | .stop t =>
    if w.tgtUsed (targetName s r.vid) then
      -- `tgtstop` does nothing while a service is down
      if w.services then
        match r.tid.concat? with
        | some tid => (.stop t, w.tgtKill tid, [])
        | none => (.error, w, [])
      else (.stop t, w, [])
    else (.busy t, w, [])
  | .whoNbd t => if t.dev.bind w.usewho = some .nbd then (.del t, w, []) else (.busy t, w, [])
  | .del t =>
    match t.dev with
    | some dev => (.busy t, w.nbdDel dev, [])
    | none => (.error, w, [])
  | .clear t => if w.nbdUsed t.dev then (.clear t, w, []) else (.test t, w, [])
  | .test t =>
    if ¬ w.nbdUsed t.dev ∧ t.img.path ≠ .nil ∧ t.img.enable.isOne ∧ t.img.isDyn then (.add t, w, [])
    else (.next t.rest, w, [])
  | .add t =>
    match t.dev, t.img.path.concat?, t.img.cache.concat? with
    | some dev, some path, some _ => (.next t.rest, w, [(dev, childName s path r.vid)])
    | _, _, _ => (.error, w, [])
  | .error => (.error, w, [])

/-! ## All of them -/

/-- The machine, the loops of the workstations, and the commands that wait at the daemon. -/
structure Devices (ι : Type) where
  world : World
  phase : ι → Phase
  queue : List (String × String)

inductive DevEvent (ι : Type) where
  | run (i : ι)
  /-- the daemon runs one of the commands -/
  | attach (n : Nat)
  /-- something else happens on the machine -/
  | other (w' : World)

/-- No nbd server was started. -/
def NoNewServer (w w' : World) : Prop := ∀ p ∈ w'.procs, p.job = .nbd → p ∈ w.procs

instance (w w' : World) : Decidable (NoNewServer w w') :=
  inferInstanceAs (Decidable (∀ p ∈ w'.procs, p.job = .nbd → p ∈ w.procs))

section Machine

variable {ι : Type} [DecidableEq ι] (s : Server) (recs : ι → Wks)

def Devices.step (c : Devices ι) : DevEvent ι → Devices ι
  | .run i =>
    match nbdConnectStep s (recs i) c.world (c.phase i) with
    | (ph, w, cmds) => ⟨w, Function.update c.phase i ph, c.queue ++ cmds⟩
  | .attach n =>
    match c.queue[n]? with
    | some (dev, f) => { c with world := c.world.nbdAdd dev f, queue := c.queue.eraseIdx n }
    | none => c
  -- only the daemon starts servers
  | .other w' => if NoNewServer c.world w' then { c with world := w' } else c

/-- The loops at their start, with nothing at the daemon. -/
def Devices.start (w : World) : Devices ι := ⟨w, fun i => .next (recs i).img, []⟩

/-- A device is chosen only while no other slot waits for its own: none is between its
choice and its command, and no command waits. -/
def Devices.InTurn (c : Devices ι) : DevEvent ι → Prop
  | .run i =>
    match c.phase i with
    | .scan k _ _ => k < s.nbdNbds → c.world.devUsed (nbdDev k) = false →
      c.queue = [] ∧ ∀ j, j ≠ i → (c.phase j).choice = none
    | _ => True
  | .attach _ | .other _ => True

instance [Fintype ι] (c : Devices ι) : (e : DevEvent ι) → Decidable (c.InTurn s e)
  | .run i =>
    match h : c.phase i with
    | .scan k _ _ => decidable_of_iff (k < s.nbdNbds → c.world.devUsed (nbdDev k) = false →
        c.queue = [] ∧ ∀ j, j ≠ i → (c.phase j).choice = none) (by simp only [Devices.InTurn, h])
    | .next _ | .busy _ | .who _ | .stop _ | .whoNbd _ | .del _ | .clear _ | .test _ | .add _
    | .error => isTrue (by simp only [Devices.InTurn, h])
  | .attach _ | .other _ => isTrue trivial

end Machine

/-- A server of the device. -/
def Proc.Serves (p : Proc) (dev : String) : Prop := p.job = .nbd ∧ ∃ f, p.files = [f, dev]

/-- No device belongs to two slots: chosen, waiting at the daemon or attached. -/
structure Exclusive {ι : Type} (c : Devices ι) : Prop where
  chosen : ∀ i j d, (c.phase i).choice = some d → (c.phase j).choice = some d → i = j
  queued : ∀ i d, (c.phase i).choice = some d → d ∉ c.queue.map Prod.fst
  queue : (c.queue.map Prod.fst).Nodup
  unserved : ∀ d, (∃ i, (c.phase i).choice = some d) ∨ d ∈ c.queue.map Prod.fst →
    ∀ p ∈ c.world.procs, ¬ p.Serves d
  servers : ∀ d, ∀ p ∈ c.world.procs, ∀ q ∈ c.world.procs, p.Serves d → q.Serves d → p = q

/-! ## What a step can do -/

theorem NoNewServer.refl (w : World) : NoNewServer w w := fun _ hp _ => hp

theorem noNewServer_nbdDel (w : World) (dev : String) : NoNewServer w (w.nbdDel dev) :=
  fun _ hp _ => List.mem_of_mem_filter hp

/-- A step keeps the choice or drops it, or chooses a device, or hands the chosen one to
the daemon. -/
inductive Moves (s : Server) (w : World) (ph : Phase) :
    Phase × World × List (String × String) → Prop
  | keep {ph' : Phase} {w' : World} (hchoice : ph'.choice = ph.choice ∨ ph'.choice = none)
      (hw : NoNewServer w w') : Moves s w ph (ph', w', [])
  | choose {k : Nat} {v : Img} {rest : List Img} (hph : ph = .scan k v rest) (hk : k < s.nbdNbds)
      (hfree : w.devUsed (nbdDev k) = false) :
      Moves s w ph (.busy ⟨some (nbdDev k), v, rest⟩, w, [])
  | hand {ph' : Phase} {dev f : String} (hchoice : ph.choice = some dev)
      (hdone : ph'.choice = none) : Moves s w ph (ph', w, [(dev, f)])

theorem nbdConnectStep_moves (s : Server) (r : Wks) (w : World) (ph : Phase) :
    Moves s w ph (nbdConnectStep s r w ph) := by
  have hsame {ph' : Phase} (h : ph'.choice = ph.choice ∨ ph'.choice = none) :
      Moves s w ph (ph', w, []) := .keep h (.refl w)
  cases ph with
  | next rest =>
    cases rest with
    | nil => exact hsame (.inl rfl)
    | cons v rest => exact hsame (.inl rfl)
  | scan k v rest =>
    simp only [nbdConnectStep]
    split
    · next hk =>
      split
      · exact hsame (.inl rfl)
      · next hfree => exact .choose rfl hk (by simpa using hfree)
    · exact hsame (.inl rfl)
  | busy t | who t | whoNbd t | clear t =>
    simp only [nbdConnectStep]
    split
    · exact hsame (.inl rfl)
    · exact hsame (.inl rfl)
  | stop t =>
    simp only [nbdConnectStep]
    split
    · split
      · split
        · exact .keep (.inl rfl) fun _ hp _ => hp
        · exact hsame (.inr rfl)
      · exact hsame (.inl rfl)
    · exact hsame (.inl rfl)
  | del t =>
    simp only [nbdConnectStep]
    split
    · exact .keep (.inl rfl) (noNewServer_nbdDel w _)
    · exact hsame (.inr rfl)
  | test t =>
    simp only [nbdConnectStep]
    split
    · exact hsame (.inl rfl)
    · exact hsame (.inr rfl)
  | add t =>
    simp only [nbdConnectStep]
    split
    · next hdev _ _ => exact .hand hdev rfl
    · exact hsame (.inr rfl)
  | error => exact hsame (.inl rfl)

/-- A device that is not used has no server. -/
theorem not_serves_of_unused {w : World} {dev : String} (h : w.devUsed dev = false) :
    ∀ p ∈ w.procs, ¬ p.Serves dev := by
  rintro p hp ⟨-, f, hf⟩
  have hmem : p ∈ w.holders dev := List.mem_filter.2 ⟨hp, by simp [hf]⟩
  unfold World.devUsed at h
  rw [Bool.or_eq_false_iff] at h
  cases hh : w.holders dev with
  | nil =>
    rw [hh] at hmem
    cases hmem
  | cons q qs =>
    rw [hh] at h
    cases h.1

/-! ## Every step in turn keeps devices exclusive -/

section Keeps

variable {ι : Type} {c : Devices ι} (h : Exclusive c)

include h

/-- Choices are dropped, commands are dropped, and servers end. -/
theorem Exclusive.fewer {c' : Devices ι}
    (hchoice : ∀ i, (c'.phase i).choice = (c.phase i).choice ∨ (c'.phase i).choice = none)
    (hqueue : (c'.queue.map Prod.fst).Sublist (c.queue.map Prod.fst))
    (hw : NoNewServer c.world c'.world) : Exclusive c' := by
  have hold {i : ι} {d : String} (hd : (c'.phase i).choice = some d) :
      (c.phase i).choice = some d := by
    rcases hchoice i with heq | heq
    · rw [← heq, hd]
    · rw [heq] at hd
      cases hd
  refine ⟨?_, ?_, h.queue.sublist hqueue, ?_, ?_⟩
  · intro i j d hi hj
    exact h.chosen i j d (hold hi) (hold hj)
  · intro i d hi hmem
    exact h.queued i d (hold hi) (hqueue.subset hmem)
  · intro d hd p hp hserves
    refine h.unserved d ?_ p (hw p hp hserves.1) hserves
    rcases hd with ⟨i, hi⟩ | hd
    · exact .inl ⟨i, hold hi⟩
    · exact .inr (hqueue.subset hd)
  · intro d p hp q hq hpd hqd
    exact h.servers d p (hw p hp hpd.1) q (hw q hq hqd.1) hpd hqd

/-- The command that is run is gone from the queue. -/
theorem Exclusive.erased {n : Nat} {dev f : String} (hn : c.queue[n]? = some (dev, f)) :
    dev ∉ (c.queue.eraseIdx n).map Prod.fst := by
  intro hmem
  rcases List.mem_map.1 hmem with ⟨e, he, rfl⟩
  rcases List.mem_eraseIdx_iff_getElem?.1 he with ⟨m, hne, hm⟩
  have hlt : m < (c.queue.map Prod.fst).length := by
    rw [List.length_map]
    exact (List.getElem?_eq_some_iff.1 hm).1
  refine hne ((List.getElem?_inj hlt h.queue).1 ?_)
  rw [List.getElem?_map, List.getElem?_map, hm, hn]
  rfl

theorem Exclusive.attach {n : Nat} {dev f : String} (hn : c.queue[n]? = some (dev, f)) :
    Exclusive { c with world := c.world.nbdAdd dev f, queue := c.queue.eraseIdx n } := by
  have hsub : ((c.queue.eraseIdx n).map Prod.fst).Sublist (c.queue.map Prod.fst) :=
    (List.eraseIdx_sublist c.queue n).map _
  have hdev : dev ∈ c.queue.map Prod.fst :=
    List.mem_map.2 ⟨(dev, f), List.mem_of_getElem? hn, rfl⟩
  have hfewer : Exclusive { c with queue := c.queue.eraseIdx n } :=
    h.fewer (fun _ => .inl rfl) hsub (.refl _)
  unfold World.nbdAdd
  split
  · -- the new server serves a device that was nobody else's
    have hnew {d : String} (hd : Proc.Serves ⟨c.world.nextPid, [f, dev], .nbd⟩ d) : d = dev := by
      rcases hd with ⟨-, g, hg⟩
      cases hg
      rfl
    have hmem {p : Proc} (hp : p ∈ (c.world.spawn [f, dev] .nbd).procs) :
        p ∈ c.world.procs ∨ p = ⟨c.world.nextPid, [f, dev], .nbd⟩ := by
      simpa [World.spawn] using hp
    refine ⟨hfewer.chosen, hfewer.queued, hfewer.queue, ?_, ?_⟩
    · intro d hd p hp hserves
      rcases hmem hp with hp | rfl
      · exact hfewer.unserved d hd p hp hserves
      · rw [hnew hserves] at hd
        rcases hd with ⟨i, hi⟩ | hd
        · exact h.queued i dev hi hdev
        · exact h.erased hn hd
    · intro d p hp q hq hpd hqd
      rcases hmem hp with hp | rfl
      · rcases hmem hq with hq | rfl
        · exact h.servers d p hp q hq hpd hqd
        · rw [hnew hqd] at hpd
          exact absurd hpd (h.unserved dev (.inr hdev) p hp)
      · rcases hmem hq with hq | rfl
        · rw [hnew hpd] at hqd
          exact absurd hqd (h.unserved dev (.inr hdev) q hq)
        · rfl
  · exact hfewer

variable [DecidableEq ι]

theorem Exclusive.choose {i : ι} {ph : Phase} {d : String} (hph : ph.choice = some d)
    (hfree : c.world.devUsed d = false) (hqueue : c.queue = [])
    (hothers : ∀ j, j ≠ i → (c.phase j).choice = none) :
    Exclusive { c with phase := Function.update c.phase i ph } := by
  have honly {j : ι} {d' : String} (hj : (Function.update c.phase i ph j).choice = some d') :
      j = i ∧ d' = d := by
    by_cases hji : j = i
    · subst hji
      rw [Function.update_self, hph] at hj
      exact ⟨rfl, (Option.some.inj hj).symm⟩
    · rw [Function.update_of_ne hji, hothers j hji] at hj
      cases hj
  refine ⟨?_, ?_, h.queue, ?_, h.servers⟩
  · intro j k d' hj hk
    rw [(honly hj).1, (honly hk).1]
  · intro j d' _ hmem
    rw [hqueue] at hmem
    cases hmem
  · rintro d' (⟨j, hj⟩ | hd')
    · rw [(honly hj).2]
      exact not_serves_of_unused hfree
    · exact h.unserved d' (.inr hd')

theorem Exclusive.hand {i : ι} {ph : Phase} {d f : String} (hi : (c.phase i).choice = some d)
    (hph : ph.choice = none) :
    Exclusive { c with phase := Function.update c.phase i ph, queue := c.queue ++ [(d, f)] } := by
  have hold {j : ι} {d' : String} (hj : (Function.update c.phase i ph j).choice = some d') :
      j ≠ i ∧ (c.phase j).choice = some d' := by
    by_cases hji : j = i
    · subst hji
      rw [Function.update_self, hph] at hj
      cases hj
    · rw [Function.update_of_ne hji] at hj
      exact ⟨hji, hj⟩
  have hmem {d' : String} (hd' : d' ∈ (c.queue ++ [(d, f)]).map Prod.fst) :
      d' ∈ c.queue.map Prod.fst ∨ d' = d := by
    simpa using hd'
  refine ⟨?_, ?_, ?_, ?_, h.servers⟩
  · intro j k d' hj hk
    exact h.chosen j k d' (hold hj).2 (hold hk).2
  · intro j d' hj hd'
    rcases hmem hd' with hd' | rfl
    · exact h.queued j d' (hold hj).2 hd'
    · exact (hold hj).1 (h.chosen j i d' (hold hj).2 hi)
  · show List.Nodup ((c.queue ++ [(d, f)]).map Prod.fst)
    rw [List.map_append, List.nodup_append]
    refine ⟨h.queue, List.nodup_singleton _, ?_⟩
    intro a ha b hb
    rw [List.map_singleton, List.mem_singleton] at hb
    subst hb
    rintro rfl
    exact h.queued i _ hi ha
  · rintro d' (⟨j, hj⟩ | hd')
    · exact h.unserved d' (.inl ⟨j, (hold hj).2⟩)
    · rcases hmem hd' with hd' | rfl
      · exact h.unserved d' (.inr hd')
      · exact h.unserved d' (.inl ⟨i, hi⟩)

theorem Exclusive.step {s : Server} {recs : ι → Wks} {e : DevEvent ι} (hturn : c.InTurn s e) :
    Exclusive (c.step s recs e) := by
  cases e with
  | run i =>
    have hmoves := nbdConnectStep_moves s (recs i) c.world (c.phase i)
    simp only [Devices.step]
    generalize nbdConnectStep s (recs i) c.world (c.phase i) = next at hmoves
    cases hmoves with
    | keep hchoice hw =>
      refine h.fewer (fun j => ?_) (by simp) hw
      by_cases hji : j = i
      · subst hji
        simp only [Function.update_self]
        exact hchoice
      · exact .inl (by simp only [Function.update_of_ne hji])
    | choose hph hk hfree =>
      simp only [Devices.InTurn, hph] at hturn
      rcases hturn hk hfree with ⟨hqueue, hothers⟩
      simp only [List.append_nil]
      exact h.choose rfl hfree hqueue hothers
    | hand hchoice hdone => exact h.hand hchoice hdone
  | attach n =>
    simp only [Devices.step]
    split
    · next hn => exact h.attach hn
    · exact h
  | other w' =>
    simp only [Devices.step]
    split
    · next hw => exact h.fewer (fun _ => .inl rfl) (List.Sublist.refl _) hw
    · exact h

end Keeps

/-- Any number of workstations, any delay at the daemon, and anything else that the machine
does besides: while devices are chosen in turn, no two slots have one device, and the
`nbd.del` of `nbdConnect` finds no server. -/
theorem devices_exclusive {ι : Type} [DecidableEq ι] (s : Server) (recs : ι → Wks) (w : World)
    (hservers : ∀ d, ∀ p ∈ w.procs, ∀ q ∈ w.procs, p.Serves d → q.Serves d → p = q)
    (es : List (DevEvent ι))
    (hturn : Along (Devices.step s recs) (Devices.InTurn s) (Devices.start recs w) es) :
    Exclusive (run (Devices.step s recs) (Devices.start recs w) es) ∧
    ∀ i t d, (run (Devices.step s recs) (Devices.start recs w) es).phase i = .del t →
      t.dev = some d →
      ∀ p ∈ (run (Devices.step s recs) (Devices.start recs w) es).world.procs, ¬ p.Serves d := by
  have hstart : Exclusive (Devices.start recs w) := by
    refine ⟨fun _ _ _ hi => ?_, fun _ _ hi => ?_, List.nodup_nil, ?_, hservers⟩
    · cases hi
    · cases hi
    · rintro d (⟨i, hi⟩ | hd)
      · cases hi
      · cases hd
  have hend := Along.invariant (fun _ _ h hturn => h.step hturn) hstart hturn
  refine ⟨hend, ?_⟩
  intro i t d hi hd
  refine hend.unserved d (.inl ⟨i, ?_⟩)
  rw [hi]
  exact hd

/-- Two workstations, the first with a disk and a volume, the second with a disk. -/
def bootingWks : Fin 2 → Wks
  | 0 => ⟨"b4:2e:99:2c:dd:51", .str "192.168.0.3", .num 1, .num 1, .num 0,
      [⟨.str "win10cc.qcow2", .str "dyndisk", .num 1, .num 0, .num 1, .str "unsafe"⟩,
       ⟨.str "lord.qcow2", .str "dynblock", .num 1, .num 0, .num 0, .str "unsafe"⟩]⟩
  | 1 => ⟨"b4:2e:99:2c:dd:52", .str "192.168.0.4", .num 2, .num 1, .num 0,
      [⟨.str "win10cc.qcow2", .str "dyndisk", .num 1, .num 0, .num 1, .str "unsafe"⟩]⟩

/-- Their children are made, and nothing runs. -/
def childrenMade : World :=
  { World.initial .nil [] with
    child := fun f => if f ∈ ["/srv/writeback/win10cc.qcow2_child_b42e992cdd51",
      "/srv/writeback/lord.qcow2_child_b42e992cdd51",
      "/srv/writeback/win10cc.qcow2_child_b42e992cdd52"] then some ⟨"", [], 0⟩ else none }

/-- The second workstation starts when the first one's disk is attached. -/
def oneByOne : List (DevEvent (Fin 2)) :=
  List.replicate 6 (.run 0) ++ .attach 0 :: List.replicate 7 (.run 1) ++ [.attach 0]

theorem devices_exclusive_oneByOne :
    Exclusive (run (Devices.step shippedServer bootingWks) (Devices.start bootingWks childrenMade)
      oneByOne) ∧
    (run (Devices.step shippedServer bootingWks) (Devices.start bootingWks childrenMade)
      oneByOne).world.procs =
      [⟨1, ["/srv/writeback/win10cc.qcow2_child_b42e992cdd51", "/dev/nbd1"], .nbd⟩,
       ⟨2, ["/srv/writeback/win10cc.qcow2_child_b42e992cdd52", "/dev/nbd2"], .nbd⟩] :=
  ⟨(devices_exclusive shippedServer bootingWks childrenMade nofun oneByOne (by decide +kernel)).1,
    by decide +kernel⟩

/-- The daemon is slow: both slots of the first workstation get `/dev/nbd1`. Or it attaches
the first disk after the second workstation has chosen the device as well: that one finds a
qemu-nbd there, and its `nbd.del` ends the server of the first. -/
theorem device_taken_twice :
    (run (Devices.step shippedServer bootingWks) (Devices.start bootingWks childrenMade)
      (List.replicate 12 (.run 0))).queue =
      [("/dev/nbd1", "/srv/writeback/win10cc.qcow2_child_b42e992cdd51"),
       ("/dev/nbd1", "/srv/writeback/lord.qcow2_child_b42e992cdd51")] ∧
    (run (Devices.step shippedServer bootingWks) (Devices.start bootingWks childrenMade)
      (List.replicate 6 (.run 0) ++
        [.run 1, .run 1, .attach 0, .run 1, .run 1, .run 1])).world.procs =
      [⟨1, ["/srv/writeback/win10cc.qcow2_child_b42e992cdd51", "/dev/nbd1"], .nbd⟩] ∧
    (run (Devices.step shippedServer bootingWks) (Devices.start bootingWks childrenMade)
      (List.replicate 6 (.run 0) ++
        [.run 1, .run 1, .attach 0, .run 1, .run 1, .run 1, .run 1])).world.procs = [] := by
  refine ⟨?_, ?_, ?_⟩
  · decide +kernel
  · decide +kernel
  · decide +kernel

end NsBoot
