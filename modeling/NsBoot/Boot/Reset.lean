import NsBoot.Boot.Children
import NsBoot.Shipped

/-!
# NsBoot.Boot.Reset — a normal boot starts from a clean state

Out of super mode every boot throws the children away. After `zfsmount` and
`mkChild` each enabled slot has a child that was made in this boot, is empty,
and is backed by an image of the workstation's own, fresh snapshot
(`reset_on_reboot`).
-/

namespace NsBoot

open Lua Prog

variable {s : Server} {r : Wks}

/-! ## Snapshots are frozen -/

/-- No live image goes by this name. -/
def FrozenAt (n : String) (w : World) : Prop := ∀ d, w.disk n = some d → d.frozen

theorem frozen_of_snap {d : Option Disk} {d' : Disk} (h : d.bind Disk.snap? = some d') :
    d'.frozen := by
  obtain ⟨d, -, h⟩ := Option.bind_eq_some_iff.1 h
  unfold Disk.snap? at h
  split at h
  · simp at h
  · cases h
    rfl

theorem under_self (dir p : String) : under dir (dir ++ "/" ++ p) = some p := under_eq_some.2 rfl

/-- Taking the snapshot of one more volume. -/
theorem zfsmountSlot_frozen {v : Img} {w w' : World} {u : Unit}
    (h : exec (zfsmountSlot s r v) w = .ok u w') :
    (∀ n, FrozenAt n w → FrozenAt n w') ∧ w'.child = w.child ∧ w'.clock = w.clock ∧
    (v.enable.isOne → v.type = .str "dynblock" →
      ∃ path, v.path.concat? = some path ∧ FrozenAt (snapZvol s r.vid path) w') := by
  rcases exec_when_ok_iff.1 h with ⟨-, h⟩ | ⟨hne, rfl⟩
  · obtain ⟨path, _, hlift, h⟩ := exec_bind_ok_iff.1 h
    obtain ⟨hpath, rfl⟩ := exec_lift_ok_iff.1 hlift
    obtain rfl := exec_perform_ok_iff.1 h
    refine ⟨fun n hn d hd => ?_, rfl, rfl, fun _ _ => ⟨path, hpath, fun d hd => ?_⟩⟩
    · simp only [Op.disks] at hd
      split at hd
      · exact frozen_of_snap hd
      · exact hn d hd
    · simp only [Op.disks, if_true] at hd
      exact frozen_of_snap hd
  · exact ⟨fun _ => id, rfl, rfl, fun he ht => absurd ⟨he, ht⟩ hne⟩

theorem forM_zfsmountSlot_frozen {vs : List Img} {w w' : World} {u : Unit}
    (h : exec (vs.forM (zfsmountSlot s r)) w = .ok u w') :
    (∀ n, FrozenAt n w → FrozenAt n w') ∧ w'.child = w.child ∧ w'.clock = w.clock ∧
    ∀ v ∈ vs, v.enable.isOne → v.type = .str "dynblock" →
      ∃ path, v.path.concat? = some path ∧ FrozenAt (snapZvol s r.vid path) w' := by
  induction vs generalizing w with
  | nil =>
    obtain ⟨-, rfl⟩ := exec_pure_ok_iff.1 h
    exact ⟨fun _ => id, rfl, rfl, by simp⟩
  | cons v vs ih =>
    obtain ⟨_, w₁, hv, hvs⟩ := exec_bind_ok_iff.1 h
    obtain ⟨hkeep, hchild, hclock, hnew⟩ := zfsmountSlot_frozen hv
    obtain ⟨hkeep', hchild', hclock', hnew'⟩ := ih hvs
    refine ⟨fun n hn => hkeep' n (hkeep n hn), hchild'.trans hchild, hclock'.trans hclock, ?_⟩
    intro v' hmem he ht
    rcases List.mem_cons.1 hmem with rfl | hmem
    · obtain ⟨path, hpath, hf⟩ := hnew he ht
      exact ⟨path, hpath, hkeep' _ hf⟩
    · exact hnew' v' hmem he ht

/-- After `zfsmount` the workstation's own snapshots are there or missing, but
never live. -/
theorem zfsmount_frozen {w w' : World} {u : Unit} (hm : s.Mounted)
    (h : exec (zfsmount s r) w = .ok u w') :
    w'.child = w.child ∧ w'.clock = w.clock ∧
    ∀ v ∈ r.img, v.enable.isOne → v.isDyn → ∀ path, v.path.concat? = some path →
      FrozenAt (v.ownSnap s r path) w' := by
  obtain ⟨_, w₁, hfree, h⟩ := exec_bind_ok_iff.1 h
  obtain ⟨_, w₂, hun, h⟩ := exec_bind_ok_iff.1 h
  obtain ⟨_, w₃, hsnap, hslots⟩ := exec_bind_ok_iff.1 h
  have himages := images_of_does (s := s) (r := r) (nbdFree_does.weaken fun _ _ _ => .stop) hfree
  simp only [World.images, Prod.mk.injEq] at himages
  obtain rfl := exec_perform_ok_iff.1 hun
  obtain rfl := exec_perform_ok_iff.1 hsnap
  obtain ⟨hkeep, hchild, hclock, hnew⟩ := forM_zfsmountSlot_frozen hslots
  refine ⟨hchild.trans himages.2.1, hclock.trans himages.2.2.2.2, ?_⟩
  rintro v hv he (ht | ht) path hpath
  · -- a file of the mounted snapshot
    have hname : v.ownSnap s r path = zpoint s r.vid ++ "/" ++ path := by
      rw [Img.ownSnap, if_pos ht, hm.snapFile_eq]
    rw [hname]
    refine hkeep _ fun d hd => ?_
    simp only [Op.disks, under_self] at hd
    exact frozen_of_snap hd
  · -- the snapshot of a volume
    have hname : v.ownSnap s r path = snapZvol s r.vid path := by
      rw [Img.ownSnap, if_neg (by simp [ht])]
    obtain ⟨path', hpath', hf⟩ := hnew v hv he ht
    rw [hpath] at hpath'
    cases hpath'
    rwa [hname]

/-! ## Children are new -/

/-- A child that was made since time `t`, is empty, and is backed by a frozen
image of the workstation's own snapshot. -/
def Fresh (s : Server) (r : Wks) (t : Nat) (path : String) (w : World) : Prop :=
  ∃ o d, w.child (childName s path r.vid) = some o ∧ t ≤ o.born ∧ o.born < w.clock ∧
    o.blocks = [] ∧ (o.backing = snapFile s r.vid path ∨ o.backing = snapZvol s r.vid path) ∧
    w.disk o.backing = some d ∧ d.frozen

/-- The same, whatever the image is. -/
def Remade (s : Server) (r : Wks) (t : Nat) (path : String) (w : World) : Prop :=
  ∃ o, w.child (childName s path r.vid) = some o ∧ t ≤ o.born ∧ o.born < w.clock ∧
    o.blocks = [] ∧ (w.disk o.backing).isSome ∧
    ∃ v ∈ r.img, v.enable.isOne ∧ v.isDyn ∧ v.path.concat? = some path ∧
      o.backing = v.ownSnap s r path

/-- The flags of a normal boot. -/
def Wks.Plain (r : Wks) : Prop :=
  r.enable.isOne ∧ r.supper.isZero ∧ ∀ v ∈ r.img, v.commit.isZero ∨ v.commit.isOne

instance (r : Wks) : Decidable r.Plain := inferInstanceAs (Decidable (_ ∧ _))

theorem not_super_of_isZero (h : r.supper.isZero) (v : Img) : ¬ v.Super r :=
  fun hs => not_isOne_of_isZero h hs.2.1

/-- One iteration in a normal boot: what is new stays so, and the slot's own child is. -/
theorem slotStep_remade (hr : r.Plain) {v : Img} (hv : v ∈ r.img) {i t : Nat} {w w' : World}
    (ht : t ≤ w.clock) (h : SlotStep s r v i w w') :
    w'.disk = w.disk ∧ t ≤ w'.clock ∧ (∀ path, Remade s r t path w → Remade s r t path w') ∧
    (v.enable.isOne → v.isDyn → ∃ path, v.path.concat? = some path ∧ Remade s r t path w') := by
  obtain ⟨-, hsupper, hcommit⟩ := hr
  cases h with
  | idle hidle =>
    refine ⟨rfl, ht, fun _ => id, fun he hd => ?_⟩
    have := hidle he hd
    rw [parrentKind_of_normal hsupper he (hcommit v hv)] at this
    cases this
  | kept hdyn hpath hsuper => exact absurd hsuper (not_super_of_isZero hsupper v)
  | gone hdyn hpath hsuper => exact absurd hsuper (not_super_of_isZero hsupper v)
  | @made _ path k he hd hpath hk hnot hmade hlock hdisk =>
    rw [parrentKind_of_normal hsupper he (hcommit v hv)] at hk
    cases hk
    have hnew : Remade s r t path w' := by
      refine ⟨_, hmade.child_self, ht, ?_, rfl, ?_, v, hv, he, hd, hpath, rfl⟩
      · rw [hmade.clock]
        exact Nat.lt_succ_self _
      · rw [hmade.disk]
        exact hdisk
    have ht' : t ≤ w'.clock := by
      rw [hmade.clock]
      omega
    refine ⟨hmade.disk, ht', fun p hp => ?_, fun _ _ => ⟨path, hpath, hnew⟩⟩
    -- another slot's child, or the same one made a second time
    by_cases hpp : p = path
    · rwa [hpp]
    · obtain ⟨o, ho, hborn, hlt, hblocks, hd', hback⟩ := hp
      have hne : childName s p r.vid ≠ childName s path r.vid :=
        fun h => hpp (childName_inj rfl h).1
      refine ⟨o, (hmade.child_ne hne).trans ho, hborn, ?_, hblocks, ?_, hback⟩
      · rw [hmade.clock]
        omega
      · rw [hmade.disk]
        exact hd'

theorem slots_remade (hr : r.Plain) {vis : List (Img × Nat)} (hvis : ∀ vi ∈ vis, vi.1 ∈ r.img)
    {t : Nat} {w w' : World} (ht : t ≤ w.clock) (h : Slots s r vis w w') :
    w'.disk = w.disk ∧ (∀ path, Remade s r t path w → Remade s r t path w') ∧
    ∀ vi ∈ vis, vi.1.enable.isOne → vi.1.isDyn →
      ∃ path, vi.1.path.concat? = some path ∧ Remade s r t path w' := by
  induction h with
  | nil w => exact ⟨rfl, fun _ => id, by simp⟩
  | cons hstep hrest ih =>
    obtain ⟨hdisk, ht', hkeep, hnew⟩ :=
      slotStep_remade hr (hvis _ List.mem_cons_self) ht hstep
    obtain ⟨hdisk', hkeep', hnew'⟩ := ih (fun vi hvi => hvis vi (List.mem_cons_of_mem _ hvi)) ht'
    refine ⟨hdisk'.trans hdisk, fun p hp => hkeep' p (hkeep p hp), fun vi hvi he hd => ?_⟩
    rcases List.mem_cons.1 hvi with rfl | hvi
    · obtain ⟨path, hpath, hf⟩ := hnew he hd
      exact ⟨path, hpath, hkeep' path hf⟩
    · exact hnew' vi hvi he hd

/-- The whole loop of a normal boot, slot by slot. -/
theorem mkChild_remade {w w' : World} {u : Unit} (hr : r.Plain)
    (h : exec (mkChild s r) w = .ok u w') :
    w'.disk = w.disk ∧ ∀ vi ∈ r.img.zipIdx 1, vi.1.enable.isOne → vi.1.isDyn →
      ∃ path, vi.1.path.concat? = some path ∧ Remade s r w.clock path w' := by
  have hvis : ∀ vi ∈ r.img.zipIdx 1, vi.1 ∈ r.img :=
    fun vi hvi => List.fst_mem_of_mem_zipIdx hvi
  obtain ⟨hdisk, -, hnew⟩ := slots_remade hr hvis (Nat.le_refl _) (mkChild_ok hr.1 h)
  exact ⟨hdisk, hnew⟩

theorem exists_mem_zipIdx {v : Img} (hv : v ∈ r.img) : ∃ i, (v, i + 1) ∈ r.img.zipIdx 1 := by
  obtain ⟨i, hi⟩ := List.mem_iff_getElem?.1 hv
  exact ⟨i, List.mk_mem_zipIdx_iff_le_and_getElem?_sub.2 (by simpa)⟩

/-- After a whole normal boot the workstation's children are empty. -/
theorem pipeline_empty {w w' : World} {u : Unit} (hr : r.Plain)
    (h : exec (pipeline s r) w = .ok u w') {f : String} (hf : OwnChild s r f) :
    ∃ o, w'.child f = some o ∧ o.blocks = [] := by
  obtain ⟨_, w₁, -, h⟩ := exec_bind_ok_iff.1 h
  obtain ⟨_, w₂, -, h⟩ := exec_bind_ok_iff.1 h
  obtain ⟨_, w₃, -, h⟩ := exec_bind_ok_iff.1 h
  obtain ⟨_, w₄, hmk, h⟩ := exec_bind_ok_iff.1 h
  -- what follows `mkChild` is about devices
  have hdev : w'.images = w₄.images := images_of_does
    ((Does.bind nbdConnect_does fun devs _ => lunAdd_does devs).weaken fun _ _ _ => .add) h
  have hchild : w'.child = w₄.child := by
    simp only [World.images, Prod.mk.injEq] at hdev
    exact hdev.2.1
  obtain ⟨v, hv, hen, hdyn, path, hpath, rfl⟩ := hf
  obtain ⟨i, hi⟩ := exists_mem_zipIdx hv
  obtain ⟨path', hpath', o, ho, -, -, hempty, -⟩ := (mkChild_remade hr hmk).2 _ hi hen hdyn
  simp only [hpath, Option.some.injEq] at hpath'
  subst hpath'
  exact ⟨o, by rw [hchild, ho], hempty⟩

/-- **Reset on reboot.** When `zfsmount` and `mkChild` complete for an enabled
workstation that is not in super mode, and the snapshots are mounted where `cfg.lua`
says, the child of every enabled `dyndisk` and
`dynblock` slot is fresh, whatever children, locks and processes there were. -/
theorem reset_on_reboot {w w' : World} (hm : s.Mounted) (he : r.enable.isOne)
    (hs : r.supper.isZero) (hc : ∀ v ∈ r.img, v.commit.isZero ∨ v.commit.isOne)
    (h : exec (do zfsmount s r; mkChild s r) w = .ok () w') :
    ∀ v ∈ r.img, v.enable.isOne → v.isDyn →
      ∃ path, v.path.concat? = some path ∧ Fresh s r w.clock path w' := by
  intro v hv hen hdyn
  obtain ⟨i, hi⟩ := exists_mem_zipIdx hv
  obtain ⟨_, w₁, hzfs, hmk⟩ := exec_bind_ok_iff.1 h
  obtain ⟨-, hclock, hfrozen⟩ := zfsmount_frozen hm hzfs
  obtain ⟨hdisk, hnew⟩ := mkChild_remade ⟨he, hs, hc⟩ hmk
  obtain ⟨path, hpath, o, ho, hborn, hlt, hempty, hsome, u, hu, hen', hdyn', hpath', hback⟩ :=
    hnew _ hi hen hdyn
  obtain ⟨d, hd⟩ := Option.isSome_iff_exists.1 hsome
  refine ⟨path, hpath, o, d, ho, hclock ▸ hborn, hlt, hempty, ?_, hd, ?_⟩
  · rw [hback, Img.ownSnap]
    split
    · exact .inl rfl
    · exact .inr rfl
  · rw [hdisk, hback] at hd
    exact hfrozen u hu hen' hdyn' path hpath' d hd

/-- The first shipped workstation, with its flags as a super session leaves them. -/
def usedWks : Wks where
  mac := "b4:2e:99:2c:dd:52"
  ipv4 := .str "192.168.0.3"
  tid := .num 1
  enable := .num 1
  supper := .str "0"
  img := [⟨.str "win10cc.qcow2", .str "dyndisk", .num 1, .str "0", .num 1, .str "unsafe"⟩,
    ⟨.str "lord.qcow2", .str "dynblock", .num 1, .num 1, .num 0, .str "unsafe"⟩,
    ⟨.str "", .str "iso", .num 0, .num 0, .num 0, .str "none"⟩]

/-- Its child with a block, the lock, and the server that holds the child. -/
def usedWorld : World :=
  { World.initial .nil
      ["/srv/images/boot/win10cc.qcow2", "/dev/zvol/nsboot0/images/storages/lord.qcow2"] with
    child := fun f => if f = "/srv/writeback/win10cc.qcow2_child_b42e992cdd52"
      then some ⟨"/srv/images/boot/win10cc.qcow2", [(7, ⟨1, 0⟩)], 0⟩ else none
    lock := fun l => l = "/var/lock/nsboot_lock_1b42e992cdd52"
    procs := [⟨4, ["/srv/writeback/win10cc.qcow2_child_b42e992cdd52", "/dev/nbd1"], .nbd⟩]
    clock := 1 }

theorem reset_used :
    ∃ v ∈ usedWks.img, v.enable.isOne ∧ v.isDyn ∧ ∃ path, v.path.concat? = some path ∧
      Fresh shippedServer usedWks 1 path
        (exec (do zfsmount shippedServer usedWks; mkChild shippedServer usedWks)
          usedWorld).final := by
  have hfresh := reset_on_reboot (s := shippedServer) (r := usedWks) (w := usedWorld) (by decide)
    (by decide) (by decide) (by decide) (Result.eq_ok_of_isOk (by decide +kernel))
  exact ⟨_, List.mem_cons_self, by decide, by decide,
    hfresh _ List.mem_cons_self (by decide) (by decide)⟩

end NsBoot
