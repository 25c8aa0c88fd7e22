import NsBoot.Srv
import NsBoot.Lib.Run

/-!
# NsBoot.Srv.Bases — boots and the base images under srv/nsboot

Before `mkChild` deletes a child it asks whether the child is in use, and in this
controller the question starts `qemu-img commit`. What a session left in a child
over the live base gets into the base when the workstation boots after the
session was dropped (`boot_commits_dropped`).

* `Inert`: no running commit has a block for a live image.
* `SlotSafe`: a child with blocks over a live image belongs to a slot that is
  chosen in the session and has its lock file, so that `mkChild` keeps it.
* `mkChild_inert`: with safe slots the commits that `mkChild` starts are inert.
* `bases_kept`: along runs in which every boot finds safe slots no step changes
  a base image.
-/

namespace NsBoot.Srv

open Lua Prog Run

/-! ## Commits without effect -/

/-- No live image has the name. -/
def NotLive (w : World) (n : String) : Prop := ∀ d, w.disk n = some d → d.frozen = true

/-- The running commits have no block for a live image. -/
def Inert (w : World) : Prop :=
  ∀ p ∈ w.procs, ∀ base blocks k, p.job = .commit base blocks k → blocks = [] ∨ NotLive w base

section Frames

variable (s : Server) (r : Wks)

/-- What the steps of a boot do to images and commits: outside the workstation's
own snapshots no image changes, an image that is new is a snapshot, and no commit
with an effect is started. -/
structure Quiet (w w' : World) : Prop where
  kept : ∀ n, ¬ OwnSnap s r n → w'.disk n = w.disk n
  fresh : ∀ n d, w'.disk n = some d → d.frozen = true ∨ w.disk n = some d
  inert : Inert w → Inert w'

/-- The same, with children and locks as they were. -/
structure Before (w w' : World) : Prop extends Quiet s r w w' where
  child : w'.child = w.child
  lock : w'.lock = w.lock

/-- What the steps for one slot do: no child gets a block, and other slots keep
their lock files. -/
structure SlotFrame (i : Nat) (w w' : World) : Prop where
  disk : w'.disk = w.disk
  child : ∀ f o, w'.child f = some o → w.child f = some o ∨ o.blocks = []
  lock : ∀ j, j ≠ i → w'.lock (lockName s j r.vid) = w.lock (lockName s j r.vid)
  inert : Inert w → Inert w'

end Frames

variable {s : Server} {r : Wks} {w w' w₁ w₂ w₃ : World}

theorem NotLive.mono {n : String} (h : NotLive w n)
    (hfresh : ∀ d, w'.disk n = some d → d.frozen = true ∨ w.disk n = some d) : NotLive w' n := by
  intro d hd
  rcases hfresh d hd with hfrozen | hold
  · exact hfrozen
  · exact h d hold

theorem Inert.mono (h : Inert w)
    (hfresh : ∀ n d, w'.disk n = some d → d.frozen = true ∨ w.disk n = some d)
    (hprocs : ∀ p ∈ w'.procs, p ∈ w.procs ∨ p.job = .nbd) : Inert w' := by
  intro p hp base blocks k hjob
  rcases hprocs p hp with hold | hnbd
  · rcases h p hold base blocks k hjob with hnil | hbase
    · exact Or.inl hnil
    · exact Or.inr (hbase.mono (hfresh base))
  · rw [hnbd] at hjob
    cases hjob

theorem Quiet.of_procs (hdisk : w'.disk = w.disk)
    (hprocs : ∀ p ∈ w'.procs, p ∈ w.procs ∨ p.job = .nbd) : Quiet s r w w' := by
  have hfresh : ∀ n d, w'.disk n = some d → d.frozen = true ∨ w.disk n = some d := by
    intro n d hd
    rw [hdisk] at hd
    exact Or.inr hd
  exact ⟨fun n _ => congrFun hdisk n, hfresh, fun h => h.mono hfresh hprocs⟩

theorem Quiet.trans (h : Quiet s r w₁ w₂) (h' : Quiet s r w₂ w₃) : Quiet s r w₁ w₃ where
  kept n hn := (h'.kept n hn).trans (h.kept n hn)
  fresh n d hd := by
    rcases h'.fresh n d hd with hfrozen | hold
    · exact Or.inl hfrozen
    · exact h.fresh n d hold
  inert hw := h'.inert (h.inert hw)

instance : IsPreorder World (Quiet s r) where
  refl _ := .of_procs rfl fun _ => Or.inl
  trans _ _ _ := Quiet.trans

instance : IsPreorder World (Before s r) where
  refl _ := ⟨.of_procs rfl fun _ => Or.inl, rfl, rfl⟩
  trans _ _ _ h h' := ⟨h.toQuiet.trans h'.toQuiet, h'.child.trans h.child, h'.lock.trans h.lock⟩

theorem SlotFrame.trans {i : Nat} (h : SlotFrame s r i w₁ w₂) (h' : SlotFrame s r i w₂ w₃) :
    SlotFrame s r i w₁ w₃ where
  disk := h'.disk.trans h.disk
  child f o ho := by
    rcases h'.child f o ho with hold | hempty
    · exact h.child f o hold
    · exact Or.inr hempty
  lock j hj := (h'.lock j hj).trans (h.lock j hj)
  inert hw := h'.inert (h.inert hw)

instance (i : Nat) : IsPreorder World (SlotFrame s r i) where
  refl _ := ⟨rfl, fun _ _ => Or.inl, fun _ _ => rfl, id⟩
  trans _ _ _ := SlotFrame.trans

/-! ## Devices, targets and snapshots -/

theorem tgtstop_before : Does (fun _ => Before s r) (fun _ => True) (tgtstop s r) := by
  refine tgtstop_does.weaken fun o w w' h => ?_
  cases h <;> exact ⟨.of_procs rfl fun _ => Or.inl, rfl, rfl⟩

theorem nbdDel_before (dev : String) :
    Does (fun _ => Before s r) (fun _ => True) (modify fun w => w.nbdDel dev : Sys PUnit) :=
  Does.modify fun _ => ⟨.of_procs rfl fun _ hp => Or.inl (List.mem_of_mem_filter hp), rfl, rfl⟩

theorem freeDevice_before {rounds : Nat} {del : Sys Unit} {dev : String}
    (hdel : Does (fun _ => Before s r) (fun _ => True) del) :
    Does (fun _ => Before s r) (fun _ => True) (freeDevice s r rounds del dev) := by
  refine Does.loop (fun w => refl_of _ w) ?_ rounds
  refine Does.bind (Does.get fun w => refl_of _ w) fun w _ => ?_
  split
  · exact Does.loop (fun w => refl_of _ w) tgtstop_before rounds
  · exact hdel
  · exact Does.done _

theorem nbdFree_before (rounds : Nat) (nbds : List Value) :
    Does (fun _ => Before s r) (fun _ => True) (nbdFree s r rounds nbds) := by
  refine Does.forM fun nbd _ => Does.bind (Does.lift fun _ _ => trivial) fun dev _ => ?_
  exact freeDevice_before (Does.bind (nbdDel_before dev) fun _ _ => nbdDel_before dev)

/-- An image a zfs command makes is a snapshot. -/
theorem disks_fresh (o : Op) {d : String → Option Disk} {n : String} {x : Disk}
    (h : o.disks d n = some x) : x.frozen = true ∨ d n = some x := by
  have hsnap {y : Option Disk} (hy : y.bind Disk.snap? = some x) : x.frozen = true := by
    rcases Option.bind_eq_some_iff.1 hy with ⟨z, -, hz⟩
    unfold Disk.snap? at hz
    split at hz
    · cases hz
    · cases hz
      rfl
  cases o with
  | unmount point =>
    simp only [Op.disks] at h
    split at h
    · cases h
    · exact Or.inr h
  | snapDir dir point =>
    simp only [Op.disks] at h
    split at h
    · exact Or.inl (hsnap h)
    · exact Or.inr h
  | snapDev dev snap =>
    simp only [Op.disks] at h
    split at h
    · exact Or.inl (hsnap h)
    · exact Or.inr h
  | load | save | kill | commit | wake | ask | tau => exact Or.inr h

theorem zfs_before {o : Op} (ho : ZfsOp s r o) :
    Does (fun _ => Before s r) (fun _ => True) (zfs o) := by
  refine Does.perform fun w => ⟨⟨fun n hn => ho.disks_eq hn w.disk, ?_, fun hw => ?_⟩, rfl, rfl⟩
  · exact fun n d hd => disks_fresh o hd
  · exact hw.mono (fun n d hd => disks_fresh o hd) fun _ => Or.inl

theorem zfsmount_before (rounds : Nat) (nbds : List Value) :
    Does (fun _ => Before s r) (fun _ => True) (zfsmount s r rounds nbds) := by
  refine Does.bind (nbdFree_before rounds nbds) fun _ _ =>
    Does.bind (zfs_before .unmount) fun _ _ =>
    Does.bind (zfs_before .snapDir) fun _ _ => Does.forM fun v _ => Does.when fun _ => ?_
  exact Does.bind (Does.lift fun _ _ => trivial) fun path _ => zfs_before (.snapDev path)

theorem nbdConnect_quiet (rounds : Nat) (nbds : List Value) :
    Does (fun _ => Quiet s r) (fun _ => True) (nbdConnect s r rounds nbds) := by
  refine Does.forM fun vn _ => Does.bind (Does.lift fun _ _ => trivial) fun dev _ =>
    Does.bind ((freeDevice_before (nbdDel_before dev)).weaken fun _ _ _ h => h.toQuiet) fun _ _ =>
      Does.when fun _ => Does.bind (Does.lift fun _ _ => trivial) fun path _ =>
        Does.bind (Does.lift fun _ _ => trivial) fun _ _ => Does.modify fun w => ?_
  unfold World.nbdAdd
  split
  · refine .of_procs rfl fun p hp => ?_
    rcases List.mem_append.1 hp with hold | hnew
    · exact Or.inl hold
    · rw [List.mem_singleton] at hnew
      exact Or.inr (by rw [hnew])
  · exact refl_of _ w

theorem lunAdd_quiet (nbds : List Value) :
    Does (fun _ => Quiet s r) (fun _ => True) (lunAdd s r nbds) := by
  have hlun (t : String) (i : Nat) (store : String) :
      Does (fun _ => Quiet s r) (fun _ => True) (modify fun w => w.lunNew t i store : Sys PUnit) :=
    Does.modify fun _ => .of_procs rfl fun _ => Or.inl
  have hstart : Does (fun _ => Quiet s r) (fun _ => True) (tgtstart s r) := by
    refine Does.bind (Does.get fun w => refl_of _ w) fun w _ => Does.when fun _ =>
      Does.bind (Does.lift fun _ _ => trivial) fun tid _ => Does.modify fun w => ?_
    unfold World.tgtNew
    split <;> exact .of_procs rfl fun _ => Or.inl
  refine Does.bind (Does.get fun w => refl_of _ w) fun w _ => Does.bind
    (Does.when fun _ => Does.bind hstart fun _ _ => Does.wait _) fun _ _ =>
      Does.forM fun vni _ => ?_
  refine Does.bind (Does.when fun _ => ?_) fun _ _ => Does.bind (Does.lift fun _ _ => trivial)
    fun path _ => Does.bind (Does.get fun w => refl_of _ w) fun w _ => Does.when fun _ => ?_
  · exact Does.bind (Does.lift fun _ _ => trivial) fun t _ =>
      Does.bind (Does.lift fun _ _ => trivial) fun dev _ => hlun t _ dev
  · exact Does.bind (Does.lift fun _ _ => trivial) fun t _ => hlun t _ _

/-! ## Children -/

/-- A child of the slot that has blocks over a live image is one that `mkChild`
keeps: the slot is chosen, and has its lock file. -/
def SlotSafe (s : Server) (r : Wks) (w : World) (i : Nat) (v : Img) : Prop :=
  ∀ f o, v.IsChild s r f → w.child f = some o → o.blocks ≠ [] → ¬ NotLive w o.backing →
    Chosen r v ∧ w.lock (lockName s i r.vid)

theorem findParrents_isChild {v : Img} {x : Vars} {f : String}
    (h : findParrents s r v ⟨none, none⟩ = some x) (hf : x.child = some f) : v.IsChild s r f := by
  -- the same slot, as the only one of its workstation
  have hown : OwnChild s { r with img := [v] } f :=
    findParrents_own (r := { r with img := [v] }) List.mem_cons_self (by simp [Vars.Own]) h f hf
  rcases hown with ⟨u, hu, hchild⟩
  rw [List.mem_singleton] at hu
  subst hu
  exact hchild

section Slot

variable {i : Nat} {v : Img} {x : Vars}

theorem imgChild_frame : Does (fun _ => SlotFrame s r i) (fun _ => True) (imgChild x) := by
  refine Does.bind (Does.lift fun _ _ => trivial) fun p _ =>
    Does.bind (Does.lift fun _ _ => trivial) fun c _ => Does.modify fun w => ?_
  rcases create_cases w p c with hcreate | hcreate
  · rw [hcreate]
    exact refl_of _ w
  · rw [hcreate]
    refine ⟨rfl, fun f o ho => ?_, fun _ _ => rfl, fun hw => hw⟩
    simp only at ho
    split at ho
    · cases ho
      exact Or.inr rfl
    · exact Or.inl ho

theorem setLock_frame (b : Bool) : Does (fun _ => SlotFrame s r i) (fun _ => True)
    (modify fun w => w.setLock (lockName s i r.vid) b : Sys PUnit) := by
  refine Does.modify fun w => ⟨rfl, fun _ _ => Or.inl, fun j hj => ?_, fun hw => hw⟩
  exact if_neg fun heq => hj (lockName_inj rfl heq).1

/-- The commit that is started has no effect, if the child is safe to ask for. -/
theorem askAndDel_frame
    (hsafe : ∀ f o, x.child = some f → w.child f = some o → o.blocks = [] ∨ NotLive w o.backing) :
    Ends (SlotFrame s r i w) (fun _ => SlotFrame s r i w) (askAndDel x) w := by
  have hrefl : SlotFrame s r i w w := refl_of _ w
  refine Ends.bind (Ends.lift (Q := fun f w' => x.child = some f ∧ w = w') hrefl
    fun f hf => ⟨hf, rfl⟩) ?_
  rintro f _ ⟨hf, rfl⟩
  have hstart : SlotFrame s r i w (w.startCommit f) := by
    unfold World.startCommit
    cases ho : w.child f with
    | none => exact hrefl
    | some o =>
      refine ⟨rfl, fun _ _ => Or.inl, fun _ _ => rfl, fun hw p hp base blocks k hjob => ?_⟩
      rcases List.mem_append.1 hp with hold | hnew
      · exact hw p hold base blocks k hjob
      · -- the commit of the child
        rw [List.mem_singleton] at hnew
        subst hnew
        cases hjob
        exact hsafe f o hf ho
  refine Ends.bind (Q := fun _ => SlotFrame s r i w) hstart fun _ w₁ h₁ => ?_
  refine h₁.trans ⟨rfl, fun g o ho => ?_, fun _ _ => rfl, fun hw => hw⟩
  simp only [World.del] at ho
  split at ho
  · cases ho
  · exact Or.inl ho

/-- Parts that follow in the same slot. -/
theorem SlotFrame.then {α : Type} {P : α → Prop} {y : Sys α}
    (hy : Does (fun _ => SlotFrame s r i) P y) (h : SlotFrame s r i w w') :
    Ends (SlotFrame s r i w) (fun _ => SlotFrame s r i w) y w' :=
  Ends.of_does hy (fun _ h' => h.trans h') fun _ _ _ h' => h.trans h'

theorem recreate_frame
    (hsafe : ∀ f o, x.child = some f → w.child f = some o → o.blocks = [] ∨ NotLive w o.backing) :
    Ends (SlotFrame s r i w) (fun _ => SlotFrame s r i w) (recreate (lockName s i r.vid) x) w := by
  have hrefl : SlotFrame s r i w w := refl_of _ w
  refine Ends.get_bind (Ends.bind (Q := fun _ => SlotFrame s r i w) ?_ fun _ w₁ h₁ => ?_)
  · refine Ends.ite (fun _ => ?_) fun _ => Ends.pure hrefl
    refine Ends.bind (askAndDel_frame hsafe) fun _ w₁ h₁ => h₁.then (P := fun _ => True) ?_
    exact Does.bind (Does.get fun w => refl_of _ w) fun w _ => Does.when fun _ =>
      setLock_frame false
  · refine h₁.then (P := fun _ => True) ?_
    split
    · exact Does.bind (Does.wait _) fun _ _ => imgChild_frame
    · exact Does.done _

theorem mkSlot_frame (hsafe : SlotSafe s r w i v) :
    Ends (SlotFrame s r i w) (fun _ => SlotFrame s r i w) (mkSlot s r i v) w := by
  have hrefl : SlotFrame s r i w w := refl_of _ w
  refine Ends.bind (Ends.lift (Q := fun x w' => findParrents s r v ⟨none, none⟩ = some x ∧ w = w')
    hrefl fun x hx => ⟨hx, rfl⟩) ?_
  rintro x _ ⟨hx, rfl⟩
  have hlock : Does (fun _ => SlotFrame s r i) (fun _ => True)
      (modify fun w => w.setLock (lockName s i r.vid) true : Sys PUnit) := setLock_frame true
  -- a child that is not kept
  have hask (hnot : ¬ (Chosen r v ∧ w.lock (lockName s i r.vid))) :
      ∀ f o, x.child = some f → w.child f = some o → o.blocks = [] ∨ NotLive w o.backing := by
    intro f o hf ho
    by_contra hcon
    rw [not_or] at hcon
    exact hnot (hsafe f o (findParrents_isChild hx hf) ho hcon.1 hcon.2)
  refine Ends.get_bind (Ends.ite (fun hif => ?_) fun hnew => Ends.ite (fun _ => ?_) fun _ =>
    Ends.ite (fun _ => hrefl.then hlock) fun hkeep => ?_)
  · -- chosen, and no lock file yet
    refine Ends.bind (askAndDel_frame (hask fun h => hif.2.1 h.2)) fun _ w₁ h₁ =>
      h₁.then (P := fun _ => True) ?_
    exact Does.bind imgChild_frame fun _ _ => hlock
  · exact hrefl.then (Does.bind hlock fun _ _ => imgChild_frame)
  · by_cases hchild : w.isChild x.child
    · -- not chosen, or the branches before would have been taken
      refine recreate_frame (hask fun h => hkeep ⟨?_, h.2, hchild⟩)
      exact decide_eq_true h.1
    · refine recreate_frame fun f o hf ho => absurd ?_ hchild
      rw [hf]
      simp [World.isChild, ho]

end Slot

/-- All slots, one after the other. -/
theorem mkSlots_quiet {vis : List (Img × Nat)} (hnodup : (vis.map Prod.snd).Nodup)
    (hsafe : ∀ vi ∈ vis, SlotSafe s r w vi.2 vi.1) :
    Ends (Quiet s r w) (fun _ => Quiet s r w) (vis.forM fun vi => mkSlot s r vi.2 vi.1) w := by
  have hquiet {i : Nat} {u u' : World} (h : SlotFrame s r i u u') : Quiet s r u u' := by
    refine ⟨fun n _ => congrFun h.disk n, fun n d hd => ?_, h.inert⟩
    rw [h.disk] at hd
    exact Or.inr hd
  -- the slots that are left stay safe
  induction vis generalizing w with
  | nil => exact Ends.pure (refl_of _ w)
  | cons vi vis ih =>
    rw [List.map_cons, List.nodup_cons] at hnodup
    refine Ends.bind ((mkSlot_frame (hsafe vi List.mem_cons_self)).imp (fun _ => hquiet)
      fun _ _ => id)
      fun _ w₁ h₁ => ?_
    have hrest : ∀ ui ∈ vis, SlotSafe s r w₁ ui.2 ui.1 := by
      intro ui hui f o hf ho hne hlive
      have hi : ui.2 ≠ vi.2 := by
        intro heq
        exact hnodup.1 (heq ▸ List.mem_map_of_mem hui)
      rcases h₁.child f o ho with hold | hempty
      · have hlive' : ¬ NotLive w o.backing := by
          unfold NotLive at hlive ⊢
          rwa [h₁.disk] at hlive
        rw [h₁.lock ui.2 hi]
        exact hsafe ui (List.mem_cons_of_mem _ hui) f o hf hold hne hlive'
      · exact absurd hempty hne
    exact (ih hnodup.2 hrest).imp (fun _ => (hquiet h₁).trans) fun _ _ => (hquiet h₁).trans

/-- The slots of the workstation, with their numbers. -/
def AllSafe (s : Server) (r : Wks) (w : World) : Prop :=
  ∀ vi ∈ r.img.zipIdx 1, SlotSafe s r w vi.2 vi.1

theorem AllSafe.before (h : AllSafe s r w) (hb : Before s r w w') : AllSafe s r w' := by
  intro vi hvi f o hf ho hne hlive
  rw [hb.child] at ho
  rw [hb.lock]
  refine h vi hvi f o hf ho hne fun hnot => hlive ?_
  exact hnot.mono (hb.fresh _)

theorem mkChild_quiet (hsafe : AllSafe s r w) :
    Ends (Quiet s r w) (fun _ => Quiet s r w) (mkChild s r) w := by
  refine Ends.ite (fun _ => mkSlots_quiet ?_ hsafe) fun _ => Ends.pure (refl_of _ w)
  rw [List.zipIdx_map_snd]
  exact List.nodup_range'

/-- **The pipeline starts no commit with an effect**, if the slots are safe. -/
theorem pipeline_quiet (hsafe : AllSafe s r w) (rounds : Nat) (nbds : List Value) :
    Quiet s r w (exec (pipeline s r rounds nbds) w).final := by
  have hfirst {α : Type} {P : α → Prop} {x : Sys α}
    (hx : Does (fun _ => Before s r) P x) {u : World}
      (h : Before s r w u) : Ends (Quiet s r w) (fun _ => Before s r w) x u :=
    Ends.of_does hx (fun _ h' => (trans_of _ h h' : Before s r w _).toQuiet)
      fun _ _ _ h' => trans_of _ h h'
  have hlast {α : Type} {P : α → Prop} {x : Sys α} (hx : Does (fun _ => Quiet s r) P x) {u : World}
      (h : Quiet s r w u) : Ends (Quiet s r w) (fun _ => Quiet s r w) x u :=
    Ends.of_does hx (fun _ h' => h.trans h') fun _ _ _ h' => h.trans h'
  refine Ends.final ?_
  refine Ends.bind (hfirst tgtstop_before (refl_of _ w)) fun _ w₁ h₁ =>
    Ends.bind (hfirst (nbdFree_before rounds nbds) h₁) fun _ w₂ h₂ =>
      Ends.bind (hfirst (zfsmount_before rounds nbds) h₂) fun _ w₃ h₃ =>
        Ends.bind (Q := fun _ => Quiet s r w) ?_ fun _ w₄ h₄ =>
          Ends.bind (hlast (nbdConnect_quiet rounds nbds) h₄) fun _ w₅ h₅ =>
            hlast (lunAdd_quiet nbds) h₅
  exact (mkChild_quiet (hsafe.before h₃)).imp (fun _ => h₃.toQuiet.trans)
    fun _ _ => h₃.toQuiet.trans

/-! ## Requests -/

/-- A boot request is quiet for the workstation it is answered for, or changes
nothing. -/
theorem bootRequest_quiet {ip : String}
    (hsafe : ∀ k s r, Booted w ip k s r → AllSafe s r w) (rounds : Nat) :
    (exec (bootRequest rounds ip) w).final = w ∨
      ∃ k s r, Booted w ip k s r ∧ Quiet s r w (exec (bootRequest rounds ip) w).final := by
  let I : World → Prop := fun w' => w' = w ∨ ∃ k s r, Booted w ip k s r ∧ Quiet s r w w'
  have hsame : I w := Or.inl rfl
  have hread {α : Type} (x : Option α) :
      Ends I (fun a w' => x = some a ∧ w = w') (lift x : Sys α) w :=
    Ends.lift hsame fun a ha => ⟨ha, rfl⟩
  refine Ends.final (I := I) ?_
  refine Ends.bind (Q := fun c w' => c = w.file.val ∧ w = w') ⟨rfl, rfl⟩ ?_
  rintro c _ ⟨rfl, rfl⟩
  refine Ends.bind (hread _) ?_
  rintro ok _ ⟨hok, rfl⟩
  refine Ends.ite (fun hif => ?_) fun _ => Ends.pure hsame
  refine Ends.bind (hread _) ?_
  rintro o _ ⟨ho, rfl⟩
  refine Ends.bind (hread _) ?_
  rintro k _ ⟨rfl, rfl⟩
  refine Ends.bind (hread _) ?_
  rintro s _ ⟨hs, rfl⟩
  refine Ends.bind (hread _) ?_
  rintro r _ ⟨hr, rfl⟩
  refine Ends.bind (hread _) ?_
  rintro nbds _ ⟨-, rfl⟩
  refine Ends.bind (hread _) ?_
  rintro t _ ⟨-, rfl⟩
  have hboot : Booted w ip k s r := ⟨by rw [hok, hif.1], hif.2, ho, hs, hr⟩
  have hquiet := pipeline_quiet (hsafe k s r hboot) rounds nbds
  refine Ends.of_final ?_
  exact Or.inr ⟨k, s, r, hboot, hquiet⟩

/-- What a POST request does not touch. -/
def machine (w : World) : (String → Option Disk) × List Proc := (w.disk, w.procs)

theorem post_machine (p : Post) : machine (exec (post p) w).final = machine w := by
  have hload : Does (fun _ => Same machine) (fun _ => True) loadFromFile :=
    Does.observe (fun _ => rfl) fun _ => trivial
  have hsave (c : Value) : Does (fun _ => Same machine) (fun _ => True) (saveToFile c) :=
    Does.bind (Does.lift fun _ _ => trivial) fun _ _ => Does.when fun _ => Does.perform fun _ => rfl
  have hend (n : Int) : Does (fun _ => Same machine) (fun _ => True) (endSession n) :=
    Does.bind hload fun c _ => Does.bind (Does.lift fun _ _ => trivial) fun c' _ =>
      Does.bind (hsave c') fun _ _ => Does.done _
  have hpost : Does (fun _ => Same machine) (fun _ => True) (post p) := by
    refine Does.bind hload fun c _ => Does.bind (Does.lift fun _ _ => trivial) fun ok _ =>
      Does.when fun _ => Does.bind hload fun c _ => ?_
    split
    · refine Does.bind (Does.lift fun _ _ => trivial) fun ok _ => Does.when fun _ =>
        Does.bind (Does.lift fun _ _ => trivial) fun v _ => ?_
      split
      · exact Does.done _
      · refine Does.when fun _ => ?_
        split
        · refine Does.bind (P := fun _ => True) (Does.bind hload fun c _ => ?_) fun _ _ =>
            Does.done _
          split
          · exact Does.done _
          · exact Does.bind (Does.lift fun _ _ => trivial) fun c' _ =>
              Does.bind (hsave c') fun _ _ => Does.done _
        · exact Does.when fun _ => Does.bind (hend _) fun _ _ => Does.done _
        · refine Does.when fun _ => Does.bind hload fun c _ =>
            Does.bind (Does.lift fun _ _ => trivial) fun c₁ _ =>
              Does.bind (Does.lift fun _ _ => trivial) fun c₂ _ => hsave c₂
        · exact Does.when fun _ => Does.bind (hend _) fun _ _ => Does.done _
        · exact Does.done _
        · exact Does.done _
    · exact Does.done _
  exact hpost.final w

/-! ## Runs -/

/-- Every workstation that boots finds its slots safe. -/
def Spares (w : World) : Event → Prop
  | .boot ip _ => ∀ k s r, Booted w ip k s r → AllSafe s r w
  | .post _ | .write _ _ _ _ | .copy _ => True

/-- The step changes no live image; in the place of a workstation's own snapshots
its boot puts new ones. -/
def BasesKept (w : World) (e : Event) : Prop :=
  ∀ n d, w.disk n = some d → d.frozen = false →
    (∀ ip rounds k s r, e = .boot ip rounds → Booted w ip k s r → ¬ OwnSnap s r n) →
      (step w e).disk n = some d

/-- A commit that is inert copies nothing into a live image. -/
theorem Inert.copy (h : Inert w) (pid : Nat) :
    (w.copyBlock pid).disk = w.disk ∧ Inert (w.copyBlock pid) := by
  unfold World.copyBlock
  split
  · next pid' files base blocks k hfind =>
    have hmem := List.mem_of_find?_eq_some hfind
    have hjob := h _ hmem base blocks k rfl
    split
    · next b x hblock =>
      have hlive : NotLive w base := by
        rcases hjob with hnil | hlive
        · rw [hnil] at hblock
          cases hblock
        · exact hlive
      have hdisk : (fun g => if g = base then (w.disk g).map (Disk.write · b x) else w.disk g) =
          w.disk := by
        funext g
        split
        · next hg =>
          subst hg
          cases hd : w.disk g with
          | none => rfl
          | some d => simp [Disk.write, hlive d hd]
        · rfl
      refine ⟨hdisk, fun p hp base' blocks' k' hjob' => ?_⟩
      simp only [hdisk] at hp ⊢
      rcases List.mem_map.1 hp with ⟨q, hq, rfl⟩
      split at hjob'
      · cases hjob'
        exact hjob
      · exact h q hq base' blocks' k' hjob'
    · exact ⟨rfl, fun p hp => h p (List.mem_of_mem_filter hp)⟩
  · exact ⟨rfl, h⟩

theorem Inert.step {e : Event} (h : Inert w) (he : Spares w e) : Inert (step w e) := by
  cases e with
  | boot ip rounds =>
    rcases bootRequest_quiet he rounds with hsame | ⟨k, s, r, -, hquiet⟩
    · rwa [Srv.step, hsame]
    · exact hquiet.inert h
  | post p =>
    have hsame := post_machine (w := w) p
    simp only [machine, Prod.mk.injEq] at hsame
    intro q hq base blocks k hjob
    rw [Srv.step, hsame.2] at hq
    unfold NotLive
    rw [Srv.step, hsame.1]
    exact h q hq base blocks k hjob
  | write k i b data =>
    rcases writeVia_cases w k i b data with hsame | ⟨f, o, -, -, hnew⟩
    · rwa [Srv.step, hsame]
    · rw [Srv.step, hnew]
      exact h
  | copy pid => exact (h.copy pid).2

theorem Inert.keeps {e : Event} (h : Inert w) (he : Spares w e) : BasesKept w e := by
  intro n d hd _ hsnap
  cases e with
  | boot ip rounds =>
    rcases bootRequest_quiet he rounds with hsame | ⟨k, s, r, hboot, hquiet⟩
    · rwa [Srv.step, hsame]
    · exact (hquiet.kept n (hsnap ip rounds k s r rfl hboot)).trans hd
  | post p =>
    have hsame := congrArg Prod.fst (post_machine (w := w) p)
    exact (congrFun hsame n).trans hd
  | write k i b data =>
    rcases writeVia_cases w k i b data with hsame | ⟨f, o, -, -, hnew⟩
    · rwa [Srv.step, hsame]
    · rwa [Srv.step, hnew]
  | copy pid => exact (congrFun (h.copy pid).1 n).trans hd

/-- **No step changes a base image**, along every run in which boots find their
slots safe. -/
theorem bases_kept (hw : Inert w) {es : List Event} (hes : Along step Spares w es) :
    Along step BasesKept w es :=
  hes.imp_of_inv (I := Inert) (fun _ _ h he => h.step he) (fun _ _ h he => h.keeps he) hw

/-! ## A session that was dropped -/

/-- One workstation with the shipped settings, its devices and its base images. -/
def station : World :=
  World.initial (shippedCfg ⟨"", "", ""⟩ [.table [("mac", .str "b4:2e:99:2c:dd:52"),
      ("ipv4", .str "192.168.0.3"), ("name", .str "PC003"), ("enable", .num 1), ("tid", .num 1),
      ("supper", .num 0), ("fileboot", .str "ipxe"), ("opt", array []),
      ("img", array [slot "win10cc.qcow2" "dyndisk" "/dev/nbd1" 1 1,
        slot "lord.qcow2" "dynblock" "/dev/nbd2" 0 1, slot "" "iso" "/dev/nbd0" 0 0])]])
    ["/srv/images/boot/win10cc.qcow2", "/dev/zvol/nsboot0/images/storages/lord.qcow2"]
where
  slot (path type nbd : String) (boot enable : Int) : Value :=
    .table [("path", .str path), ("boot", .num boot), ("nbd", .str nbd), ("cache", .str "unsafe"),
      ("type", .str type), ("commit", .num 0), ("enable", .num enable)]

def superPost (t : String) : Event :=
  .post ⟨some "1", some t, none, none, some (some (encode (array [.num 1])))⟩

/-- A session with a write, which is dropped. -/
def droppedSession : List Event :=
  [superPost "true", .boot "192.168.0.3" 3, .write (.num 1) 0 5 77, superPost "disableUncommit"]

/-- The boot that follows puts the write into the base image: its commit copies. -/
theorem boot_commits_dropped :
    ((run step station droppedSession).disk "/srv/images/boot/win10cc.qcow2").map Disk.blocks =
      some [] ∧
    ((run step station (droppedSession ++ [.boot "192.168.0.3" 3, .copy 1])).disk
      "/srv/images/boot/win10cc.qcow2").map (fun d => d.blocks.map fun b => (b.1, b.2.data)) =
        some [(5, 77)] := by
  decide +kernel

/-- It is enough to look at the children that are there. -/
theorem spares_of_check {ip : String} {rounds : Nat} {k₀ : Key} {s₀ : Server} {r₀ : Wks}
    (hid : getIDFromIPv4 w.file.val (.str ip) = some (some k₀))
    (hs : Server.of? w.file.val = some s₀) (hr : Wks.of? ((wksOf w.file.val).get k₀) = some r₀)
    (h : ∀ vi ∈ r₀.img.zipIdx 1, ∀ path ∈ vi.1.path.concat?,
      ∀ o ∈ w.child (childName s₀ path r₀.vid), o.blocks ≠ [] →
        Chosen r₀ vi.1 ∧ w.lock (lockName s₀ vi.2 r₀.vid)) : Spares w (.boot ip rounds) := by
  intro k s r hboot
  have hk : k = k₀ := Option.some.inj (Option.some.inj (hboot.id.symm.trans hid))
  subst hk
  have hs' : s = s₀ := Option.some.inj (hboot.server.symm.trans hs)
  have hr' : r = r₀ := Option.some.inj (hboot.wks.symm.trans hr)
  subst hs' hr'
  rintro vi hvi f o ⟨-, -, path, hpath, rfl⟩ ho hne _
  exact h vi hvi path hpath o ho hne

/-- A session, and a boot inside it. -/
def keptSession : List Event :=
  [superPost "true", .boot "192.168.0.3" 3, .write (.num 1) 0 5 77, .boot "192.168.0.3" 3]

theorem bases_kept_session : Along step BasesKept station keptSession := by
  refine bases_kept (fun p hp => by cases hp) ⟨trivial, ?_, trivial, ?_, trivial⟩
  · exact @spares_of_check _ _ _ (.num 1) shippedServer superRecord
      (by decide +kernel) (by decide +kernel) (by decide +kernel) (by decide +kernel)
  · have hend : let w := run step station [superPost "true", .boot "192.168.0.3" 3,
          .write (.num 1) 0 5 77]
        getIDFromIPv4 w.file.val (.str "192.168.0.3") = some (some (.num 1)) ∧
        Server.of? w.file.val = some shippedServer ∧
        Wks.of? ((wksOf w.file.val).get (.num 1)) = some superRecord ∧
        ∀ vi ∈ superRecord.img.zipIdx 1, ∀ path ∈ vi.1.path.concat?,
          ∀ o ∈ w.child (childName shippedServer path superRecord.vid), o.blocks ≠ [] →
            Chosen superRecord vi.1 ∧ w.lock (lockName shippedServer vi.2 superRecord.vid) := by
      decide +kernel
    exact spares_of_check hend.1 hend.2.1 hend.2.2.1 hend.2.2.2

end NsBoot.Srv
