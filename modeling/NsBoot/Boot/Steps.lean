import NsBoot.Boot

/-!
# NsBoot.Boot.Steps — the single steps of a boot

`BootAct s r` lists what an atomic step of the pipeline of workstation `r` can
be: a step on devices (`DevAct`), on snapshots (`ZfsOp`) or on children
(`ChildAct`); `pipeline_does` says that the pipeline takes no other step. Every
frame property of a boot is read off this list.

A boot acts on names only, so the list is about names: it makes and deletes the
children of the workstation's own enabled slots, creates and removes its own
lock files, and snapshots into its own mount point and its own devices.
-/

namespace NsBoot

open Lua Prog

variable (s : Server) (r : Wks)

theorem create_of_disk {w : World} {p : String} (h : (w.disk p).isSome) (f : String) :
    w.create p f =
      { w with
        child := fun g => if g = f then some ⟨p, [], w.clock⟩ else w.child g
        clock := w.clock + 1 } := if_pos h

theorem create_of_none {w : World} {p : String} (h : ¬ (w.disk p).isSome) (f : String) :
    w.create p f = w := if_neg h

/-- A child is made, or nothing is done. -/
theorem create_cases (w : World) (p f : String) :
    w.create p f = w ∨ w.create p f =
      { w with
        child := fun g => if g = f then some ⟨p, [], w.clock⟩ else w.child g
        clock := w.clock + 1 } := by
  by_cases h : (w.disk p).isSome
  · exact .inr (create_of_disk h f)
  · exact .inl (create_of_none h f)

theorem create_lock (w : World) (p f : String) : (w.create p f).lock = w.lock := by
  rcases create_cases w p f with h | h <;> rw [h]

theorem create_child_ne (w : World) (p : String) {f g : String} (h : g ≠ f) :
    (w.create p f).child g = w.child g := by
  rcases create_cases w p f with hw | hw
  · rw [hw]
  · rw [hw]
    exact if_neg h

/-- `f` is the child of the slot. -/
def Img.IsChild (v : Img) (f : String) : Prop :=
  v.enable.isOne ∧ v.isDyn ∧ ∃ path, v.path.concat? = some path ∧ f = childName s path r.vid

/-- A child of one of the workstation's slots. -/
def OwnChild (f : String) : Prop := ∃ v ∈ r.img, v.IsChild s r f

/-- A lock file of one of the workstation's slots. -/
def OwnLock (l : String) : Prop := ∃ i, l = lockName s i r.vid

/-- The live image the slot is made from. -/
def Img.liveBase (v : Img) (path : String) : String :=
  if v.type = .str "dyndisk" then baseFile s path else baseZvol s path

/-- The same image in the workstation's own snapshot. -/
def Img.ownSnap (v : Img) (path : String) : String :=
  if v.type = .str "dyndisk" then snapFile s r.vid path else snapZvol s r.vid path

/-- Steps that read, or stop the target with the given id. -/
inductive KillAct (t : Option String) : Op → World → World → Prop
  | idle (w : World) : KillAct t .tau w w
  | tgtKill (w : World) (tid : String) (ht : t = some tid) : KillAct t .tau w (w.tgtKill tid)

/-- Steps that read, or stop that target or nbd servers. -/
inductive StopAct (t : Option String) : Op → World → World → Prop
  | kill {o : Op} {w w' : World} (h : KillAct t o w w') : StopAct t o w w'
  | nbdDel (w : World) (dev : String) : StopAct t .tau w (w.nbdDel dev)

/-- Steps that read, or add to the workstation's target and nbd servers. -/
inductive AddAct : Op → World → World → Prop
  | idle (w : World) : AddAct .tau w w
  | tgtNew (w : World) (tid : String) (ht : r.tid.concat? = some tid) :
      AddAct .tau w (w.tgtNew tid (targetName s r.vid))
  | lunNew (w : World) (tid : String) (ht : r.tid.concat? = some tid) (i : Nat) (store : String) :
      AddAct .tau w (w.lunNew tid i store)
  | nbdAdd (w : World) (i : Nat) (f : String) (hf : OwnChild s r f) :
      AddAct .tau w (w.nbdAdd ("/dev/nbd" ++ toString i) f)

/-- Steps on targets, LUNs and nbd servers. -/
inductive DevAct : Op → World → World → Prop
  | stop {o : Op} {w w' : World} (h : StopAct r.tid.concat? o w w') : DevAct o w w'
  | add {o : Op} {w w' : World} (h : AddAct s r o w w') : DevAct o w w'

/-- Steps on snapshots. -/
inductive ZfsOp : Op → Prop
  | unmount : ZfsOp (.unmount (zpoint s r.vid))
  | snapDir : ZfsOp (.snapDir s.imgdir (zpoint s r.vid))
  | snapDev (path : String) : ZfsOp (.snapDev (baseZvol s path) (snapZvol s r.vid path))

/-- Steps on children and their locks. -/
inductive ChildAct : Op → World → World → Prop
  | idle (w : World) : ChildAct .tau w w
  | kill (w : World) (f : String) (hf : OwnChild s r f) : ChildAct (.kill f) w (w.killHolders f)
  | del (w : World) (f : String) (hf : OwnChild s r f) : ChildAct .tau w (w.del f)
  | create (w : World) (p f : String) (hf : OwnChild s r f) : ChildAct .tau w (w.create p f)
  | setLock (w : World) (l : String) (b : Bool) (hl : OwnLock s r l) :
      ChildAct .tau w (w.setLock l b)

/-- The atomic steps of a boot. -/
inductive BootAct : Op → World → World → Prop
  | dev {o : Op} {w w' : World} (h : DevAct s r o w w') : BootAct o w w'
  | zfs {o : Op} (w : World) (h : ZfsOp s r o) : BootAct o w { w with disk := o.disks w.disk }
  | child {o : Op} {w w' : World} (h : ChildAct s r o w w') : BootAct o w w'

variable {s r}

/-! ## Devices and targets -/

theorem StopAct.idle {t : Option String} (w : World) : StopAct t .tau w w := .kill (.idle w)

theorem tgtstart_does : Does (AddAct s r) (fun _ => True) (tgtstart s r) := by
  refine Does.bind (Does.get .idle) fun w _ => Does.when fun _ => ?_
  exact Does.bind (Does.lift fun tid ht => ht) fun tid ht => Does.modify fun w => .tgtNew w tid ht

theorem tgtstop_does : Does (KillAct r.tid.concat?) (fun _ => True) (tgtstop s r) := by
  refine Does.bind (Does.get .idle) fun w _ => Does.when fun _ => ?_
  exact Does.bind (Does.lift fun tid ht => ht) fun tid ht => Does.modify fun w => .tgtKill w tid ht

theorem nbdFreeSlot_does (v : Img) :
    Does (StopAct r.tid.concat?) Value.Normal (nbdFreeSlot s r v) := by
  refine Does.bind (Does.lift fun _ _ => trivial) fun path _ =>
    Does.bind (Does.get .idle) fun w _ => ?_
  split
  · exact Does.bind (tgtstop_does.weaken fun _ _ _ => .kill) fun _ _ =>
      Does.bind (Does.modify fun w => .nbdDel w _)
        fun _ _ => Does.pure (by simp [Value.Normal, Value.All])
  · exact Does.pure (by simp [Value.Normal, Value.All])

theorem nbdFree_does :
    Does (StopAct r.tid.concat?) (fun vs => ∀ v ∈ vs, Value.Normal v) (nbdFree s r) :=
  Does.mapM fun v _ => nbdFreeSlot_does v

/-- The device `search_nbd` finds. -/
theorem searchNbd_name {w : World} {n : Nat} {dev : String} (h : w.searchNbd n = some dev) :
    ∃ i : Nat, dev = "/dev/nbd" ++ toString i := by
  rcases List.mem_map.1 (List.mem_of_find?_eq_some h) with ⟨i, -, hi⟩
  exact ⟨i + 1, hi.symm⟩

theorem nbdConnectSlot_does {v : Img} (hv : v ∈ r.img) :
    Does (AddAct s r) (fun _ => True) (nbdConnectSlot s r v) := by
  refine Does.bind (Does.get .idle) fun w _ => Does.bind (Does.when fun hif => ?_) fun _ _ =>
    Does.done _
  refine Does.bind (Does.lift fun dev hdev => searchNbd_name hdev) fun dev hdev =>
    Does.bind (Does.lift fun path hpath => hpath) fun path hpath =>
      Does.bind (Does.lift fun _ _ => trivial) fun _ _ => Does.modify fun w => ?_
  obtain ⟨i, rfl⟩ := hdev
  exact .nbdAdd w i _ ⟨v, hv, hif.2.1, hif.2.2, path, hpath, rfl⟩

theorem nbdConnect_does : Does (AddAct s r) (fun _ => True) (nbdConnect s r) :=
  (Does.mapM fun _ hv => nbdConnectSlot_does hv).mono (fun _ _ _ => id) fun _ _ => trivial

theorem lunAddSlot_does (i : Nat) (v : Img) (dev : Option String) :
    Does (AddAct s r) (fun _ => True) (lunAddSlot s r.tid i v dev) := by
  refine Does.bind (Does.when fun _ => ?_) fun _ _ => Does.when fun _ => ?_
  · exact Does.bind (Does.lift fun t ht => ht) fun t ht =>
      Does.bind (Does.lift fun _ _ => trivial) fun d _ => Does.modify fun w => .lunNew w t ht i d
  · refine Does.bind (Does.lift fun _ _ => trivial) fun path _ =>
      Does.bind (Does.get .idle) fun w _ => Does.when fun _ => ?_
    exact Does.bind (Does.lift fun t ht => ht) fun t ht => Does.modify fun w => .lunNew w t ht i _

theorem lunAdd_does (devs : List (Option String)) :
    Does (AddAct s r) (fun _ => True) (lunAdd s r devs) := by
  refine Does.bind (Does.get .idle) fun w _ => Does.bind (Does.when fun _ => ?_) fun _ _ =>
    Does.forM fun vi _ => lunAddSlot_does _ _ _
  exact Does.bind tgtstart_does fun _ _ => Does.wait _

/-! ## Snapshots -/

theorem zfs_does {o : Op} (h : ZfsOp s r o) : Does (BootAct s r) (fun _ => True) (zfs o) :=
  Does.perform fun w => .zfs w h

theorem zfsmountSlot_does (v : Img) : Does (BootAct s r) (fun _ => True) (zfsmountSlot s r v) := by
  refine Does.when fun _ => ?_
  exact Does.bind (Does.lift fun _ _ => trivial) fun path _ => zfs_does (.snapDev path)

theorem zfsmount_does : Does (BootAct s r) (fun _ => True) (zfsmount s r) :=
  Does.bind (nbdFree_does.weaken fun _ _ _ h => .dev (.stop h)) fun _ _ =>
    Does.bind (zfs_does .unmount) fun _ _ => Does.bind (zfs_does .snapDir) fun _ _ =>
      Does.forM fun v _ => zfsmountSlot_does v

/-! ## Children -/

/-- The variables name nothing, or a child of the workstation. -/
def Vars.Own (s : Server) (r : Wks) (x : Vars) : Prop := ∀ f, x.child = some f → OwnChild s r f

theorem findParrent_own {v : Img} (hv : v ∈ r.img) (henable : v.enable.isOne) (hdyn : v.isDyn)
    {live snap : String → String} {x y : Vars} (hx : x.Own s r)
    (h : findParrent s r live snap v x = some y) : y.Own s r := by
  unfold findParrent at h
  split at h
  · cases h
    exact hx
  · simp only [Option.bind_eq_bind, Option.bind_eq_some_iff, Option.pure_def,
      Option.some.injEq] at h
    obtain ⟨path, hpath, rfl⟩ := h
    intro f hf
    exact ⟨v, hv, henable, hdyn, path, hpath, (Option.some.inj hf).symm⟩

theorem findParrents_own {v : Img} (hv : v ∈ r.img) {x y : Vars} (hx : x.Own s r)
    (h : findParrents s r v x = some y) : y.Own s r := by
  unfold findParrents at h
  split at h
  · next hif => exact findParrent_own hv hif.2.1 (Or.inl hif.2.2) hx h
  · split at h
    · next hif => exact findParrent_own hv hif.2.1 (Or.inr hif.2.2) hx h
    · cases h
      exact hx

theorem freeAndDel_does {x : Vars} (hx : x.Own s r) :
    Does (ChildAct s r) (fun _ => True) (freeAndDel x) :=
  Does.bind (Does.lift fun f hf => hx f hf) fun f hf =>
    Does.bind (Does.perform fun w => .kill w f hf) fun _ _ => Does.modify fun w => .del w f hf

theorem imgChild_does {x : Vars} (hx : x.Own s r) :
    Does (ChildAct s r) (fun _ => True) (imgChild x) :=
  Does.bind (Does.lift fun _ _ => trivial) fun p _ =>
    Does.bind (Does.lift fun f hf => hx f hf) fun f hf => Does.modify fun w => .create w p f hf

section Lock

variable {l : String} (hl : OwnLock s r l) {x : Vars} (hx : x.Own s r)

include hl hx

theorem recreate_does : Does (ChildAct s r) (fun _ => True) (recreate l x) := by
  refine Does.bind (Does.get .idle) fun w _ => Does.bind (Does.when fun _ => ?_) fun _ _ => ?_
  · refine Does.bind (freeAndDel_does hx) fun _ _ => Does.bind (Does.get .idle) fun w _ => ?_
    exact Does.when fun _ => Does.modify fun w => .setLock w l false hl
  · split
    · exact Does.bind (Does.wait _) fun _ _ => imgChild_does hx
    · exact Does.done _

theorem createChild_does (super : Bool) :
    Does (ChildAct s r) (fun _ => True) (createChild l super x) := by
  have hlock : Does (ChildAct s r) (fun _ => True)
      (modify fun w => w.setLock l true : Sys PUnit) := Does.modify fun w => .setLock w l true hl
  refine Does.bind (Does.get .idle) fun w _ => Does.ite (fun _ => ?_) fun _ =>
    Does.ite (fun _ => ?_) fun _ => Does.ite (fun _ => hlock) fun _ => recreate_does hl hx
  · exact Does.bind (freeAndDel_does hx) fun _ _ =>
      Does.bind (imgChild_does hx) fun _ _ => hlock
  · exact Does.bind hlock fun _ _ => imgChild_does hx

end Lock

theorem mkSlot_does {v : Img} (hv : v ∈ r.img) {x : Vars} (hx : x.Own s r) (i : Nat) :
    Does (ChildAct s r) (Vars.Own s r) (mkSlot s r x i v) := by
  refine Does.bind (Does.lift fun y hy => findParrents_own hv hx hy) fun y hy =>
    Does.ite (fun _ => ?_) fun _ => Does.pure hy
  exact Does.bind (createChild_does ⟨i, rfl⟩ hy _) fun _ _ => Does.pure (by simp [Vars.Own])

theorem mkChild_does : Does (ChildAct s r) (fun _ => True) (mkChild s r) := by
  refine Does.when fun _ => ?_
  refine Does.bind (P := Vars.Own s r) (Does.foldlM (fun x hx vi hvi => ?_) (by simp [Vars.Own]))
    fun _ _ => Does.done _
  exact mkSlot_does (List.fst_mem_of_mem_zipIdx hvi) hx vi.2

/-- A boot takes only the steps of `BootAct`. -/
theorem pipeline_does : Does (BootAct s r) (fun _ => True) (pipeline s r) :=
  Does.bind (tgtstop_does.weaken fun _ _ _ h => .dev (.stop (.kill h))) fun _ _ =>
    Does.bind (nbdFree_does.weaken fun _ _ _ h => .dev (.stop h)) fun _ _ =>
      Does.bind zfsmount_does fun _ _ =>
        Does.bind (mkChild_does.weaken fun _ _ _ => .child) fun _ _ =>
          Does.bind (nbdConnect_does.weaken fun _ _ _ h => .dev (.add h)) fun devs _ =>
            (lunAdd_does devs).weaken fun _ _ _ h => .dev (.add h)

/-! ## What steps leave alone -/

/-- The part of the state that devices and targets are not in. -/
def World.images (w : World) :
    Json × (String → Option Overlay) × (String → Bool) × (String → Option Disk) × Nat :=
  (w.file, w.child, w.lock, w.disk, w.clock)

theorem StopAct.images {t : Option String} {o : Op} {w w' : World} (h : StopAct t o w w') :
    w'.images = w.images := by
  cases h with
  | kill h => cases h <;> rfl
  | nbdDel => rfl

theorem DevAct.images {o : Op} {w w' : World} (h : DevAct s r o w w') :
    w'.images = w.images := by
  cases h with
  | stop h => exact h.images
  | add h =>
    cases h with
    | idle => rfl
    | tgtNew =>
      unfold World.tgtNew
      split <;> rfl
    | lunNew => rfl
    | nbdAdd =>
      unfold World.nbdAdd
      split <;> rfl

/-- A snapshot of the workstation: a file in its mount, or a volume. -/
def OwnSnap (s : Server) (r : Wks) (n : String) : Prop :=
  ∃ path, n = zpoint s r.vid ++ "/" ++ path ∨ n = snapZvol s r.vid path

/-- A name below the mount point. -/
theorem OwnSnap.of_under {n p : String} (h : under (zpoint s r.vid) n = some p) : OwnSnap s r n :=
  ⟨p, Or.inl (under_eq_some.1 h)⟩

/-- The zfs commands change the workstation's own snapshots only. -/
theorem ZfsOp.disks_eq {o : Op} (h : ZfsOp s r o) {n : String} (hn : ¬ OwnSnap s r n)
    (d : String → Option Disk) : o.disks d n = d n := by
  cases hu : under (zpoint s r.vid) n with
  | some p => exact absurd (.of_under hu) hn
  | none =>
    cases h with
    | unmount | snapDir => simp [Op.disks, hu]
    | snapDev path =>
      have hne : n ≠ snapZvol s r.vid path := fun heq => hn ⟨path, Or.inr heq⟩
      simp [Op.disks, hne]

/-- Programs of device steps leave files and images alone. -/
theorem images_of_does {α : Type} {P : α → Prop} {x : Sys α} (h : Does (DevAct s r) P x)
    {w w' : World} {a : α} (hx : exec x w = .ok a w') : w'.images = w.images :=
  (h.weaken (S := fun _ => Same World.images) fun _ _ _ => DevAct.images).of_ok hx

end NsBoot
