import NsBoot.Boot.Frame
import NsBoot.Boot.Isolation
import NsBoot.Boot.Reset
import NsBoot.Admin.Sound
import NsBoot.Lib.Hangs

/-!
# NsBoot.Boot.Waits — whether `mkChild` waits for ever

An iteration of `mkChild` that comes to its last branch waits for the parent it has
chosen. The parents are there or not when `zfsmount` has returned; `mkChild` makes none.

* `zfsmount_mounted`: what `zfsmount` makes visible.
* `hangs_mkSlot_iff`: when one iteration waits for ever.
* `mkChild_ends_iff`: for the records the dialogs can store, `zfsmount` and `mkChild` come
  to an end if and only if every slot finds its parent, or needs none (`Provided`).
-/

namespace NsBoot

open Lua Prog

/-! ## What the dialogs can store -/

/-- A slot as the dialogs can store it: a flag for the commit, one of the three types, and
a name from a directory listing, or `none`. Devices with an `@` are not listed. -/
structure Img.Storable (v : Img) : Prop where
  type : v.isDyn ∨ v.type = .str "iso"
  commit : v.commit.isZero ∨ v.commit.isOne
  path : ∃ path, v.path = .str path ∧ '/' ∉ path.toList ∧
    (v.type = .str "dynblock" → '@' ∉ path.toList)

structure Wks.Storable (r : Wks) : Prop where
  tid : r.tid.concat?.isSome
  supper : r.supper.isZero ∨ r.supper.isOne
  slots : ∀ v ∈ r.img, v.Storable

section Storable

variable {s : Server} {r : Wks} {v : Img} {path : String}

theorem Wks.Storable.readable (h : r.Storable) : Readable r := by
  constructor
  · exact h.tid
  · intro v hv
    rcases (h.slots v hv).path with ⟨path, hpath, -⟩
    rw [hpath]
    rfl

theorem Img.Storable.noSlash (h : v.Storable) (hpath : v.path.concat? = some path) :
    '/' ∉ path.toList := by
  rcases h.path with ⟨path', hpath', hslash, -⟩
  rw [hpath', Value.concat?, Option.some.injEq] at hpath
  rwa [← hpath]

theorem Img.Storable.noAt (h : v.Storable) (hpath : v.path.concat? = some path)
    (ht : v.type = .str "dynblock") : '@' ∉ path.toList := by
  rcases h.path with ⟨path', hpath', -, hat⟩
  rw [hpath', Value.concat?, Option.some.injEq] at hpath
  rw [← hpath]
  exact hat ht

/-- The flags choose a parent. -/
theorem parrentKind_of_storable (hr : r.Storable) (hv : v ∈ r.img) (hr₁ : r.enable.isOne)
    (hen : v.enable.isOne) :
    parrentKind r v = some (if v.Super r then .live else .snap) := by
  by_cases hsuper : v.Super r
  · rw [if_pos hsuper, parrentKind_of_super hsuper]
  · rw [if_neg hsuper]
    rcases hr.supper with hs | hs
    · exact parrentKind_of_normal hs hen (hr.slots v hv).commit
    · have hc : v.commit.isZero :=
        (hr.slots v hv).commit.resolve_right fun hc => hsuper ⟨hr₁, hs, hen, hc⟩
      simp [parrentKind, hs, hen, hc]

end Storable

/-! ## What is visible after `zfsmount` -/

section Names

variable {s : Server} {vid path q : String}

/-- A file of the images' directory itself is not below a workstation's mount point. -/
theorem under_baseFile (hs : Separate s) (h : '/' ∉ path.toList) :
    under (zpoint s vid) (baseFile s path) = none := by
  rw [Option.eq_none_iff_forall_ne_some]
  intro p hp
  rw [under_eq_some, hs.mount.snapFile_eq] at hp
  have hl := congrArg String.toList hp
  simp only [baseFile, snapFile, String.toList_append, List.append_assoc,
    List.append_cancel_left_eq] at hl
  apply h
  rw [hl]
  simp

theorem under_baseZvol (h : Separate s) : under (zpoint s vid) (baseZvol s q) = none := by
  rw [Option.eq_none_iff_forall_ne_some]
  intro p hp
  rw [under_eq_some, h.mount.snapFile_eq] at hp
  apply h.image (s.tmpname ++ "/" ++ vid ++ "/" ++ p) q
  rw [hp]
  simp [baseFile, snapFile, String.append_assoc]

theorem baseZvol_ne_snapZvol (h : '@' ∉ path.toList) : baseZvol s path ≠ snapZvol s vid q := by
  intro heq
  have hl := congrArg String.toList heq
  simp only [baseZvol, snapZvol, String.toList_append, List.append_assoc,
    List.append_cancel_left_eq] at hl
  apply h
  rw [hl]
  simp

theorem baseFile_ne_snapZvol (h : Separate s) : baseFile s path ≠ snapZvol s vid q := by
  have hne := h.image path (q ++ "@" ++ s.tmpname ++ "_" ++ vid)
  simpa [baseZvol, snapZvol, String.append_assoc] using hne

theorem snapZvol_inj (h : snapZvol s vid path = snapZvol s vid q) : path = q := by
  have hl := congrArg String.toList h
  simp only [snapZvol, String.toList_append, List.append_assoc, List.append_cancel_left_eq,
    List.append_cancel_right_eq] at hl
  exact String.toList_injective hl

/-- A live image is nobody's snapshot. -/
theorem liveBase_not_ownSnap (hs : Separate s) {v : Img} (hv : v.Storable) (hdyn : v.isDyn)
    (hpath : v.path.concat? = some path) (r : Wks) : ¬ OwnSnap s r (v.liveBase s path) := by
  rintro ⟨q, hsnap | hsnap⟩
  · -- a file below the mount point
    have hunder := under_eq_some.2 hsnap
    rcases hdyn with ht | ht
    · rw [Img.liveBase, if_pos ht, under_baseFile hs (hv.noSlash hpath)] at hunder
      cases hunder
    · rw [Img.liveBase, if_neg (by simp [ht]), under_baseZvol hs] at hunder
      cases hunder
  · rcases hdyn with ht | ht
    · rw [Img.liveBase, if_pos ht] at hsnap
      exact baseFile_ne_snapZvol hs hsnap
    · rw [Img.liveBase, if_neg (by simp [ht])] at hsnap
      exact baseZvol_ne_snapZvol (hv.noAt hpath ht) hsnap

end Names

variable {s : Server} {r : Wks}

/-- The slots whose volumes are snapshotted. -/
def Img.Volume (v : Img) (path : String) : Prop :=
  v.enable.isOne ∧ v.type = .str "dynblock" ∧ v.path.concat? = some path

/-- What the snapshots of the volumes of some slots change. -/
structure VolumesTaken (s : Server) (r : Wks) (vs : List Img) (w w' : World) : Prop where
  overlays : w'.overlays = w.overlays
  other : ∀ n, (∀ path, n ≠ snapZvol s r.vid path) → w'.disk n = w.disk n
  taken : ∀ path, (∃ v ∈ vs, v.Volume path) →
    w'.disk (snapZvol s r.vid path) = (w.disk (baseZvol s path)).bind Disk.snap?
  left : ∀ path, (¬ ∃ v ∈ vs, v.Volume path) →
    w'.disk (snapZvol s r.vid path) = w.disk (snapZvol s r.vid path)

theorem zfsmountSlot_taken {v : Img} (hpath : v.path.concat?.isSome) (w : World) :
    Ends (fun _ => False) (fun _ => VolumesTaken s r [v] w) (zfsmountSlot s r v) w := by
  rcases Option.isSome_iff_exists.1 hpath with ⟨path, hpath⟩
  unfold zfsmountSlot Prog.when
  split
  · next hv =>
    rw [hpath, lift_some_bind]
    have hvolume (q : String) : (∃ u ∈ [v], u.Volume q) ↔ q = path := by
      simp [Img.Volume, hv.1, hv.2, hpath, eq_comm]
    refine ⟨rfl, ?other, ?taken, ?left⟩
    case other =>
      intro n hn
      exact if_neg (hn path)
    case taken =>
      intro q hq
      rw [(hvolume q).1 hq]
      exact if_pos rfl
    case left =>
      intro q hq
      refine if_neg fun heq => hq ((hvolume q).2 (snapZvol_inj heq))
  · next hv =>
    have hnone (q : String) : ¬ ∃ u ∈ [v], u.Volume q := by
      rintro ⟨u, hu, hen, ht, -⟩
      rw [List.mem_singleton.1 hu] at hen ht
      exact hv ⟨hen, ht⟩
    exact ⟨rfl, fun _ _ => rfl, fun q hq => absurd hq (hnone q), fun _ _ => rfl⟩

theorem forM_zfsmountSlot_taken {vs : List Img} (hvs : ∀ v ∈ vs, v.Storable) (w : World) :
    Ends (fun _ => False) (fun _ => VolumesTaken s r vs w) (vs.forM (zfsmountSlot s r)) w := by
  induction vs generalizing w with
  | nil => exact ⟨rfl, fun _ _ => rfl, by simp, fun _ _ => rfl⟩
  | cons v vs ih =>
    have hpath : v.path.concat?.isSome := by
      rcases (hvs v List.mem_cons_self).path with ⟨path, hpath, -⟩
      rw [hpath]
      rfl
    refine Ends.bind (zfsmountSlot_taken hpath w) fun _ w₁ h₁ => ?_
    refine (ih (fun u hu => hvs u (List.mem_cons_of_mem _ hu)) w₁).mono fun _ w₂ h₂ => ?_
    refine ⟨h₂.overlays.trans h₁.overlays, fun n hn => (h₂.other n hn).trans (h₁.other n hn),
      ?taken, ?left⟩
    case taken =>
      rintro path ⟨u, hu, hvolume⟩
      by_cases hrest : ∃ u ∈ vs, u.Volume path
      · -- taken again, or only then; the volume itself is as it was
        have hat := (hvs u hu).noAt hvolume.2.2 hvolume.2.1
        rw [h₂.taken path hrest, h₁.other _ fun q => baseZvol_ne_snapZvol hat]
      · rw [h₂.left path hrest]
        refine h₁.taken path ⟨v, List.mem_cons_self, ?_⟩
        rcases List.mem_cons.1 hu with rfl | hu
        · exact hvolume
        · exact absurd ⟨u, hu, hvolume⟩ hrest
    case left =>
      intro path hnone
      rw [h₂.left path fun ⟨u, hu, hvolume⟩ => hnone ⟨u, List.mem_cons_of_mem _ hu, hvolume⟩]
      refine h₁.left path fun ⟨u, hu, hvolume⟩ => hnone ⟨u, ?_, hvolume⟩
      rw [List.mem_singleton.1 hu]
      exact List.mem_cons_self

/-- The images the slots can be made over, after `zfsmount`. -/
structure Mounted (s : Server) (r : Wks) (w w' : World) : Prop where
  overlays : w'.overlays = w.overlays
  base : ∀ v ∈ r.img, v.isDyn → ∀ path, v.path.concat? = some path →
    w'.disk (v.liveBase s path) = w.disk (v.liveBase s path)
  snap : ∀ v ∈ r.img, v.enable.isOne → v.isDyn → ∀ path, v.path.concat? = some path →
    w'.disk (v.ownSnap s r path) = (w.disk (v.liveBase s path)).bind Disk.snap?

theorem zfs_returns (o : Op) (w : World) :
    Ends (fun _ => False) (fun _ w' => w' = { w with disk := o.disks w.disk }) (zfs o) w := rfl

/-- The live images stay, and what the snapshots show is what there was. -/
theorem zfsmount_mounted (hs : Separate s) (hr : r.Storable) (w : World) :
    Ends (fun _ => False) (fun _ => Mounted s r w) (zfsmount s r) w := by
  have hfree : Ends (fun _ => False) (fun _ w' => w'.images = w.images) (nbdFree s r) w := by
    have hsame := (nbdFree_does (s := s) (r := r)).weaken (S := fun _ => Same World.images)
      fun _ _ _ => StopAct.images
    refine ((nbdFree_total hr.readable w).and
      (Ends.of_does (I := fun _ => True) hsame (fun _ _ => trivial) fun _ _ _ h => h)).imp ?_ ?_
    · exact fun _ h => h.1
    · exact fun _ _ h => h.2
  refine Ends.bind hfree fun _ w₁ h₁ => ?_
  simp only [World.images, Prod.mk.injEq] at h₁
  rcases h₁ with ⟨-, hchild, hlock, hdisk, -⟩
  refine Ends.bind (zfs_returns _ w₁) fun _ w₂ h₂ => ?_
  refine Ends.bind (zfs_returns _ w₂) fun _ w₃ h₃ => ?_
  have hoverlays : w₃.overlays = w.overlays := by
    rw [h₃, h₂]
    exact Prod.ext hchild hlock
  have hdisks : w₃.disk = Op.disks (.snapDir s.imgdir (zpoint s r.vid))
      (Op.disks (.unmount (zpoint s r.vid)) w.disk) := by
    rw [h₃, h₂, ← hdisk]
  -- nothing happens to images that are not below the mount point
  have hkept (n : String) (hn : under (zpoint s r.vid) n = none) : w₃.disk n = w.disk n := by
    simp [hdisks, Op.disks, hn]
  refine (forM_zfsmountSlot_taken hr.slots w₃).mono fun _ w₄ h₄ => ?_
  refine ⟨?overlays, ?base, ?snap⟩
  case overlays =>
    exact h₄.overlays.trans hoverlays
  case base =>
    rintro v hv (ht | ht) path hpath
    · rw [Img.liveBase, if_pos ht, h₄.other _ fun q => baseFile_ne_snapZvol hs]
      exact hkept _ (under_baseFile hs ((hr.slots v hv).noSlash hpath))
    · rw [Img.liveBase, if_neg (by simp [ht]),
        h₄.other _ fun q => baseZvol_ne_snapZvol ((hr.slots v hv).noAt hpath ht)]
      exact hkept _ (under_baseZvol hs)
  case snap =>
    rintro v hv hen (ht | ht) path hpath
    · have hname : snapFile s r.vid path = zpoint s r.vid ++ "/" ++ path :=
        (hs.mount.snapFile_eq r.vid path).symm
      have hbase : under (zpoint s r.vid) (baseFile s path) = none :=
        under_baseFile hs ((hr.slots v hv).noSlash hpath)
      rw [Img.ownSnap, Img.liveBase, if_pos ht, if_pos ht,
        h₄.other _ fun q => hs.snap_ne r.vid r.vid path q, hdisks, hname]
      simp only [Op.disks, under_self]
      rw [show s.imgdir ++ "/" ++ path = baseFile s path from rfl, hbase]
      rfl
    · rw [Img.ownSnap, Img.liveBase, if_neg (by simp [ht]), if_neg (by simp [ht]),
        h₄.taken path ⟨v, hv, hen, ht, hpath⟩, hkept _ (under_baseZvol hs)]

/-! ## One iteration -/

/-- The slot's child is the one for this path. -/
def Img.Makes (v : Img) (path : String) : Prop :=
  v.enable.isOne ∧ v.isDyn ∧ v.path.concat? = some path

instance (v : Img) (path : String) : Decidable (v.Makes path) :=
  inferInstanceAs (Decidable (_ ∧ _))

/-- `mkChild` sees to the child for this path: the flags choose a parent. -/
def Img.Acts (r : Wks) (v : Img) (path : String) : Prop :=
  v.Makes path ∧ (parrentKind r v).isSome

instance (v : Img) (path : String) : Decidable (v.Acts r path) :=
  inferInstanceAs (Decidable (_ ∧ _))

/-- There is a child for the path once the slots `pre`, the first of which has the number
`k`, are through: it was there and they leave it alone, or the last of them that is for
this path does not end without one. In super mode a slot without a lock deletes its child,
and makes none if its image is missing. -/
def ChildAfter (s : Server) (r : Wks) (w : World) (k : Nat) (pre : List Img) (path : String) :
    Prop :=
  (w.child (childName s path r.vid)).isSome ∧ (∀ u ∈ pre, ¬ u.Acts r path) ∨
  ∃ a u b, pre = a ++ u :: b ∧ u.Acts r path ∧ (∀ x ∈ b, ¬ x.Acts r path) ∧
    (u.Super r → w.lock (lockName s (k + a.length) r.vid) ∨ (w.disk (u.liveBase s path)).isSome)

/-- The iteration for the slot `v`, which comes after the slots `pre`, will not wait for
ever: a slot that was chosen in super mode waits only with a lock and no child, and then
for the live image; the others wait for the image in the snapshot. -/
def Found (s : Server) (r : Wks) (w : World) (k : Nat) (pre : List Img) (v : Img) : Prop :=
  ∀ path, v.Makes path →
    if v.Super r then
      ¬ w.lock (lockName s (k + pre.length) r.vid) ∨ (w.disk (v.liveBase s path)).isSome ∨
        ChildAfter s r w k pre path
    else (w.disk (v.ownSnap s r path)).isSome

section ChildAfter

variable {w : World} {k : Nat} {pre : List Img} {path : String}

theorem childAfter_nil :
    ChildAfter s r w k [] path ↔ (w.child (childName s path r.vid)).isSome := by
  simp [ChildAfter]

/-- The first slot does not matter if a later one is for the path. -/
theorem childAfter_cons_of_later {u : Img} (h : ∃ x ∈ pre, x.Acts r path) :
    ChildAfter s r w k (u :: pre) path ↔ ChildAfter s r w (k + 1) pre path := by
  have hskip : ¬ ∀ x ∈ pre, ¬ x.Acts r path := by
    push Not
    exact h
  have hskip' : ¬ ∀ x ∈ u :: pre, ¬ x.Acts r path :=
    fun hall => hskip fun x hx => hall x (List.mem_cons_of_mem _ hx)
  unfold ChildAfter
  simp only [hskip, hskip', and_false, false_or]
  constructor
  · rintro ⟨a, x, b, heq, hx, hb, hleft⟩
    cases a with
    | nil =>
      cases heq
      exact absurd hb hskip
    | cons y a =>
      cases heq
      refine ⟨a, x, b, rfl, hx, hb, ?_⟩
      rwa [show k + 1 + a.length = k + (a.length + 1) by omega]
  · rintro ⟨a, x, b, rfl, hx, hb, hleft⟩
    refine ⟨u :: a, x, b, rfl, hx, hb, ?_⟩
    rwa [List.length_cons, show k + (a.length + 1) = k + 1 + a.length by omega]

/-- If no later slot is for the path, the first one decides. -/
theorem childAfter_cons_of_last {u : Img} (h : ∀ x ∈ pre, ¬ x.Acts r path) :
    ChildAfter s r w k (u :: pre) path ↔
      if u.Acts r path then
        u.Super r → w.lock (lockName s k r.vid) ∨ (w.disk (u.liveBase s path)).isSome
      else (w.child (childName s path r.vid)).isSome := by
  unfold ChildAfter
  split
  · next hu =>
    constructor
    · rintro (⟨-, hall⟩ | ⟨a, x, b, heq, hx, -, hleft⟩)
      · exact absurd hu (hall u List.mem_cons_self)
      · cases a with
        | nil =>
          cases heq
          exact hleft
        | cons y a =>
          cases heq
          exact absurd hx (h x (by simp))
    · intro hleft
      exact .inr ⟨[], u, pre, rfl, hu, h, hleft⟩
  · next hu =>
    have hall : ∀ x ∈ u :: pre, ¬ x.Acts r path := by
      intro x hx
      rcases List.mem_cons.1 hx with rfl | hx
      · exact hu
      · exact h x hx
    rw [or_iff_left, and_iff_left hall]
    rintro ⟨a, x, b, heq, hx, -⟩
    exact hall x (by rw [heq]; simp) hx

/-- Out of super mode a slot ends with its child. -/
theorem childAfter_of_normal (hs : r.supper.isZero) (h : ∃ u ∈ pre, u.Acts r path) :
    ChildAfter s r w k pre path := by
  induction pre generalizing k with
  | nil =>
    rcases h with ⟨u, hu, -⟩
    cases hu
  | cons v pre ih =>
    by_cases hlater : ∃ x ∈ pre, x.Acts r path
    · rw [childAfter_cons_of_later hlater]
      exact ih hlater
    · have hv : v.Acts r path := by
        rcases h with ⟨u, hu, hacts⟩
        rcases List.mem_cons.1 hu with rfl | hu
        · exact hacts
        · exact absurd ⟨u, hu, hacts⟩ hlater
      push Not at hlater
      rw [childAfter_cons_of_last hlater, if_pos hv]
      exact fun hsuper => absurd hsuper (not_super_of_isZero hs v)

theorem childAfter_congr {w' : World} (hoverlays : w'.overlays = w.overlays)
    (hdisk : ∀ u ∈ pre, u.Acts r path → u.Super r →
      w'.disk (u.liveBase s path) = w.disk (u.liveBase s path)) :
    ChildAfter s r w' k pre path ↔ ChildAfter s r w k pre path := by
  simp only [World.overlays, Prod.mk.injEq] at hoverlays
  unfold ChildAfter
  rw [hoverlays.1, hoverlays.2]
  refine or_congr_right (exists_congr fun a => exists_congr fun u => exists_congr fun b =>
    and_congr_right fun heq => and_congr_right fun hu => and_congr_right fun _ =>
      forall_congr' fun hsuper => ?_)
  rw [hdisk u (by rw [heq]; simp) hu hsuper]

end ChildAfter

theorem createChild_returns {l p f : String} {super : Bool} {w : World}
    (h : (super ∧ ¬ (w.lock l ∧ (w.child f).isNone)) ∨ (w.disk p).isSome) :
    (exec (createChild l super ⟨some p, some f⟩) w).isOk := by
  unfold createChild
  rw [exec_get_bind]
  split
  · rfl
  split
  · rfl
  split
  · rfl
  · next hnb hnc hnk =>
    rw [exec_recreate]
    rcases h with ⟨hsuper, hnot⟩ | hp
    · -- in super mode the branches above leave a lock without a child
      by_cases hl : w.lock l
      · by_cases hc : (w.child f).isSome
        · exact absurd ⟨hsuper, hl, hc⟩ hnk
        · exact absurd ⟨hl, by simpa using hc⟩ hnot
      · by_cases hc : (w.child f).isSome
        · exact absurd ⟨hsuper, hl, hc⟩ hnb
        · exact absurd ⟨hsuper, hl, hc⟩ hnc
    · rw [if_pos hp]
      rfl

theorem createChild_hangs {l p f : String} {super : Bool} {w : World}
    (h : super → w.lock l ∧ (w.child f).isNone) (hp : ¬ (w.disk p).isSome) :
    Hangs (createChild l super ⟨some p, some f⟩) w := by
  unfold createChild Hangs
  rw [exec_get_bind]
  have hnone : super = true → w.isChild (some f) = false := by
    intro hsuper
    simpa [World.isChild] using (h hsuper).2
  rw [if_neg fun hb => hb.2.1 (h hb.1).1, if_neg fun hb => hb.2.1 (h hb.1).1,
    if_neg fun hb => by simp [hnone hb.1] at hb, exec_recreate, if_neg hp]
  exact ⟨_, rfl⟩

section Slot

variable {v : Img} {i : Nat} {w : World}

/-- The iteration for a slot without a child does nothing. -/
theorem mkSlot_idle (hv : v.Storable) (hnone : ¬ ∃ path, v.Makes path) :
    exec (mkSlot s r ⟨none, none⟩ i v) w = .ok ⟨none, none⟩ w := by
  have hnot : ¬ (v.enable.isOne ∧ v.isDyn) := by
    rintro ⟨hen, hdyn⟩
    rcases hv.path with ⟨path, hpath, -⟩
    exact hnone ⟨path, hen, hdyn, by rw [hpath]; rfl⟩
  unfold mkSlot
  rw [findParrents_idle fun hen hdyn => absurd ⟨hen, hdyn⟩ hnot, lift_some_bind, if_neg]
  · rfl
  · rintro ⟨-, hen, hiso⟩
    exact hnot ⟨hen, hv.type.resolve_right hiso⟩

/-- The iteration for a slot with a child. -/
theorem mkSlot_makes (he : r.enable.isOne) (hr : r.Storable) (hv : v ∈ r.img) {path : String}
    (hmakes : v.Makes path) :
    mkSlot s r ⟨none, none⟩ i v = (do
      createChild (lockName s i r.vid) (v.Super r)
        ⟨some (if v.Super r then v.liveBase s path else v.ownSnap s r path),
          some (childName s path r.vid)⟩
      return ⟨none, none⟩) := by
  rcases hmakes with ⟨hen, hdyn, hpath⟩
  have hiso : v.type ≠ .str "iso" := by
    rcases hdyn with h | h <;> simp [h]
  unfold mkSlot
  rw [findParrents_dyn he hen hdyn (parrentKind_of_storable hr hv he hen), hpath,
    Option.map_some, lift_some_bind, if_pos ⟨he, hen, hiso⟩]
  split <;> rfl

theorem mkSlot_returns (he : r.enable.isOne) (hr : r.Storable) (hv : v ∈ r.img)
    (h : Found s r w i [] v) :
    ∃ w', exec (mkSlot s r ⟨none, none⟩ i v) w = .ok ⟨none, none⟩ w' := by
  by_cases hmakes : ∃ path, v.Makes path
  · rcases hmakes with ⟨path, hmakes⟩
    have hfound := h path hmakes
    have hok : (exec (createChild (lockName s i r.vid) (v.Super r)
        ⟨some (if v.Super r then v.liveBase s path else v.ownSnap s r path),
          some (childName s path r.vid)⟩) w).isOk := by
      apply createChild_returns
      by_cases hsuper : v.Super r
      · rw [if_pos hsuper] at hfound ⊢
        rcases hfound with hl | hp | hc
        · exact .inl ⟨decide_eq_true hsuper, fun hb => hl hb.1⟩
        · exact .inr hp
        · refine .inl ⟨decide_eq_true hsuper, fun hb => ?_⟩
          rw [childAfter_nil, Option.isSome_iff_ne_none] at hc
          exact hc (Option.isNone_iff_eq_none.1 hb.2)
      · rw [if_neg hsuper] at hfound ⊢
        exact .inr hfound
    rcases Result.exists_of_isOk hok with ⟨_, w', hexec⟩
    rw [mkSlot_makes he hr hv hmakes]
    exact ⟨w', exec_bind_ok_iff.2 ⟨_, _, hexec, rfl⟩⟩
  · exact ⟨w, mkSlot_idle (hr.slots v hv) hmakes⟩

theorem mkSlot_hangs (he : r.enable.isOne) (hr : r.Storable) (hv : v ∈ r.img)
    (h : ¬ Found s r w i [] v) : Hangs (mkSlot s r ⟨none, none⟩ i v) w := by
  unfold Found at h
  push Not at h
  rcases h with ⟨path, hmakes, hnot⟩
  rw [mkSlot_makes he hr hv hmakes]
  refine hangs_bind_iff.2 (.inl ?_)
  by_cases hsuper : v.Super r
  · rw [if_pos hsuper] at hnot ⊢
    rw [childAfter_nil] at hnot
    push Not at hnot
    refine createChild_hangs (fun _ => ⟨hnot.1, ?_⟩) hnot.2.1
    simpa using hnot.2.2
  · rw [if_neg hsuper] at hnot ⊢
    refine createChild_hangs (fun hb => ?_) hnot
    exact absurd (of_decide_eq_true hb) hsuper

/-- What an iteration changes for the later ones: its own lock, and the child for its
path. -/
theorem SlotStep.later {w' : World} (h : SlotStep s r v i w w') :
    w'.disk = w.disk ∧
    (∀ j, j ≠ i → w'.lock (lockName s j r.vid) = w.lock (lockName s j r.vid)) ∧
    ∀ path, (w'.child (childName s path r.vid)).isSome ↔
      if v.Acts r path then
        v.Super r → w.lock (lockName s i r.vid) ∨ (w.disk (v.liveBase s path)).isSome
      else (w.child (childName s path r.vid)).isSome := by
  cases h with
  | idle hidle =>
    refine ⟨rfl, fun _ _ => rfl, fun path => ?_⟩
    rw [if_neg]
    rintro ⟨⟨hen, hdyn, -⟩, hkind⟩
    rw [hidle hen hdyn] at hkind
    cases hkind
  | @kept _ path hdyn hpath hsuper hlock hchild hkept hlock' =>
    refine ⟨hkept.disk, fun _ _ => by rw [hlock'], fun q => ?_⟩
    rw [hkept.child]
    split
    · next hacts =>
      obtain rfl : path = q := Option.some.inj (hpath.symm.trans hacts.1.2.2)
      exact iff_of_true hchild fun _ => .inl hlock
    · rfl
  | @made _ path k hen hdyn hpath hk hnot hmade hlock' hdisk =>
    refine ⟨hmade.disk, fun j hj => ?_, fun q => ?_⟩
    · rw [hlock']
      exact if_neg fun heq => hj (lockName_inj rfl heq).1
    · split
      · next hacts =>
        obtain rfl : path = q := Option.some.inj (hpath.symm.trans hacts.1.2.2)
        refine iff_of_true (by rw [hmade.child_self]; rfl) fun hsuper => .inr ?_
        rw [parrentKind_of_super hsuper, Option.some.injEq] at hk
        rwa [← hk] at hdisk
      · next hacts =>
        rw [hmade.child_ne fun heq => hacts ⟨⟨hen, hdyn, ?_⟩, by rw [hk]; rfl⟩]
        rw [(childName_inj rfl heq).1, hpath]
  | @gone _ path hdyn hpath hsuper hlock hdisk hgone hlock' =>
    refine ⟨hgone.disk, fun j hj => ?_, fun q => ?_⟩
    · rw [hlock']
      exact if_neg fun heq => hj (lockName_inj rfl heq).1
    · split
      · next hacts =>
        obtain rfl : path = q := Option.some.inj (hpath.symm.trans hacts.1.2.2)
        simp [hgone.child_self, hsuper, hlock, hdisk]
      · next hacts =>
        have hkind := parrentKind_of_super hsuper
        rw [hgone.child_ne fun heq => hacts ⟨⟨hsuper.2.2.1, hdyn, ?_⟩, by rw [hkind]; rfl⟩]
        rw [(childName_inj rfl heq).1, hpath]

/-- An iteration leaves the child as the later slots would have found it. -/
theorem SlotStep.childAfter_iff {u : Img} {w' : World} (h : SlotStep s r u i w w')
    (pre : List Img) (path : String) :
    ChildAfter s r w' (i + 1) pre path ↔ ChildAfter s r w i (u :: pre) path := by
  rcases h.later with ⟨hdisk, hlock, hchild⟩
  by_cases hlater : ∃ x ∈ pre, x.Acts r path
  · rw [childAfter_cons_of_later hlater]
    have hskip : ¬ ∀ x ∈ pre, ¬ x.Acts r path := by
      push Not
      exact hlater
    unfold ChildAfter
    simp only [hskip, and_false, false_or, hdisk]
    refine exists_congr fun a => exists_congr fun x => exists_congr fun b => ?_
    rw [hlock _ (by omega)]
  · push Not at hlater
    rw [childAfter_cons_of_last hlater, ← hchild]
    unfold ChildAfter
    rw [or_iff_left, and_iff_left hlater]
    rintro ⟨a, x, b, rfl, hx, -⟩
    exact hlater x (by simp) hx

/-- The child after the whole loop. -/
theorem Slots.childAfter_iff {vs : List Img} {w' : World} (h : Slots s r (vs.zipIdx i) w w')
    (path : String) :
    (w'.child (childName s path r.vid)).isSome ↔ ChildAfter s r w i vs path := by
  induction vs generalizing i w with
  | nil =>
    rw [List.zipIdx_nil] at h
    cases h
    exact childAfter_nil.symm
  | cons u vs ih =>
    rw [List.zipIdx_cons] at h
    cases h with
    | cons hstep hrest => rw [ih hrest, hstep.childAfter_iff]

/-- After an iteration the later slots find what they would have found. -/
theorem found_step {u : Img} {w' : World} {pre : List Img} (h : SlotStep s r u i w w') :
    Found s r w' (i + 1) pre v ↔ Found s r w i (u :: pre) v := by
  rcases h.later with ⟨hdisk, hlock, -⟩
  unfold Found
  refine forall_congr' fun path => imp_congr_right fun _ => ?_
  rw [hdisk, hlock _ (by omega), h.childAfter_iff, List.length_cons,
    show i + 1 + pre.length = i + (pre.length + 1) by omega]

end Slot

/-! ## The loop -/

theorem loop_ends_iff (he : r.enable.isOne) (hr : r.Storable) {vs : List Img}
    (hvs : ∀ v ∈ vs, v ∈ r.img) (k : Nat) (w : World) :
    ¬ Hangs ((vs.zipIdx k).foldlM (fun x vi => mkSlot s r x vi.2 vi.1) ⟨none, none⟩) w ↔
      ∀ pre v post, vs = pre ++ v :: post → Found s r w k pre v := by
  induction vs generalizing k w with
  | nil => simp [Hangs]
  | cons u vs ih =>
    have hu := hvs u List.mem_cons_self
    rw [List.zipIdx_cons, List.foldlM_cons]
    by_cases hfound : Found s r w k [] u
    · rcases mkSlot_returns he hr hu hfound with ⟨w', hexec⟩
      have hstep := (mkSlot_ok he hexec).2
      rw [hangs_bind_of_ok hexec, ih (fun v hv => hvs v (List.mem_cons_of_mem _ hv))]
      constructor
      · intro h pre v post heq
        cases pre with
        | nil =>
          cases heq
          exact hfound
        | cons u' pre =>
          cases heq
          exact (found_step hstep).1 (h pre v post rfl)
      · intro h pre v post heq
        exact (found_step hstep).2 (h (u :: pre) v post (by rw [heq]; rfl))
    · constructor
      · intro h
        exact absurd (hangs_bind_iff.2 (.inl (mkSlot_hangs he hr hu hfound))) h
      · intro h
        exact absurd (h [] u vs rfl) hfound

/-! ## The whole -/

/-- What `mkChild` needs for the slot `v`, which comes after the slots `pre`, before
`zfsmount`: the live image; or the slot was chosen in super mode and there is no lock, or
the child is there when the slots before it are through. -/
def Provided (s : Server) (r : Wks) (w : World) (pre : List Img) (v : Img) (path : String) : Prop :=
  if v.Super r then
    ¬ w.lock (lockName s (1 + pre.length) r.vid) ∨ (w.disk (v.liveBase s path)).isSome ∨
      ChildAfter s r w 1 pre path
  else ∃ d, w.disk (v.liveBase s path) = some d ∧ d.frozen = false

theorem Mounted.childAfter_iff {w w' : World} (h : Mounted s r w w') {pre : List Img}
    (hpre : ∀ u ∈ pre, u ∈ r.img) (k : Nat) (path : String) :
    ChildAfter s r w' k pre path ↔ ChildAfter s r w k pre path :=
  childAfter_congr h.overlays fun u hu hacts _ => h.base u (hpre u hu) hacts.1.2.1 path hacts.1.2.2

theorem Mounted.found_iff {w w' : World} (h : Mounted s r w w') {pre : List Img} {v : Img}
    (hv : v ∈ r.img) (hpre : ∀ u ∈ pre, u ∈ r.img) :
    Found s r w' 1 pre v ↔ ∀ path, v.Makes path → Provided s r w pre v path := by
  have hoverlays := h.overlays
  simp only [World.overlays, Prod.mk.injEq] at hoverlays
  unfold Found Provided
  refine forall_congr' fun path => forall_congr' fun hmakes => ?_
  rcases hmakes with ⟨hen, hdyn, hpath⟩
  rw [hoverlays.2, h.base v hv hdyn path hpath, h.snap v hv hen hdyn path hpath,
    h.childAfter_iff hpre]
  split
  · rfl
  · cases w.disk (v.liveBase s path) with
    | none => simp
    | some d => simp [Disk.snap?]

/-- **`zfsmount` and `mkChild` come to an end, for a record the dialogs can store, if and
only if each of its slots with a child is provided for.** -/
theorem mkChild_ends_iff (hs : Separate s) (he : r.enable.isOne) (hr : r.Storable) (w : World) :
    ¬ Hangs (do zfsmount s r; mkChild s r) w ↔
      ∀ pre v post, r.img = pre ++ v :: post → ∀ path, v.Makes path →
        Provided s r w pre v path := by
  have hzfs := zfsmount_mounted hs hr w
  unfold Ends at hzfs
  cases hexec : exec (zfsmount s r) w with
  | error w' | hang w' =>
    rw [hexec] at hzfs
    exact hzfs.elim
  | ok u w' =>
    rw [hexec] at hzfs
    have hloop : Hangs (mkChild s r) w' ↔
        Hangs ((r.img.zipIdx 1).foldlM (fun x vi => mkSlot s r x vi.2 vi.1) ⟨none, none⟩) w' := by
      unfold mkChild
      rw [hangs_when_iff, and_iff_right he, hangs_bind_iff]
      refine or_iff_left ?_
      rintro ⟨x, w'', -, hret⟩
      exact Prompt.pure _ _ hret
    rw [hangs_bind_of_ok hexec, hloop, loop_ends_iff he hr (fun _ hv => hv)]
    refine forall_congr' fun pre => forall_congr' fun v => forall_congr' fun post =>
      forall_congr' fun heq => ?_
    exact hzfs.found_iff (by rw [heq]; simp) fun u hu => by rw [heq]; simp [hu]

/-! ## The proposed record -/

/-- The record that is proposed for a second workstation has three slots with the path
`none`, and there is no image of that name. -/
theorem proposed_waits_forever :
    ∃ v r, proposal (fun _ => "b4:2e:99:2c:dd:53\n") oneStation.file.val = some v ∧
      Wks.of? v = some r ∧ r.enable.isOne ∧
      Hangs (do zfsmount shippedServer r; mkChild shippedServer r) oneStation :=
  ⟨proposedWks 2 "192.168.0.2" "b4:2e:99:2c:dd:53" "192.168.0.210" "8.8.8.8" "nsboot.local", _,
    by decide +kernel, rfl, by decide, by decide +kernel⟩

theorem Img.storable_of_texts {path type : String} {enable commit boot cache : Value}
    (htype : type = "dyndisk" ∨ type = "dynblock" ∨ type = "iso")
    (hcommit : commit.isZero ∨ commit.isOne) (hslash : '/' ∉ path.toList)
    (hat : '@' ∉ path.toList) :
    Img.Storable ⟨.str path, .str type, enable, commit, boot, cache⟩ := by
  refine ⟨?_, hcommit, path, rfl, hslash, fun _ => hat⟩
  rcases htype with rfl | rfl | rfl
  · exact .inl (.inl rfl)
  · exact .inl (.inr rfl)
  · exact .inr rfl

theorem usedWks_storable : usedWks.Storable := by
  refine ⟨rfl, by decide, ?_⟩
  intro v hv
  simp only [usedWks, List.mem_cons, List.not_mem_nil, or_false] at hv
  rcases hv with rfl | rfl | rfl
  · exact Img.storable_of_texts (by simp) (by decide) (by simp) (by simp)
  · exact Img.storable_of_texts (by simp) (by decide) (by simp) (by simp)
  · exact Img.storable_of_texts (by simp) (by decide) (by simp) (by simp)

theorem usedWks_provided :
    ¬ Hangs (do zfsmount shippedServer usedWks; mkChild shippedServer usedWks) usedWorld ∧
    ∃ v ∈ usedWks.img, v.Makes "win10cc.qcow2" ∧
      Provided shippedServer usedWks usedWorld [] v "win10cc.qcow2" := by
  have hends : ¬ Hangs (do zfsmount shippedServer usedWks; mkChild shippedServer usedWks)
      usedWorld := by decide +kernel
  have hmakes : (usedWks.img.head (by simp [usedWks])).Makes "win10cc.qcow2" :=
    ⟨by decide, .inl rfl, rfl⟩
  exact ⟨hends, _, List.head_mem _, hmakes,
    (mkChild_ends_iff shipped_separate (by decide) usedWks_storable usedWorld).1 hends [] _ _ rfl
      _ hmakes⟩

end NsBoot
