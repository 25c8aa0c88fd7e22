import NsBoot.Boot.Steps

/-!
# NsBoot.Boot.Children — what a completed `mkChild` leaves

The loop over the slots, from its single iteration up:

* `createChild_ok`: the four branches on lock file, child file and flags come to
  three outcomes: the child is *kept*, it is *made* anew, empty, or it is *gone*, when a
  session starts on an image that is not there;
* `mkSlot_ok`: one iteration (`SlotStep`). The variables come in and go out as
  nil, so no slot sees the names of the one before;
* `mkChild_ok`: the whole loop, as a run of slot steps (`Slots`).
-/

namespace NsBoot

open Lua Prog

variable {s : Server} {r : Wks}

/-- The flags with which a slot's child is kept from boot to boot. -/
def Img.Super (r : Wks) (v : Img) : Prop :=
  r.enable.isOne ∧ r.supper.isOne ∧ v.enable.isOne ∧ v.commit.isOne

instance (r : Wks) (v : Img) : Decidable (v.Super r) := inferInstanceAs (Decidable (_ ∧ _))

/-! ## The parent -/

/-- The name of the parent that was chosen. -/
def Parrent.name (s : Server) (r : Wks) (v : Img) (path : String) : Parrent → String
  | .live => v.liveBase s path
  | .snap => v.ownSnap s r path

theorem parrentKind_of_super {v : Img} (h : v.Super r) : parrentKind r v = some .live := by
  obtain ⟨he, hs, hv, hc⟩ := h
  have hs0 : ¬ r.supper.isZero := fun h0 => not_isOne_of_isZero h0 hs
  have hc0 : ¬ v.commit.isZero := fun h0 => not_isOne_of_isZero h0 hc
  simp [parrentKind, he, hs, hv, hc, hs0, hc0]

theorem parrentKind_of_normal {v : Img} (hs : r.supper.isZero) (hv : v.enable.isOne)
    (hc : v.commit.isZero ∨ v.commit.isOne) : parrentKind r v = some .snap := by
  have hs1 : ¬ r.supper.isOne := not_isOne_of_isZero hs
  rcases hc with hc | hc
  · simp [parrentKind, hs, hv, hc]
  · simp [parrentKind, hs, hv, hc]

theorem findParrents_dyn (he : r.enable.isOne) {v : Img} (hv : v.enable.isOne) (hd : v.isDyn)
    {k : Parrent} (hk : parrentKind r v = some k) (x : Vars) :
    findParrents s r v x = v.path.concat?.map fun path =>
      ⟨some (k.name s r v path), some (childName s path r.vid)⟩ := by
  rcases hd with hd | hd
  · cases hp : v.path.concat? <;> cases k <;>
      simp [findParrents, findParrent, he, hv, hd, hk, hp, Parrent.name, Img.liveBase, Img.ownSnap]
  · cases hp : v.path.concat? <;> cases k <;>
      simp [findParrents, findParrent, he, hv, hd, hk, hp, Parrent.name, Img.liveBase, Img.ownSnap]

/-! ## One slot -/

/-- The child `f` was made anew over `p`. -/
structure Made (p f : String) (w w' : World) : Prop where
  file : w'.file = w.file
  disk : w'.disk = w.disk
  clock : w'.clock = w.clock + 1
  child : w'.child = fun g => if g = f then some ⟨p, [], w.clock⟩ else w.child g

theorem Made.child_self {p f : String} {w w' : World} (h : Made p f w w') :
    w'.child f = some ⟨p, [], w.clock⟩ := by
  rw [h.child]
  exact if_pos rfl

theorem Made.child_ne {p f g : String} {w w' : World} (h : Made p f w w') (hg : g ≠ f) :
    w'.child g = w.child g := by
  rw [h.child]
  exact if_neg hg

/-- All children were left as they are. -/
structure Kept (w w' : World) : Prop where
  file : w'.file = w.file
  disk : w'.disk = w.disk
  clock : w'.clock = w.clock
  child : w'.child = w.child

/-- The child `f` is gone, and none was made. -/
structure Gone (f : String) (w w' : World) : Prop where
  file : w'.file = w.file
  disk : w'.disk = w.disk
  clock : w'.clock = w.clock
  child : w'.child = (w.del f).child

theorem Gone.child_self {f : String} {w w' : World} (h : Gone f w w') : w'.child f = none := by
  rw [h.child]
  exact if_pos rfl

theorem Gone.child_ne {f g : String} {w w' : World} (h : Gone f w w') (hg : g ≠ f) :
    w'.child g = w.child g := by
  rw [h.child]
  exact if_neg hg

theorem create_setLock (w : World) (l p f : String) (b : Bool) :
    (w.setLock l b).create p f = (w.create p f).setLock l b := by
  by_cases hp : (w.disk p).isSome
  · have hp' : ((w.setLock l b).disk p).isSome := hp
    rw [create_of_disk hp, create_of_disk hp']
    rfl
  · have hp' : ¬ ((w.setLock l b).disk p).isSome := hp
    rw [create_of_none hp, create_of_none hp']

theorem images_del_of_none {w : World} {f : String} (h : w.child f = none) :
    w.images = (w.del f).images := by
  have hchild : w.child = (w.del f).child := by
    funext g
    by_cases hg : g = f
    · simp [World.del, hg, h]
    · simp [World.del, hg]
  simp only [World.images, Prod.mk.injEq]
  exact ⟨rfl, hchild, rfl, rfl, rfl⟩

theorem setLock_self (w : World) (l : String) : w.setLock l (w.lock l) = w := by
  have : (fun g => if g = l then w.lock l else w.lock g) = w.lock := by
    funext g
    split
    · next h => rw [h]
    · rfl
  unfold World.setLock
  rw [this]

theorem freeAndDel_ok {p f : String} {w w' : World} {u : Unit}
    (h : exec (freeAndDel ⟨some p, some f⟩) w = .ok u w') : w' = (w.killHolders f).del f := by
  simp only [freeAndDel, lsofkill, exec_bind_ok_iff, exec_lift_ok_iff] at h
  obtain ⟨_, _, ⟨hf, rfl⟩, _, _, hk, h⟩ := h
  cases hf
  obtain rfl := exec_perform_ok_iff.1 hk
  exact (exec_modify_ok_iff.1 h).symm

theorem imgChild_ok {p f : String} {w w' : World} {u : Unit}
    (h : exec (imgChild ⟨some p, some f⟩) w = .ok u w') : w' = w.create p f := by
  simp only [imgChild, exec_bind_ok_iff, exec_lift_ok_iff] at h
  obtain ⟨_, _, ⟨hp, rfl⟩, _, _, ⟨hf, rfl⟩, h⟩ := h
  cases hp
  cases hf
  exact (exec_modify_ok_iff.1 h).symm

/-- The child and the lock are gone, if there was a child. -/
def World.cleared (w : World) (l f : String) : World :=
  if (w.child f).isSome then ((w.killHolders f).del f).setLock l false else w

theorem cleared_lock (w : World) (l f : String) :
    (w.cleared l f).lock = (w.setLock l (w.lock l && (w.child f).isNone)).lock := by
  unfold World.cleared
  cases hf : w.child f with
  | none => simp [setLock_self]
  | some o => simp [World.setLock, World.del, World.killHolders]

theorem cleared_child (w : World) (l f : String) : (w.cleared l f).child = (w.del f).child := by
  unfold World.cleared
  cases hf : w.child f with
  | none =>
    funext g
    by_cases hg : g = f <;> simp [World.del, hg, hf]
  | some o => rfl

theorem cleared_rest (w : World) (l f : String) :
    (w.cleared l f).file = w.file ∧ (w.cleared l f).disk = w.disk ∧
    (w.cleared l f).clock = w.clock := by
  unfold World.cleared
  split <;> exact ⟨rfl, rfl, rfl⟩

/-- The last branch makes the child, or waits for its parent with the old child gone. -/
theorem exec_recreate (l p f : String) (w : World) :
    exec (recreate l ⟨some p, some f⟩) w =
      if (w.disk p).isSome then .ok () ((w.cleared l f).create p f) else .hang (w.cleared l f) := by
  have hfree : exec (when (w.isChild (some f)) do
      freeAndDel ⟨some p, some f⟩
      when ((← get).lock l) (modify fun w => w.setLock l false) : Sys Unit) w =
        .ok () (w.cleared l f) := by
    unfold Prog.when World.cleared
    by_cases hc : (w.child f).isSome
    · rw [if_pos (show w.isChild (some f) = true from hc), if_pos hc]
      -- the lock is removed, or there is none
      change exec (if ((w.killHolders f).del f).lock l = true then _ else _) _ = _
      split
      · rfl
      · next hl =>
        have hl : ((w.killHolders f).del f).lock l = false := by simpa using hl
        conv_rhs => rw [← hl, setLock_self]
        rfl
    · rw [if_neg (show ¬ w.isChild (some f) = true from hc), if_neg hc]
      rfl
  unfold recreate
  rw [exec_get_bind, exec_bind, hfree]
  change exec (wait _ >>= fun _ => imgChild _) (w.cleared l f) = _
  rw [exec_wait_bind, (cleared_rest w l f).2.1]
  rfl

theorem recreate_ok {l p f : String} {w w' : World} {u : Unit}
    (h : exec (recreate l ⟨some p, some f⟩) w = .ok u w') :
    w'.lock = (w.setLock l (w.lock l && (w.child f).isNone)).lock ∧
    Made p f w w' ∧ (w.disk p).isSome := by
  rw [exec_recreate] at h
  split at h
  · next hp =>
    cases h
    rcases cleared_rest w l f with ⟨hfile, hdisk, hclock⟩
    have hp' : ((w.cleared l f).disk p).isSome := by rwa [hdisk]
    rw [create_of_disk hp']
    refine ⟨cleared_lock w l f, ⟨hfile, hdisk, congrArg (· + 1) hclock, ?_⟩, hp⟩
    funext g
    simp only [cleared_child, hclock, World.del]
    by_cases hg : g = f <;> simp [hg]
  · cases h

/-- Making a child where the old one was just removed, at the start of a session. -/
theorem create_del_cases (l p f : String) {w w₁ : World} (h : w₁.images = (w.del f).images) :
    (w.disk p).isSome ∧ Made p f w ((w₁.create p f).setLock l true) ∨
    ¬ (w.disk p).isSome ∧ Gone f w ((w₁.create p f).setLock l true) := by
  simp only [World.images, Prod.mk.injEq] at h
  obtain ⟨hfile, hchild, -, hdisk, hclock⟩ := h
  by_cases hp : (w.disk p).isSome
  · have hp₁ : (w₁.disk p).isSome := by
      rw [hdisk]
      exact hp
    rw [create_of_disk hp₁]
    refine .inl ⟨hp, hfile, hdisk, congrArg (· + 1) hclock, ?_⟩
    funext g
    simp only [World.setLock, hchild, hclock, World.del]
    by_cases hg : g = f <;> simp [hg]
  · have hp₁ : ¬ (w₁.disk p).isSome := by
      rw [hdisk]
      exact hp
    rw [create_of_none hp₁]
    exact .inr ⟨hp, hfile, hdisk, hclock, hchild⟩

/-- `PROCESS CREATE CHILD FILE`, when it comes to its end. -/
theorem createChild_ok {l p f : String} {super : Bool} {w w' : World} {u : Unit}
    (h : exec (createChild l super ⟨some p, some f⟩) w = .ok u w') :
    w'.lock = (w.setLock l (super || (w.lock l && (w.child f).isNone))).lock ∧
    if super ∧ w.lock l ∧ (w.child f).isSome then Kept w w'
    else if (w.disk p).isSome then Made p f w w'
    else super ∧ ¬ w.lock l ∧ Gone f w w' := by
  unfold createChild at h
  rw [exec_get_bind] at h
  rcases exec_ite_ok_iff.1 h with ⟨⟨hs, hl, hc⟩, h⟩ | ⟨hnb, h⟩
  · -- a child from before the session: it goes, and a new one is made
    obtain ⟨_, w₁, hdel, h⟩ := exec_bind_ok_iff.1 h
    obtain ⟨_, w₂, hmk, h⟩ := exec_bind_ok_iff.1 h
    obtain rfl := freeAndDel_ok hdel
    obtain rfl := imgChild_ok hmk
    obtain rfl := exec_modify_ok_iff.1 h
    rw [if_neg fun h => hl h.2.1]
    refine ⟨?_, ?_⟩
    · simp [World.setLock, create_lock, World.del, World.killHolders, hs]
    · have hdel : ((w.killHolders f).del f).images = (w.del f).images := rfl
      rcases create_del_cases l p f hdel with ⟨hp, hmade⟩ | ⟨hp, hgone⟩
      · rw [if_pos hp]
        exact hmade
      · rw [if_neg hp]
        exact ⟨hs, hl, hgone⟩
  rcases exec_ite_ok_iff.1 h with ⟨⟨hs, hl, hc⟩, h⟩ | ⟨hnc, h⟩
  · -- neither lock nor child
    rw [exec_modify_bind] at h
    obtain rfl := imgChild_ok h
    rw [if_neg fun h => hl h.2.1]
    rw [create_setLock]
    refine ⟨?_, ?_⟩
    · simp [World.setLock, create_lock, hs]
    · rcases create_del_cases l p f (images_del_of_none (by simpa [World.isChild] using hc))
        with ⟨hp, hmade⟩ | ⟨hp, hgone⟩
      · rw [if_pos hp]
        exact hmade
      · rw [if_neg hp]
        exact ⟨hs, hl, hgone⟩
  rcases exec_ite_ok_iff.1 h with ⟨hk, h⟩ | ⟨hnk, h⟩
  · -- lock and child: kept
    obtain rfl := exec_modify_ok_iff.1 h
    have hk : super = true ∧ w.lock l = true ∧ (w.child f).isSome = true := hk
    rw [if_pos hk]
    exact ⟨by simp [hk.1], rfl, rfl, rfl, rfl⟩
  · have hnk : ¬ (super = true ∧ w.lock l = true ∧ (w.child f).isSome = true) := hnk
    obtain ⟨hlock, hmade, hp⟩ := recreate_ok h
    rw [if_neg hnk, if_pos hp]
    refine ⟨?_, hmade⟩
    cases super with
    | false => simpa using hlock
    | true =>
      -- in super mode only a lock without a child leads here, and the lock stays
      have hl : w.lock l = true := by
        by_contra hl
        by_cases hc : (w.child f).isSome
        · exact hnb ⟨rfl, hl, hc⟩
        · exact hnc ⟨rfl, hl, hc⟩
      have hn : (w.child f).isNone = true := by simpa [hl] using hnk
      simpa [hl, hn] using hlock

/-- Without names nothing is made or removed. -/
theorem createChild_nil_ok {l : String} {super : Bool} {w w' : World} {u : Unit}
    (h : exec (createChild l super ⟨none, none⟩) w = .ok u w') : w' = w := by
  unfold createChild at h
  rw [exec_get_bind] at h
  rcases exec_ite_ok_iff.1 h with ⟨⟨-, -, hc⟩, -⟩ | ⟨-, h⟩
  · exact absurd hc (by simp [World.isChild])
  rcases exec_ite_ok_iff.1 h with ⟨-, h⟩ | ⟨-, h⟩
  · -- `img.child(nil, nil)` is an error
    rw [exec_modify_bind] at h
    obtain ⟨_, _, hp, -⟩ := exec_bind_ok_iff.1 h
    simp [exec_lift_ok_iff] at hp
  rcases exec_ite_ok_iff.1 h with ⟨⟨-, -, hc⟩, -⟩ | ⟨-, h⟩
  · exact absurd hc (by simp [World.isChild])
  · unfold recreate at h
    rw [exec_get_bind] at h
    obtain ⟨_, w₁, hfree, h⟩ := exec_bind_ok_iff.1 h
    obtain ⟨-, rfl⟩ := exec_pure_ok_iff.1 h
    rcases exec_when_ok_iff.1 hfree with ⟨hc, -⟩ | ⟨-, rfl⟩
    · exact absurd hc (by simp [World.isChild])
    · rfl

/-- What one iteration of the loop does to the slot `v` with number `i`. -/
inductive SlotStep (s : Server) (r : Wks) (v : Img) (i : Nat) : World → World → Prop
  | idle (w : World) (h : v.enable.isOne → v.isDyn → parrentKind r v = none) :
      SlotStep s r v i w w
  | kept {w w' : World} {path : String} (hdyn : v.isDyn) (hpath : v.path.concat? = some path)
      (hsuper : v.Super r) (hlock : w.lock (lockName s i r.vid))
      (hchild : (w.child (childName s path r.vid)).isSome) (hkept : Kept w w')
      (hlock' : w'.lock = w.lock) : SlotStep s r v i w w'
  | made {w w' : World} {path : String} {k : Parrent} (henable : v.enable.isOne) (hdyn : v.isDyn)
      (hpath : v.path.concat? = some path) (hk : parrentKind r v = some k)
      (hnot : v.Super r → w.lock (lockName s i r.vid) →
        ¬ (w.child (childName s path r.vid)).isSome)
      (hmade : Made (k.name s r v path) (childName s path r.vid) w w')
      (hlock' : w'.lock = (w.setLock (lockName s i r.vid) (decide (v.Super r) ||
        (w.lock (lockName s i r.vid) && (w.child (childName s path r.vid)).isNone))).lock)
      (hdisk : (w.disk (k.name s r v path)).isSome) : SlotStep s r v i w w'
  | gone {w w' : World} {path : String} (hdyn : v.isDyn) (hpath : v.path.concat? = some path)
      (hsuper : v.Super r) (hlock : ¬ w.lock (lockName s i r.vid))
      (hdisk : w.disk (v.liveBase s path) = none) (hgone : Gone (childName s path r.vid) w w')
      (hlock' : w'.lock = (w.setLock (lockName s i r.vid) true).lock) : SlotStep s r v i w w'

theorem findParrents_idle {v : Img} (h : v.enable.isOne → v.isDyn → parrentKind r v = none)
    (x : Vars) : findParrents s r v x = some x := by
  unfold findParrents
  split
  · next hif => simp [findParrent, h hif.2.1 (Or.inl hif.2.2)]
  · split
    · next hif => simp [findParrent, h hif.2.1 (Or.inr hif.2.2)]
    · rfl

/-- One iteration, when it comes to its end. -/
theorem mkSlot_ok (he : r.enable.isOne) {v : Img} {i : Nat} {x : Vars} {w w' : World}
    (h : exec (mkSlot s r ⟨none, none⟩ i v) w = .ok x w') :
    x = ⟨none, none⟩ ∧ SlotStep s r v i w w' := by
  unfold mkSlot at h
  obtain ⟨y, _, hlift, h⟩ := exec_bind_ok_iff.1 h
  obtain ⟨hy, rfl⟩ := exec_lift_ok_iff.1 hlift
  by_cases hidle : v.enable.isOne → v.isDyn → parrentKind r v = none
  · -- the variables stay nil
    rw [findParrents_idle hidle] at hy
    cases hy
    rcases exec_ite_ok_iff.1 h with ⟨-, h⟩ | ⟨-, h⟩
    · obtain ⟨_, _, hc, h⟩ := exec_bind_ok_iff.1 h
      obtain ⟨rfl, rfl⟩ := exec_pure_ok_iff.1 h
      obtain rfl := createChild_nil_ok hc
      exact ⟨rfl, .idle _ hidle⟩
    · obtain ⟨rfl, rfl⟩ := exec_pure_ok_iff.1 h
      exact ⟨rfl, .idle _ hidle⟩
  · push Not at hidle
    obtain ⟨hv, hdyn, hkind⟩ := hidle
    obtain ⟨k, hk⟩ := Option.ne_none_iff_exists'.1 hkind
    rw [findParrents_dyn he hv hdyn hk, Option.map_eq_some_iff] at hy
    obtain ⟨path, hpath, rfl⟩ := hy
    have hiso : v.type ≠ .str "iso" := by
      rcases hdyn with h | h <;> simp [h]
    rw [if_pos ⟨he, hv, hiso⟩] at h
    obtain ⟨_, _, hc, h⟩ := exec_bind_ok_iff.1 h
    obtain ⟨rfl, rfl⟩ := exec_pure_ok_iff.1 h
    obtain ⟨hlock, hcases⟩ := createChild_ok hc
    refine ⟨rfl, ?_⟩
    split at hcases
    · next hif =>
      obtain ⟨hsuper, hl, hchild⟩ := hif
      refine .kept hdyn hpath (of_decide_eq_true hsuper) hl hchild hcases ?_
      rw [hlock, hsuper, Bool.true_or, ← hl, setLock_self]
    · next hif =>
      split at hcases
      · next hdisk =>
        refine .made hv hdyn hpath hk (fun hsuper hl hchild => ?_) hcases hlock hdisk
        exact hif ⟨decide_eq_true hsuper, hl, hchild⟩
      · next hdisk =>
        obtain ⟨hsuper, hl, hgone⟩ := hcases
        rw [parrentKind_of_super (of_decide_eq_true hsuper), Option.some.injEq] at hk
        subst hk
        refine .gone hdyn hpath (of_decide_eq_true hsuper) hl
          (Option.not_isSome_iff_eq_none.1 hdisk) hgone ?_
        rw [hlock, hsuper, Bool.true_or]

/-! ## The loop -/

/-- A run of slot steps. -/
inductive Slots (s : Server) (r : Wks) : List (Img × Nat) → World → World → Prop
  | nil (w : World) : Slots s r [] w w
  | cons {v : Img} {i : Nat} {vis : List (Img × Nat)} {w₁ w₂ w₃ : World}
      (hstep : SlotStep s r v i w₁ w₂) (hrest : Slots s r vis w₂ w₃) :
      Slots s r ((v, i) :: vis) w₁ w₃

theorem foldlM_mkSlot_ok (he : r.enable.isOne) {vis : List (Img × Nat)} {x : Vars} {w w' : World}
    (h : exec (vis.foldlM (fun x vi => mkSlot s r x vi.2 vi.1) ⟨none, none⟩) w = .ok x w') :
    Slots s r vis w w' := by
  induction vis generalizing w with
  | nil =>
    obtain ⟨-, rfl⟩ := exec_pure_ok_iff.1 h
    exact .nil _
  | cons vi vis ih =>
    obtain ⟨y, w₁, hslot, hrest⟩ := exec_foldlM_cons_ok_iff.1 h
    obtain ⟨rfl, hstep⟩ := mkSlot_ok he hslot
    exact .cons hstep (ih hrest)

/-- `mkChild`, when it comes to its end. -/
theorem mkChild_ok (he : r.enable.isOne) {w w' : World} {u : Unit}
    (h : exec (mkChild s r) w = .ok u w') : Slots s r (r.img.zipIdx 1) w w' := by
  rcases exec_when_ok_iff.1 h with ⟨-, h⟩ | ⟨hne, -⟩
  · obtain ⟨x, _, hloop, h⟩ := exec_bind_ok_iff.1 h
    obtain ⟨-, rfl⟩ := exec_pure_ok_iff.1 h
    exact foldlM_mkSlot_ok he hloop
  · exact absurd he hne

end NsBoot
