import NsBoot.Boot.Children
import NsBoot.Machine

/-!
# NsBoot.Boot.Frame — children and locks over whole boots

A boot may end early: an iteration of `mkChild` stops with an error, or waits for a
parent that never comes (`SlotStuck`). Whatever its end, `mkChild` is a run of
completed iterations with at most one such iteration at the end (`SlotsEnd`), and
the rest of a boot leaves children and locks alone. So a property of children and
locks that every iteration keeps, completed or not, is kept by every boot of the
workstation (`boot_keeps`).

Boots of other workstations work on names with another `vid` (`Elsewhere`).
-/

namespace NsBoot

open Lua Prog

variable {s : Server} {r : Wks}

/-! ## Iterations that do not come to their end -/

/-- Where an iteration for the slot `v` with number `i` can stop. -/
inductive SlotStuck (s : Server) (r : Wks) (v : Img) (i : Nat) : World → World → Prop
  -- the path is no text
  | stop (w : World) : SlotStuck s r v i w w
  -- the slot has no parent, which is noticed after its lock was made
  | locked (w : World) (hdyn : ¬ v.isDyn) :
      SlotStuck s r v i w (w.setLock (lockName s i r.vid) true)
  -- the parent is not there yet
  | waits (w : World) {path : String} (henable : v.enable.isOne) (hdyn : v.isDyn)
      (hpath : v.path.concat? = some path)
      (hnot : v.Super r → w.lock (lockName s i r.vid) →
        ¬ (w.child (childName s path r.vid)).isSome) :
      SlotStuck s r v i w (w.cleared (lockName s i r.vid) (childName s path r.vid))

theorem createChild_stuck (l p f : String) (super : Bool) (w : World) :
    Ends (fun w' => w' = w.cleared l f ∧ ¬ (super ∧ w.lock l ∧ (w.child f).isSome))
      (fun _ _ => True) (createChild l super ⟨some p, some f⟩) w := by
  refine Ends.get_bind (Ends.ite (fun _ => trivial) fun _ => Ends.ite (fun _ => trivial) fun _ =>
    Ends.ite (fun _ => trivial) fun hkeep => ?_)
  -- only the last branch can wait
  unfold Ends
  rw [exec_recreate]
  by_cases hp : (w.disk p).isSome
  · rw [if_pos hp]
    trivial
  · rw [if_neg hp]
    exact ⟨rfl, hkeep⟩

theorem createChild_nil_stuck (l : String) (super : Bool) (w : World) :
    Ends (fun w' => w' = w.setLock l true ∧ super) (fun _ _ => True)
      (createChild l super ⟨none, none⟩) w := by
  refine Ends.get_bind (Ends.ite (fun h => ?_) fun _ => Ends.ite (fun h => ⟨rfl, h.1⟩) fun _ =>
    Ends.ite (fun _ => trivial) fun _ => trivial)
  exact absurd h.2.2 (by simp [World.isChild])

theorem mkSlot_stuck (he : r.enable.isOne) (v : Img) (i : Nat) (w : World) :
    Ends (SlotStuck s r v i w) (fun _ _ => True) (mkSlot s r ⟨none, none⟩ i v) w := by
  unfold mkSlot
  refine Ends.bind (Q := fun y w' => findParrents s r v ⟨none, none⟩ = some y ∧ w = w')
    (Ends.lift (.stop w) fun y hy => ⟨hy, rfl⟩) ?_
  rintro y _ ⟨hy, rfl⟩
  refine Ends.ite (fun hif => Ends.bind (Q := fun _ _ => True) ?_ fun _ _ _ => trivial)
    fun _ => trivial
  by_cases hidle : v.enable.isOne → v.isDyn → parrentKind r v = none
  · -- no names: in super mode this is an error
    rw [findParrents_idle hidle] at hy
    cases hy
    refine (createChild_nil_stuck _ _ w).imp ?_ fun _ _ => id
    rintro w' ⟨rfl, hsuper⟩
    have hsuper : v.Super r := of_decide_eq_true hsuper
    refine .locked w fun hdyn => ?_
    have hnone := hidle hsuper.2.2.1 hdyn
    rw [parrentKind_of_super hsuper] at hnone
    cases hnone
  · push Not at hidle
    rcases hidle with ⟨hv, hdyn, hkind⟩
    rcases Option.ne_none_iff_exists'.1 hkind with ⟨k, hk⟩
    rw [findParrents_dyn he hv hdyn hk, Option.map_eq_some_iff] at hy
    rcases hy with ⟨path, hpath, rfl⟩
    refine (createChild_stuck _ _ _ _ w).imp ?_ fun _ _ => id
    rintro w' ⟨rfl, hkeep⟩
    refine .waits w hv hdyn hpath fun hsuper hlock hchild => ?_
    exact hkeep ⟨decide_eq_true hsuper, hlock, hchild⟩

/-! ## The loop, whatever its end -/

/-- Completed iterations, and at most one that is stuck. -/
inductive SlotsEnd (s : Server) (r : Wks) : List (Img × Nat) → World → World → Prop
  | nil (w : World) : SlotsEnd s r [] w w
  | stuck {v : Img} {i : Nat} {vis : List (Img × Nat)} {w w' : World}
      (h : SlotStuck s r v i w w') : SlotsEnd s r ((v, i) :: vis) w w'
  | cons {v : Img} {i : Nat} {vis : List (Img × Nat)} {w₁ w₂ w₃ : World}
      (hstep : SlotStep s r v i w₁ w₂) (hrest : SlotsEnd s r vis w₂ w₃) :
      SlotsEnd s r ((v, i) :: vis) w₁ w₃

theorem foldlM_mkSlot_final (he : r.enable.isOne) (vis : List (Img × Nat)) (w : World) :
    SlotsEnd s r vis w
      (exec (vis.foldlM (fun x vi => mkSlot s r x vi.2 vi.1) ⟨none, none⟩) w).final := by
  induction vis generalizing w with
  | nil => exact .nil w
  | cons vi vis ih =>
    have hstuck := mkSlot_stuck (s := s) he vi.1 vi.2 w
    unfold Ends at hstuck
    rw [List.foldlM_cons, exec_bind]
    cases hslot : exec (mkSlot s r ⟨none, none⟩ vi.2 vi.1) w with
    | ok x w₁ =>
      rcases mkSlot_ok he hslot with ⟨rfl, hstep⟩
      exact .cons hstep (ih w₁)
    | error w₁ | hang w₁ =>
      rw [hslot] at hstuck
      exact .stuck hstuck

theorem mkChild_final (he : r.enable.isOne) (w : World) :
    SlotsEnd s r (r.img.zipIdx 1) w (exec (mkChild s r) w).final := by
  have hloop := foldlM_mkSlot_final (s := s) he (r.img.zipIdx 1) w
  unfold mkChild Prog.when
  rw [if_pos he, exec_bind]
  cases hx : exec ((r.img.zipIdx 1).foldlM (fun x vi => mkSlot s r x vi.2 vi.1) ⟨none, none⟩) w with
  | ok x w₁ | error w₁ | hang w₁ =>
    rw [hx] at hloop
    exact hloop

/-- Slots are numbered from 1. -/
theorem slot_of_mem_zipIdx {vi : Img × Nat} (hvi : vi ∈ r.img.zipIdx 1) :
    ∃ i, vi.2 = i + 1 ∧ r.img[i]? = some vi.1 := by
  rcases List.mem_zipIdx_iff_le_and_getElem?_sub.1 hvi with ⟨hle, hget⟩
  exact ⟨vi.2 - 1, by omega, hget⟩

theorem mem_zipIdx_of_slot {i : Nat} {v : Img} (h : r.img[i]? = some v) :
    (v, i + 1) ∈ r.img.zipIdx 1 :=
  List.mk_mem_zipIdx_iff_le_and_getElem?_sub.2 (by simpa)

section Keeps

variable {I : World → Prop}

theorem SlotsEnd.keeps {vis : List (Img × Nat)} {w w' : World} (h : SlotsEnd s r vis w w')
    (hstep : ∀ vi ∈ vis, ∀ w w', I w → SlotStep s r vi.1 vi.2 w w' → I w')
    (hstuck : ∀ vi ∈ vis, ∀ w w', I w → SlotStuck s r vi.1 vi.2 w w' → I w') (hw : I w) :
    I w' := by
  induction h with
  | nil w => exact hw
  | stuck h => exact hstuck _ List.mem_cons_self _ _ hw h
  | cons h _ ih =>
    refine ih (fun vi hvi => hstep vi (List.mem_cons_of_mem _ hvi))
      (fun vi hvi => hstuck vi (List.mem_cons_of_mem _ hvi)) ?_
    exact hstep _ List.mem_cons_self _ _ hw h

theorem Slots.keeps {vis : List (Img × Nat)} {w w' : World} (h : Slots s r vis w w')
    (hstep : ∀ vi ∈ vis, ∀ w w', I w → SlotStep s r vi.1 vi.2 w w' → I w') (hw : I w) : I w' := by
  induction h with
  | nil w => exact hw
  | cons h _ ih =>
    refine ih (fun vi hvi => hstep vi (List.mem_cons_of_mem _ hvi)) ?_
    exact hstep _ List.mem_cons_self _ _ hw h

/-- What one completed iteration brings about and the others keep holds at the end. -/
theorem Slots.establishes {vis : List (Img × Nat)} {w w' : World} (h : Slots s r vis w w')
    {vi : Img × Nat} (hvi : vi ∈ vis) (hest : ∀ w w', SlotStep s r vi.1 vi.2 w w' → I w')
    (hkeep : ∀ vj ∈ vis, ∀ w w', I w → SlotStep s r vj.1 vj.2 w w' → I w') : I w' := by
  induction h with
  | nil w => cases hvi
  | @cons v i vis w₁ w₂ w₃ hstep hrest ih =>
    have htail : ∀ vj ∈ vis, ∀ w w', I w → SlotStep s r vj.1 vj.2 w w' → I w' :=
      fun vj hvj => hkeep vj (List.mem_cons_of_mem _ hvj)
    rcases List.mem_cons.1 hvi with rfl | hvi
    · -- the slot itself: from here on `I` is kept
      exact hrest.keeps htail (hest _ _ hstep)
    · exact ih hvi htail

/-- What every iteration keeps, `mkChild` keeps. Slots are counted from 0 here. -/
theorem mkChild_keeps
    (hstep : ∀ i v, r.img[i]? = some v → ∀ w w', I w → SlotStep s r v (i + 1) w w' → I w')
    (hstuck : ∀ i v, r.img[i]? = some v → ∀ w w', I w → SlotStuck s r v (i + 1) w w' → I w')
    {w : World} (hw : I w) : I (exec (mkChild s r) w).final := by
  by_cases he : r.enable.isOne
  · refine (mkChild_final he w).keeps ?_ ?_ hw
    · intro vi hvi w₁ w₂ hw₁ h
      rcases slot_of_mem_zipIdx hvi with ⟨i, hi, hget⟩
      rw [hi] at h
      exact hstep i vi.1 hget w₁ w₂ hw₁ h
    · intro vi hvi w₁ w₂ hw₁ h
      rcases slot_of_mem_zipIdx hvi with ⟨i, hi, hget⟩
      rw [hi] at h
      exact hstuck i vi.1 hget w₁ w₂ hw₁ h
  · unfold mkChild Prog.when
    rw [if_neg he]
    exact hw

end Keeps

/-! ## The rest of a boot -/

/-- Children and locks. -/
def World.overlays (w : World) : (String → Option Overlay) × (String → Bool) := (w.child, w.lock)

theorem DevAct.overlays {o : Op} {w w' : World} (h : DevAct s r o w w') :
    w'.overlays = w.overlays := by
  have himages := h.images
  simp only [World.images, Prod.mk.injEq] at himages
  unfold World.overlays
  rw [himages.2.1, himages.2.2.1]

theorem zfsmount_overlays :
    Does (fun _ => Same World.overlays) (fun _ => True) (zfsmount s r) := by
  have hzfs (o : Op) : Does (fun _ => Same World.overlays) (fun _ => True) (zfs o) :=
    Does.perform fun _ => rfl
  refine Does.bind (nbdFree_does.weaken fun _ _ _ h => DevAct.overlays (s := s) (r := r) (.stop h))
    fun _ _ => Does.bind (hzfs _) fun _ _ => Does.bind (hzfs _) fun _ _ => Does.forM fun v _ => ?_
  exact Does.when fun _ => Does.bind (Does.lift fun _ _ => trivial) fun path _ => hzfs _

section Boots

variable {I : World → Prop} (hI : ∀ w w', w'.overlays = w.overlays → I w → I w')

include hI

theorem Ends.of_overlays {α : Type} {P : α → Prop} {x : Sys α}
    (h : Does (fun _ => Same World.overlays) P x) {w : World} (hw : I w) :
    Ends I (fun _ => I) x w :=
  Ends.of_does h (fun w' hsame => hI w w' hsame hw) fun _ w' _ hsame => hI w w' hsame hw

/-- A property of children and locks that `mkChild` keeps is kept by the pipeline. -/
theorem pipeline_keeps (hmk : ∀ w, I w → I (exec (mkChild s r) w).final) {w : World} (hw : I w) :
    I (exec (pipeline s r) w).final := by
  have hdev {α : Type} {P : α → Prop} {x : Sys α} (h : Does (DevAct s r) P x) {w : World}
      (hw : I w) : Ends I (fun _ => I) x w :=
    Ends.of_overlays hI (h.weaken fun _ _ _ => DevAct.overlays) hw
  refine Ends.final ?_
  refine Ends.bind (hdev (tgtstop_does.weaken fun _ _ _ h => .stop (.kill h)) hw) fun _ w₁ h₁ =>
    Ends.bind (hdev (nbdFree_does.weaken fun _ _ _ => .stop) h₁) fun _ w₂ h₂ =>
      Ends.bind (Ends.of_overlays hI zfsmount_overlays h₂) fun _ w₃ h₃ =>
        Ends.bind (Ends.of_final (hmk w₃ h₃)) fun _ w₄ h₄ =>
          Ends.bind (hdev (nbdConnect_does.weaken fun _ _ _ => .add) h₄) fun devs w₅ h₅ =>
            hdev ((lunAdd_does devs).weaken fun _ _ _ => .add) h₅

/-- What a completed `mkChild` brings about holds after a completed pipeline. -/
theorem pipeline_establishes (hmk : ∀ w w', exec (mkChild s r) w = .ok () w' → I w')
    {w w' : World} {u : Unit} (h : exec (pipeline s r) w = .ok u w') : I w' := by
  obtain ⟨_, w₁, -, h⟩ := exec_bind_ok_iff.1 h
  obtain ⟨_, w₂, -, h⟩ := exec_bind_ok_iff.1 h
  obtain ⟨_, w₃, -, h⟩ := exec_bind_ok_iff.1 h
  obtain ⟨_, w₄, hchild, h⟩ := exec_bind_ok_iff.1 h
  have hrest : Does (AddAct s r) (fun _ => True) (do let devs ← nbdConnect s r; lunAdd s r devs) :=
    Does.bind nbdConnect_does fun devs _ => lunAdd_does devs
  have hsame : w'.overlays = w₄.overlays :=
    (hrest.weaken (S := fun _ => Same World.overlays)
      fun _ _ _ h => DevAct.overlays (.add h)).of_ok h
  exact hI w₄ w' hsame (hmk w₃ w₄ hchild)

/-- A property that `mkChild` keeps is kept by a boot request. -/
theorem boot_keeps {ip : String} {w : World}
    (hmk : ∀ k s r, Booted w ip k s r → ∀ w', I w' → I (exec (mkChild s r) w').final) (hw : I w) :
    I (exec (bootRequest ip) w).final := by
  rcases bootRequest_cases ip w with ⟨hsame, -⟩ | ⟨k, s, r, hb, hrun⟩
  · rwa [hsame]
  · rw [hrun]
    exact pipeline_keeps hI (hmk k s r hb) hw

end Boots

/-! ## Boots of other workstations -/

/-- Children and locks are the same but for those of `vid`. -/
structure Elsewhere (s : Server) (vid : String) (w w' : World) : Prop where
  child : ∀ f, (∀ path, f ≠ childName s path vid) → w'.child f = w.child f
  lock : ∀ l, (∀ i, l ≠ lockName s i vid) → w'.lock l = w.lock l

instance (s : Server) (vid : String) : IsPreorder World (Elsewhere s vid) where
  refl _ := ⟨fun _ _ => rfl, fun _ _ => rfl⟩
  trans _ _ _ h h' := by
    constructor
    · intro f hf
      exact (h'.child f hf).trans (h.child f hf)
    · intro l hl
      exact (h'.lock l hl).trans (h.lock l hl)

theorem ChildAct.elsewhere {o : Op} {w w' : World} (h : ChildAct s r o w w') :
    Elsewhere s r.vid w w' := by
  cases h with
  | idle => exact refl_of _ w
  | kill => exact ⟨fun _ _ => rfl, fun _ _ => rfl⟩
  | del _ f hf =>
    rcases hf with ⟨v, -, -, -, path, -, rfl⟩
    refine ⟨fun g hg => ?_, fun _ _ => rfl⟩
    exact if_neg (hg path)
  | create _ p f hf =>
    rcases hf with ⟨v, -, -, -, path, -, rfl⟩
    refine ⟨fun g hg => ?_, fun l _ => ?_⟩
    · exact create_child_ne w p (hg path)
    · rw [create_lock]
  | setLock _ l b hl =>
    rcases hl with ⟨i, rfl⟩
    refine ⟨fun _ _ => rfl, fun g hg => ?_⟩
    exact if_neg (hg i)

theorem mkChild_elsewhere (w : World) :
    Elsewhere s r.vid w (exec (mkChild s r) w).final :=
  (mkChild_does.weaken (S := fun _ => Elsewhere s r.vid) fun _ _ _ => ChildAct.elsewhere).final w

end NsBoot
