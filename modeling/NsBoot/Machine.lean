import NsBoot.Admin.Edits
import NsBoot.Lib.Run

/-!
# NsBoot.Machine — the controller as a machine of whole requests

The events are boot requests, POST requests, blocks written by workstations, and
blocks copied by running commits. Each event is run to its end, whether it
returns, stops with an error or waits for ever.

What an event can do to the rest of the machine is said here once:

* `bootRequest_cases`: a boot is the pipeline of the record its address names, or
  nothing;
* `Shrinks`: a boot leaves the configuration alone, and every child as it was, or
  deleted, or empty;
* `post_stores`, `post_started`: a POST request touches no child, no lock and no
  image; the processes it starts commit children as they are.
-/

namespace NsBoot

open Lua Prog Run

/-- The child that slot `i` (from 0) of the workstation writes to. -/
def childOf? (c : Value) (k : Key) (i : Nat) : Option String := do
  let s ← Server.of? c
  let r ← Wks.of? ((wksOf c).get k)
  let v ← r.img[i]?
  let path ← v.path.concat?
  if v.enable.isOne ∧ v.isDyn then some (childName s path r.vid) else none

inductive Event where
  | boot (ip : String)
  | post (p : Post)
  | write (k : Key) (i b data : Nat)
  | copy (pid : Nat)

/-- A block that the workstation `k` writes to its slot `i`. -/
def World.writeVia (w : World) (k : Key) (i b data : Nat) : World :=
  match childOf? w.file.val k i with
  | some f => w.writeBlock f b data
  | none => w

def World.step (w : World) : Event → World
  | .boot ip => (exec (bootRequest ip) w).final
  | .post p => (exec (NsBoot.post p) w).final
  | .write k i b data => w.writeVia k i b data
  | .copy pid => w.copyBlock pid

/-! ## Boots -/

/-- The workstation a boot request from the address is answered for. -/
structure Booted (w : World) (ip : String) (k : Key) (s : Server) (r : Wks) : Prop where
  conf : checkconf w.file.val = some true
  addr : ip ≠ "::1"
  id : getIDFromIPv4 w.file.val (.str ip) = some (some k)
  server : Server.of? w.file.val = some s
  wks : Wks.of? ((wksOf w.file.val).get k) = some r

/-- A boot request runs the pipeline, or changes nothing. In the second case it
returns only when it was not asked to do anything. -/
theorem bootRequest_cases (ip : String) (w : World) :
    ((exec (bootRequest ip) w).final = w ∧ ((exec (bootRequest ip) w).isOk →
      checkconf w.file.val = some true → ip = "::1")) ∨
    ∃ k s r, Booted w ip k s r ∧ exec (bootRequest ip) w = exec (pipeline s r) w := by
  have herror {x : Sys Unit} (h : exec x w = .error w) : (exec x w).final = w ∧
      ((exec x w).isOk → checkconf w.file.val = some true → ip = "::1") := by
    rw [h]
    exact ⟨rfl, fun h => absurd h (by simp [Result.isOk])⟩
  -- every test before the pipeline passes, or ends the request at `w`
  unfold bootRequest loadFromFile
  rw [exec_observe_bind]
  cases hconf : checkconf w.file.val with
  | none => exact Or.inl ⟨rfl, fun _ h => by cases h⟩
  | some ok =>
    rw [lift_some_bind]
    unfold Prog.when
    rw [hconf] at herror
    split
    · next hif =>
      cases hid : getIDFromIPv4 w.file.val (.str ip) with
      | none => exact Or.inl (herror rfl)
      | some o =>
        cases o with
        | none => exact Or.inl (herror rfl)
        | some k =>
          cases hs : Server.of? w.file.val with
          | none => exact Or.inl (herror rfl)
          | some s =>
            cases hr : Wks.of? ((wksOf w.file.val).get k) with
            | none =>
              refine Or.inl (herror ?_)
              simp only [lift_some_bind, hr, lift_none_bind, exec_fail]
            | some r =>
              simp only [lift_some_bind, hr]
              cases bootScript s r w.file.val with
              | none => exact Or.inl (herror rfl)
              | some t =>
                refine Or.inr ⟨k, s, r, ⟨?_, hif.2, hid, hs, hr⟩, rfl⟩
                rw [hconf, hif.1]
    · next hif =>
      refine Or.inl ⟨rfl, fun _ hok => ?_⟩
      by_contra hip
      exact hif ⟨Option.some.inj hok, hip⟩

/-! ## What a boot leaves alone -/

/-- The configuration is the same, and every child is as it was, or empty. -/
structure Shrinks (w w' : World) : Prop where
  file : w'.file = w.file
  clock : w.clock ≤ w'.clock
  child : ∀ f o, w'.child f = some o → w.child f = some o ∨ o.blocks = []

theorem Shrinks.refl (w : World) : Shrinks w w := ⟨rfl, le_rfl, fun _ _ h => Or.inl h⟩

theorem Shrinks.trans {w₁ w₂ w₃ : World} (h : Shrinks w₁ w₂) (h' : Shrinks w₂ w₃) :
    Shrinks w₁ w₃ := by
  refine ⟨h'.file.trans h.file, h.clock.trans h'.clock, ?_⟩
  intro f o ho
  rcases h'.child f o ho with hf | hempty
  · exact h.child f o hf
  · exact Or.inr hempty

instance : IsPreorder World Shrinks where
  refl := Shrinks.refl
  trans _ _ _ := Shrinks.trans

theorem Shrinks.of_images {w w' : World} (h : w'.images = w.images) : Shrinks w w' := by
  simp only [World.images, Prod.mk.injEq] at h
  refine ⟨h.1, le_of_eq h.2.2.2.2.symm, ?_⟩
  intro f o ho
  rw [h.2.1] at ho
  exact Or.inl ho

theorem BootAct.shrinks {s : Server} {r : Wks} {o : Op} {w w' : World}
    (h : BootAct s r o w w') : Shrinks w w' := by
  cases h with
  | dev h => exact .of_images h.images
  | zfs h => exact ⟨rfl, le_rfl, fun _ _ h => Or.inl h⟩
  | child h =>
    cases h with
    | idle => exact .refl w
    | kill => exact ⟨rfl, le_rfl, fun _ _ h => Or.inl h⟩
    | setLock => exact ⟨rfl, le_rfl, fun _ _ h => Or.inl h⟩
    | del =>
      refine ⟨rfl, le_rfl, ?_⟩
      intro g o ho
      simp only [World.del] at ho
      split at ho
      · cases ho
      · exact Or.inl ho
    | create _ p f =>
      rcases create_cases w p f with hsame | hnew
      · rw [hsame]
        exact .refl w
      rw [hnew]
      refine ⟨rfl, Nat.le_succ _, ?_⟩
      intro g o ho
      dsimp only at ho
      split at ho
      · -- the new child
        cases ho
        exact Or.inr rfl
      · exact Or.inl ho

theorem boot_shrinks (ip : String) (w : World) : Shrinks w (exec (bootRequest ip) w).final := by
  rcases bootRequest_cases ip w with ⟨hsame, -⟩ | ⟨k, s, r, -, hrun⟩
  · rw [hsame]
    exact .refl w
  · rw [hrun]
    exact (pipeline_does.weaken (S := fun _ => Shrinks) fun _ _ _ => BootAct.shrinks).final w

/-! ## What a POST request leaves alone -/

/-- The stores a POST request does not touch. -/
def World.stores (w : World) :
    (String → Option Overlay) × (String → Bool) × (String → Option Disk) × Nat :=
  (w.child, w.lock, w.disk, w.clock)

theorem PostAct.stores {o : Op} {w w' : World} (h : PostAct o w w') : w'.stores = w.stores := by
  cases h with
  | load => rfl
  | save => rfl
  | free h =>
    cases h with
    | stop h => exact congrArg Prod.snd h.images
    | commit =>
      unfold World.startCommit
      split <;> rfl
    | dhcpd => rfl
    | ask h => rw [h.eq]

theorem post_stores (p : Post) (w : World) : (exec (post p) w).final.stores = w.stores :=
  ((post_does p).weaken (S := fun _ => Same World.stores) fun _ _ _ => PostAct.stores).final w

/-- The processes a request starts commit children as they are. -/
structure Started (w w' : World) : Prop where
  child : w'.child = w.child
  procs : ∀ q ∈ w'.procs, q ∈ w.procs ∨
    ∃ f o, w.child f = some o ∧ q.job = .commit o.backing o.blocks 0

theorem Started.of_procs {w w' : World} (hchild : w'.child = w.child)
    (hprocs : ∀ q ∈ w'.procs, q ∈ w.procs) : Started w w' :=
  ⟨hchild, fun q hq => Or.inl (hprocs q hq)⟩

instance : IsPreorder World Started where
  refl _ := .of_procs rfl fun _ => id
  trans w₁ w₂ w₃ h h' := by
    refine ⟨h'.child.trans h.child, ?_⟩
    intro q hq
    rcases h'.procs q hq with hold | ⟨f, o, ho, hjob⟩
    · exact h.procs q hold
    · rw [h.child] at ho
      exact Or.inr ⟨f, o, ho, hjob⟩

theorem PostAct.started {o : Op} {w w' : World} (h : PostAct o w w') : Started w w' := by
  cases h with
  | load => exact .of_procs rfl fun _ => id
  | save => exact .of_procs rfl fun _ => id
  | free h =>
    cases h with
    | stop h =>
      cases h with
      | kill h => cases h <;> exact .of_procs rfl fun _ => id
      | nbdDel => exact .of_procs rfl fun _ hq => List.mem_of_mem_filter hq
    | dhcpd => exact .of_procs rfl fun _ => id
    | ask h =>
      rw [h.eq]
      exact .of_procs rfl fun _ => id
    | commit _ f =>
      unfold World.startCommit
      cases hf : w.child f with
      | none => exact .of_procs rfl fun _ => id
      | some o =>
        refine ⟨rfl, fun q hq => ?_⟩
        rcases List.mem_append.1 hq with hold | hnew
        · exact Or.inl hold
        · rw [List.mem_singleton] at hnew
          exact Or.inr ⟨f, o, hf, by rw [hnew]⟩

theorem post_started (p : Post) (w : World) : Started w (exec (post p) w).final :=
  ((post_does p).weaken (S := fun _ => Started) fun _ _ _ => PostAct.started).final w

/-! ## Writes and copies -/

theorem copyBlock_stores (w : World) (pid : Nat) :
    (w.copyBlock pid).file = w.file ∧ (w.copyBlock pid).child = w.child ∧
    (w.copyBlock pid).lock = w.lock ∧ (w.copyBlock pid).clock = w.clock := by
  unfold World.copyBlock
  split
  · split <;> exact ⟨rfl, rfl, rfl, rfl⟩
  · exact ⟨rfl, rfl, rfl, rfl⟩

/-- A write does nothing, or adds a block with the time of the write. -/
theorem writeBlock_cases (w : World) (f : String) (b data : Nat) :
    w.writeBlock f b data = w ∨ ∃ o, w.child f = some o ∧ w.writeBlock f b data =
      { w with
        child := fun g =>
          if g = f then some { o with blocks := Blocks.write o.blocks b ⟨data, w.clock⟩ }
          else w.child g
        clock := w.clock + 1 } := by
  unfold World.writeBlock
  cases hf : w.child f with
  | none => exact Or.inl rfl
  | some o =>
    dsimp only
    split
    · exact Or.inr ⟨o, rfl, rfl⟩
    · exact Or.inl rfl

/-- A write of a workstation does nothing, or adds the block to the child of its slot. -/
theorem writeVia_cases (w : World) (k : Key) (i b data : Nat) :
    w.writeVia k i b data = w ∨ ∃ f o, childOf? w.file.val k i = some f ∧ w.child f = some o ∧
      w.writeVia k i b data =
        { w with
          child := fun g =>
            if g = f then some { o with blocks := Blocks.write o.blocks b ⟨data, w.clock⟩ }
            else w.child g
          clock := w.clock + 1 } := by
  unfold World.writeVia
  cases hc : childOf? w.file.val k i with
  | none => exact Or.inl rfl
  | some f =>
    rcases writeBlock_cases w f b data with hsame | ⟨o, ho, hnew⟩
    · exact Or.inl hsame
    · exact Or.inr ⟨f, o, rfl, ho, hnew⟩

theorem writeVia_frame (w : World) (k : Key) (i b data : Nat) :
    (w.writeVia k i b data).file = w.file ∧ w.clock ≤ (w.writeVia k i b data).clock := by
  rcases writeVia_cases w k i b data with hsame | ⟨f, o, -, -, hnew⟩
  · rw [hsame]
    exact ⟨rfl, le_rfl⟩
  · rw [hnew]
    exact ⟨rfl, Nat.le_succ _⟩

end NsBoot
