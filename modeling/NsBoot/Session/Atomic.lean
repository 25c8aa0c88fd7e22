import NsBoot.Lib.Pool
import NsBoot.Machine
import NsBoot.Shipped

/-!
# NsBoot.Session.Atomic — commits among the steps of other requests

`disableCommit` starts `qemu-img commit` and does not wait for it. The commit copies the
blocks of a child one after another, while boots take snapshots of the base image and
kill what holds a child.

Here requests run in any number of workers at once, step by step, among the blocks that
commits copy and workstations write (`Serving.step`). Beside the images the state has what
they would be if a commit were one step (`whole`).

* `AllOrNothing`: every snapshot, and every image that no commit is in the middle of, is as
  it would be.
* `Op.Safe`: no snapshot shows an image that a commit is in the middle of, no such commit
  is killed, and no commit is started over a base that another one is writing to.
* `served_allOrNothing`: runs of safe steps are all-or-nothing.
* `commit_seen_in_part`: other runs are not.
-/

namespace NsBoot

open Lua Prog Run

/-! ## Commits in progress -/

/-- The base of a commit with blocks left to copy. -/
def Proc.unfinished (p : Proc) : Option String :=
  match p.job with
  | .commit base top k => if k < top.length then some base else none
  | _ => none

/-- The base of a commit that has copied some of its blocks and not all. -/
def Proc.midway (p : Proc) : Option String :=
  match p.job with
  | .commit base top k => if 0 < k ∧ k < top.length then some base else none
  | _ => none

theorem Proc.unfinished_eq_some {p : Proc} {n : String} :
    p.unfinished = some n ↔ ∃ top k, p.job = .commit n top k ∧ k < top.length := by
  unfold Proc.unfinished
  cases p.job with
  | nbd | other => simp
  | commit base top k =>
    simp only [Option.ite_none_right_eq_some, Option.some.injEq, Job.commit.injEq]
    constructor
    · rintro ⟨hk, rfl⟩
      exact ⟨top, k, ⟨rfl, rfl, rfl⟩, hk⟩
    · rintro ⟨_, _, ⟨rfl, rfl, rfl⟩, hk⟩
      exact ⟨hk, rfl⟩

theorem Proc.midway_eq_some {p : Proc} {n : String} :
    p.midway = some n ↔ ∃ top k, p.job = .commit n top k ∧ 0 < k ∧ k < top.length := by
  unfold Proc.midway
  cases p.job with
  | nbd | other => simp
  | commit base top k =>
    simp only [Option.ite_none_right_eq_some, Option.some.injEq, Job.commit.injEq]
    constructor
    · rintro ⟨hk, rfl⟩
      exact ⟨top, k, ⟨rfl, rfl, rfl⟩, hk⟩
    · rintro ⟨_, _, ⟨rfl, rfl, rfl⟩, hk⟩
      exact ⟨hk, rfl⟩

namespace Disk

/-- The image after the first `k` blocks of a commit. -/
def commitN (k : Nat) (top : Blocks.Content Cell) (d : Disk) : Disk :=
  if d.frozen then d else { d with blocks := Blocks.commitN k d.blocks top }

/-- The image after a whole commit. -/
def commit (top : Blocks.Content Cell) (d : Disk) : Disk :=
  if d.frozen then d else { d with blocks := Blocks.commit d.blocks top }

variable {top : Blocks.Content Cell} {d : Disk} {k : Nat}

theorem commitN_frozen (h : d.frozen = true) : d.commitN k top = d := if_pos h

theorem frozen_commitN : (d.commitN k top).frozen = d.frozen := by
  unfold commitN
  split
  · rfl
  · rfl

theorem commitN_zero : d.commitN 0 top = d := by
  unfold commitN
  split
  · rfl
  · rw [Blocks.commitN_zero]

theorem write_commitN {e : Nat × Cell} (h : top[k]? = some e) :
    (d.commitN k top).write e.1 e.2 = d.commitN (k + 1) top := by
  unfold write
  rw [frozen_commitN]
  unfold commitN
  split
  · rfl
  · rw [Blocks.commitN_succ h]

theorem commitN_length : d.commitN top.length top = d.commit top := by
  unfold commitN commit
  rw [Blocks.commitN_of_length_le le_rfl]

end Disk

/-! ## Requests in progress -/

inductive Served where
  | boot (ip : String)
  | post (p : Post)

/-- What the worker runs; the answer is not looked at. -/
def Served.prog : Served → Sys Unit
  | .boot ip => bootRequest ip
  | .post p => do
    let _ ← NsBoot.post p
    return ()

/-- The workers and the machine, and the images as they would be if a commit were one
step. -/
structure Serving (ι : Type) where
  pool : Pool ι Op World Unit
  whole : String → Option Disk

inductive Tick (ι : Type) where
  | request (i : ι)
  | copy (pid : Nat)
  | write (f : String) (b data : Nat)

/-- With its last block the whole commit shows. -/
def World.commitWhole (w : World) (pid : Nat) (d : String → Option Disk) : String → Option Disk :=
  match w.procs.find? (fun p => p.pid = pid) with
  | some ⟨_, _, .commit base top k⟩ =>
    if k + 1 = top.length then fun g => if g = base then (d g).map (Disk.commit top) else d g else d
  | _ => d

section Step

variable {ι : Type} [DecidableEq ι]

def Serving.step (c : Serving ι) : Tick ι → Serving ι
  | .request i =>
    ⟨c.pool.step i,
      match (c.pool.threads i).next with
      | some o => o.disks c.whole
      | none => c.whole⟩
  | .copy pid =>
    ⟨{ c.pool with state := c.pool.state.copyBlock pid }, c.pool.state.commitWhole pid c.whole⟩
  | .write f b data => ⟨{ c.pool with state := c.pool.state.writeBlock f b data }, c.whole⟩

end Step

/-- The requests at their start. -/
def Serving.start {ι : Type} (reqs : ι → Served) (w : World) : Serving ι :=
  ⟨⟨fun i => (reqs i).prog, w⟩, w.disk⟩

/-- Snapshots, and images that no commit is in the middle of, are as if commits were one
step. -/
structure AllOrNothing (w : World) (whole : String → Option Disk) : Prop where
  snapshots : ∀ n d, w.disk n = some d → d.frozen = true → whole n = some d
  bases : ∀ n, (∀ p ∈ w.procs, p.midway ≠ some n) → w.disk n = whole n

/-- The command does not meet a commit that it would show, or leave, in the middle. -/
def Op.Safe (w : World) : Op → Prop
  | .snapDir dir _ => ∀ p ∈ w.procs, ∀ n ∈ p.midway, under dir n = none
  | .snapDev dev _ => ∀ p ∈ w.procs, p.midway ≠ some dev
  | .kill f => ∀ p ∈ w.procs, f ∈ p.files → p.midway = none
  | .commit f => ∀ o ∈ w.child f, ∀ p ∈ w.procs, p.unfinished ≠ some o.backing
  | _ => True

instance (w : World) : (o : Op) → Decidable (o.Safe w)
  | .snapDir dir _ =>
    inferInstanceAs (Decidable (∀ p ∈ w.procs, ∀ n ∈ p.midway, under dir n = none))
  | .snapDev dev _ => inferInstanceAs (Decidable (∀ p ∈ w.procs, p.midway ≠ some dev))
  | .kill f => inferInstanceAs (Decidable (∀ p ∈ w.procs, f ∈ p.files → p.midway = none))
  | .commit f =>
    inferInstanceAs (Decidable (∀ o ∈ w.child f, ∀ p ∈ w.procs, p.unfinished ≠ some o.backing))
  | .load | .save | .unmount _ | .wake .. | .ask _ | .tau => isTrue trivial

/-- The command that comes next in the worker is safe. -/
def Serving.Safe {ι : Type} (c : Serving ι) : Tick ι → Prop
  | .request i => ∀ o ∈ (c.pool.threads i).next, o.Safe c.pool.state
  | .copy _ | .write .. => True

instance {ι : Type} (c : Serving ι) : (e : Tick ι) → Decidable (c.Safe e)
  | .request i => inferInstanceAs (Decidable (∀ o ∈ (c.pool.threads i).next, o.Safe c.pool.state))
  | .copy _ | .write .. => isTrue trivial

/-! ## What a step does to images and processes -/

/-- The same commits run. -/
structure SameCommits (ps qs : List Proc) : Prop where
  pids : (ps.map Proc.pid).Nodup → (qs.map Proc.pid).Nodup
  mem : ∀ p base top k, p.job = .commit base top k → (p ∈ qs ↔ p ∈ ps)

theorem SameCommits.refl (ps : List Proc) : SameCommits ps ps := ⟨id, fun _ _ _ _ _ => Iff.rfl⟩

/-- The step of a request, as far as images and commits go. -/
structure ImageAct (o : Op) (w w' : World) : Prop where
  disk : w'.disk = o.disks w.disk
  procs : match o with
    | .kill f => w'.procs = (w.killHolders f).procs
    | .commit f => w'.procs = (w.startCommit f).procs
    | _ => SameCommits w.procs w'.procs

theorem le_foldl_max (ps : List Proc) (m : Nat) :
    m ≤ ps.foldl (fun n p => max n p.pid) m ∧
      ∀ p ∈ ps, p.pid ≤ ps.foldl (fun n p => max n p.pid) m := by
  induction ps generalizing m with
  | nil => exact ⟨le_rfl, by simp⟩
  | cons q ps ih =>
    rcases ih (max m q.pid) with ⟨hm, hps⟩
    rw [List.foldl_cons]
    refine ⟨le_trans (le_max_left _ _) hm, ?_⟩
    intro p hp
    rcases List.mem_cons.1 hp with rfl | hp
    · exact le_trans (le_max_right _ _) hm
    · exact hps p hp

/-- A new process has a pid of its own. -/
theorem World.pids_spawn {w : World} (h : (w.procs.map Proc.pid).Nodup) (files : List String)
    (job : Job) : ((w.spawn files job).procs.map Proc.pid).Nodup := by
  have hnew : w.nextPid ∉ w.procs.map Proc.pid := by
    intro hmem
    rcases List.mem_map.1 hmem with ⟨p, hp, hpid⟩
    have hle := (le_foldl_max w.procs 0).2 p hp
    unfold World.nextPid at hpid
    omega
  simp only [World.spawn, List.map_append, List.map_cons, List.map_nil]
  rw [List.nodup_append]
  refine ⟨h, List.nodup_singleton _, ?_⟩
  intro a ha b hb
  rw [List.mem_singleton] at hb
  subst hb
  exact fun heq => hnew (heq ▸ ha)

section Acts

variable {o : Op} {w w' : World}

theorem StopAct.imageAct {t : Option String} (h : StopAct t o w w') : ImageAct o w w' := by
  cases h with
  | kill h => cases h <;> exact ⟨rfl, .refl _⟩
  | nbdDel _ dev =>
    refine ⟨rfl, ?_, ?_⟩
    · intro h
      exact h.sublist ((List.filter_sublist).map _)
    · intro p base top k hjob
      simp [World.nbdDel, hjob]

theorem AddAct.imageAct {s : Server} {r : Wks} (h : AddAct s r o w w') : ImageAct o w w' := by
  cases h with
  | idle => exact ⟨rfl, .refl _⟩
  | tgtNew =>
    unfold World.tgtNew
    split
    · exact ⟨rfl, .refl _⟩
    · exact ⟨rfl, .refl _⟩
  | lunNew => exact ⟨rfl, .refl _⟩
  | nbdAdd _ i f =>
    unfold World.nbdAdd
    split
    · refine ⟨rfl, fun h => w.pids_spawn h _ _, ?_⟩
      intro p base top k hjob
      simp only [World.spawn, List.mem_append, List.mem_singleton, or_iff_left_iff_imp]
      rintro rfl
      cases hjob
    · exact ⟨rfl, .refl _⟩

theorem BootAct.imageAct {s : Server} {r : Wks} (h : BootAct s r o w w') : ImageAct o w w' := by
  cases h with
  | dev h =>
    cases h with
    | stop h => exact h.imageAct
    | add h => exact h.imageAct
  | zfs h => cases h <;> exact ⟨rfl, .refl _⟩
  | child h =>
    cases h with
    | idle => exact ⟨rfl, .refl _⟩
    | kill => exact ⟨rfl, rfl⟩
    | del => exact ⟨rfl, .refl _⟩
    | create _ p f => rcases create_cases w p f with h | h <;> rw [h] <;> exact ⟨rfl, .refl _⟩
    | setLock => exact ⟨rfl, .refl _⟩

theorem PostAct.imageAct (h : PostAct o w w') : ImageAct o w w' := by
  cases h with
  | load => exact ⟨rfl, .refl _⟩
  | save => exact ⟨rfl, .refl _⟩
  | free h =>
    cases h with
    | stop h => exact h.imageAct
    | commit _ f =>
      refine ⟨?_, rfl⟩
      unfold World.startCommit
      split <;> rfl
    | dhcpd => exact ⟨rfl, .refl _⟩
    | ask h => cases h <;> exact ⟨rfl, .refl _⟩

end Acts

theorem bootRequest_imageAct (ip : String) : Does ImageAct (fun _ => True) (bootRequest ip) := by
  refine Does.bind (Does.observe (P := fun _ => True) (fun w => ⟨rfl, .refl _⟩) fun _ => trivial)
    fun c _ =>
    Does.bind (Does.lift fun _ _ => trivial) fun ok _ => Does.when fun _ => ?_
  exact Does.bind (Does.lift fun _ _ => trivial) fun _ _ =>
    Does.bind (Does.lift fun _ _ => trivial) fun id _ =>
      Does.bind (Does.lift fun _ _ => trivial) fun s _ =>
        Does.bind (Does.lift fun _ _ => trivial) fun r _ =>
          Does.bind (Does.lift fun _ _ => trivial) fun _ _ =>
            pipeline_does.weaken fun _ _ _ => BootAct.imageAct

theorem Served.imageAct (q : Served) : Does ImageAct (fun _ => True) q.prog := by
  cases q with
  | boot ip => exact bootRequest_imageAct ip
  | post p =>
    exact Does.bind ((post_does p).weaken fun _ _ _ => PostAct.imageAct) fun _ _ => Does.done _

/-! ## The invariant -/

/-- The image `d` is `g`, with the first blocks of the commit that is writing to it. -/
structure Behind (ps : List Proc) (n : String) (d g : Option Disk) : Prop where
  settled : (∀ p ∈ ps, p.unfinished ≠ some n) → d = g
  partway : ∀ p ∈ ps, ∀ top k, p.job = .commit n top k → k < top.length →
    d = g.map (Disk.commitN k top)

section Behind

variable {ps : List Proc} {n : String} {d g : Option Disk}

theorem Behind.eq (h : Behind ps n d g) (hmid : ∀ p ∈ ps, p.midway ≠ some n) : d = g := by
  by_cases hun : ∀ p ∈ ps, p.unfinished ≠ some n
  · exact h.settled hun
  · push Not at hun
    rcases hun with ⟨p, hp, hun⟩
    rcases Proc.unfinished_eq_some.1 hun with ⟨top, k, hjob, hk⟩
    -- a commit that is not midway has copied nothing
    have hzero : k = 0 := by
      by_contra hne
      exact hmid p hp (Proc.midway_eq_some.2 ⟨top, k, hjob, Nat.pos_of_ne_zero hne, hk⟩)
    subst hzero
    rw [h.partway p hp top 0 hjob hk]
    cases g with
    | none => rfl
    | some x => exact congrArg some Disk.commitN_zero

/-- A commit does nothing to a snapshot. -/
theorem Behind.of_frozen (h : ∀ x, g = some x → x.frozen = true) : Behind ps n g g := by
  refine ⟨fun _ => rfl, ?_⟩
  intro p _ top k _ _
  cases g with
  | none => rfl
  | some x => exact congrArg some (Disk.commitN_frozen (h x rfl)).symm

theorem Behind.frozen (h : Behind ps n d g) {x : Disk} (hd : d = some x) (hx : x.frozen = true) :
    g = some x := by
  by_cases hun : ∀ p ∈ ps, p.unfinished ≠ some n
  · rw [← h.settled hun, hd]
  · push Not at hun
    rcases hun with ⟨p, hp, hun⟩
    rcases Proc.unfinished_eq_some.1 hun with ⟨top, k, hjob, hk⟩
    have hpart := h.partway p hp top k hjob hk
    rw [hd] at hpart
    cases g with
    | none => cases hpart
    | some y =>
      have hxy : x = y.commitN k top := Option.some.inj hpart
      have hy : y.frozen = true := by rwa [hxy, Disk.frozen_commitN] at hx
      rw [hxy, Disk.commitN_frozen hy]

/-- Only the commits matter. -/
theorem Behind.of_sameCommits {qs : List Proc} (hps : SameCommits ps qs) (h : Behind ps n d g) :
    Behind qs n d g := by
  constructor
  · intro hun
    refine h.settled fun p hp hn => ?_
    rcases Proc.unfinished_eq_some.1 hn with ⟨top, k, hjob, -⟩
    exact hun p ((hps.mem p n top k hjob).2 hp) hn
  · intro p hp top k hjob hk
    exact h.partway p ((hps.mem p n top k hjob).1 hp) top k hjob hk

end Behind

/-- Every image is behind by the blocks of one commit at most. -/
structure Copying (w : World) (whole : String → Option Disk) : Prop where
  pids : (w.procs.map Proc.pid).Nodup
  single : ∀ n, ∀ p ∈ w.procs, ∀ q ∈ w.procs, p.unfinished = some n → q.unfinished = some n → p = q
  images : ∀ n, Behind w.procs n (w.disk n) (whole n)

theorem Copying.allOrNothing {w : World} {whole : String → Option Disk} (h : Copying w whole) :
    AllOrNothing w whole :=
  ⟨fun n _ hd hx => (h.images n).frozen hd hx, fun n hmid => (h.images n).eq hmid⟩

section Keeps

variable {w w' : World} {whole : String → Option Disk} (h : Copying w whole)

include h

theorem Copying.of_sameCommits {whole' : String → Option Disk}
    (hps : SameCommits w.procs w'.procs)
    (himg : ∀ n, Behind w.procs n (w'.disk n) (whole' n)) : Copying w' whole' := by
  refine ⟨hps.pids h.pids, ?_, fun n => (himg n).of_sameCommits hps⟩
  intro n p hp q hq hpn hqn
  rcases Proc.unfinished_eq_some.1 hpn with ⟨top, k, hjob, -⟩
  rcases Proc.unfinished_eq_some.1 hqn with ⟨top', k', hjob', -⟩
  exact h.single n p ((hps.mem p n top k hjob).1 hp) q ((hps.mem q n top' k' hjob').1 hq) hpn hqn

/-- A snapshot shows images that no commit is in the middle of. -/
theorem Copying.disks {o : Op} (hsafe : o.Safe w) (n : String) :
    Behind w.procs n (o.disks w.disk n) (o.disks whole n) := by
  have hsnap {m : String} (hm : ∀ p ∈ w.procs, p.midway ≠ some m) :
      Behind w.procs n ((w.disk m).bind Disk.snap?) ((whole m).bind Disk.snap?) := by
    rw [(h.images m).eq hm]
    refine Behind.of_frozen fun x hx => ?_
    rcases Option.bind_eq_some_iff.1 hx with ⟨d, -, hd⟩
    unfold Disk.snap? at hd
    split at hd
    · cases hd
    · cases hd
      rfl
  cases o with
  | unmount point =>
    simp only [Op.disks]
    split
    · refine Behind.of_frozen fun x hx => ?_
      cases hx
    · exact h.images n
  | snapDir dir point =>
    simp only [Op.disks]
    split
    · next p _ =>
      refine hsnap fun q hq hmid => ?_
      have hunder : under dir (dir ++ "/" ++ p) = some p := under_eq_some.2 rfl
      rw [hsafe q hq _ hmid] at hunder
      cases hunder
    · exact h.images n
  | snapDev dev snap =>
    simp only [Op.disks]
    split
    · exact hsnap hsafe
    · exact h.images n
  | load | save | kill | commit | wake | ask | tau => exact h.images n

/-- Processes that are not in the middle of a commit may end. -/
theorem Copying.filter {live : Proc → Bool} (hdisk : w'.disk = w.disk)
    (hprocs : w'.procs = w.procs.filter live)
    (hlive : ∀ p ∈ w.procs, live p = false → p.midway = none) : Copying w' whole := by
  have hmem (p : Proc) : p ∈ w'.procs ↔ p ∈ w.procs ∧ live p = true := by
    rw [hprocs, List.mem_filter]
  refine ⟨?_, ?_, ?_⟩
  · rw [hprocs]
    exact h.pids.sublist ((List.filter_sublist).map _)
  · intro n p hp q hq hpn hqn
    exact h.single n p ((hmem p).1 hp).1 q ((hmem q).1 hq).1 hpn hqn
  · intro n
    rw [hdisk]
    constructor
    · intro hun
      refine (h.images n).eq fun p hp hmid => ?_
      rcases Proc.midway_eq_some.1 hmid with ⟨top, k, hjob, -, hk⟩
      cases hp' : live p with
      | false =>
        rw [hlive p hp hp'] at hmid
        cases hmid
      | true =>
        exact hun p ((hmem p).2 ⟨hp, hp'⟩) (Proc.unfinished_eq_some.2 ⟨top, k, hjob, hk⟩)
    · intro p hp top k hjob hk
      exact (h.images n).partway p ((hmem p).1 hp).1 top k hjob hk

/-- A commit may start over a base that no other one is writing to. -/
theorem Copying.commit {f : String} (hsafe : (Op.commit f).Safe w) (hdisk : w'.disk = w.disk)
    (hprocs : w'.procs = (w.startCommit f).procs) : Copying w' whole := by
  unfold World.startCommit at hprocs
  split at hprocs
  · next o ho =>
    have hfree := hsafe o ho
    have hmem (p : Proc) : p ∈ w'.procs ↔
        p ∈ w.procs ∨ p = ⟨w.nextPid, [f, o.backing], .commit o.backing o.blocks 0⟩ := by
      rw [hprocs]
      simp [World.spawn]
    have hnew {n : String} {p : Proc}
        (hp : p = ⟨w.nextPid, [f, o.backing], .commit o.backing o.blocks 0⟩)
        (hn : p.unfinished = some n) : n = o.backing := by
      rcases Proc.unfinished_eq_some.1 hn with ⟨top, k, hjob, -⟩
      rw [hp] at hjob
      exact (Job.commit.inj hjob).1.symm
    refine ⟨?_, ?_, ?_⟩
    · rw [hprocs]
      exact w.pids_spawn h.pids _ _
    · intro n p hp q hq hpn hqn
      rcases (hmem p).1 hp with hp | hp
      · rcases (hmem q).1 hq with hq | hq
        · exact h.single n p hp q hq hpn hqn
        · rw [hnew hq hqn] at hpn
          exact absurd hpn (hfree p hp)
      · rcases (hmem q).1 hq with hq | hq
        · rw [hnew hp hpn] at hqn
          exact absurd hqn (hfree q hq)
        · rw [hp, hq]
    · intro n
      rw [hdisk]
      constructor
      · intro hun
        exact (h.images n).settled fun p hp => hun p ((hmem p).2 (.inl hp))
      · intro p hp top k hjob hk
        rcases (hmem p).1 hp with hold | hnew'
        · exact (h.images n).partway p hold top k hjob hk
        · -- the new commit has copied nothing
          rw [hnew'] at hjob
          cases hjob
          rw [(h.images _).settled hfree]
          cases whole o.backing with
          | none => rfl
          | some x => exact congrArg some Disk.commitN_zero.symm
  · exact h.of_sameCommits (hprocs ▸ .refl _) fun n => hdisk ▸ h.images n

theorem Copying.request {o : Op} (hact : ImageAct o w w') (hsafe : o.Safe w) :
    Copying w' (o.disks whole) := by
  have hother (hps : SameCommits w.procs w'.procs) : Copying w' (o.disks whole) := by
    refine h.of_sameCommits hps fun n => ?_
    rw [hact.disk]
    exact h.disks hsafe n
  cases o with
  | kill f =>
    refine h.filter hact.disk hact.procs fun p hp hlive => hsafe p hp ?_
    simpa using hlive
  | commit f => exact h.commit hsafe hact.disk hact.procs
  | load | save | unmount | snapDir | snapDev | wake | ask | tau => exact hother hact.procs

end Keeps

/-! ## Copying a block -/

section Advance

variable {ps : List Proc} {pid : Nat} {files : List String} {base : String}
  {top : Blocks.Content Cell} {k : Nat}

/-- The processes after the commit with the pid has copied one more block. -/
def advance (pid : Nat) (files : List String) (base : String) (top : Blocks.Content Cell) (k : Nat)
    (ps : List Proc) : List Proc :=
  ps.map fun p => if p.pid = pid then ⟨pid, files, .commit base top (k + 1)⟩ else p

theorem pids_advance : (advance pid files base top k ps).map Proc.pid = ps.map Proc.pid := by
  unfold advance
  rw [List.map_map]
  refine List.map_congr_left fun p _ => ?_
  simp only [Function.comp_apply]
  split
  · next hp => exact hp.symm
  · rfl

theorem mem_advance (hmem : ⟨pid, files, .commit base top k⟩ ∈ ps) {q : Proc} :
    q ∈ advance pid files base top k ps ↔
      q = ⟨pid, files, .commit base top (k + 1)⟩ ∨ q ∈ ps ∧ q.pid ≠ pid := by
  unfold advance
  rw [List.mem_map]
  constructor
  · rintro ⟨p, hp, rfl⟩
    split
    · exact .inl rfl
    · next hne => exact .inr ⟨hp, hne⟩
  · rintro (rfl | ⟨hq, hne⟩)
    · exact ⟨_, hmem, if_pos rfl⟩
    · exact ⟨q, hq, if_neg hne⟩

variable {w : World} {whole : String → Option Disk} (h : Copying w whole)
  (hmem : ⟨pid, files, .commit base top k⟩ ∈ w.procs)

include h hmem

/-- An image that is not the base has the commits it had. -/
theorem Copying.advance_other {n : String} (hn : n ≠ base) :
    Behind (advance pid files base top k w.procs) n (w.disk n) (whole n) := by
  constructor
  · intro hnone
    refine (h.images n).settled fun q hq hqn => ?_
    by_cases hqpid : q.pid = pid
    · have hq' : q = ⟨pid, files, .commit base top k⟩ :=
        List.inj_on_of_nodup_map h.pids hq hmem hqpid
      rcases Proc.unfinished_eq_some.1 hqn with ⟨top', k', hjob, -⟩
      rw [hq'] at hjob
      exact hn (Job.commit.inj hjob).1.symm
    · exact hnone q ((mem_advance hmem).2 (.inr ⟨hq, hqpid⟩)) hqn
  · intro q hq top' k' hjob hk'
    rcases (mem_advance hmem).1 hq with rfl | ⟨hq, -⟩
    · exact absurd (Job.commit.inj hjob).1.symm hn
    · exact (h.images n).partway q hq top' k' hjob hk'

variable (hk : k < top.length)

include hk

/-- No other process writes to the base. -/
theorem Copying.unfinished_ne {q : Proc} (hq : q ∈ w.procs) (hne : q.pid ≠ pid) :
    q.unfinished ≠ some base := by
  intro hbase
  have hun : Proc.unfinished ⟨pid, files, .commit base top k⟩ = some base :=
    Proc.unfinished_eq_some.2 ⟨top, k, rfl, hk⟩
  exact hne (by rw [h.single base q hq _ hmem hbase hun])

theorem Copying.advance_single (n : String) :
    ∀ p ∈ advance pid files base top k w.procs, ∀ q ∈ advance pid files base top k w.procs,
      p.unfinished = some n → q.unfinished = some n → p = q := by
  intro p hp q hq hpn hqn
  have hnew {r : Proc} (hr : r = ⟨pid, files, .commit base top (k + 1)⟩)
      (hn : r.unfinished = some n) : n = base := by
    rcases Proc.unfinished_eq_some.1 hn with ⟨top', k', hjob, -⟩
    rw [hr] at hjob
    exact (Job.commit.inj hjob).1.symm
  rcases (mem_advance hmem).1 hp with hp | ⟨hp, hpne⟩
  · rcases (mem_advance hmem).1 hq with hq | ⟨hq, hqne⟩
    · rw [hp, hq]
    · rw [hnew hp hpn] at hqn
      exact absurd hqn (h.unfinished_ne hmem hk hq hqne)
  · rcases (mem_advance hmem).1 hq with hq | ⟨hq, hqne⟩
    · rw [hnew hq hqn] at hpn
      exact absurd hpn (h.unfinished_ne hmem hk hp hpne)
    · exact h.single n p hp q hq hpn hqn

/-- The base is one block further; after the last one the commit is whole. -/
theorem Copying.advance_base {g : Option Disk}
    (hg : g = if k + 1 = top.length then (whole base).map (Disk.commit top) else whole base) :
    Behind (advance pid files base top k w.procs) base
      ((whole base).map (Disk.commitN (k + 1) top)) g := by
  have honly {q : Proc} (hq : q ∈ w.procs ∧ q.pid ≠ pid) {top' : Blocks.Content Cell} {k' : Nat}
      (hjob : q.job = .commit base top' k') (hk' : k' < top'.length) : False :=
    h.unfinished_ne hmem hk hq.1 hq.2 (Proc.unfinished_eq_some.2 ⟨top', k', hjob, hk'⟩)
  subst hg
  split
  · next hlast =>
    rw [hlast]
    refine ⟨fun _ => ?_, ?_⟩
    · exact congrArg (Option.map · (whole base)) (funext fun d => Disk.commitN_length)
    · intro q hq top' k' hjob hk'
      rcases (mem_advance hmem).1 hq with rfl | hq
      · cases hjob
        omega
      · exact (honly hq hjob hk').elim
  · next hmore =>
    constructor
    · intro hnone
      have hun : Proc.unfinished ⟨pid, files, .commit base top (k + 1)⟩ = some base :=
        Proc.unfinished_eq_some.2 ⟨top, k + 1, rfl, by omega⟩
      exact absurd hun (hnone _ ((mem_advance hmem).2 (.inl rfl)))
    · intro q hq top' k' hjob hk'
      rcases (mem_advance hmem).1 hq with rfl | hq
      · cases hjob
        rfl
      · exact (honly hq hjob hk').elim

end Advance

section Keeps

variable {w w' : World} {whole : String → Option Disk} (h : Copying w whole)

include h

/-- Another block is copied. -/
theorem Copying.copyNext {pid : Nat} {files : List String} {base : String}
    {top : Blocks.Content Cell} {k b : Nat} {x : Cell}
    (hmem : ⟨pid, files, .commit base top k⟩ ∈ w.procs) (hb : top[k]? = some (b, x)) :
    Copying
      { w with
        disk := fun g => if g = base then (w.disk g).map (Disk.write · b x) else w.disk g
        procs := advance pid files base top k w.procs }
      (if k + 1 = top.length then
        fun g => if g = base then (whole g).map (Disk.commit top) else whole g
      else whole) := by
  have hk : k < top.length := (List.getElem?_eq_some_iff.1 hb).1
  refine ⟨?_, h.advance_single hmem hk, ?_⟩
  · show ((advance pid files base top k w.procs).map Proc.pid).Nodup
    rw [pids_advance]
    exact h.pids
  · intro n
    by_cases hn : n = base
    · subst hn
      have hdisk : (w.disk n).map (Disk.write · b x) =
          (whole n).map (Disk.commitN (k + 1) top) := by
        rw [(h.images n).partway _ hmem top k rfl hk, Option.map_map]
        exact congrArg (Option.map · (whole n)) (funext fun d => Disk.write_commitN hb)
      simp only [if_pos]
      rw [hdisk]
      refine h.advance_base hmem hk ?_
      split
      · exact if_pos rfl
      · rfl
    · have hsame : (if k + 1 = top.length then
          fun g => if g = base then (whole g).map (Disk.commit top) else whole g
          else whole) n = whole n := by
        split
        · exact if_neg hn
        · rfl
      rw [hsame]
      simp only [if_neg hn]
      exact h.advance_other hmem hn

theorem Copying.copy (pid : Nat) : Copying (w.copyBlock pid) (w.commitWhole pid whole) := by
  unfold World.copyBlock World.commitWhole
  cases hfind : w.procs.find? (fun p => p.pid = pid) with
  | none => exact h
  | some p =>
    have hmem := List.mem_of_find?_eq_some hfind
    have hpid : p.pid = pid := by simpa using List.find?_some hfind
    rcases p with ⟨pid', files, job⟩
    cases hpid
    cases job with
    | nbd | other => exact h
    | commit base top k =>
      simp only
      cases hk : top[k]? with
      | some e => exact h.copyNext hmem hk
      | none =>
        have hge : top.length ≤ k := List.getElem?_eq_none_iff.1 hk
        rw [if_neg (by omega)]
        refine h.filter rfl rfl ?_
        -- the process that ends has nothing left to copy
        intro q hq hlive
        have hq' : q = ⟨pid', files, .commit base top k⟩ :=
          List.inj_on_of_nodup_map h.pids hq hmem (by simpa using hlive)
        rw [Option.eq_none_iff_forall_ne_some]
        intro n hmid
        rcases Proc.midway_eq_some.1 hmid with ⟨top', k', hjob, -, hk'⟩
        rw [hq'] at hjob
        cases hjob
        omega

theorem Copying.write (f : String) (b data : Nat) : Copying (w.writeBlock f b data) whole := by
  rcases writeBlock_cases w f b data with heq | ⟨o, -, heq⟩
  · rw [heq]
    exact h
  · rw [heq]
    exact h.of_sameCommits (.refl _) h.images

end Keeps

/-! ## Whole runs -/

section Run

variable {ι : Type} [DecidableEq ι]

/-- The workers run requests, and the images are behind by a commit each at most. -/
structure Serving.Good (c : Serving ι) : Prop where
  acts : ∀ i, Does ImageAct (fun _ => True) (c.pool.threads i)
  copying : Copying c.pool.state c.whole

theorem Serving.step_good {c : Serving ι} {e : Tick ι} (h : c.Good) (hsafe : c.Safe e) :
    (c.step e).Good := by
  cases e with
  | request i =>
    refine ⟨fun j => Pool.step_does (h.acts j) i, ?_⟩
    simp only [Serving.step]
    cases hnext : (c.pool.threads i).next with
    | none =>
      rw [Pool.step_state_of_none hnext]
      exact h.copying
    | some o =>
      rcases Pool.step_of_next hnext with ⟨f, k, hi, -, hstate⟩
      have hact := h.acts i
      rw [hi] at hact
      rw [hstate]
      exact h.copying.request (hact.1 c.pool.state) (hsafe o hnext)
  | copy pid => exact ⟨h.acts, h.copying.copy pid⟩
  | write f b data => exact ⟨h.acts, h.copying.write f b data⟩

/-- Any number of requests, in any order of their steps, among the blocks that commits copy
and workstations write: while every command is safe, commits are all-or-nothing. -/
theorem served_allOrNothing (reqs : ι → Served) (w : World)
    (hpids : (w.procs.map Proc.pid).Nodup) (hidle : ∀ p ∈ w.procs, p.unfinished = none)
    (es : List (Tick ι)) (hsafe : Along Serving.step Serving.Safe (Serving.start reqs w) es) :
    AllOrNothing (run Serving.step (Serving.start reqs w) es).pool.state
      (run Serving.step (Serving.start reqs w) es).whole := by
  have hstart : (Serving.start reqs w).Good := by
    refine ⟨fun i => (reqs i).imageAct, hpids, ?_, ?_⟩
    · intro n p hp q _ hpn _
      rw [hidle p hp] at hpn
      cases hpn
    · intro n
      refine ⟨fun _ => rfl, ?_⟩
      intro p hp top k hjob hk
      have hun := Proc.unfinished_eq_some.2 ⟨top, k, hjob, hk⟩
      rw [hidle p hp] at hun
      cases hun
  exact (Along.invariant (fun _ _ => Serving.step_good) hstart hsafe).copying.allOrNothing

end Run

/-! ## A commit met in the middle -/

/-- A workstation in a super-mode session, with its first disk chosen. -/
def sessionWks : Value :=
  .table [("mac", .str "b4:2e:99:2c:dd:51"), ("ipv4", .str "192.168.0.3"), ("name", .str "PC001"),
    ("enable", .num 1), ("tid", .num 1), ("supper", .str "1"),
    ("img", array [.table [
      ("path", .str "win10cc.qcow2"), ("boot", .num 1), ("cache", .str "unsafe"),
      ("type", .str "dyndisk"), ("commit", .str "1"), ("enable", .num 1)],
      shippedSlot "" "iso" 0 0, shippedSlot "" "iso" 0 0])]

/-- Two workstations over one base image. The child of the first one has two blocks. -/
def afterSession : World :=
  { World.initial (shippedCfg ⟨"", "", ""⟩
      [sessionWks,
       shippedWks 2 "b4:2e:99:2c:dd:52" "192.168.0.4" "PC002" "win10cc.qcow2" "lord.qcow2"])
      ["/srv/images/boot/win10cc.qcow2"] with
    child := fun f => if f = "/srv/writeback/win10cc.qcow2_child_b42e992cdd51" then
      some ⟨"/srv/images/boot/win10cc.qcow2", [(7, ⟨100, 1⟩), (8, ⟨200, 2⟩)], 0⟩ else none
    clock := 3 }

/-- Its commit, a boot of the second workstation and a boot of the first. -/
def commitAndBoots : Fin 3 → Served
  | 0 => .post ⟨some "1", some "disableCommit", none, none, none⟩
  | 1 => .boot "192.168.0.4"
  | 2 => .boot "192.168.0.3"

/-- The blocks of an image, without their times. -/
def World.blocksOf (w : World) (n : String) : Option (List (Nat × Nat)) :=
  (w.disk n).map fun d => d.blocks.map fun e => (e.1, e.2.data)

/-- The commit runs to its end before the second workstation boots. -/
def bootAfter : List (Tick (Fin 3)) :=
  List.replicate 11 (.request 0) ++ [.copy 1, .copy 1] ++ List.replicate 10 (.request 1)

/-- The second workstation boots after one block of two. -/
def bootBetween : List (Tick (Fin 3)) :=
  List.replicate 11 (.request 0) ++ .copy 1 :: List.replicate 10 (.request 1)

/-- The first workstation boots after one block of two. -/
def rebootBetween : List (Tick (Fin 3)) :=
  List.replicate 11 (.request 0) ++ .copy 1 :: List.replicate 26 (.request 2)

theorem served_after_commit :
    AllOrNothing (run Serving.step (Serving.start commitAndBoots afterSession) bootAfter).pool.state
      (run Serving.step (Serving.start commitAndBoots afterSession) bootAfter).whole ∧
    (run Serving.step (Serving.start commitAndBoots afterSession) bootAfter).pool.state.blocksOf
      "/srv/images/boot/snap/b42e992cdd52/win10cc.qcow2" = some [(7, 100), (8, 200)] :=
  ⟨served_allOrNothing commitAndBoots afterSession (by decide) (by decide) bootAfter
    (by decide +kernel), by decide +kernel⟩

/-- The snapshot of the second workstation has one block of two. When the first one boots,
`mkChild` kills the commit, and the base keeps one block, with nothing running that would
write the other. -/
theorem commit_seen_in_part :
    afterSession.blocksOf "/srv/images/boot/win10cc.qcow2" = some [] ∧
    (run Serving.step (Serving.start commitAndBoots afterSession) bootBetween).pool.state.blocksOf
      "/srv/images/boot/snap/b42e992cdd52/win10cc.qcow2" = some [(7, 100)] ∧
    (run Serving.step (Serving.start commitAndBoots afterSession) rebootBetween).pool.state.blocksOf
      "/srv/images/boot/win10cc.qcow2" = some [(7, 100)] ∧
    ∀ p ∈ (run Serving.step (Serving.start commitAndBoots afterSession)
      rebootBetween).pool.state.procs, p.unfinished = none := by
  refine ⟨?_, ?_, ?_, ?_⟩
  · decide +kernel
  · decide +kernel
  · decide +kernel
  · decide +kernel

end NsBoot
