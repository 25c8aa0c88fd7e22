import Mathlib.Data.List.Basic
import NsBoot.Boot.Steps
import NsBoot.Lib.LuaPattern
import NsBoot.Lib.Trace
import NsBoot.Shipped

/-!
# NsBoot.Boot.Mount — the snapshots of a boot

`zfsmount` calls umount, zfs and mount and looks at none of their results; all it
looks at is the mount table, in a loop that repeats `zfs snap` and `mount` until the
workstation's snapshot is found there. This module follows the call through every
outcome of every command.

* `Zfs`: snapshots with the times they were taken at, and the mount table.
  `Zfs.Does`: a command succeeds, if it can, or fails.
* `mtab` searches the text of the table with a Lua pattern. `mtab_literal_iff` says
  for which names that is a search for the name.
* `Zfsmount`: the whole call, with the outcomes of its commands.
* `zfsmount_fresh_iff`: the call leaves the workstation with snapshots that it took
  itself, exactly when its first two commands left nothing of the old one and each
  volume's snapshot was really taken anew.
* `zfsmount_succeeds`: the `zfsmount` of the pipeline is this call when every command
  succeeds and the snapshots are its own.
-/

namespace NsBoot

open Lua

/-! ## Snapshots and mounts -/

/-- An entry of the mount table, and when the snapshot it shows was taken. -/
structure Mount where
  src : String
  point : String
  options : String
  taken : Option Nat

def Mount.line (m : Mount) : String := m.src ++ " " ++ m.point ++ " " ++ m.options ++ "\n"

/-- Snapshots with their times, and mounts, the latest first. All times are past. -/
structure Zfs where
  snaps : String → Option Nat
  mounts : List Mount
  clock : Nat
  snaps_past : ∀ n t, snaps n = some t → t < clock
  mounts_past : ∀ m ∈ mounts, ∀ t, m.taken = some t → t < clock

inductive ZfsCmd where
  | unmount (point : String)
  | unsnap (name : String)
  | snap (name : String)
  | mount (name point : String)
deriving DecidableEq

/-- `cmd.zfs.mtab`, of the text of `/etc/mtab`. -/
def mtab (table name : String) : Bool := LuaPattern.find table name

namespace Zfs

/-- The text of `/etc/mtab`. -/
def table (z : Zfs) : String := String.ofList (z.mounts.reverse.flatMap fun m => m.line.toList)

/-- What is seen at a mount point. -/
def at? (z : Zfs) (point : String) : Option Mount := z.mounts.find? (·.point = point)

/-- `umount -f`: the latest mount at the point goes. -/
def unmount (z : Zfs) (point : String) : Zfs where
  snaps := z.snaps
  mounts := z.mounts.eraseP (·.point = point)
  clock := z.clock
  snaps_past := z.snaps_past
  mounts_past m hm := z.mounts_past m (List.mem_of_mem_eraseP hm)

/-- `zfs destroy -f`: a snapshot that is gone is mounted nowhere. -/
def unsnap (z : Zfs) (name : String) : Zfs where
  snaps n := if n = name then none else z.snaps n
  mounts := z.mounts.filter (·.src ≠ name)
  clock := z.clock
  snaps_past n t h := by
    split at h
    · cases h
    · exact z.snaps_past n t h
  mounts_past m hm := z.mounts_past m (List.mem_of_mem_filter hm)

def snap (z : Zfs) (name : String) : Zfs where
  snaps n := if n = name then some z.clock else z.snaps n
  mounts := z.mounts
  clock := z.clock + 1
  snaps_past n t h := by
    split at h
    · cases h
      exact Nat.lt_succ_self _
    · exact Nat.lt_succ_of_lt (z.snaps_past n t h)
  mounts_past m hm t h := Nat.lt_succ_of_lt (z.mounts_past m hm t h)

def mount (z : Zfs) (name point : String) : Zfs where
  snaps := z.snaps
  mounts := ⟨name, point, "zfs ro,relatime,xattr,noacl 0 0", z.snaps name⟩ :: z.mounts
  clock := z.clock
  snaps_past := z.snaps_past
  mounts_past m hm t h := by
    rcases List.mem_cons.1 hm with rfl | hm
    · exact z.snaps_past name t h
    · exact z.mounts_past m hm t h

/-- The command succeeds, if that is possible. -/
def effect? (z : Zfs) : ZfsCmd → Option Zfs
  | .unmount point => if (z.at? point).isSome then some (z.unmount point) else none
  | .unsnap name => if (z.snaps name).isSome then some (z.unsnap name) else none
  | .snap name => if (z.snaps name).isNone then some (z.snap name) else none
  | .mount name point => if (z.snaps name).isSome then some (z.mount name point) else none

/-- A command is run: it succeeds, or it fails and changes nothing. -/
inductive Does (z : Zfs) (c : ZfsCmd) : Bool → Zfs → Prop where
  | ok {z'} (h : z.effect? c = some z') : Does z c true z'
  | failed : Does z c false z

/-- The state after commands with these outcomes. -/
def after (z : Zfs) : List (ZfsCmd × Bool) → Zfs
  | [] => z
  | (c, ok) :: tr => ((if ok then z.effect? c else none).getD z).after tr

end Zfs

/-! ## The call -/

/-- The loop of `zfsmount`, with the outcomes of its commands. -/
inductive MountLoop (name point : String) : Zfs → List (ZfsCmd × Bool) → Zfs → Prop where
  | done {z} (h : mtab z.table name) : MountLoop name point z [] z
  | round {z z₁ z₂ z' a b tr} (h : ¬ mtab z.table name) (hsnap : z.Does (.snap name) a z₁)
      (hmount : z₁.Does (.mount name point) b z₂) (hrest : MountLoop name point z₂ tr z') :
      MountLoop name point z ((.snap name, a) :: (.mount name point, b) :: tr) z'

/-- The commands for the volumes. -/
inductive SnapSlots : List String → Zfs → List (ZfsCmd × Bool) → Zfs → Prop where
  | nil {z} : SnapSlots [] z [] z
  | cons {z z₁ z₂ z' name names a b tr} (hunsnap : z.Does (.unsnap name) a z₁)
      (hsnap : z₁.Does (.snap name) b z₂) (hrest : SnapSlots names z₂ tr z') :
      SnapSlots (name :: names) z ((.unsnap name, a) :: (.snap name, b) :: tr) z'

variable (s : Server) (r : Wks)

/-- The snapshots of the enabled `dynblock` slots; a path that is no text is an error. -/
def volumeSnaps : Option (List String) :=
  (r.img.filter fun v => v.enable.isOne ∧ v.type = .str "dynblock").mapM fun v =>
    v.path.concat?.map (zvolSnap s r.vid)

/-- `nsboot:zfsmount` returns: the state before, the commands with their outcomes, and
the state after. (What `nbdFree` does before them has nothing to do with snapshots.) -/
inductive Zfsmount : Zfs → List (ZfsCmd × Bool) → Zfs → Prop where
  | returns {z z₁ z₂ z₃ z' names a b loop slots} (hnames : volumeSnaps s r = some names)
      (hunmount : z.Does (.unmount (zpoint s r.vid)) a z₁)
      (hunsnap : z₁.Does (.unsnap (zdest s r.vid)) b z₂)
      (hloop : MountLoop (zdest s r.vid) (zpoint s r.vid) z₂ loop z₃)
      (hslots : SnapSlots names z₃ slots z') :
      Zfsmount z
        ((.unmount (zpoint s r.vid), a) :: (.unsnap (zdest s r.vid), b) :: (loop ++ slots)) z'

/-- What is mounted for the workstation, and the snapshots of its volumes, were taken
during the call. -/
structure SnapsFresh (z z' : Zfs) : Prop where
  dataset : ∃ m t, z'.at? (zpoint s r.vid) = some m ∧ m.src = zdest s r.vid ∧
    m.taken = some t ∧ z.clock ≤ t
  volumes : ∀ names, volumeSnaps s r = some names → ∀ n ∈ names,
    ∃ t, z'.snaps n = some t ∧ z.clock ≤ t

/-- A `zfs snap` of the name succeeded, and no `zfs destroy` of it after that. -/
def Retaken (tr : List (ZfsCmd × Bool)) (name : String) : Prop :=
  ∃ l₁ l₂, tr = l₁ ++ (.snap name, true) :: l₂ ∧ (.unsnap name, true) ∉ l₂

/-- What the outcomes must be for that. -/
structure Renewed (z : Zfs) (tr : List (ZfsCmd × Bool)) : Prop where
  /-- After `umount` and `zfs destroy` the old snapshot is gone, -/
  gone : (z.after (tr.take 2)).snaps (zdest s r.vid) = none
  /-- and is not found in the mount table. -/
  unlisted : ¬ mtab (z.after (tr.take 2)).table (zdest s r.vid)
  /-- No volume's `zfs destroy` takes the new one away. -/
  kept : (.unsnap (zdest s r.vid), true) ∉ tr.drop 2
  volumes : ∀ names, volumeSnaps s r = some names → ∀ n ∈ names, Retaken tr n

/-! ## Snapshots along a call -/

/-- Commands are run one after the other. -/
inductive Zfs.Runs : Zfs → List (ZfsCmd × Bool) → Zfs → Prop where
  | nil {z} : Runs z [] z
  | cons {z z₁ z' c ok tr} (h : z.Does c ok z₁) (hrest : Runs z₁ tr z') : Runs z ((c, ok) :: tr) z'

section Snapshots

variable {z z₁ z' : Zfs} {c : ZfsCmd} {ok : Bool} {tr : List (ZfsCmd × Bool)} {name point : String}
  {k : Nat}

/-- The snapshot is there and was not taken before time `k`. -/
def Zfs.Taken (z : Zfs) (k : Nat) (name : String) : Prop := ∃ t, z.snaps name = some t ∧ k ≤ t

namespace Zfs

theorem not_taken_clock (z : Zfs) (name : String) : ¬ z.Taken z.clock name := by
  rintro ⟨t, ht, hle⟩
  exact absurd (z.snaps_past name t ht) (Nat.not_lt.2 hle)

/-- What a command that succeeds does. -/
theorem effect?_eq_some (h : z.effect? c = some z') :
    (∃ point, c = .unmount point ∧ z' = z.unmount point) ∨
    (∃ name, c = .unsnap name ∧ z' = z.unsnap name) ∨
    (∃ name, c = .snap name ∧ z.snaps name = none ∧ z' = z.snap name) ∨
    ∃ name point t, c = .mount name point ∧ z.snaps name = some t ∧ z' = z.mount name point := by
  cases c with
  | unmount point =>
    simp only [effect?, Option.ite_none_right_eq_some, Option.some.injEq] at h
    exact .inl ⟨point, rfl, h.2.symm⟩
  | unsnap name =>
    simp only [effect?, Option.ite_none_right_eq_some, Option.some.injEq] at h
    exact .inr (.inl ⟨name, rfl, h.2.symm⟩)
  | snap name =>
    simp only [effect?, Option.ite_none_right_eq_some, Option.some.injEq] at h
    exact .inr (.inr (.inl ⟨name, rfl, Option.isNone_iff_eq_none.1 h.1, h.2.symm⟩))
  | mount name point =>
    simp only [effect?, Option.ite_none_right_eq_some, Option.some.injEq] at h
    rcases Option.isSome_iff_exists.1 h.1 with ⟨t, ht⟩
    exact .inr (.inr (.inr ⟨name, point, t, rfl, ht, h.2.symm⟩))

theorem Does.clock_le (h : z.Does c ok z') : z.clock ≤ z'.clock := by
  cases h with
  | failed => exact Nat.le_refl _
  | ok h =>
    rcases effect?_eq_some h with ⟨_, -, rfl⟩ | ⟨_, -, rfl⟩ | ⟨_, -, -, rfl⟩ | ⟨_, _, _, -, -, rfl⟩
    · exact Nat.le_refl _
    · exact Nat.le_refl _
    · exact Nat.le_succ _
    · exact Nat.le_refl _

theorem Does.taken_iff (h : z.Does c ok z') (hk : k ≤ z.clock) :
    z'.Taken k name ↔
      (c, ok) = (.snap name, true) ∨ (c, ok) ≠ (.unsnap name, true) ∧ z.Taken k name := by
  cases h with
  | failed => simp
  | ok h =>
    rcases effect?_eq_some h with ⟨_, rfl, rfl⟩ | ⟨n, rfl, rfl⟩ | ⟨n, rfl, hnone, rfl⟩ |
      ⟨_, _, _, rfl, -, rfl⟩
    · simp [Taken, unmount]
    · by_cases hn : name = n
      · simp [Taken, unsnap, hn]
      · simp [Taken, unsnap, hn, Ne.symm hn]
    · by_cases hn : name = n
      · simp [Taken, snap, hn, hk]
      · simp [Taken, snap, hn, Ne.symm hn]
    · simp [Taken, mount]

end Zfs

theorem retaken_cons : Retaken ((c, ok) :: tr) name ↔
    Retaken tr name ∨ (c, ok) = (.snap name, true) ∧ (.unsnap name, true) ∉ tr := by
  constructor
  · rintro ⟨l₁, l₂, heq, hnot⟩
    cases l₁ with
    | nil =>
      rw [List.nil_append, List.cons.injEq] at heq
      exact .inr ⟨heq.1, heq.2 ▸ hnot⟩
    | cons p l₁ =>
      rw [List.cons_append, List.cons.injEq] at heq
      exact .inl ⟨l₁, l₂, heq.2, hnot⟩
  · rintro (⟨l₁, l₂, rfl, hnot⟩ | ⟨heq, hnot⟩)
    · exact ⟨(c, ok) :: l₁, l₂, rfl, hnot⟩
    · exact ⟨[], tr, by rw [heq, List.nil_append], hnot⟩

/-- A snapshot is as new as `k` if it was retaken, or was so before and is still there. -/
theorem Zfs.Runs.taken_iff (h : z.Runs tr z') (hk : k ≤ z.clock) :
    z'.Taken k name ↔
      Retaken tr name ∨ (.unsnap name, true) ∉ tr ∧ z.Taken k name := by
  induction h with
  | nil =>
    have hnot : ¬ Retaken [] name := by
      rintro ⟨l₁, l₂, heq, -⟩
      simp at heq
    simp [hnot]
  | @cons z z₁ z' c ok tr h hrest ih =>
    rw [ih (hk.trans h.clock_le), h.taken_iff hk, retaken_cons, List.mem_cons, not_or,
      ne_comm (a := (c, ok)), ← ne_eq]
    by_cases hmem : (ZfsCmd.unsnap name, true) ∈ tr
    · simp [hmem]
    · simp only [hmem, not_false_eq_true, true_and, and_true, or_assoc]

theorem Zfs.Runs.append {tr' : List (ZfsCmd × Bool)} (h : z.Runs tr z₁) (h' : z₁.Runs tr' z') :
    z.Runs (tr ++ tr') z' := by
  induction h with
  | nil => exact h'
  | cons hdoes _ ih => exact .cons hdoes (ih h')

theorem MountLoop.runs (h : MountLoop name point z tr z') : z.Runs tr z' := by
  induction h with
  | done => exact .nil
  | round _ hsnap hmount _ ih => exact .cons hsnap (.cons hmount ih)

theorem SnapSlots.runs {names : List String} (h : SnapSlots names z tr z') : z.Runs tr z' := by
  induction h with
  | nil => exact .nil
  | cons hunsnap hsnap _ ih => exact .cons hunsnap (.cons hsnap ih)

/-! ## Mounts along a call -/

/-- At the point one sees the snapshot, and it was not taken before time `k`. -/
def Zfs.Shows (z : Zfs) (k : Nat) (name point : String) : Prop :=
  ∃ m t, z.at? point = some m ∧ m.src = name ∧ m.taken = some t ∧ k ≤ t

/-- Where the snapshot is mounted, it is one taken before time `k`. -/
def Zfs.Stale (z : Zfs) (k : Nat) (name : String) : Prop :=
  ∀ m ∈ z.mounts, m.src = name → ∀ t, m.taken = some t → t < k

theorem Zfs.Stale.not_shows (h : z.Stale k name) : ¬ z.Shows k name point := by
  rintro ⟨m, t, hat, hsrc, ht, hle⟩
  exact absurd (h m (List.mem_of_find?_eq_some hat) hsrc t ht) (Nat.not_lt.2 hle)

theorem Zfs.stale_clock (z : Zfs) (name : String) : z.Stale z.clock name := by
  intro m hm _ t ht
  exact z.mounts_past m hm t ht

theorem Zfs.Stale.of_subset (h : z.Stale k name) (hsub : ∀ m ∈ z'.mounts, m ∈ z.mounts) :
    z'.Stale k name := fun m hm => h m (hsub m hm)

/-- `zfs snap` mounts nothing. -/
theorem Zfs.Does.mounts_snap (h : z.Does (.snap name) ok z') : z'.mounts = z.mounts := by
  cases h with
  | failed => rfl
  | ok h =>
    simp only [Zfs.effect?, Option.ite_none_right_eq_some, Option.some.injEq] at h
    rw [← h.2]
    rfl

theorem Zfs.table_congr (h : z'.mounts = z.mounts) : z'.table = z.table := by
  rw [Zfs.table, Zfs.table, h]

theorem Zfs.Shows.congr (h : z.Shows k name point) (hmounts : z'.mounts = z.mounts) :
    z'.Shows k name point := by
  rcases h with ⟨m, t, hat, h⟩
  exact ⟨m, t, by rw [Zfs.at?, hmounts, ← Zfs.at?, hat], h⟩

/-- The loop is entered with no snapshot from before: the one that is mounted in the
end is new. -/
theorem MountLoop.shows (h : MountLoop name point z tr z') (hk : k ≤ z.clock)
    (hnew : ∀ t, z.snaps name = some t → k ≤ t)
    (hshows : ¬ mtab z.table name ∨ z.Shows k name point) : z'.Shows k name point := by
  induction h with
  | done h => exact hshows.resolve_left (not_not_intro h)
  | @round z z₁ z₂ z' a b tr h hsnap hmount hrest ih =>
    have hclock := hk.trans hsnap.clock_le
    have hnew₁ : ∀ t, z₁.snaps name = some t → k ≤ t := by
      intro t ht
      cases hsnap with
      | failed => exact hnew t ht
      | ok hok =>
        have htaken : z₁.Taken k name := ((Zfs.Does.ok hok).taken_iff hk).2 (.inl rfl)
        rcases htaken with ⟨t', ht', hle⟩
        rw [ht', Option.some.injEq] at ht
        rwa [← ht]
    apply ih (hclock.trans hmount.clock_le)
    · intro t ht
      cases hmount with
      | failed => exact hnew₁ t ht
      | ok hok =>
        simp only [Zfs.effect?, Option.ite_none_right_eq_some, Option.some.injEq] at hok
        rw [← hok.2] at ht
        exact hnew₁ t ht
    · cases hmount with
      | failed =>
        -- nothing new in the table, so the loop goes on
        left
        rwa [Zfs.table_congr hsnap.mounts_snap]
      | ok hok =>
        right
        simp only [Zfs.effect?, Option.ite_none_right_eq_some, Option.some.injEq] at hok
        rcases Option.isSome_iff_exists.1 hok.1 with ⟨t, ht⟩
        rw [← hok.2]
        have hat : (z₁.mount name point).at? point = some ((z₁.mount name point).mounts.head
            (List.cons_ne_nil _ _)) := by
          simp [Zfs.at?, Zfs.mount]
        exact ⟨_, t, hat, rfl, ht, hnew₁ t ht⟩

/-- The loop is not entered, or with a snapshot from before, which is not taken again. -/
theorem MountLoop.stale (h : MountLoop name point z tr z') (hstale : z.Stale k name)
    (hold : mtab z.table name ∨ ∃ t, z.snaps name = some t ∧ t < k) : z'.Stale k name := by
  induction h with
  | done => exact hstale
  | @round z z₁ z₂ z' a b tr h hsnap hmount hrest ih =>
    rcases hold.resolve_left h with ⟨t, ht, hlt⟩
    have hz : z₁ = z := by
      cases hsnap with
      | failed => rfl
      | ok hok => simp [Zfs.effect?, ht] at hok
    subst hz
    cases hmount with
    | failed => exact ih hstale (.inr ⟨t, ht, hlt⟩)
    | ok hok =>
      simp only [Zfs.effect?, Option.ite_none_right_eq_some, Option.some.injEq] at hok
      rw [← hok.2] at ih
      apply ih
      · intro m hm hsrc t' ht'
        rcases List.mem_cons.1 hm with rfl | hm
        · rw [ht, Option.some.injEq] at ht'
          rwa [← ht']
        · exact hstale m hm hsrc t' ht'
      · exact .inr ⟨t, ht, hlt⟩

theorem MountLoop.no_unsnap (h : MountLoop name point z tr z') (n : String) :
    (.unsnap n, true) ∉ tr := by
  induction h with
  | done => exact List.not_mem_nil
  | round _ _ _ _ ih => simp [ih]

/-- What `zfs destroy` takes from the mount table. -/
theorem Zfs.Does.mounts_unsnap {n : String} (h : z.Does (.unsnap n) ok z') :
    z'.mounts = if ok then z.mounts.filter (·.src ≠ n) else z.mounts := by
  cases h with
  | failed => rfl
  | ok h =>
    simp only [Zfs.effect?, Option.ite_none_right_eq_some, Option.some.injEq] at h
    rw [← h.2]
    rfl

theorem SnapSlots.mounts_subset {names : List String} (h : SnapSlots names z tr z') :
    ∀ m ∈ z'.mounts, m ∈ z.mounts := by
  induction h with
  | nil =>
    intro m hm
    exact hm
  | cons hunsnap hsnap _ ih =>
    intro m hm
    have hmem := ih m hm
    rw [hsnap.mounts_snap, hunsnap.mounts_unsnap] at hmem
    split at hmem
    · exact List.mem_of_mem_filter hmem
    · exact hmem

/-- A volume whose `zfs destroy` hits the snapshot takes its mounts away. -/
theorem SnapSlots.unmounted {names : List String} (h : SnapSlots names z tr z')
    (hmem : (.unsnap name, true) ∈ tr) : ∀ m ∈ z'.mounts, m.src ≠ name := by
  induction h with
  | nil => cases hmem
  | cons hunsnap hsnap hrest ih =>
    rcases List.mem_cons.1 hmem with heq | hmem
    · rw [Prod.mk.injEq, ZfsCmd.unsnap.injEq] at heq
      rcases heq with ⟨rfl, rfl⟩
      intro m hm
      have hin := hrest.mounts_subset m hm
      rw [hsnap.mounts_snap, hunsnap.mounts_unsnap, if_pos rfl] at hin
      simpa using List.of_mem_filter hin
    · rcases List.mem_cons.1 hmem with heq | hmem
      · simp at heq
      · exact ih hmem

theorem SnapSlots.shows {names : List String} (h : SnapSlots names z tr z')
    (hshows : z.Shows k name point) (hkept : (.unsnap name, true) ∉ tr) :
    z'.Shows k name point := by
  induction h with
  | nil => exact hshows
  | @cons z z₁ z₂ z' n names a b tr hunsnap hsnap hrest ih =>
    rw [List.mem_cons, List.mem_cons, not_or, not_or] at hkept
    apply ih _ hkept.2.2
    refine Zfs.Shows.congr ?_ hsnap.mounts_snap
    cases hunsnap with
    | failed => exact hshows
    | ok hok =>
      have hne : name ≠ n := by
        rintro rfl
        exact hkept.1 rfl
      rcases hshows with ⟨m, t, hat, hsrc, htaken⟩
      refine ⟨m, t, ?_, hsrc, htaken⟩
      have hsrcn : m.src ≠ n := hsrc ▸ hne
      rw [Zfs.at?, (Zfs.Does.ok hok).mounts_unsnap, if_pos rfl, List.find?_filter]
      -- it is the first one at its point, and stays
      rw [Zfs.at?, List.find?_eq_some_iff_append] at hat
      rcases hat with ⟨hpoint, before, rest, hsplit, hbefore⟩
      rw [List.find?_eq_some_iff_append]
      refine ⟨by simp [hsrcn, by simpa using hpoint], before, rest, hsplit, ?_⟩
      intro m' hm'
      have hnot := hbefore m' hm'
      simp only [Bool.not_eq_true', decide_eq_false_iff_not] at hnot
      simp [hnot]

end Snapshots

/-! ## The whole call -/

section Call

variable {s r} {z z' : Zfs} {tr : List (ZfsCmd × Bool)}

theorem Zfs.Does.after_eq {z₁ : Zfs} {c : ZfsCmd} {ok : Bool} (h : z.Does c ok z₁)
    (tr : List (ZfsCmd × Bool)) : z.after ((c, ok) :: tr) = z₁.after tr := by
  cases h with
  | failed => rfl
  | ok h => rw [Zfs.after, if_pos rfl, h, Option.getD_some]

/-- `umount` and `zfs destroy` take no snapshot. -/
theorem Zfs.Does.clock_eq {z₁ z₂ : Zfs} {a b : Bool} {point name : String}
    (h : z.Does (.unmount point) a z₁) (h' : z₁.Does (.unsnap name) b z₂) : z₂.clock = z.clock := by
  have h₁ : z₁.clock = z.clock := by
    cases h with
    | failed => rfl
    | ok h =>
      simp only [Zfs.effect?, Option.ite_none_right_eq_some, Option.some.injEq] at h
      rw [← h.2]
      rfl
  rw [← h₁]
  cases h' with
  | failed => rfl
  | ok h =>
    simp only [Zfs.effect?, Option.ite_none_right_eq_some, Option.some.injEq] at h
    rw [← h.2]
    rfl

theorem Zfsmount.runs (h : Zfsmount s r z tr z') : z.Runs tr z' := by
  cases h with
  | returns _ hunmount hunsnap hloop hslots =>
    exact .cons hunmount (.cons hunsnap (hloop.runs.append hslots.runs))

theorem Zfsmount.volumes_iff (h : Zfsmount s r z tr z') (n : String) :
    z'.Taken z.clock n ↔ Retaken tr n := by
  rw [h.runs.taken_iff (Nat.le_refl _), or_iff_left]
  intro hold
  exact z.not_taken_clock n hold.2

/-- The part of the theorem below about what is mounted. -/
theorem Zfsmount.dataset_iff (h : Zfsmount s r z tr z') :
    z'.Shows z.clock (zdest s r.vid) (zpoint s r.vid) ↔
      (z.after (tr.take 2)).snaps (zdest s r.vid) = none ∧
      ¬ mtab (z.after (tr.take 2)).table (zdest s r.vid) ∧
      (.unsnap (zdest s r.vid), true) ∉ tr.drop 2 := by
  cases h with
  | @returns z₁ z₂ z₃ _ names a b loop slots _ hunmount hunsnap hloop hslots =>
    have hafter : z.after ([(.unmount (zpoint s r.vid), a), (.unsnap (zdest s r.vid), b)]) =
        z₂ := by
      rw [hunmount.after_eq, hunsnap.after_eq, Zfs.after]
    have hclock := Zfs.Does.clock_eq hunmount hunsnap
    have hdrop : (.unsnap (zdest s r.vid), true) ∈ loop ++ slots ↔
        (.unsnap (zdest s r.vid), true) ∈ slots := by
      rw [List.mem_append, or_iff_right (hloop.no_unsnap _)]
    simp only [List.take_succ_cons, List.take_zero, List.drop_succ_cons, List.drop_zero, hafter,
      hdrop]
    constructor
    · intro hshows
      -- anything old that is left makes everything that is mounted old
      have hnot : ¬ (mtab z₂.table (zdest s r.vid) ∨
          ∃ t, z₂.snaps (zdest s r.vid) = some t ∧ t < z.clock) := by
        intro hold
        have hstale := hloop.stale (k := z.clock) (hclock ▸ z₂.stale_clock _) hold
        exact (hstale.of_subset hslots.mounts_subset).not_shows hshows
      rw [not_or] at hnot
      refine ⟨?_, hnot.1, ?_⟩
      · cases hsnap : z₂.snaps (zdest s r.vid) with
        | none => rfl
        | some t => exact absurd ⟨t, hsnap, hclock ▸ z₂.snaps_past _ t hsnap⟩ hnot.2
      · intro hmem
        rcases hshows with ⟨m, t, hat, hsrc, -⟩
        exact hslots.unmounted hmem m (List.mem_of_find?_eq_some hat) hsrc
    · rintro ⟨hgone, hunlisted, hkept⟩
      have hshows := hloop.shows (k := z.clock) (Nat.le_of_eq hclock.symm)
        (by simp [hgone]) (.inl hunlisted)
      exact hslots.shows hshows hkept

/-- **Every outcome of every command: when a call that returns has left the workstation
with snapshots of its own.** -/
theorem zfsmount_fresh_iff (h : Zfsmount s r z tr z') : SnapsFresh s r z z' ↔ Renewed s r z tr := by
  constructor
  · intro hfresh
    rcases h.dataset_iff.1 hfresh.dataset with ⟨hgone, hunlisted, hkept⟩
    refine ⟨hgone, hunlisted, hkept, ?_⟩
    intro names hnames n hn
    exact (h.volumes_iff n).1 (hfresh.volumes names hnames n hn)
  · intro hrenewed
    constructor
    · exact h.dataset_iff.2 ⟨hrenewed.gone, hrenewed.unlisted, hrenewed.kept⟩
    · intro names hnames n hn
      exact (h.volumes_iff n).2 (hrenewed.volumes names hnames n hn)

end Call

/-! ## The call as the pipeline takes it -/

/-- The paths of the enabled `dynblock` slots. -/
def volumePaths (vs : List Img) : Option (List String) :=
  (vs.filter fun v => v.enable.isOne ∧ v.type = .str "dynblock").mapM fun v => v.path.concat?

/-- Steps on snapshots. -/
def Op.isZfs : Op → Bool
  | .unmount _ | .snapDir _ _ | .snapDev _ _ => true
  | _ => false

section Succeeds

open Prog

variable {s r} {z z' : Zfs} {tr : List (ZfsCmd × Bool)}

theorem volumeSnaps_eq :
    volumeSnaps s r = (volumePaths r.img).map (List.map (zvolSnap s r.vid)) := by
  unfold volumeSnaps volumePaths
  generalize r.img.filter (fun v => v.enable.isOne ∧ v.type = .str "dynblock") = vs
  induction vs with
  | nil => rfl
  | cons v vs ih =>
    simp only [List.mapM_cons, ih]
    cases v.path.concat? with
    | none => rfl
    | some path =>
      cases vs.mapM fun v => v.path.concat? with
      | none => rfl
      | some paths => rfl

theorem SnapSlots.commands {names : List String} (h : SnapSlots names z tr z') :
    tr.map Prod.fst = names.flatMap fun n => [.unsnap n, .snap n] := by
  induction h with
  | nil => rfl
  | cons _ _ _ ih => simp [ih]

/-- A second `zfs snap` would fail. -/
theorem MountLoop.once {name point : String} (h : MountLoop name point z tr z')
    (hok : ∀ e ∈ tr, e.2 = true) (hnew : ¬ mtab z.table name) :
    tr.map Prod.fst = [.snap name, .mount name point] := by
  cases h with
  | done hdone => exact absurd hdone hnew
  | @round _ z₁ z₂ _ a b tr _ hsnap hmount hrest =>
    cases hrest with
    | done => rfl
    | @round _ z₃ _ _ a' b' tr' _ hsnap' _ _ =>
      exfalso
      obtain rfl : a = true := hok (.snap name, a) (by simp)
      obtain rfl : a' = true := hok (.snap name, a') (by simp)
      have htaken : (z₁.snaps name).isSome := by
        cases hsnap with
        | ok h =>
          simp only [Zfs.effect?, Option.ite_none_right_eq_some, Option.some.injEq] at h
          rw [← h.2]
          simp [Zfs.snap]
      have hkept : z₂.snaps = z₁.snaps := by
        cases hmount with
        | failed => rfl
        | ok h =>
          simp only [Zfs.effect?, Option.ite_none_right_eq_some, Option.some.injEq] at h
          rw [← h.2]
          rfl
      cases hsnap' with
      | ok h =>
        simp only [Zfs.effect?, Option.ite_none_right_eq_some] at h
        rw [hkept] at h
        simp [Option.isNone_iff_eq_none.1 h.1] at htaken

theorem zfsmountSlots_labels {vs : List Img} {w w' : World} {u : PUnit}
    (h : exec (vs.forM (zfsmountSlot s r)) w = .ok u w') :
    ∃ paths, volumePaths vs = some paths ∧
      (labels (vs.forM (zfsmountSlot s r)) w).filter Op.isZfs =
        paths.map fun p => .snapDev (baseZvol s p) (snapZvol s r.vid p) := by
  induction vs generalizing w with
  | nil => exact ⟨[], rfl, rfl⟩
  | cons v vs ih =>
    obtain ⟨_, w₁, hslot, hrest⟩ := exec_bind_ok_iff.1 h
    obtain ⟨paths, hpaths, hlabels⟩ := ih hrest
    have hall : (labels ((v :: vs).forM (zfsmountSlot s r)) w).filter Op.isZfs =
        (labels (zfsmountSlot s r v) w).filter Op.isZfs ++
          (labels (vs.forM (zfsmountSlot s r)) w₁).filter Op.isZfs := by
      rw [← List.filter_append]
      exact congrArg _ (labels_bind (g := fun _ => vs.forM (zfsmountSlot s r)) hslot)
    rw [hall, hlabels]
    unfold volumePaths at hpaths ⊢
    by_cases hvol : v.enable.isOne ∧ v.type = .str "dynblock"
    · rw [List.filter_cons_of_pos (by simpa using hvol), List.mapM_cons]
      unfold zfsmountSlot Prog.when at hslot ⊢
      rw [if_pos hvol] at hslot ⊢
      obtain ⟨path, _, hlift, -⟩ := exec_bind_ok_iff.1 hslot
      obtain ⟨hpath, -⟩ := exec_lift_ok_iff.1 hlift
      refine ⟨path :: paths, by rw [hpath, hpaths]; rfl, ?_⟩
      rw [hpath, lift_some_bind]
      rfl
    · rw [List.filter_cons_of_neg (by simpa using hvol)]
      unfold zfsmountSlot Prog.when
      rw [if_neg hvol]
      exact ⟨paths, hpaths, rfl⟩

/-- The steps of the pipeline's `zfsmount`. -/
theorem zfsmount_labels {w w' : World} {u : PUnit} (h : exec (zfsmount s r) w = .ok u w') :
    ∃ paths, volumePaths r.img = some paths ∧
      (labels (zfsmount s r) w).filter Op.isZfs = .unmount (zpoint s r.vid) ::
        .snapDir s.imgdir (zpoint s r.vid) ::
        paths.map fun p => .snapDev (baseZvol s p) (snapZvol s r.vid p) := by
  obtain ⟨nbds, w₁, hfree, hrest⟩ := exec_bind_ok_iff.1 h
  have hquiet : (labels (nbdFree s r) w).filter Op.isZfs = [] := by
    rw [List.filter_eq_nil_iff]
    intro o ho
    rcases nbdFree_does.exists_of_mem_labels ho with ⟨_, _, hact⟩
    cases hact with
    | kill hkill => cases hkill <;> decide
    | nbdDel => decide
  obtain ⟨paths, hpaths, hlabels⟩ := zfsmountSlots_labels (s := s) (r := r) hrest
  refine ⟨paths, hpaths, ?_⟩
  unfold zfsmount
  rw [labels_bind hfree, List.filter_append, hquiet, List.nil_append, ← hlabels]
  rfl

/-- **The `zfsmount` of the pipeline is the call in which every command succeeds** and the
snapshots are the call's own: it shows the `umount`, the snapshot with its mount, and the
snapshots of the volumes. -/
theorem zfsmount_succeeds (h : Zfsmount s r z tr z') (hok : ∀ e ∈ tr, e.2 = true)
    (hfresh : SnapsFresh s r z z') {w w' : World} {u : PUnit}
    (hrun : exec (zfsmount s r) w = .ok u w') :
    ∃ paths : List String, tr.map Prod.fst = .unmount (zpoint s r.vid) :: .unsnap (zdest s r.vid) ::
        .snap (zdest s r.vid) :: .mount (zdest s r.vid) (zpoint s r.vid) ::
        paths.flatMap (fun p => [.unsnap (zvolSnap s r.vid p), .snap (zvolSnap s r.vid p)]) ∧
      (labels (zfsmount s r) w).filter Op.isZfs = .unmount (zpoint s r.vid) ::
        .snapDir s.imgdir (zpoint s r.vid) ::
        paths.map fun p => .snapDev (baseZvol s p) (snapZvol s r.vid p) := by
  rcases zfsmount_labels hrun with ⟨paths, hpaths, hlabels⟩
  refine ⟨paths, ?_, hlabels⟩
  have hunlisted := (h.dataset_iff.1 hfresh.dataset).2.1
  cases h with
  | @returns z₁ z₂ z₃ _ names a b loop slots hnames hunmount hunsnap hloop hslots =>
    have hafter : z.after ([(.unmount (zpoint s r.vid), a), (.unsnap (zdest s r.vid), b)]) =
        z₂ := by
      rw [hunmount.after_eq, hunsnap.after_eq, Zfs.after]
    rw [List.take_succ_cons, List.take_succ_cons, List.take_zero, hafter] at hunlisted
    have honce := hloop.once (fun e he => hok e (by simp [he])) hunlisted
    rw [volumeSnaps_eq, hpaths, Option.map_some, Option.some.injEq] at hnames
    simp only [List.map_cons, List.map_append, honce, hslots.commands, ← hnames,
      List.flatMap_map, List.cons_append, List.nil_append]

end Succeeds

/-! ## A call that finds an earlier boot's snapshots -/

def Zfs.empty : Zfs where
  snaps _ := none
  mounts := []
  clock := 0
  snaps_past _ _ h := nomatch h
  mounts_past _ h := nomatch h

section Success

variable {z : Zfs} {name point : String}

theorem Zfs.Does.unmount (h : (z.at? point).isSome) :
    z.Does (.unmount point) true (z.unmount point) := .ok (if_pos h)

theorem Zfs.Does.unsnap (h : (z.snaps name).isSome) :
    z.Does (.unsnap name) true (z.unsnap name) := .ok (if_pos h)

theorem Zfs.Does.snap (h : (z.snaps name).isNone) : z.Does (.snap name) true (z.snap name) :=
  .ok (if_pos h)

theorem Zfs.Does.mount (h : (z.snaps name).isSome) :
    z.Does (.mount name point) true (z.mount name point) := .ok (if_pos h)

end Success

/-- What an earlier boot of the shipped workstation has left. -/
def earlierBoot : Zfs :=
  ((Zfs.empty.snap (zdest shippedServer superRecord.vid)).mount
      (zdest shippedServer superRecord.vid) (zpoint shippedServer superRecord.vid)).snap
    (zvolSnap shippedServer superRecord.vid "lord.qcow2")

theorem earlierBoot_volumes : volumeSnaps shippedServer superRecord =
    some [zvolSnap shippedServer superRecord.vid "lord.qcow2"] := by
  decide +kernel

/-- The commands for the workstation's volume succeed. -/
theorem snapSlots_lord {z : Zfs}
    (h : (z.snaps (zvolSnap shippedServer superRecord.vid "lord.qcow2")).isSome) :
    ∃ tr z', SnapSlots [zvolSnap shippedServer superRecord.vid "lord.qcow2"] z tr z' ∧
      ∀ m ∈ z'.mounts, m ∈ z.mounts := by
  have hslots := SnapSlots.cons (.unsnap h) (.snap (by simp [Zfs.unsnap])) .nil
  exact ⟨_, _, hslots, hslots.mounts_subset⟩

/-- `umount` fails, because the mount is in use, and so does `zfs destroy`: the loop sees
the old mount and is content with it. -/
theorem zfsmount_keeps_old :
    ∃ tr z', Zfsmount shippedServer superRecord earlierBoot tr z' ∧
      ¬ SnapsFresh shippedServer superRecord earlierBoot z' := by
  rcases snapSlots_lord (z := earlierBoot) (by decide +kernel) with ⟨slots, z', hslots, hsub⟩
  refine ⟨_, z', .returns earlierBoot_volumes .failed .failed (.done ?_) hslots, ?_⟩
  · decide +kernel
  · intro hfresh
    exact ((earlierBoot.stale_clock _).of_subset hsub).not_shows hfresh.dataset

/-- All commands succeed. -/
theorem zfsmount_fresh_iff_success :
    ∃ tr z', Zfsmount shippedServer superRecord earlierBoot tr z' ∧
      SnapsFresh shippedServer superRecord earlierBoot z' := by
  -- nothing of the earlier boot is left when the loop begins
  let cleared := (earlierBoot.unmount (zpoint shippedServer superRecord.vid)).unsnap
    (zdest shippedServer superRecord.vid)
  let mounted := (cleared.snap (zdest shippedServer superRecord.vid)).mount
    (zdest shippedServer superRecord.vid) (zpoint shippedServer superRecord.vid)
  have hloop : MountLoop (zdest shippedServer superRecord.vid)
      (zpoint shippedServer superRecord.vid)
      cleared _ mounted :=
    .round (by decide +kernel) (.snap (by decide +kernel)) (.mount (by decide +kernel))
      (.done (by decide +kernel))
  have hslots : SnapSlots [zvolSnap shippedServer superRecord.vid "lord.qcow2"] mounted _ _ :=
    .cons (.unsnap (by decide +kernel)) (.snap (by simp [Zfs.unsnap])) .nil
  have hcall := Zfsmount.returns earlierBoot_volumes (.unmount (by decide +kernel))
    (.unsnap (by decide +kernel)) hloop hslots
  refine ⟨_, _, hcall, (zfsmount_fresh_iff hcall).2 ⟨?_, ?_, ?_, ?_⟩⟩
  · decide +kernel
  · decide +kernel
  · decide +kernel
  · intro names hnames n hn
    rw [earlierBoot_volumes] at hnames
    cases hnames
    rw [List.mem_singleton] at hn
    refine ⟨[(.unmount (zpoint shippedServer superRecord.vid), true),
      (.unsnap (zdest shippedServer superRecord.vid), true),
      (.snap (zdest shippedServer superRecord.vid), true),
      (.mount (zdest shippedServer superRecord.vid) (zpoint shippedServer superRecord.vid), true),
      (.unsnap n, true)], [], ?_, by simp⟩
    rw [hn]
    rfl

/-! ## The search in the mount table -/

/-- The characters ZFS allows in a snapshot's name. -/
def IsZfsName (name : String) : Prop :=
  ∀ c ∈ name.toList, c.isAlphanum ∨ c ∈ ['_', '-', '.', ':', '/', '@']

instance (name : String) : Decidable (IsZfsName name) :=
  List.decidableBAll (fun c : Char => c.isAlphanum ∨ c ∈ ['_', '-', '.', ':', '/', '@']) name.toList

/-- The name is found where it stands and nowhere else. In particular the loop ends as
soon as the snapshot is mounted. -/
structure SearchedLiterally (name : String) : Prop where
  found : ∀ table, mtab table name ↔ name.toList <:+: table.toList
  ends : ∀ point z z', Zfs.Does z (.mount name point) true z' → MountLoop name point z' [] z'

theorem IsZfsName.isPlain {name : String} (h : IsZfsName name) :
    ∀ c ∈ name.toList, LuaPattern.isPlain c := by
  intro c hc
  simp only [LuaPattern.isPlain, Bool.and_eq_true, decide_eq_true_eq]
  refine ⟨⟨⟨⟨?_, ?_⟩, ?_⟩, ?_⟩, ?_⟩ <;>
    · rintro rfl
      exact absurd (h _ hc) (by decide)

/-- What is mounted stands in the table. -/
theorem Zfs.Does.listed {z z' : Zfs} {name point : String}
    (h : z.Does (.mount name point) true z') : name.toList <:+: z'.table.toList := by
  cases h with
  | ok h =>
    simp only [Zfs.effect?, Option.ite_none_right_eq_some, Option.some.injEq] at h
    rw [← h.2, Zfs.table, String.toList_ofList, Zfs.mount, List.reverse_cons, List.flatMap_append]
    refine List.IsInfix.trans ?_ (List.suffix_append _ _).isInfix
    simp only [List.flatMap_cons, List.flatMap_nil, List.append_nil, Mount.line,
      String.toList_append,
      List.append_assoc]
    exact (List.prefix_append _ _).isInfix

/-- **The names that are searched for literally are those without dots and without
hyphens behind the first character.** -/
theorem mtab_literal_iff {name : String} (h : IsZfsName name) :
    SearchedLiterally name ↔ '.' ∉ name.toList ∧ '-' ∉ name.toList.tail := by
  rw [← LuaPattern.find_literal_iff h.isPlain]
  constructor
  · intro hsearched
    exact hsearched.found
  · intro hfound
    constructor
    · exact hfound
    · intro point z z' hmount
      exact .done ((hfound _).2 hmount.listed)

/-- The shipped settings with a pool `ns-boot0`. -/
def hyphenServer : Server := { shippedServer with dpoint := "ns-boot0/images/boot@snap_" }

/-- A pool with a hyphen in its name: the snapshot is mounted, stands in the table and is
not found there. -/
theorem mtab_misses_hyphen :
    ∃ name point z z', IsZfsName name ∧ name = zdest hyphenServer superRecord.vid ∧
      Zfs.Does z (.mount name point) true z' ∧
      name.toList <:+: z'.table.toList ∧ mtab z'.table name = false ∧
      ¬ MountLoop name point z' [] z' := by
  have hmount : Zfs.Does (Zfs.empty.snap (zdest hyphenServer superRecord.vid))
      (.mount (zdest hyphenServer superRecord.vid)
        (zpoint shippedServer superRecord.vid)) true _ :=
    .mount (by decide +kernel)
  refine ⟨_, _, _, _, ?_, rfl, hmount, hmount.listed, ?_, ?_⟩
  · decide +kernel
  · decide +kernel
  · intro hloop
    cases hloop with
    | done h => exact absurd h (by decide +kernel)

/-- The shipped names. -/
theorem mtab_literal_shipped : IsZfsName (zdest shippedServer superRecord.vid) ∧
    SearchedLiterally (zdest shippedServer superRecord.vid) :=
  ⟨by decide +kernel, (mtab_literal_iff (by decide +kernel)).2 (by decide +kernel)⟩

end NsBoot
