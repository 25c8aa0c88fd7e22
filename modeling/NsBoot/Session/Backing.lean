import NsBoot.Session.Persist

/-!
# NsBoot.Session.Backing — what a kept child is backed by

In super mode `mkChild` keeps a child when the slot has a lock file and there is a
child. The lock file is named by the number of the slot and the child by the path of
its image, so the two can come apart: when the path of a slot is edited while its
lock file is there, the lock vouches for a child that was made over a snapshot.

* `Locked`: where there is a lock file, the child of the slot is an overlay of the
  live base. Every iteration of `mkChild` keeps this (`slotStep_locked`,
  `slotStuck_locked`), unless it finds no image to make the child over, and so does
  every boot.
* `KeepsLocked`: the edits that leave slots with a lock file as they are, and boots whose
  `qemu-img create` succeeds.
* `super_children_live`: in a run of such edits, boots and super-mode requests, the
  children of the chosen slots are overlays of their live bases whenever `mkChild`
  was completed.
* `kept_over_snapshot`: without that condition they are not.
-/

namespace NsBoot

open Lua Prog Run

/-- Slots with children have their paths for themselves. -/
def Wks.OwnPaths (r : Wks) : Prop :=
  ∀ (i j : Nat) (v u : Img) (path : String), r.img[i]? = some v → r.img[j]? = some u →
    v.isDyn → u.isDyn →
    v.path.concat? = some path → u.path.concat? = some path → i = j

/-- The child of the slot is an overlay of the live base. -/
def LiveChild (s : Server) (r : Wks) (v : Img) (path : String) (w : World) : Prop :=
  ∃ o, w.child (childName s path r.vid) = some o ∧ o.backing = v.liveBase s path

/-- A lock file stands for a child over the live base. -/
def Locked (s : Server) (r : Wks) (w : World) : Prop :=
  ∀ (i : Nat) (v : Img) (path : String), r.img[i]? = some v → v.isDyn → v.path.concat? = some path →
    w.lock (lockName s (i + 1) r.vid) = true → LiveChild s r v path w

/-- The same, but for chosen slots that have no child. -/
def HalfLocked (s : Server) (r : Wks) (w : World) : Prop :=
  ∀ (i : Nat) (v : Img) (path : String), r.img[i]? = some v → v.isDyn → v.path.concat? = some path →
    w.lock (lockName s (i + 1) r.vid) = true →
    LiveChild s r v path w ∨ w.child (childName s path r.vid) = none ∧ v.Super r

/-- `qemu-img create` has succeeded: a chosen slot with its lock file has a child. -/
def Created (s : Server) (r : Wks) (w : World) : Prop :=
  ∀ (i : Nat) (v : Img) (path : String), r.img[i]? = some v → v.isDyn → v.path.concat? = some path →
    v.Super r → w.lock (lockName s (i + 1) r.vid) = true →
    (w.child (childName s path r.vid)).isSome

/-! ## One boot of the workstation -/

section Slots

variable {s : Server} {r : Wks}

/-- Locks and backing files are all that matters. -/
theorem Locked.of_backing {w w' : World} (hlock : w'.lock = w.lock)
    (hchild : ∀ f o, w.child f = some o → ∃ o', w'.child f = some o' ∧ o'.backing = o.backing)
    (hw : Locked s r w) : Locked s r w' := by
  intro i v path hv hdyn hpath hl
  rw [hlock] at hl
  rcases hw i v path hv hdyn hpath hl with ⟨o, ho, hback⟩
  rcases hchild _ o ho with ⟨o', ho', hback'⟩
  exact ⟨o', ho', hback'.trans hback⟩

theorem Locked.of_overlays {w w' : World} (h : w'.overlays = w.overlays) (hw : Locked s r w) :
    Locked s r w' := by
  simp only [World.overlays, Prod.mk.injEq] at h
  refine hw.of_backing h.2 ?_
  intro f o ho
  exact ⟨o, by rw [h.1, ho], rfl⟩

theorem Locked.half {w : World} (hw : Locked s r w) : HalfLocked s r w :=
  fun i v path hv hdyn hpath hlock => .inl (hw i v path hv hdyn hpath hlock)

theorem HalfLocked.locked {w : World} (hw : HalfLocked s r w) (hmade : Created s r w) :
    Locked s r w := by
  intro i v path hv hdyn hpath hlock
  rcases hw i v path hv hdyn hpath hlock with hlive | ⟨hnone, hsuper⟩
  · exact hlive
  · have hsome := hmade i v path hv hdyn hpath hsuper hlock
    rw [hnone] at hsome
    cases hsome

theorem HalfLocked.of_overlays {w w' : World} (h : w'.overlays = w.overlays)
    (hw : HalfLocked s r w) : HalfLocked s r w' := by
  simp only [World.overlays, Prod.mk.injEq] at h
  unfold HalfLocked LiveChild
  rw [h.1, h.2]
  exact hw

theorem slotLock_ne {i j : Nat} (hij : i ≠ j) :
    lockName s (i + 1) r.vid ≠ lockName s (j + 1) r.vid := by
  intro heq
  have hnum := (lockName_inj rfl heq).1
  omega

variable (hown : r.OwnPaths)

include hown

theorem slotChild_ne {i j : Nat} {v u : Img} {p q : String} (hv : r.img[i]? = some v)
    (hu : r.img[j]? = some u) (hvd : v.isDyn) (hud : u.isDyn) (hp : v.path.concat? = some p)
    (hq : u.path.concat? = some q) (hij : i ≠ j) : childName s p r.vid ≠ childName s q r.vid := by
  intro heq
  rcases childName_inj rfl heq with ⟨rfl, -⟩
  exact hij (hown i j v u p hv hu hvd hud hp hq)

theorem slotStep_locked {j : Nat} {u : Img} (hu : r.img[j]? = some u) {w w' : World}
    (hw : HalfLocked s r w) (h : SlotStep s r u (j + 1) w w') : HalfLocked s r w' := by
  cases h with
  | idle h => exact hw
  | kept hdyn hpath hsuper hlock hchild hkept hlock' =>
    exact hw.of_overlays (by rw [World.overlays, World.overlays, hkept.child, hlock'])
  | @made _ q k hen hdyn hq hk hnot hmade hlock' hdisk =>
    intro i v path hv hvd hpath hlock
    rw [hlock'] at hlock
    by_cases hij : i = j
    · subst hij
      rw [hu] at hv
      cases hv
      rw [hq] at hpath
      cases hpath
      by_cases hsuper : u.Super r
      · -- made over the live base
        rw [parrentKind_of_super hsuper] at hk
        cases hk
        exact .inl ⟨_, hmade.child_self, rfl⟩
      · -- otherwise the lock file is gone: with it there would have been a child
        simp only [World.setLock, if_pos, decide_eq_false hsuper, Bool.false_or,
          Bool.and_eq_true] at hlock
        rcases hw i u q hu hvd hq hlock.1 with ⟨o, ho, -⟩ | ⟨-, hs⟩
        · rw [ho] at hlock
          exact absurd hlock.2 (by simp)
        · exact absurd hs hsuper
    · simp only [World.setLock, if_neg (slotLock_ne hij)] at hlock
      unfold LiveChild
      rw [hmade.child_ne (slotChild_ne hown hv hu hvd hdyn hpath hq hij)]
      exact hw i v path hv hvd hpath hlock
  | @gone _ q hdyn hq hsuper _ hdisk hgone hlock' =>
    intro i v path hv hvd hpath hlock
    rw [hlock'] at hlock
    by_cases hij : i = j
    · subst hij
      rw [hu] at hv
      cases hv
      rw [hq] at hpath
      cases hpath
      exact .inr ⟨hgone.child_self, hsuper⟩
    · simp only [World.setLock, if_neg (slotLock_ne hij)] at hlock
      unfold LiveChild
      rw [hgone.child_ne (slotChild_ne hown hv hu hvd hdyn hpath hq hij)]
      exact hw i v path hv hvd hpath hlock

theorem slotStuck_locked {j : Nat} {u : Img} (hu : r.img[j]? = some u) {w w' : World}
    (hw : HalfLocked s r w) (h : SlotStuck s r u (j + 1) w w') : HalfLocked s r w' := by
  cases h with
  | stop => exact hw
  | locked hdyn =>
    intro i v path hv hvd hpath hlock
    have hij : i ≠ j := by
      rintro rfl
      rw [hu] at hv
      cases hv
      exact hdyn hvd
    simp only [World.setLock, if_neg (slotLock_ne hij)] at hlock
    exact hw i v path hv hvd hpath hlock
  | @waits q hen hdyn hq hnot =>
    intro i v path hv hvd hpath hlock
    rw [cleared_lock] at hlock
    by_cases hij : i = j
    · subst hij
      rw [hu] at hv
      cases hv
      rw [hq] at hpath
      cases hpath
      simp only [World.setLock, if_pos, Bool.and_eq_true] at hlock
      rcases hw i u q hu hvd hq hlock.1 with ⟨o, ho, -⟩ | ⟨-, hsuper⟩
      · rw [ho] at hlock
        exact absurd hlock.2 (by simp)
      · refine .inr ⟨?_, hsuper⟩
        rw [cleared_child]
        exact if_pos rfl
    · simp only [World.setLock, if_neg (slotLock_ne hij)] at hlock
      have hne := slotChild_ne (s := s) hown hv hu hvd hdyn hpath hq hij
      unfold LiveChild
      rw [cleared_child]
      simp only [World.del, if_neg hne]
      exact hw i v path hv hvd hpath hlock

theorem mkChild_locked {w : World} (hw : HalfLocked s r w) :
    HalfLocked s r (exec (mkChild s r) w).final :=
  mkChild_keeps (fun _ _ hu _ _ => slotStep_locked hown hu)
    (fun _ _ hu _ _ => slotStuck_locked hown hu) hw

omit hown in
/-- A chosen slot has its lock file when `mkChild` is done. -/
theorem mkChild_locks (he : r.enable.isOne) {w w' : World} (h : exec (mkChild s r) w = .ok () w')
    {i : Nat} {v : Img} (hv : r.img[i]? = some v) (hdyn : v.isDyn) (hsuper : v.Super r) :
    w'.lock (lockName s (i + 1) r.vid) = true := by
  refine (mkChild_ok he h).establishes (I := fun w => w.lock (lockName s (i + 1) r.vid) = true)
    (mem_zipIdx_of_slot hv) ?_ ?_
  · intro w₁ w₂ hstep
    cases hstep with
    | idle hidle =>
      -- a chosen slot has a parent
      have hnone := hidle hsuper.2.2.1 hdyn
      rw [parrentKind_of_super hsuper] at hnone
      cases hnone
    | kept _ _ _ hlock _ _ hlock' => rwa [hlock']
    | made _ _ _ _ _ _ hlock' _ =>
      rw [hlock', decide_eq_true hsuper]
      simp [World.setLock]
    | gone _ _ _ _ _ _ hlock' =>
      rw [hlock']
      simp [World.setLock]
  · intro vj hvj w₁ w₂ hlock hstep
    rcases slot_of_mem_zipIdx hvj with ⟨j, hj, hget⟩
    cases hstep with
    | idle => exact hlock
    | kept _ _ _ _ _ _ hlock' => rwa [hlock']
    | made _ _ _ _ _ _ hlock' _ =>
      rw [hlock', hj]
      by_cases hij : i = j
      · subst hij
        rw [hv] at hget
        have hvj : vj.1 = v := (Option.some.inj hget).symm
        simp [World.setLock, hvj, decide_eq_true hsuper]
      · simp only [World.setLock, if_neg (slotLock_ne hij)]
        exact hlock
    | gone _ _ _ _ _ _ hlock' =>
      rw [hlock']
      by_cases hl : lockName s (i + 1) r.vid = lockName s vj.2 r.vid
      · simp only [World.setLock, if_pos hl]
      · simp only [World.setLock, if_neg hl]
        exact hlock

/-- The children of the chosen slots are overlays of their live bases. -/
def SuperLive (s : Server) (r : Wks) (w : World) : Prop :=
  ∀ (i : Nat) (v : Img) (path : String), r.img[i]? = some v → v.isDyn → v.Super r →
    v.path.concat? = some path →
    LiveChild s r v path w

theorem mkChild_superLive {w w' : World} (hw : Locked s r w)
    (h : exec (mkChild s r) w = .ok () w') (hmade : Created s r w') : SuperLive s r w' := by
  have hlocked := mkChild_locked hown hw.half
  rw [h] at hlocked
  intro i v path hv hdyn hsuper hpath
  exact hlocked.locked hmade i v path hv hdyn hpath (mkChild_locks hsuper.1 h hv hdyn hsuper)

end Slots

/-! ## Whole runs -/

/-- The record of one workstation, and what its lock files stand for. -/
structure Fit (s : Server) (w : World) (r : Wks) : Prop where
  mac : IsMacId r.vid
  paths : r.OwnPaths
  locked : Locked s r w

theorem getElem?_core (r : Wks) (i : Nat) : r.core.img[i]? = (r.img[i]?).map Img.core :=
  List.getElem?_map

/-- Flags do not matter to it. -/
theorem fit_core {s : Server} {w : World} {r : Wks} : Fit s w r.core ↔ Fit s w r := by
  constructor
  · intro h
    refine ⟨h.mac, ?_, ?_⟩
    · intro i j v u path hv hu
      refine h.paths i j v.core u.core path ?_ ?_
      · rw [getElem?_core, hv, Option.map_some]
      · rw [getElem?_core, hu, Option.map_some]
    · intro i v path hv
      refine h.locked i v.core path ?_
      rw [getElem?_core, hv, Option.map_some]
  · intro h
    refine ⟨h.mac, ?_, ?_⟩
    · intro i j v u path hv hu
      rw [getElem?_core, Option.map_eq_some_iff] at hv hu
      rcases hv with ⟨v, hv, rfl⟩
      rcases hu with ⟨u, hu, rfl⟩
      exact h.paths i j v u path hv hu
    · intro i v path hv
      rw [getElem?_core, Option.map_eq_some_iff] at hv
      rcases hv with ⟨v, hv, rfl⟩
      exact h.locked i v path hv

/-- The same for an entry of the table that may be no record. -/
def FitRecord (s : Server) (w : World) (v : Value) : Prop := ∀ r, coreOf v = some r → Fit s w r

theorem fitRecord_iff {s : Server} {w : World} {v : Value} :
    FitRecord s w v ↔ ∀ r, Wks.of? v = some r → Fit s w r := by
  unfold FitRecord coreOf
  constructor
  · intro h r hr
    rw [hr] at h
    exact fit_core.1 (h _ rfl)
  · intro h r hr
    rcases Option.map_eq_some_iff.1 hr with ⟨r₀, hr₀, rfl⟩
    exact fit_core.2 (h r₀ hr₀)

/-- Two records with different MACs. -/
def OtherVid (a b : Option Wks) : Prop := ∀ r r', a = some r → b = some r' → r.vid ≠ r'.vid

theorem OtherVid.of_records {v u : Value} {r r' : Wks} (h : OtherVid (coreOf v) (coreOf u))
    (hr : Wks.of? v = some r) (hr' : Wks.of? u = some r') : r.vid ≠ r'.vid := by
  refine h r.core r'.core ?_ ?_
  · rw [coreOf, hr, Option.map_some]
  · rw [coreOf, hr', Option.map_some]

theorem otherVid_of_records {v u : Value}
    (h : ∀ r r', Wks.of? v = some r → Wks.of? u = some r' → r.vid ≠ r'.vid) :
    OtherVid (coreOf v) (coreOf u) := by
  intro r r' hr hr'
  rcases Option.map_eq_some_iff.1 hr with ⟨r₀, hr₀, rfl⟩
  rcases Option.map_eq_some_iff.1 hr' with ⟨r₁, hr₁, rfl⟩
  exact h r₀ r₁ hr₀ hr₁

structure Consistent (s : Server) (w : World) : Prop where
  mem : InMemory w.file.val
  server : Server.of? w.file.val = some s
  records : ∀ k, FitRecord s w ((wksOf w.file.val).get k)
  apart : AllPairs OtherVid w.file.val

/-- The slot that a posted record is stored in. -/
def Post.slot? (p : Post) : Option Int := p.tid?.bind Value.tonumber

/-- A posted record has a MAC that no other record has, its slots have paths of their
own, and a slot with a lock file has the type and the path that it has in the record
it replaces. -/
structure LeavesLocked (s : Server) (w : World) (p : Post) (r : Wks) : Prop where
  mac : IsMacId r.vid
  paths : r.OwnPaths
  new : ∀ k r', Wks.of? ((wksOf w.file.val).get k) = some r' → r'.vid = r.vid →
    p.slot?.map Key.num = some k
  locked : ∀ (i : Nat) (v : Img), r.img[i]? = some v → v.isDyn →
    w.lock (lockName s (i + 1) r.vid) = true → ∃ k r₀ v₀, p.slot?.map Key.num = some k ∧
      Wks.of? ((wksOf w.file.val).get k) = some r₀ ∧ r₀.vid = r.vid ∧ r₀.img[i]? = some v₀ ∧
      v₀.type = v.type ∧ v₀.path = v.path

/-- No edit changes a slot that has a lock file, and boots can make their children. -/
def KeepsLocked (s : Server) (w : World) : Event → Prop
  | .boot ip => ∀ k r, Booted w ip k s r → Created s r (w.step (.boot ip))
  | .post p => p.wksCmd = some "ApplyMy" → ∀ d, p.jsondata = some (some d) →
    ∀ r, Wks.of? (d.val.get "WKS") = some r → LeavesLocked s w p r
  | _ => True

section Events

variable {s : Server} {w : World} (hw : Consistent s w)

include hw

theorem Consistent.boot {ip : String} (hmade : KeepsLocked s w (.boot ip)) :
    Consistent s (w.step (.boot ip)) := by
  have hfile : (w.step (.boot ip)).file = w.file := (boot_shrinks ip w).file
  constructor
  · rw [hfile]
    exact hw.mem
  · rw [hfile]
    exact hw.server
  · intro k
    rw [hfile, fitRecord_iff]
    intro r hr
    have hfit := fitRecord_iff.1 (hw.records k) r hr
    refine ⟨hfit.mac, hfit.paths, ?_⟩
    by_cases hown : Booted w ip k s r
    · -- its own boot
      refine HalfLocked.locked ?_ (hmade k r hown)
      refine boot_keeps (I := HalfLocked s r) (fun _ _ hsame h => h.of_overlays hsame) ?_
        hfit.locked.half
      intro k' s' r' hb w' hw'
      have hs : s' = s := Option.some.inj (hb.server.symm.trans hw.server)
      have hk : k' = k := Option.some.inj (Option.some.inj (hb.id.symm.trans hown.id))
      subst hs hk
      obtain rfl : r = r' := Option.some.inj (hr.symm.trans hb.wks)
      exact mkChild_locked hfit.paths hw'
    · refine boot_keeps (I := Locked s r) (fun _ _ hsame h => h.of_overlays hsame) ?_ hfit.locked
      intro k' s' r' hb w' hw'
      have hs : s' = s := Option.some.inj (hb.server.symm.trans hw.server)
      subst hs
      have hk : k' ≠ k := by
        rintro rfl
        obtain rfl : r = r' := Option.some.inj (hr.symm.trans hb.wks)
        exact hown hb
      -- names with another MAC
      have hne : r'.vid ≠ r.vid := (hw.apart k' k hk).of_records hb.wks hr
      have hlen : r'.vid.length = r.vid.length :=
        (fitRecord_iff.1 (hw.records k') r' hb.wks).mac.1.trans hfit.mac.1.symm
      have helse := mkChild_elsewhere (s := s') (r := r') w'
      intro i v path hv hdyn hpath hlock
      rw [helse.lock _ fun j heq => hne (lockName_inj hlen.symm heq).2.symm] at hlock
      unfold LiveChild
      rw [helse.child _ fun q heq => hne (childName_inj hlen.symm heq).2.symm]
      exact hw' i v path hv hdyn hpath hlock
  · rw [hfile]
    exact hw.apart

theorem LeavesLocked.fit {p : Post} {r : Wks} (h : LeavesLocked s w p r) : Fit s w r := by
  refine ⟨h.mac, h.paths, ?_⟩
  intro i v path hv hdyn hpath hlock
  rcases h.locked i v hv hdyn hlock with ⟨k, r₀, v₀, -, hr₀, hvid, hv₀, htype, hpath₀⟩
  have hdyn₀ : v₀.isDyn := by
    unfold Img.isDyn
    rw [htype]
    exact hdyn
  have hlive := (fitRecord_iff.1 (hw.records k) r₀ hr₀).locked i v₀ path hv₀ hdyn₀
    (by rw [hpath₀, hpath]) (by rwa [hvid])
  unfold LiveChild Img.liveBase at hlive ⊢
  rw [hvid, htype] at hlive
  exact hlive

theorem Consistent.post {p : Post} (hp : KeepsLocked s w (.post p)) :
    Consistent s (w.step (.post p)) := by
  have hoverlays : (w.step (.post p)).overlays = w.overlays := by
    have hstores := post_stores p w
    simp only [World.stores, Prod.mk.injEq] at hstores
    show (exec (NsBoot.post p) w).final.overlays = _
    rw [World.overlays, World.overlays, hstores.1, hstores.2.1]
  constructor
  · exact hw.mem.post
  · exact (post_server hw.mem).trans hw.server
  · intro k
    have hrecords := post_records (P := FitRecord s w) (p := p) hw.mem hw.records
      (.of_core fun v v' hcore hv r hr => hv r (hcore ▸ hr)) ?_ ?_ ?_ ?_ k
    · intro r hr
      have hfit := hrecords r hr
      exact ⟨hfit.mac, hfit.paths, hfit.locked.of_overlays hoverlays⟩
    · intro hcmd d hd
      rw [fitRecord_iff]
      intro r hr
      exact LeavesLocked.fit hw (hp hcmd d hd r hr)
    · intro r hr
      cases hr
    · intro r hr
      cases hr
    · intro v htame hv r hr
      rw [htame.core_reload] at hr
      exact hv r hr
  · refine post_apart ?_ ?_ hw.mem hw.apart ?_
    · intro a r r' hr
      cases hr
    · intro a b hab r r' hr hr'
      exact (hab r' r hr' hr).symm
    · intro hcmd d n hd hn l hl
      refine otherVid_of_records ?_
      intro r r' hr hr' hvid
      have hslot := (hp hcmd d hd r hr).new l r' hr' hvid.symm
      rw [Post.slot?, hn, Option.map_some, Option.some.injEq] at hslot
      exact hl hslot.symm

/-- An event that changes the blocks of images only. -/
theorem Consistent.of_backing {w' : World} (hfile : w'.file = w.file) (hlock : w'.lock = w.lock)
    (hchild : ∀ f o, w.child f = some o → ∃ o', w'.child f = some o' ∧ o'.backing = o.backing) :
    Consistent s w' := by
  constructor
  · rw [hfile]
    exact hw.mem
  · rw [hfile]
    exact hw.server
  · intro k
    rw [hfile]
    intro r hr
    have hfit := hw.records k r hr
    exact ⟨hfit.mac, hfit.paths, hfit.locked.of_backing hlock hchild⟩
  · rw [hfile]
    exact hw.apart

theorem Consistent.write (k : Key) (i b data : Nat) : Consistent s (w.writeVia k i b data) := by
  rcases writeVia_cases w k i b data with hsame | ⟨f, o, -, ho, hnew⟩
  · rw [hsame]
    exact hw
  · rw [hnew]
    refine hw.of_backing rfl rfl ?_
    intro g o' ho'
    by_cases hg : g = f
    · subst hg
      rw [ho] at ho'
      cases ho'
      exact ⟨_, if_pos rfl, rfl⟩
    · exact ⟨o', by simp only [if_neg hg, ho'], rfl⟩

theorem Consistent.step (e : Event) (he : KeepsLocked s w e) : Consistent s (w.step e) := by
  cases e with
  | boot ip => exact hw.boot he
  | post p => exact hw.post he
  | write k i b data => exact hw.write k i b data
  | copy pid =>
    rcases copyBlock_stores w pid with ⟨hfile, hchild, hlock, -⟩
    exact hw.of_backing hfile hlock fun f o ho => ⟨o, by rw [World.step, hchild, ho], rfl⟩

end Events

/-- A boot up to the end of `mkChild`. -/
def bootToChild (s : Server) (r : Wks) : Sys Unit := do
  tgtstop s r
  let _ ← nbdFree s r
  zfsmount s r
  mkChild s r

theorem bootToChild_superLive {s : Server} {r : Wks} (hown : r.OwnPaths) {w w' : World}
    (hw : Locked s r w) (h : exec (bootToChild s r) w = .ok () w') (hmade : Created s r w') :
    SuperLive s r w' := by
  obtain ⟨_, w₁, hstop, h⟩ := exec_bind_ok_iff.1 h
  obtain ⟨_, w₂, hfree, h⟩ := exec_bind_ok_iff.1 h
  obtain ⟨_, w₃, hzfs, h⟩ := exec_bind_ok_iff.1 h
  have hdev {α : Type} {P : α → Prop} {x : Sys α} (hx : Does (DevAct s r) P x) {u u' : World}
      {a : α} (hok : exec x u = .ok a u') : u'.overlays = u.overlays :=
    (hx.weaken (S := fun _ => Same World.overlays) fun _ _ _ => DevAct.overlays).of_ok hok
  have h₁ : w₁.overlays = w.overlays :=
    hdev (tgtstop_does.weaken fun _ _ _ h => .stop (.kill h)) hstop
  have h₂ : w₂.overlays = w₁.overlays := hdev (nbdFree_does.weaken fun _ _ _ => .stop) hfree
  have h₃ : w₃.overlays = w₂.overlays := zfsmount_overlays.of_ok hzfs
  exact mkChild_superLive hown (hw.of_overlays (h₃.trans (h₂.trans h₁))) h hmade

/-- The record of the workstation as the page posts it, with another first disk. -/
def editedRecord (disk : String) : Value :=
  .table [("mac", .str "b4:2e:99:2c:dd:52"), ("ipv4", .str "192.168.0.3"), ("name", .str "PC001"),
    ("enable", .str "1"), ("tid", .str "1"), ("supper", .str "0"), ("fileboot", .str "ipxe"),
    ("img", array [shippedSlot disk "dyndisk" 1 1, shippedSlot "lord.qcow2" "dynblock" 0 1,
      shippedSlot "" "iso" 0 0]),
    ("opt", array [])]

def editDisk (disk : String) : Event :=
  .post ⟨some "1", none, none, some "ApplyMy",
    some (some (encode (.table [("WKS", editedRecord disk)])))⟩

/-- A machine with two images for the first disk. -/
def twoDisks : World :=
  World.initial (shippedCfg ⟨"", "", ""⟩
    [shippedWks 1 "b4:2e:99:2c:dd:52" "192.168.0.3" "PC001" "win10cc.qcow2" "lord.qcow2"])
    ["/srv/images/boot/win10cc.qcow2", "/srv/images/boot/win11.qcow2",
      "/dev/zvol/nsboot0/images/storages/lord.qcow2"]

/-- An edit of the disk before the first session. -/
def editedFirst : List Event := [editDisk "win11.qcow2", superOn]

/-- The record after it. -/
def editedSuper : Wks where
  mac := "b4:2e:99:2c:dd:52"
  ipv4 := .str "192.168.0.3"
  tid := .str "1"
  enable := .str "1"
  supper := .str "1"
  img := [⟨.str "win11.qcow2", .str "dyndisk", .num 1, .str "1", .num 1, .str "unsafe"⟩,
    ⟨.str "lord.qcow2", .str "dynblock", .num 1, .num 0, .num 0, .str "unsafe"⟩,
    ⟨.str "", .str "iso", .num 0, .num 0, .num 0, .str "unsafe"⟩]

theorem ownPaths_of_pairwise {r : Wks} (h : r.img.Pairwise fun v u =>
    v.isDyn → u.isDyn → v.path.concat? ≠ u.path.concat?) : r.OwnPaths := by
  rw [List.pairwise_iff_getElem] at h
  intro i j v u path hv hu hvd hud hp hq
  rcases List.getElem?_eq_some_iff.1 hv with ⟨hi, rfl⟩
  rcases List.getElem?_eq_some_iff.1 hu with ⟨hj, rfl⟩
  rcases Nat.lt_trichotomy i j with hlt | heq | hgt
  · exact absurd (hp.trans hq.symm) (h i j hi hj hlt hvd hud)
  · exact heq
  · exact absurd (hq.trans hp.symm) (h j i hj hi hgt hud hvd)

/-- A record of the workstation, with paths of their own for its slots. -/
def SameStation (r : Wks) : Prop :=
  r.vid = "b42e992cdd52" ∧ r.img.Pairwise fun v u =>
    v.isDyn → u.isDyn → v.path.concat? ≠ u.path.concat?

instance : DecidablePred SameStation := fun _ => inferInstanceAs (Decidable (_ ∧ _))

theorem sameStation_of_all {v : Value}
    (h : (Wks.of? v).all (fun r => decide (SameStation r)) = true)
    {r : Wks} (hr : Wks.of? v = some r) : SameStation r := by
  rw [hr, Option.all_some, decide_eq_true_iff] at h
  exact h

theorem SameStation.fit {r : Wks} (h : SameStation r) : IsMacId r.vid ∧ r.OwnPaths := by
  refine ⟨?_, ownPaths_of_pairwise h.2⟩
  rw [h.1]
  decide +kernel

theorem twoDisks_keys : HasKeys 1 twoDisks.file.val := ⟨_, rfl, by decide +kernel⟩

/-- The only key of a table with one record. -/
theorem key_of_record {c : Value} (h : HasKeys 1 c) {k : Key} {r : Wks}
    (hr : Wks.of? ((wksOf c).get k) = some r) : k = .num 1 := by
  by_contra hk
  have hnot : k ∉ seqKeys 1 := by
    rw [show seqKeys 1 = [Key.num 1] from rfl, List.mem_singleton]
    exact hk
  rw [h.get_eq_nil hnot] at hr
  cases hr

/-- A session that is dropped, an edit of the disk before the next boot, and a second
session. -/
def editedSession : List Event :=
  [superOn, .boot "192.168.0.3", superEnd "disableUncommit", editDisk "win11.qcow2",
    .boot "192.168.0.3", superOn]

end NsBoot
