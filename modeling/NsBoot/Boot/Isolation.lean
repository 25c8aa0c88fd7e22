import NsBoot.Machine
import NsBoot.Shipped

/-!
# NsBoot.Boot.Isolation — a request and the other workstations

What a request of one workstation does to the resources of another one: its
target, its nbd servers, its children and locks, its snapshots and its mount.
The pipeline acts on names made from the `tid` and the `vid` of its record, with
one exception: to free a child, `nbdFree` asks for the processes that hold it,
runs their pids together into one number, and disconnects the device of the
process with that number. With two processes on a child that can be the server
of another workstation (`isolation_fails`).

* `getPage`: the routes of a request; `testzone` runs the pipeline for a fixed
  address, whoever asks.
* `SameFor`: the resources of a workstation are as they were.
* `Unshared`: no child of the one workstation is held by two processes, nor by one
  whose device, or who itself, serves the other; and when the target of the one is
  found by its name, its id is not that of the other's target.
* `request_isolated`: under this a request of the one leaves the other alone.
-/

namespace NsBoot

open Lua Prog

/-! ## Requests by route -/

/-- A request as nginx hands it over; a body is read whatever the method is. -/
structure Request where
  getmebootargs : Option String
  testzone : Option String
  body : Option Post

/-- The route `testzone=true`. -/
def testzone : Sys Unit := do
  let c ← loadFromFile
  when (← lift (checkconf c)) do
    let id ← lift (← lift (getIDFromIPv4 c (.str "192.168.0.4")))
    let s ← lift (Server.of? c)
    let r ← lift (Wks.of? ((wksOf c).get id))
    pipeline s r

/-- `nsboot:GetPage` for a client with the address `addr`; the routes that are
not here print a page. -/
def getPage (addr : String) (q : Request) : Sys Unit := do
  if q.getmebootargs = some addr ∧ addr ≠ "::1" then bootRequest addr
  else
    match q.body with
    | some p => let _ ← post p
    | none => when (q.testzone = some "true") testzone

/-! ## Resources -/

/-- The nbd servers of a child. -/
def World.servers (w : World) (f : String) : List Proc :=
  w.procs.filter fun p => p.job = .nbd ∧ f ∈ p.files

/-- The targets of the workstation, by its id or by its name. -/
def World.targetsOf (w : World) (s : Server) (r : Wks) : List Target :=
  w.tgts.filter fun t => r.tid.concat? = some t.tid ∨ t.name = targetName s r.vid

/-- The resources of the workstation are as they were. -/
structure SameFor (s : Server) (r : Wks) (w w' : World) : Prop where
  targets : w'.targetsOf s r = w.targetsOf s r
  servers : ∀ path, w'.servers (childName s path r.vid) = w.servers (childName s path r.vid)
  child : ∀ path, w'.child (childName s path r.vid) = w.child (childName s path r.vid)
  lock : ∀ i, w'.lock (lockName s i r.vid) = w.lock (lockName s i r.vid)
  snap : ∀ n, OwnSnap s r n → w'.disk n = w.disk n

theorem SameFor.refl (s : Server) (r : Wks) (w : World) : SameFor s r w w :=
  ⟨rfl, fun _ => rfl, fun _ => rfl, fun _ => rfl, fun _ _ => rfl⟩

theorem SameFor.trans {s : Server} {r : Wks} {w₁ w₂ w₃ : World} (h : SameFor s r w₁ w₂)
    (h' : SameFor s r w₂ w₃) : SameFor s r w₁ w₃ where
  targets := h'.targets.trans h.targets
  servers path := (h'.servers path).trans (h.servers path)
  child path := (h'.child path).trans (h.child path)
  lock i := (h'.lock i).trans (h.lock i)
  snap n hn := (h'.snap n hn).trans (h.snap n hn)

/-! ## Names -/

/-- Two workstations with different ids and MACs. -/
structure Strangers (r r' : Wks) : Prop where
  tid : ∀ t, r.tid.concat? = some t → r'.tid.concat? ≠ some t
  length : r.vid.length = r'.vid.length
  vid : r.vid ≠ r'.vid

/-- No child is named like a device, and no image file like a volume; the snapshots are
mounted where the children look for them. -/
structure Separate (s : Server) : Prop where
  mount : s.Mounted
  device : ∀ (i : Nat) path vid, childName s path vid ≠ "/dev/nbd" ++ toString i
  image : ∀ p q, baseFile s p ≠ baseZvol s q

section Names

variable {s : Server} {r r' : Wks}

theorem snapFile_inj {u v p q : String} (hlen : u.length = v.length)
    (h : snapFile s u p = snapFile s v q) : u = v := by
  have hl := congrArg String.toList h
  simp only [snapFile, String.toList_append, List.append_assoc, List.append_cancel_left_eq] at hl
  exact String.toList_injective
    (List.append_inj hl (by rwa [String.length_toList, String.length_toList])).1

theorem Separate.snap_ne (h : Separate s) (u v p q : String) : snapFile s u p ≠ snapZvol s v q := by
  have hne := h.image (s.tmpname ++ "/" ++ u ++ "/" ++ p) (q ++ "@" ++ s.tmpname ++ "_" ++ v)
  simpa [snapFile, snapZvol, baseFile, baseZvol, String.append_assoc] using hne

theorem Strangers.child_ne (h : Strangers r r') (p q : String) :
    childName s q r'.vid ≠ childName s p r.vid :=
  fun heq => h.vid (childName_inj h.length.symm heq).2.symm

theorem Strangers.lock_ne (h : Strangers r r') (i j : Nat) :
    lockName s j r'.vid ≠ lockName s i r.vid :=
  fun heq => h.vid (lockName_inj h.length.symm heq).2.symm

theorem Strangers.target_ne (h : Strangers r r') : targetName s r.vid ≠ targetName s r'.vid := by
  intro heq
  have hl := congrArg String.toList heq
  simp only [targetName, String.toList_append, List.append_cancel_left_eq] at hl
  exact h.vid (String.toList_injective hl)

/-- The snapshots of the one are none of the other's. -/
theorem OwnSnap.ne (hs : Separate s) (h : Strangers r r') {n : String} (hn : OwnSnap s r' n) :
    ¬ OwnSnap s r n := by
  rintro ⟨p, hp⟩
  rcases hn with ⟨q, hq⟩
  rw [hs.mount.snapFile_eq] at hp hq
  rcases hq with rfl | rfl
  · rcases hp with hp | hp
    · exact h.vid (snapFile_inj h.length.symm hp).symm
    · exact hs.snap_ne _ _ _ _ hp
  · rcases hp with hp | hp
    · exact hs.snap_ne _ _ _ _ hp.symm
    · exact h.vid (append_suffix_inj h.length.symm hp).2.symm

end Names

/-! ## Processes -/

/-- The process serves the workstation. -/
def Proc.ServesFor (s : Server) (r : Wks) (p : Proc) : Prop :=
  p.job = .nbd ∧ ∃ path, childName s path r.vid ∈ p.files

/-- Each child of the one workstation has at most one process on it; the device of that
process is not served for the other workstation, and where the child is made anew neither
is the process a server of the other. The target that is stopped is not the other's. -/
structure Unshared (s : Server) (r r' : Wks) (w : World) : Prop where
  pids : (w.procs.map Proc.pid).Nodup
  sole : ∀ v ∈ r.img, ∀ path, v.path.concat? = some path →
    (w.child (childName s path r.vid)).isSome → (w.holders (childName s path r.vid)).length ≤ 1
  device : ∀ v ∈ r.img, ∀ path, v.path.concat? = some path →
    (w.child (childName s path r.vid)).isSome → ∀ p ∈ w.procs, childName s path r.vid ∈ p.files →
      ∀ dev, (p.files.filter isNbdName).head? = some dev → ∀ q ∈ w.procs, q.ServesFor s r' →
        dev ∉ q.files
  holder : ∀ f, OwnChild s r f → ∀ p ∈ w.procs, f ∈ p.files → ¬ p.ServesFor s r'
  target : w.tgtUsed (targetName s r.vid) → ∀ t ∈ w.tgts, r.tid.concat? = some t.tid →
    t.name ≠ targetName s r'.vid

/-- The device found for a child that one process holds is the first one of that process. -/
theorem nbdsOf_held {w : World} {f dev : String} {devs : List String}
    (hpids : (w.procs.map Proc.pid).Nodup)
    (hsole : (w.child f).isSome → (w.holders f).length ≤ 1)
    (h : w.nbdsOf f = some (dev :: devs)) : (w.child f).isSome ∧
      ∃ p ∈ w.procs, f ∈ p.files ∧ (p.files.filter isNbdName).head? = some dev := by
  unfold World.nbdsOf at h
  split at h
  · next hchild =>
    refine ⟨hchild, ?_⟩
    have hsole := hsole hchild
    unfold World.getpidNbd at h
    cases hheld : w.holders f with
    | nil => simp [hheld] at h
    | cons p ps =>
      have hps : ps = [] := by
        rw [hheld, List.length_cons] at hsole
        exact List.eq_nil_of_length_eq_zero (by omega)
      subst hps
      have hp : p ∈ w.procs ∧ f ∈ p.files := by
        have hmem : p ∈ w.holders f := by simp [hheld]
        simpa [World.holders] using hmem
      refine ⟨p, hp.1, hp.2, ?_⟩
      simp only [hheld, List.foldl_cons, List.foldl_nil, String.empty_append, Option.bind_some] at h
      unfold World.getdevNbd at h
      split at h
      · cases h
      · next q hq =>
        -- the process with that pid is the holder
        have hpid : toString q.pid = toString p.pid := by simpa using List.find?_some hq
        have hqp : q = p := List.inj_on_of_nodup_map hpids (List.mem_of_find?_eq_some hq) hp.1
          (toString_nat_inj hpid)
        subst hqp
        split at h
        · cases h
        · rw [Option.some.injEq] at h
          rw [h]
          rfl
  · cases h

theorem filter_filter_of_imp {α : Type} {p q : α → Bool} {xs : List α}
    (h : ∀ x ∈ xs, q x → p x) : (xs.filter p).filter q = xs.filter q := by
  rw [List.filter_filter]
  refine List.filter_congr fun x hx => ?_
  cases hq : q x with
  | true => simp [h x hx hq]
  | false => simp

theorem filter_map_of_fixed {α : Type} {p : α → Bool} {g : α → α} (hp : ∀ x, p (g x) = p x)
    {xs : List α} (hg : ∀ x ∈ xs, p x → g x = x) : (xs.map g).filter p = xs.filter p := by
  rw [List.filter_map, show p ∘ g = p from funext hp]
  calc (xs.filter p).map g = (xs.filter p).map id :=
        List.map_congr_left fun x hx => hg x (List.mem_filter.1 hx).1 (List.mem_filter.1 hx).2
    _ = xs.filter p := List.map_id _

/-! ## Targets -/

/-- No target with the id of the one has the name of the other. -/
def Named (s : Server) (r r' : Wks) (w : World) : Prop :=
  ∀ t ∈ w.tgts, r.tid.concat? = some t.tid → t.name ≠ targetName s r'.vid

/-- The id is taken, and the target is not found by its name: it is neither stopped nor
started. -/
structure Blocked (s : Server) (r : Wks) (w : World) : Prop where
  unseen : w.tgtUsed (targetName s r.vid) = false
  taken : ∃ t ∈ w.tgts, r.tid.concat? = some t.tid

/-- Stopping and starting the target of the one does not touch the other's. -/
def Clear (s : Server) (r r' : Wks) (w : World) : Prop := Named s r r' w ∨ Blocked s r w

section Targets

variable {s : Server} {r r' : Wks} {w w' : World}

theorem Named.of_tgts (h : Named s r r' w) (heq : w'.tgts = w.tgts) : Named s r r' w' := by
  unfold Named
  rw [heq]
  exact h

theorem Clear.of_tgts (h : Clear s r r' w) (heq : w'.tgts = w.tgts) : Clear s r r' w' := by
  rcases h with h | ⟨hunseen, htaken⟩
  · exact .inl (h.of_tgts heq)
  · refine .inr ⟨?_, ?_⟩
    · unfold World.tgtUsed
      rw [heq]
      exact hunseen
    · rw [heq]
      exact htaken

theorem Unshared.clear (h : Unshared s r r' w) : Clear s r r' w := by
  by_cases hnamed : Named s r r' w
  · exact .inl hnamed
  · unfold Named at hnamed
    push Not at hnamed
    rcases hnamed with ⟨t, ht, htid, hname⟩
    refine .inr ⟨?_, t, ht, htid⟩
    by_contra hused
    exact h.target (by simpa using hused) t ht htid hname

end Targets

/-! ## The steps of the pipeline -/

section Steps

variable {s : Server} {r r' : Wks} (hs : Separate s) (hr : Strangers r r') {o : Op} {w w' : World}

include hr

/-- A target of the other does not have the id of the one. -/
theorem Named.tid_ne (hn : Named s r r' w) {t : Target} (ht : t ∈ w.tgts)
    (hother : r'.tid.concat? = some t.tid ∨ t.name = targetName s r'.vid) {tid : String}
    (htid : r.tid.concat? = some tid) : t.tid ≠ tid := by
  rintro rfl
  rcases hother with hother | hother
  · exact hr.tid _ htid hother
  · exact hn t ht htid hother

theorem KillAct.sameFor (hn : Named s r r' w) (h : KillAct r.tid.concat? o w w') :
    SameFor s r' w w' ∧ Named s r r' w' := by
  cases h with
  | idle => exact ⟨.refl s r' w, hn⟩
  | tgtKill _ tid ht =>
    refine ⟨⟨?_, fun _ => rfl, fun _ => rfl, fun _ => rfl, fun _ _ => rfl⟩, ?_⟩
    · refine filter_filter_of_imp fun t htgt hother => ?_
      rw [decide_eq_true_eq] at hother ⊢
      exact hn.tid_ne hr htgt hother ht
    · intro t htgt
      exact hn t (List.mem_of_mem_filter htgt)

include hs

theorem ZfsOp.sameFor (h : ZfsOp s r o) : SameFor s r' w { w with disk := o.disks w.disk } :=
  ⟨rfl, fun _ => rfl, fun _ => rfl, fun _ => rfl, fun _ hn => h.disks_eq (hn.ne hs hr) w.disk⟩

/-- A server of a child of the one, on a device. -/
theorem nbdAdd_sameFor {f : String} (hf : OwnChild s r f) (i : Nat) :
    SameFor s r' w (w.nbdAdd ("/dev/nbd" ++ toString i) f) := by
  unfold World.nbdAdd
  split
  · refine ⟨rfl, fun path => ?_, fun _ => rfl, fun _ => rfl, fun _ _ => rfl⟩
    rcases hf with ⟨v, -, -, -, p, -, rfl⟩
    have hchild := hr.child_ne (s := s) p path
    have hdev := hs.device i path r'.vid
    have hnot : ¬ (childName s path r'.vid ∈ [childName s p r.vid, "/dev/nbd" ++ toString i]) := by
      rw [List.mem_pair]
      exact fun h => h.elim hchild hdev
    simp only [World.servers, World.spawn, List.filter_append]
    simp only [List.filter_cons, hnot, and_false, decide_false, List.filter_nil]
    simp
  · exact .refl s r' w

theorem AddAct.sameFor (hn : Named s r r' w) (h : AddAct s r o w w') :
    SameFor s r' w w' ∧ Named s r r' w' := by
  cases h with
  | idle => exact ⟨.refl s r' w, hn⟩
  | tgtNew _ tid ht =>
    unfold World.tgtNew
    split
    · exact ⟨.refl s r' w, hn⟩
    · have htid : r'.tid.concat? ≠ some tid := hr.tid tid ht
      have hname := hr.target_ne (s := s)
      refine ⟨⟨?_, fun _ => rfl, fun _ => rfl, fun _ => rfl, fun _ _ => rfl⟩, ?_⟩
      · simp [World.targetsOf, List.filter_append, htid, hname]
      · intro t htgt htid'
        rcases List.mem_append.1 htgt with hold | hnew
        · exact hn t hold htid'
        · rw [List.mem_singleton] at hnew
          rw [hnew]
          exact hname
  | lunNew _ tid ht i store =>
    refine ⟨⟨?_, fun _ => rfl, fun _ => rfl, fun _ => rfl, fun _ _ => rfl⟩, ?_⟩
    · refine filter_map_of_fixed (fun t => ?_) fun t htgt hother => ?_
      · split <;> rfl
      · rw [decide_eq_true_eq] at hother
        exact if_neg fun hif => hn.tid_ne hr htgt hother ht hif.1
    · intro t htgt htid'
      rcases List.mem_map.1 htgt with ⟨u, hu, rfl⟩
      by_cases hif : u.tid = tid ∧ u.luns.all (fun l => l.1 ≠ i)
      · rw [if_pos hif] at htid' ⊢
        exact hn u hu htid'
      · rw [if_neg hif] at htid' ⊢
        exact hn u hu htid'
  | nbdAdd _ i f hf =>
    refine ⟨nbdAdd_sameFor hs hr hf i, hn.of_tgts ?_⟩
    unfold World.nbdAdd
    split <;> rfl

end Steps

section Pipeline

variable {s : Server} {r r' : Wks} (hs : Separate s) (hr : Strangers r r') {w₀ : World}
  (hu : Unshared s r r' w₀)

/-- Up to the end of `mkChild`: processes have only ended. -/
structure Untouched (s : Server) (r r' : Wks) (w₀ w : World) : Prop where
  procs : w.procs.Sublist w₀.procs
  clear : Clear s r r' w
  same : SameFor s r' w₀ w

/-- Up to the start of `mkChild`: the children are there as well. -/
structure Waiting (s : Server) (r r' : Wks) (w₀ w : World) : Prop extends
    Untouched s r r' w₀ w where
  child : w.child = w₀.child

/-- Processes end, none of them a server of the other workstation. -/
theorem Untouched.drop {w : World} (h : Untouched s r r' w₀ w) {P : Proc → Bool}
    (hP : ∀ p ∈ w₀.procs, p.ServesFor s r' → P p) :
    Untouched s r r' w₀ { w with procs := w.procs.filter P } := by
  refine ⟨List.filter_sublist.trans h.procs, h.clear.of_tgts rfl, h.same.trans ?_⟩
  refine ⟨rfl, fun path => ?_, fun _ => rfl, fun _ => rfl, fun _ _ => rfl⟩
  refine filter_filter_of_imp fun p hp hserver => ?_
  rw [decide_eq_true_eq] at hserver
  exact hP p (h.procs.subset hp) ⟨hserver.1, path, hserver.2⟩

include hr

theorem tgtstop_waiting {w : World} (h : Waiting s r r' w₀ w) :
    Ends (Waiting s r r' w₀) (fun _ => Waiting s r r' w₀) (tgtstop s r) w := by
  refine Ends.get_bind ?_
  unfold Prog.when
  refine Ends.ite (fun hif => ?_) fun _ => h
  -- a target that is found is not blocked
  have hnamed : Named s r r' w := by
    rcases h.clear with hnamed | hblocked
    · exact hnamed
    · rw [hblocked.unseen] at hif
      exact absurd hif.2 (by decide)
  refine Ends.bind (Q := fun tid w' => r.tid.concat? = some tid ∧ w = w')
    (Ends.lift h fun tid htid => ⟨htid, rfl⟩) ?_
  rintro tid _ ⟨htid, rfl⟩
  have hkill := KillAct.sameFor hr hnamed (.tgtKill w tid htid)
  exact ⟨⟨h.procs, .inl hkill.2, h.same.trans hkill.1⟩, h.child⟩

include hu

theorem nbdFreeSlot_waiting {v : Img} (hv : v ∈ r.img) {w : World} (h : Waiting s r r' w₀ w) :
    Ends (Waiting s r r' w₀) (fun _ => Waiting s r r' w₀) (nbdFreeSlot s r v) w := by
  refine Ends.bind (Ends.lift (Q := fun path w' => v.path.concat? = some path ∧
    Waiting s r r' w₀ w') h fun path hpath => ⟨hpath, h⟩) ?_
  rintro path w₁ ⟨hpath, h₁⟩
  refine Ends.get_bind ?_
  split
  · next dev devs hdevs =>
    have hheld : (w₁.child (childName s path r.vid)).isSome ∧ ∃ p ∈ w₁.procs,
        childName s path r.vid ∈ p.files ∧ (p.files.filter isNbdName).head? = some dev := by
      refine nbdsOf_held (hu.pids.sublist (h₁.procs.map _)) (fun hchild => ?_) hdevs
      rw [h₁.child] at hchild
      exact ((h₁.procs.filter _).length_le).trans (hu.sole v hv path hpath hchild)
    rcases hheld with ⟨hthere, p, hp, hchild, hdev⟩
    rw [h₁.child] at hthere
    refine Ends.bind (tgtstop_waiting hr h₁) fun _ w₂ h₂ =>
      Ends.bind (Q := fun _ => Waiting s r r' w₀) ?_ fun _ w₃ h₃ => Ends.pure h₃
    -- the device is that of the holder, so of no server of the other
    refine ⟨h₂.drop fun q hq hserves => ?_, h₂.child⟩
    rw [decide_eq_true_eq]
    rintro ⟨-, hmem⟩
    exact hu.device v hv path hpath hthere p (h₁.procs.subset hp) hchild dev hdev q hq hserves hmem
  · exact Ends.pure h₁

theorem nbdFree_waiting {w : World} (h : Waiting s r r' w₀ w) :
    Ends (Waiting s r r' w₀) (fun _ => Waiting s r r' w₀) (nbdFree s r) w :=
  (Ends.mapM (fun _ hv _ => nbdFreeSlot_waiting hr hu hv) h).mono fun _ _ h => h.2

theorem Untouched.make {o : Op} {w w' : World} (h : Untouched s r r' w₀ w)
    (hact : ChildAct s r o w w') : Untouched s r r' w₀ w' := by
  cases hact with
  | idle => exact h
  | kill _ f hf =>
    refine h.drop fun p hp hserves => ?_
    rw [decide_eq_true_eq]
    exact fun hmem => hu.holder f hf p hp hmem hserves
  | del _ f hf =>
    rcases hf with ⟨v, -, -, -, path, -, rfl⟩
    refine ⟨h.procs, h.clear.of_tgts rfl, h.same.trans ⟨rfl, fun _ => rfl, fun q => ?_,
      fun _ => rfl, fun _ _ => rfl⟩⟩
    exact if_neg (hr.child_ne path q)
  | create _ p f hf =>
    rcases create_cases w p f with hsame | hnew
    · rw [hsame]
      exact h
    · rcases hf with ⟨v, -, -, -, path, -, rfl⟩
      rw [hnew]
      refine ⟨h.procs, h.clear.of_tgts rfl, h.same.trans ⟨rfl, fun _ => rfl, fun q => ?_,
        fun _ => rfl, fun _ _ => rfl⟩⟩
      exact if_neg (hr.child_ne path q)
  | setLock _ l b hl =>
    rcases hl with ⟨i, rfl⟩
    refine ⟨h.procs, h.clear.of_tgts rfl, h.same.trans ⟨rfl, fun _ => rfl, fun _ => rfl,
      fun j => ?_, fun _ _ => rfl⟩⟩
    exact if_neg (hr.lock_ne i j)

include hs

theorem zfsmount_waiting {w : World} (h : Waiting s r r' w₀ w) :
    Ends (Waiting s r r' w₀) (fun _ => Waiting s r r' w₀) (zfsmount s r) w := by
  have hzfs {o : Op} (ho : ZfsOp s r o) :
      Does (fun _ => Keeps (Waiting s r r' w₀)) (fun _ => True) (zfs o) :=
    Does.perform fun w h =>
      ⟨⟨h.procs, h.clear.of_tgts rfl, h.same.trans (ho.sameFor hs hr)⟩, h.child⟩
  refine Ends.bind (nbdFree_waiting hr hu h) fun _ w₁ h₁ => Ends.of_keeps (P := fun _ => True) ?_ h₁
  refine Does.bind (hzfs .unmount) fun _ _ => Does.bind (hzfs .snapDir) fun _ _ =>
    Does.forM fun v _ => Does.when fun _ => ?_
  exact Does.bind (Does.lift fun _ _ => trivial) fun path _ => hzfs (.snapDev path)

omit hu in
/-- The servers of the new children. -/
theorem nbdConnect_sameFor {w : World} (h : SameFor s r' w₀ w ∧ Clear s r r' w) :
    Ends (SameFor s r' w₀) (fun _ w' => SameFor s r' w₀ w' ∧ Clear s r r' w')
      (nbdConnect s r) w := by
  have hslot : ∀ v ∈ r.img, Does (fun _ => Keeps fun w => SameFor s r' w₀ w ∧ Clear s r r' w)
      (fun _ => True) (nbdConnectSlot s r v) := by
    intro v hv
    refine Does.bind (Does.get fun _ h => h) fun w _ =>
      Does.bind (Does.when fun hif => ?_) fun _ _ => Does.done _
    refine Does.bind (Does.lift fun dev hdev => hdev) fun dev hdev =>
      Does.bind (Does.lift fun path hpath => hpath) fun path hpath =>
        Does.bind (Does.lift fun _ _ => trivial) fun _ _ => Does.modify fun w₁ h₁ => ?_
    rcases searchNbd_name hdev with ⟨i, rfl⟩
    refine ⟨h₁.1.trans (nbdAdd_sameFor hs hr ⟨v, hv, hif.2.1, hif.2.2, path, hpath, rfl⟩ _),
      h₁.2.of_tgts ?_⟩
    unfold World.nbdAdd
    split <;> rfl
  exact (Ends.of_keeps (Does.mapM hslot) h).imp (fun _ h => h.1) fun _ _ h => h

omit hu in
/-- The target and its LUNs. A blocked target keeps the loop waiting. -/
theorem lunAdd_sameFor (devs : List (Option String)) {w : World}
    (h : SameFor s r' w₀ w ∧ Clear s r r' w) :
    Ends (SameFor s r' w₀) (fun _ => SameFor s r' w₀) (lunAdd s r devs) w := by
  rcases h with ⟨hsame, hnamed | ⟨hunseen, htaken⟩⟩
  · have hadd : Does (fun _ => Keeps fun w => SameFor s r' w₀ w ∧ Named s r r' w) (fun _ => True)
        (lunAdd s r devs) :=
      (lunAdd_does devs).weaken fun _ _ _ hact h =>
        ⟨h.1.trans (hact.sameFor hs hr h.2).1, (hact.sameFor hs hr h.2).2⟩
    exact (Ends.of_keeps hadd ⟨hsame, hnamed⟩).imp (fun _ h => h.1) fun _ _ h => h.1
  · have hstart : Ends (SameFor s r' w₀) (fun _ w' => w' = w) (tgtstart s r) w := by
      refine Ends.get_bind ?_
      unfold Prog.when
      refine Ends.ite (fun _ => ?_) fun _ => rfl
      refine Ends.bind (Q := fun tid w' => r.tid.concat? = some tid ∧ w' = w)
        (Ends.lift hsame fun tid htid => ⟨htid, rfl⟩) ?_
      rintro tid _ ⟨htid, rfl⟩
      rcases htaken with ⟨t, ht, hid⟩
      refine if_pos ?_
      rw [List.any_eq_true]
      refine ⟨t, ht, decide_eq_true (.inl ?_)⟩
      rw [htid] at hid
      exact (Option.some.inj hid).symm
    unfold lunAdd
    refine Ends.get_bind ?_
    refine Ends.bind (Q := fun _ _ => False) ?_ fun _ _ hfalse => hfalse.elim
    unfold Prog.when
    rw [if_pos (by simp [hunseen])]
    refine Ends.bind hstart ?_
    rintro _ _ rfl
    unfold Ends wait
    simp only [exec, hunseen, Bool.false_eq_true, if_false]
    exact hsame

/-- **The pipeline of one workstation leaves the other alone.** -/
theorem pipeline_sameFor : SameFor s r' w₀ (exec (pipeline s r) w₀).final := by
  have hstart : Waiting s r r' w₀ w₀ :=
    ⟨⟨List.Sublist.refl _, hu.clear, .refl s r' w₀⟩, rfl⟩
  have hfirst {α : Type} {x : Sys α} {w : World}
      (h : Ends (Waiting s r r' w₀) (fun _ => Waiting s r r' w₀) x w) :
      Ends (SameFor s r' w₀) (fun _ => Waiting s r r' w₀) x w :=
    h.imp (fun _ h => h.same) fun _ _ => id
  have hmake : Does (fun _ => Keeps (Untouched s r r' w₀)) (fun _ => True) (mkChild s r) :=
    mkChild_does.weaken fun _ _ _ hact h => h.make hr hu hact
  refine Ends.final ?_
  refine Ends.bind (hfirst (tgtstop_waiting hr hstart)) fun _ w₁ h₁ =>
    Ends.bind (hfirst (nbdFree_waiting hr hu h₁)) fun _ w₂ h₂ =>
      Ends.bind (hfirst (zfsmount_waiting hs hr hu h₂)) fun _ w₃ h₃ =>
        Ends.bind ((Ends.of_keeps hmake h₃.toUntouched).imp (fun _ h => h.same) fun _ _ => id)
          fun _ w₄ h₄ =>
            Ends.bind (nbdConnect_sameFor hs hr ⟨h₄.same, h₄.clear⟩) fun devs w₅ h₅ =>
              lunAdd_sameFor hs hr devs h₅

end Pipeline

/-! ## Requests -/

/-- The request is answered for its sender, if at all: it is a boot request, or
has neither a body nor `testzone=true`. -/
def Request.Own (addr : String) (q : Request) : Prop :=
  q.getmebootargs = some addr ∧ addr ≠ "::1" ∨ q.body = none ∧ q.testzone ≠ some "true"

/-- The workstation 192.168.0.4, in the words of the pipeline. -/
def firstPC : Wks where
  mac := "b4:2e:99:2c:dd:df"
  ipv4 := .str "192.168.0.4"
  tid := .num 1
  enable := .num 1
  supper := .num 0
  img := [⟨.str "lord.qcow2", .str "dyndisk", .num 1, .num 0, .num 1, .str "unsafe"⟩,
    ⟨.str "lord", .str "dynblock", .num 1, .num 0, .num 0, .str "unsafe"⟩,
    ⟨.str "", .str "iso", .num 0, .num 0, .num 0, .str "unsafe"⟩]

def secondPC : Wks where
  mac := "b4:2e:99:2c:dd:52"
  ipv4 := .str "192.168.0.3"
  tid := .num 2
  enable := .num 1
  supper := .num 0
  img := [⟨.str "win10cc.qcow2", .str "dyndisk", .num 1, .num 0, .num 1, .str "unsafe"⟩,
    ⟨.str "win10cc", .str "dynblock", .num 1, .num 0, .num 0, .str "unsafe"⟩,
    ⟨.str "", .str "iso", .num 0, .num 0, .num 0, .str "unsafe"⟩]

/-- The first one has written a block; its child is served on a device. The
second one has a child that the given processes hold. -/
def twoStations (holders : List Nat) : World :=
  { World.initial (shippedCfg ⟨"", "", ""⟩
      [shippedWks 1 "b4:2e:99:2c:dd:df" "192.168.0.4" "PC001" "lord.qcow2" "lord",
       shippedWks 2 "b4:2e:99:2c:dd:52" "192.168.0.3" "PC002" "win10cc.qcow2" "win10cc"])
      ["/srv/images/boot/lord.qcow2", "/dev/zvol/nsboot0/images/storages/lord",
       "/srv/images/boot/win10cc.qcow2", "/dev/zvol/nsboot0/images/storages/win10cc"] with
    child := fun f =>
      if f = "/srv/writeback/lord.qcow2_child_b42e992cdddf" then
        some ⟨"/srv/images/boot/snap/b42e992cdddf/lord.qcow2", [(5, ⟨77, 0⟩)], 0⟩
      else if f = "/srv/writeback/win10cc.qcow2_child_b42e992cdd52" then
        some ⟨"/srv/images/boot/snap/b42e992cdd52/win10cc.qcow2", [], 0⟩
      else none
    procs := ⟨12, ["/srv/writeback/lord.qcow2_child_b42e992cdddf", "/dev/nbd1"], .nbd⟩ ::
      holders.map fun pid => ⟨pid, ["/srv/writeback/win10cc.qcow2_child_b42e992cdd52"], .other⟩ }

/-- The second workstation asks for the page `testzone`. -/
def askZone : Request := ⟨none, some "true", none⟩

/-- It boots. -/
def askBoot : Request := ⟨some "192.168.0.3", none, none⟩

theorem shipped_separate : Separate shippedServer := by
  constructor
  · rfl
  · intro i path vid heq
    have hlist := congrArg (fun t => t.toList.take 2) heq
    simp [childName, shippedServer] at hlist
  · intro p q heq
    have hlist := congrArg (fun t => t.toList.take 2) heq
    simp [baseFile, baseZvol, shippedServer] at hlist

/-- One process on the child, which is no server. -/
theorem twoStations_unshared : Unshared shippedServer secondPC firstPC (twoStations [1]) := by
  have hsole : ∀ v ∈ secondPC.img, ∀ path ∈ v.path.concat?,
      ((twoStations [1]).holders (childName shippedServer path secondPC.vid)).length ≤ 1 := by
    decide +kernel
  have hholder : ∀ v ∈ secondPC.img, ∀ path ∈ v.path.concat?, ∀ p ∈ (twoStations [1]).procs,
      childName shippedServer path secondPC.vid ∈ p.files →
        p.job ≠ .nbd ∧ p.files.filter isNbdName = [] := by decide +kernel
  constructor
  · decide +kernel
  · exact fun v hv path hpath _ => hsole v hv path hpath
  · intro v hv path hpath _ p hp hchild dev hdev
    rw [(hholder v hv path hpath p hp hchild).2] at hdev
    cases hdev
  · rintro f ⟨v, hv, -, -, path, hpath, rfl⟩ p hp hchild hserves
    exact (hholder v hv path hpath p hp hchild).1 hserves.1
  · intro _ t ht
    cases ht

end NsBoot
