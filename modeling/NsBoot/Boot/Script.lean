import NsBoot.Boot.Free
import NsBoot.Boot.Loop
import NsBoot.Boot.Waits

/-!
# NsBoot.Boot.Script — the boot script and the LUNs

The boot script names a LUN for every slot with a boot flag. The script, `nbdConnect` and
`LunAdd` go through the slots each with their own tests.

* `tgtstop_unseen`: unless another target is taken for the workstation's, none is left
  when the pipeline begins.
* `nbdConnect_attached`: which devices serve the slots' children after `nbdConnect`.
* `lunAdd_ok`: the LUNs of the target that `LunAdd` makes.
* `pipeline_leftover`, `pipeline_detached`: what another target that is taken for the
  workstation's keeps, and that no child gets a device of its.
* `script_luns_iff`: when every LUN of the script is the slot's own image.
-/

namespace NsBoot

open Lua Prog

/-! ## The script's slots -/

section Printed

variable {s : Server} {r : Wks} {c : Value}

/-- The flags the script prints a line for. -/
def Img.Boots (v : Img) : Prop :=
  v.boot.tostring = "1" ∨ v.boot.tostring = "2" ∨ v.boot.tostring = "3"

instance (v : Img) : Decidable v.Boots := inferInstanceAs (Decidable (_ ∨ _ ∨ _))

/-- The script has a line with the slot's number. -/
def Printed (s : Server) (r : Wks) (c : Value) (i : Nat) (v : Img) : Prop :=
  ∃ line, rootLines s r c i v = some [line]

theorem mem_of_bootScript {script : List String} (h : bootScript s r c = some script) {i : Nat}
    {v : Img} (hv : (v, i) ∈ r.img.zipIdx 1) : ∃ lines, rootLines s r c i v = some lines := by
  unfold bootScript at h
  simp only [Option.bind_eq_bind, Option.bind_eq_some_iff] at h
  rcases h with ⟨roots, hroots, -⟩
  rcases mapM_eq_some_iff.1 hroots with ⟨hlen, hall⟩
  rcases List.mem_iff_getElem.1 hv with ⟨n, hn, hget⟩
  have hline := hall n hn
  rw [List.getElem?_eq_getElem hn, hget, List.getElem?_eq_getElem (hlen ▸ hn)] at hline
  exact ⟨_, hline.symm⟩

theorem printed_iff {script : List String} (h : bootScript s r c = some script) {i : Nat} {v : Img}
    (hv : (v, i) ∈ r.img.zipIdx 1) : Printed s r c i v ↔ v.Boots := by
  rcases mem_of_bootScript h hv with ⟨lines, hlines⟩
  unfold Printed Img.Boots
  unfold rootLines at hlines ⊢
  split at hlines
  · next h1 =>
    rcases Option.map_eq_some_iff.1 hlines with ⟨line, hline, -⟩
    simp [h1, hline]
  · next h1 =>
    split at hlines
    · next h2 =>
      rcases Option.map_eq_some_iff.1 hlines with ⟨line, hline, -⟩
      simp [h2, hline]
    · next h2 =>
      split at hlines
      · next h3 =>
        rcases Option.map_eq_some_iff.1 hlines with ⟨line, hline, -⟩
        simp [h3, hline]
      · next h3 => simp [h1, h2, h3]

end Printed

variable {s : Server} {r : Wks} {w w' : World}

/-! ## Targets -/

/-- No target but the one with the workstation's tid is taken for the workstation's. -/
def NoOther (s : Server) (r : Wks) (w : World) : Prop :=
  ∀ t ∈ w.tgts, Seen t (targetName s r.vid) → r.tid.concat? = some t.tid

instance (s : Server) (r : Wks) (w : World) : Decidable (NoOther s r w) :=
  inferInstanceAs (Decidable (∀ t ∈ w.tgts, Seen t (targetName s r.vid) → _ = some t.tid))

theorem tgtUsed_congr (h : w'.tgts = w.tgts) (name : String) :
    w'.tgtUsed name = w.tgtUsed name := by
  unfold World.tgtUsed
  rw [h]

theorem tgtstop_unseen (hup : w.services) (hother : NoOther s r w) {u : Unit}
    (h : exec (tgtstop s r) w = .ok u w') : ¬ w'.tgtUsed (targetName s r.vid) := by
  unfold tgtstop at h
  rw [exec_get_bind, exec_when_ok_iff] at h
  rcases h with ⟨-, h⟩ | ⟨hunused, h⟩
  · rw [exec_bind_ok_iff] at h
    rcases h with ⟨tid, w₁, hlift, hmodify⟩
    rw [exec_lift_ok_iff] at hlift
    rw [exec_modify_ok_iff] at hmodify
    rcases hlift with ⟨htid, rfl⟩
    rw [← hmodify, tgtUsed_iff]
    rintro ⟨t, ht, hseen⟩
    -- a target that is left has another tid
    rcases List.mem_filter.1 ht with ⟨ht, hne⟩
    have hsame := hother t ht hseen
    rw [htid, Option.some.injEq] at hsame
    simp [hsame] at hne
  · rw [← h]
    exact fun hused => hunused ⟨hup, hused⟩

/-- Once the target is gone nothing is stopped any more. -/
theorem nbdFree_tgts (h : ¬ w.tgtUsed (targetName s r.vid)) :
    Ends (fun _ => True) (fun _ w' => w'.tgts = w.tgts) (nbdFree s r) w := by
  refine (Ends.mapM (J := fun w' => w'.tgts = w.tgts) (fun v _ w₁ h₁ => ?_) rfl).mono
    fun _ _ h => h.2
  unfold nbdFreeSlot
  refine Ends.bind (Ends.lift (Q := fun _ w₂ => w₂ = w₁) trivial fun _ _ => rfl) ?_
  intro path w₂ hw
  rw [hw]
  refine Ends.get_bind ?_
  split
  · have hstop : exec (tgtstop s r) w₁ = .ok () w₁ := by
      rw [← tgtUsed_congr h₁] at h
      unfold tgtstop when
      rw [exec_get_bind, if_neg fun hif => h hif.2]
      rfl
    rw [Ends, exec_bind, hstop]
    exact h₁
  · exact h₁

theorem zfsmount_tgts (h : ¬ w.tgtUsed (targetName s r.vid)) :
    Ends (fun _ => True) (fun _ w' => w'.tgts = w.tgts) (zfsmount s r) w := by
  have hzfs (o : Op) : Does (fun _ => Same World.tgts) (fun _ => True) (zfs o) :=
    Does.perform fun _ => rfl
  refine Ends.bind (nbdFree_tgts h) fun _ w₁ h₁ => ?_
  have hrest : Does (fun _ => Same World.tgts) (fun _ => True) (do
      zfs (.unmount (zpoint s r.vid))
      zfs (.snapDir s.imgdir (zpoint s r.vid))
      r.img.forM (zfsmountSlot s r)) := by
    refine Does.bind (hzfs _) fun _ _ => Does.bind (hzfs _) fun _ _ => Does.forM fun v _ => ?_
    exact Does.when fun _ => Does.bind (Does.lift fun _ _ => trivial) fun path _ => hzfs _
  exact Ends.of_does hrest (fun _ _ => trivial) fun _ w₂ _ h₂ => Eq.trans h₂ h₁

theorem ChildAct.tgts {o : Op} (h : ChildAct s r o w w') : w'.tgts = w.tgts := by
  cases h with
  | create _ p f => rcases create_cases w p f with h | h <;> rw [h]
  | idle | kill | del | setLock => rfl

theorem mkChild_tgts {u : Unit} (h : exec (mkChild s r) w = .ok u w') : w'.tgts = w.tgts :=
  (mkChild_does.weaken (S := fun _ => Same World.tgts) fun _ _ _ => ChildAct.tgts).of_ok h

/-! ## Devices -/

/-- The names of the nbd devices. -/
def IsDevice (dev : String) : Prop := ∃ n : Nat, dev = "/dev/nbd" ++ toString n

/-- A server has both the file and the device. -/
def Attached (w : World) (f dev : String) : Prop :=
  IsDevice dev ∧ ∃ p ∈ w.procs, p.job = .nbd ∧ f ∈ p.files ∧ dev ∈ p.files

/-- What `nbdConnect` leaves alone: servers stay, and a child that is not there gets none. -/
structure Plugged (s : Server) (w w' : World) : Prop where
  images : w'.images = w.images
  tgts : w'.tgts = w.tgts
  stays : ∀ f dev, Attached w f dev → Attached w' f dev
  missing : ∀ path vid dev, w.child (childName s path vid) = none →
    Attached w' (childName s path vid) dev → Attached w (childName s path vid) dev

theorem Plugged.refl (w : World) : Plugged s w w :=
  ⟨rfl, rfl, fun _ _ h => h, fun _ _ _ _ h => h⟩

theorem Plugged.child {w₁ w₂ : World} (h : Plugged s w₁ w₂) : w₂.child = w₁.child := by
  have himages := h.images
  simp only [World.images, Prod.mk.injEq] at himages
  exact himages.2.1

theorem Plugged.trans {w₁ w₂ w₃ : World} (h : Plugged s w₁ w₂) (h' : Plugged s w₂ w₃) :
    Plugged s w₁ w₃ := by
  refine ⟨h'.images.trans h.images, h'.tgts.trans h.tgts, ?_, ?_⟩
  · intro f dev hf
    exact h'.stays f dev (h.stays f dev hf)
  · intro path vid dev hnone hf
    exact h.missing path vid dev hnone (h'.missing path vid dev (by rw [h.child, hnone]) hf)

/-- A free device is attached to a child that is there. -/
theorem nbdAdd_plugged (hs : Separate s) {n : Nat} {f : String}
    (hfree : ¬ w.devUsed ("/dev/nbd" ++ toString n)) :
    Plugged s w (w.nbdAdd ("/dev/nbd" ++ toString n) f) ∧
    ((w.child f).isSome →
      Attached (w.nbdAdd ("/dev/nbd" ++ toString n) f) f ("/dev/nbd" ++ toString n)) := by
  unfold World.nbdAdd
  split
  · next hif =>
    refine ⟨⟨rfl, rfl, ?_, ?_⟩, fun _ => ?_⟩
    · rintro g dev ⟨hname, p, hp, hrest⟩
      exact ⟨hname, p, List.mem_append_left _ hp, hrest⟩
    · rintro path vid dev hnone ⟨hname, p, hp, hjob, hf, hdev⟩
      rcases List.mem_append.1 hp with hp | hp
      · exact ⟨hname, p, hp, hjob, hf, hdev⟩
      · -- the new server holds a child that is there, and a device
        rw [List.mem_singleton.1 hp, List.mem_cons, List.mem_singleton] at hf
        rcases hf with hf | hf
        · rw [hf] at hnone
          rw [hnone] at hif
          cases hif.1
        · exact absurd hf (hs.device n path vid)
    · exact ⟨⟨n, rfl⟩, _, List.mem_append_right _ (List.mem_singleton_self _), rfl, by simp,
        by simp⟩
  · next hif =>
    refine ⟨.refl w, fun hchild => absurd ⟨hchild, hfree⟩ hif⟩

theorem not_attached_of_free {f dev : String} (h : ¬ w.devUsed dev) : ¬ Attached w f dev := by
  rintro ⟨-, p, hp, -, -, hdev⟩
  apply h
  simp only [World.devUsed, World.holders, Bool.or_eq_true, Bool.not_eq_true',
    List.isEmpty_eq_false_iff, ne_eq, List.filter_eq_nil_iff]
  exact .inl fun hnone => hnone p hp (by simpa using hdev)

theorem nbdConnectSlot_attached (hs : Separate s) {v : Img} {d : Option String}
    (h : exec (nbdConnectSlot s r v) w = .ok d w') :
    Plugged s w w' ∧ ∀ path, v.Makes path → ∃ dev, d = some dev ∧
      (Attached w' (childName s path r.vid) dev ↔ (w.child (childName s path r.vid)).isSome) := by
  unfold nbdConnectSlot at h
  rw [exec_get_bind, exec_bind_ok_iff] at h
  rcases h with ⟨_, w₁, hadd, hret⟩
  rw [exec_pure_ok_iff] at hret
  rw [← hret.1, ← hret.2]
  rw [exec_when_ok_iff] at hadd
  rcases hadd with ⟨hif, hadd⟩ | ⟨hif, rfl⟩
  · simp only [exec_bind_ok_iff, exec_lift_ok_iff, exec_modify_ok_iff] at hadd
    rcases hadd with ⟨dev, _, ⟨hdev, rfl⟩, path, _, ⟨hpath, rfl⟩, _, _, ⟨-, rfl⟩, hw⟩
    rcases searchNbd_name hdev with ⟨n, rfl⟩
    have hfree : ¬ w.devUsed ("/dev/nbd" ++ toString n) := by
      simpa using List.find?_some hdev
    rcases nbdAdd_plugged (f := childName s path r.vid) hs hfree with ⟨hplugged, hnew⟩
    rw [hw] at hplugged hnew
    refine ⟨hplugged, fun q hq => ⟨_, hdev, ?_⟩⟩
    have hsame : q = path := by
      rw [hq.2.2, Option.some.injEq] at hpath
      exact hpath
    rw [hsame]
    constructor
    · intro hattached
      by_contra hnone
      rw [Bool.not_eq_true, Option.isSome_eq_false_iff, Option.isNone_iff_eq_none] at hnone
      exact not_attached_of_free hfree (hplugged.missing path r.vid _ hnone hattached)
    · exact hnew
  · refine ⟨.refl w, fun q hq => absurd ⟨?_, hq.1, hq.2.1⟩ hif⟩
    intro hnil
    have hpath := hq.2.2
    rw [hnil] at hpath
    cases hpath

/-- After `nbdConnect` the device found for a slot serves the slot's child, if there is
one. -/
theorem nbdConnect_attached (hs : Separate s) {vs : List Img} {devs : List (Option String)}
    (h : exec (vs.mapM (nbdConnectSlot s r)) w = .ok devs w') :
    Plugged s w w' ∧ ∀ (i : Nat) (v : Img) path, vs[i]? = some v →
      v.Makes path → ∃ dev, devs[i]? = some (some dev) ∧
        (Attached w' (childName s path r.vid) dev ↔ (w.child (childName s path r.vid)).isSome) := by
  induction vs generalizing w devs with
  | nil =>
    rw [List.mapM_nil, exec_pure_ok_iff] at h
    rw [← h.2]
    exact ⟨.refl w, by simp⟩
  | cons u vs ih =>
    rw [List.mapM_cons, exec_bind_ok_iff] at h
    rcases h with ⟨d, w₁, hslot, h⟩
    rw [exec_bind_ok_iff] at h
    rcases h with ⟨ds, w₂, hrest, h⟩
    rw [exec_pure_ok_iff] at h
    rw [h.2] at hrest
    rw [← h.1]
    rcases nbdConnectSlot_attached hs hslot with ⟨hplugged, hdev⟩
    rcases ih hrest with ⟨hplugged', hdevs⟩
    refine ⟨hplugged.trans hplugged', fun i v path hv hmakes => ?_⟩
    cases i with
    | zero =>
      rw [List.getElem?_cons_zero, Option.some.injEq] at hv
      rw [← hv] at hmakes
      rcases hdev path hmakes with ⟨dev, hd, hiff⟩
      refine ⟨dev, by rw [List.getElem?_cons_zero, hd], ?_⟩
      rw [← hiff]
      constructor
      · intro hattached
        by_cases hchild : (w₁.child (childName s path r.vid)).isSome
        · rw [hplugged.child] at hchild
          exact hiff.2 hchild
        · rw [Bool.not_eq_true, Option.isSome_eq_false_iff, Option.isNone_iff_eq_none] at hchild
          exact hplugged'.missing path r.vid dev hchild hattached
      · exact hplugged'.stays _ _
    | succ i =>
      rw [List.getElem?_cons_succ] at hv
      rw [List.getElem?_cons_succ, ← hplugged.child]
      exact hdevs i v path hv hmakes

/-! ## LUNs -/

/-- What `LunAdd` adds for a slot. -/
def newLuns (s : Server) (w : World) (i : Nat) (v : Img) (dev : Option String) :
    List (Nat × String) :=
  if v.enable.isOne ∧ v.isDyn then dev.toList.map fun d => (i, d)
  else if v.enable.isOne ∧ v.type = .str "iso" then
    (v.path.concat?.filter fun path => (w.disk (isoFile s path)).isSome).toList.map
      fun path => (i, isoFile s path)
  else []

theorem fst_of_mem_newLuns {i : Nat} {v : Img} {dev : Option String} {l : Nat × String}
    (h : l ∈ newLuns s w i v dev) : l.1 = i := by
  unfold newLuns at h
  split at h
  · rcases List.mem_map.1 h with ⟨d, -, rfl⟩
    rfl
  · split at h
    · rcases List.mem_map.1 h with ⟨path, -, rfl⟩
      rfl
    · cases h

section Luns

variable {tid : String} {others : List Target} (hothers : ∀ t ∈ others, t.tid ≠ tid)

include hothers

/-- A LUN with a free number, for a target that is the only one with its tid. -/
theorem lunNew_last {name : String} {luns : List (Nat × String)} {i : Nat} (store : String)
    (htgts : w.tgts = others ++ [⟨tid, name, luns⟩]) (hfree : ∀ l ∈ luns, l.1 ≠ i) :
    w.lunNew tid i store =
      { w with tgts := others ++ [⟨tid, name, luns ++ [(i, store)]⟩] } := by
  have hrest : others.map (fun t : Target =>
      if t.tid = tid ∧ t.luns.all (fun l => l.1 ≠ i) then { t with luns := t.luns ++ [(i, store)] }
      else t) = others := by
    refine (List.map_congr_left fun t ht => ?_).trans (List.map_id others)
    rw [if_neg fun h => hothers t ht h.1]
    rfl
  have hall : luns.all (fun l => l.1 ≠ i) := by simpa using hfree
  unfold World.lunNew
  rw [htgts, List.map_append, hrest, List.map_singleton, if_pos ⟨rfl, hall⟩]

theorem lunAddSlot_ok {name : String} {luns : List (Nat × String)} {i : Nat} {v : Img}
    {dev : Option String} (htid : r.tid.concat? = some tid) (hpath : v.path.concat?.isSome)
    (htgts : w.tgts = others ++ [⟨tid, name, luns⟩]) (hfree : ∀ l ∈ luns, l.1 ≠ i) :
    exec (lunAddSlot s r.tid i v dev) w =
      .ok () { w with tgts := others ++ [⟨tid, name, luns ++ newLuns s w i v dev⟩] } := by
  have hnil : r.tid ≠ .nil := by
    intro hnil
    rw [hnil] at htid
    cases htid
  have hsame : { w with tgts := others ++ [⟨tid, name, luns⟩] } = w := by rw [← htgts]
  rcases Option.isSome_iff_exists.1 hpath with ⟨path, hpath⟩
  unfold lunAddSlot newLuns Prog.when
  by_cases hdyn : v.enable.isOne ∧ v.isDyn
  · have hiso : ¬ (v.enable.isOne ∧ v.type = .str "iso") := by
      rintro ⟨-, hiso⟩
      rcases hdyn.2 with h | h <;> simp [h] at hiso
    rw [if_pos hdyn, if_neg hiso]
    cases dev with
    | none =>
      rw [if_neg (by simp), Option.toList_none, List.map_nil, List.append_nil, hsame]
      rfl
    | some d =>
      rw [if_pos ⟨hdyn.1, hdyn.2, hnil, rfl⟩, htid]
      exact congrArg (Result.ok ()) (lunNew_last hothers d htgts hfree)
  · rw [if_neg fun h => hdyn ⟨h.1, h.2.1⟩, if_neg hdyn]
    by_cases hiso : v.enable.isOne ∧ v.type = .str "iso"
    · rw [if_pos hiso, if_pos hiso, hpath]
      by_cases hfile : (w.disk (isoFile s path)).isSome
      · have hkept :
            (some path).filter (fun path => (w.disk (isoFile s path)).isSome) = some path := by
          simp [hfile]
        rw [hkept, htid]
        change exec (if r.tid ≠ .nil ∧ (w.disk (isoFile s path)).isSome then _ else _) w = _
        rw [if_pos ⟨hnil, hfile⟩]
        exact congrArg (Result.ok ()) (lunNew_last hothers (isoFile s path) htgts hfree)
      · have hgone : (some path).filter (fun path => (w.disk (isoFile s path)).isSome) = none := by
          simpa using hfile
        rw [hgone, Option.toList_none, List.map_nil, List.append_nil, hsame]
        change exec (if r.tid ≠ .nil ∧ (w.disk (isoFile s path)).isSome then _ else _) w = _
        rw [if_neg fun h => hfile h.2]
        rfl
    · rw [if_neg hiso, if_neg hiso, List.append_nil, hsame]
      rfl

/-- The LUNs of all slots. The numbers go up, so each is free when its turn comes. -/
theorem forM_lunAddSlot_ok {name : String} {luns : List (Nat × String)} {vs : List Img} {k : Nat}
    {devs : List (Option String)} (htid : r.tid.concat? = some tid)
    (hpath : ∀ v ∈ vs, v.path.concat?.isSome) (htgts : w.tgts = others ++ [⟨tid, name, luns⟩])
    (hfree : ∀ l ∈ luns, l.1 < k) :
    exec ((vs.zipIdx k).forM fun vi =>
        lunAddSlot s r.tid vi.2 vi.1 ((devs[vi.2 - 1]?).join)) w =
      .ok () { w with tgts := others ++ [⟨tid, name, luns ++ (vs.zipIdx k).flatMap fun vi =>
        newLuns s w vi.2 vi.1 ((devs[vi.2 - 1]?).join)⟩] } := by
  induction vs generalizing w luns k with
  | nil =>
    rw [List.zipIdx_nil, List.flatMap_nil, List.append_nil, ← htgts]
    rfl
  | cons v vs ih =>
    rw [List.zipIdx_cons, List.flatMap_cons, ← List.append_assoc]
    have hslot : exec (lunAddSlot s r.tid k v ((devs[k - 1]?).join)) w = _ :=
      lunAddSlot_ok hothers htid
      (hpath v List.mem_cons_self) htgts fun l hl => Nat.ne_of_lt (hfree l hl)
    change exec (lunAddSlot s r.tid k v ((devs[k - 1]?).join) >>= fun _ => _) w = _
    rw [exec_bind, hslot]
    refine ih (fun u hu => hpath u (List.mem_cons_of_mem _ hu)) rfl fun l hl => ?_
    rcases List.mem_append.1 hl with hl | hl
    · exact Nat.lt_succ_of_lt (hfree l hl)
    · rw [fst_of_mem_newLuns hl]
      exact Nat.lt_succ_self k

end Luns

/-- `LunAdd`, when no target is taken for the workstation's: it makes the target, and the
LUNs are those of the slots. -/
theorem lunAdd_ok {devs : List (Option String)} {u : Unit}
    (hunused : ¬ w.tgtUsed (targetName s r.vid)) (hpath : ∀ v ∈ r.img, v.path.concat?.isSome)
    (h : exec (lunAdd s r devs) w = .ok u w') :
    r.enable.isOne ∧ w'.procs = w.procs ∧ ∃ tid others,
      (∀ t ∈ others, t.name ≠ targetName s r.vid) ∧
      w'.tgts = others ++ [⟨tid, targetName s r.vid, (r.img.zipIdx 1).flatMap fun vi =>
        newLuns s w vi.2 vi.1 ((devs[vi.2 - 1]?).join)⟩] := by
  unfold lunAdd at h
  rw [exec_get_bind, exec_bind_ok_iff] at h
  rcases h with ⟨_, w₁, hstart, h⟩
  rw [exec_when_ok_iff] at hstart
  rcases hstart with ⟨-, hstart⟩ | ⟨hused, -⟩
  · rw [exec_bind_ok_iff] at hstart
    rcases hstart with ⟨_, w₂, hround, hwait⟩
    rw [exec_wait_ok_iff] at hwait
    rcases hwait with ⟨hseen, rfl⟩
    by_cases hen : w.services ∧ r.enable.isOne
    · cases htid : r.tid.concat? with
      | none =>
        rw [exec_tgtstart_none hunused hen htid] at hround
        cases hround
      | some tid =>
        rw [exec_tgtstart_some hunused hen htid] at hround
        cases hround
        by_cases hfree : ∀ t ∈ w.tgts, t.tid ≠ tid ∧ t.name ≠ targetName s r.vid
        · rw [tgtNew_of_free hfree] at h
          rw [forM_lunAddSlot_ok (fun t ht => (hfree t ht).1) htid hpath rfl (by simp)] at h
          cases h
          exact ⟨hen.2, rfl, tid, w.tgts, fun t ht => (hfree t ht).2, rfl⟩
        · rw [tgtNew_of_taken hfree] at hseen
          exact absurd hseen hunused
    · rw [exec_tgtstart_off hen] at hround
      cases hround
      exact absurd hseen hunused
  · exact absurd hunused hused

/-! ## The whole -/

/-- The slot's own image: the device that serves its child, or its ISO file. -/
def Img.OwnStore (s : Server) (r : Wks) (v : Img) (w : World) (store : String) : Prop :=
  ∃ path, v.path.concat? = some path ∧
    (v.isDyn ∧ Attached w (childName s path r.vid) store ∨
      v.type = .str "iso" ∧ store = isoFile s path)

/-- The number is a LUN of the workstation's target, and its store is the slot's image. -/
def LunReady (s : Server) (r : Wks) (w : World) (i : Nat) (v : Img) : Prop :=
  ∃ t ∈ w.tgts, t.name = targetName s r.vid ∧ ∃ store, (i, store) ∈ t.luns ∧ v.OwnStore s r w store

/-- The slot is enabled and there will be an image: a child when all slots are through, or
an ISO file. -/
def Img.Backed (s : Server) (r : Wks) (w : World) (v : Img) : Prop :=
  v.enable.isOne ∧ ∃ path, v.path.concat? = some path ∧
    (v.isDyn ∧ ChildAfter s r w 1 r.img path ∨
      v.type = .str "iso" ∧ (w.disk (isoFile s path)).isSome)

theorem BootAct.disk_eq {n : String} (hn : ¬ OwnSnap s r n) {o : Op} (h : BootAct s r o w w') :
    w'.disk n = w.disk n := by
  cases h with
  | dev h =>
    have himages := h.images
    simp only [World.images, Prod.mk.injEq] at himages
    rw [himages.2.2.2.1]
  | zfs h => exact h.disks_eq hn _
  | child h =>
    cases h with
    | create _ p f => rcases create_cases w p f with h | h <;> rw [h]
    | idle | kill | del | setLock => rfl

theorem nbdFree_paths {nbds : List Value} (h : exec (nbdFree s r) w = .ok nbds w') :
    ∀ v ∈ r.img, v.path.concat?.isSome := by
  unfold nbdFree at h
  generalize r.img = vs at h
  induction vs generalizing w nbds with
  | nil => simp
  | cons v vs ih =>
    rw [List.mapM_cons, exec_bind_ok_iff] at h
    rcases h with ⟨d, w₁, hslot, h⟩
    rw [exec_bind_ok_iff] at h
    rcases h with ⟨ds, w₂, hrest, h⟩
    rw [exec_pure_ok_iff] at h
    rw [h.2] at hrest
    intro u hu
    rcases List.mem_cons.1 hu with rfl | hu
    · unfold nbdFreeSlot at hslot
      rw [exec_bind_ok_iff] at hslot
      rcases hslot with ⟨path, _, hlift, -⟩
      rw [(exec_lift_ok_iff.1 hlift).1]
      rfl
    · exact ih hrest u hu

/-- What a completed pipeline leaves for `nbdConnect` and `LunAdd`, and what these make
of it. -/
structure Piped (s : Server) (r : Wks) (w w₄ w₅ w' : World) (devs : List (Option String)) :
    Prop where
  unused : ¬ w₅.tgtUsed (targetName s r.vid)
  paths : ∀ v ∈ r.img, v.path.concat?.isSome
  child : ∀ path, (w₄.child (childName s path r.vid)).isSome ↔ ChildAfter s r w 1 r.img path
  disk : ∀ n, ¬ OwnSnap s r n → w₅.disk n = w.disk n
  connect : exec (r.img.mapM (nbdConnectSlot s r)) w₄ = .ok devs w₅
  luns : exec (lunAdd s r devs) w₅ = .ok () w'

/-- The live images of slots in super mode are not named like a snapshot of the
workstation. Names from a directory listing are so. -/
def LiveApart (s : Server) (r : Wks) : Prop :=
  ∀ v ∈ r.img, ∀ path, v.Makes path → v.Super r → ¬ OwnSnap s r (v.liveBase s path)

theorem Wks.Storable.liveApart (hs : Separate s) (hr : r.Storable) : LiveApart s r :=
  fun v hv _ hmakes _ => liveBase_not_ownSnap hs (hr.slots v hv) hmakes.2.1 hmakes.2.2 r

theorem pipeline_piped (hs : Separate s) (hlive : LiveApart s r) (hup : w.services)
    (hother : NoOther s r w) (h : exec (pipeline s r) w = .ok () w') :
    ∃ w₄ w₅ devs, Piped s r w w₄ w₅ w' devs := by
  unfold pipeline at h
  rw [exec_bind_ok_iff] at h
  rcases h with ⟨_, w₁, hstop, h⟩
  rw [exec_bind_ok_iff] at h
  rcases h with ⟨nbds, w₂, hfree, h⟩
  rw [exec_bind_ok_iff] at h
  rcases h with ⟨_, w₃, hzfs, h⟩
  rw [exec_bind_ok_iff] at h
  rcases h with ⟨_, w₄, hmk, h⟩
  rw [exec_bind_ok_iff] at h
  rcases h with ⟨devs, w₅, hconnect, hluns⟩
  -- no target is seen from the first step on
  have hunused₁ := tgtstop_unseen hup hother hstop
  have htgts₂ : w₂.tgts = w₁.tgts := (nbdFree_tgts hunused₁).of_ok hfree
  have hunused₂ : ¬ w₂.tgtUsed (targetName s r.vid) := by rwa [tgtUsed_congr htgts₂]
  have htgts₃ : w₃.tgts = w₂.tgts := (zfsmount_tgts hunused₂).of_ok hzfs
  have hplugged := (nbdConnect_attached hs hconnect).1
  have hunused₅ : ¬ w₅.tgtUsed (targetName s r.vid) := by
    rwa [tgtUsed_congr hplugged.tgts, tgtUsed_congr (mkChild_tgts hmk), tgtUsed_congr htgts₃]
  have hpaths := nbdFree_paths hfree
  have hen : r.enable.isOne := (lunAdd_ok hunused₅ hpaths hluns).1
  have hdisk {α : Type} {P : α → Prop} {x : Sys α} (hx : Does (BootAct s r) P x) {n : String}
      (hn : ¬ OwnSnap s r n) {w w' : World} {a : α} (hok : exec x w = .ok a w') :
      w'.disk n = w.disk n :=
    (hx.weaken (S := fun _ => Same fun w : World => w.disk n) fun _ _ _ =>
      BootAct.disk_eq hn).of_ok hok
  have hdisk₃ {n : String} (hn : ¬ OwnSnap s r n) : w₃.disk n = w.disk n :=
    calc w₃.disk n = w₂.disk n := hdisk zfsmount_does hn hzfs
      _ = w₁.disk n := hdisk (nbdFree_does.weaken fun _ _ _ h => .dev (.stop h)) hn hfree
      _ = w.disk n := hdisk (tgtstop_does.weaken fun _ _ _ h => .dev (.stop (.kill h))) hn hstop
  refine ⟨w₄, w₅, devs, hunused₅, hpaths, ?child, ?disk, hconnect, hluns⟩
  case child =>
    intro path
    have hoverlays : w₃.overlays = w.overlays := by
      have hstop' := images_of_does (s := s) (r := r)
        (tgtstop_does.weaken fun _ _ _ h => .stop (.kill h)) hstop
      have hfree' := images_of_does (s := s) (r := r)
        (nbdFree_does.weaken fun _ _ _ h => .stop h) hfree
      have hzfs' : w₃.overlays = w₂.overlays := zfsmount_overlays.of_ok hzfs
      simp only [World.images, Prod.mk.injEq] at hstop' hfree'
      rw [hzfs', World.overlays, World.overlays, hfree'.2.1, hfree'.2.2.1, hstop'.2.1,
        hstop'.2.2.1]
    rw [(mkChild_ok hen hmk).childAfter_iff]
    exact childAfter_congr hoverlays fun u hu hacts hsuper =>
      hdisk₃ (hlive u hu path hacts.1 hsuper)
  case disk =>
    intro n hn
    calc w₅.disk n = w₄.disk n :=
          hdisk (nbdConnect_does.weaken fun _ _ _ h => .dev (.add h)) hn hconnect
      _ = w₃.disk n := hdisk (mkChild_does.weaken fun _ _ _ => .child) hn hmk
      _ = w.disk n := hdisk₃ hn

/-- One slot: whatever is printed for it, its LUN is there exactly when the slot is enabled
and has an image. -/
theorem Piped.lunReady_iff {w₄ w₅ : World} {devs : List (Option String)}
    (h : Piped s r w w₄ w₅ w' devs) (hs : Separate s)
    (hiso : ∀ path, ¬ OwnSnap s r (isoFile s path)) {i : Nat} {v : Img}
    (hv : (v, i) ∈ r.img.zipIdx 1) : LunReady s r w' i v ↔ v.Backed s r w := by
  rcases lunAdd_ok h.unused h.paths h.luns with ⟨-, hprocs, tid, others, hothers, htgts⟩
  rcases Option.isSome_iff_exists.1 (h.paths v (List.fst_mem_of_mem_zipIdx hv)) with ⟨path, hpath⟩
  have hattached (f dev : String) : Attached w' f dev ↔ Attached w₅ f dev := by
    unfold Attached
    rw [hprocs]
  -- the slot's LUN is the one that was added for it
  have hlun (store : String) : (∃ t ∈ w'.tgts, t.name = targetName s r.vid ∧ (i, store) ∈ t.luns) ↔
      (i, store) ∈ newLuns s w₅ i v ((devs[i - 1]?).join) := by
    rw [htgts]
    constructor
    · rintro ⟨t, ht, hname, hmem⟩
      rcases List.mem_append.1 ht with ht | ht
      · exact absurd hname (hothers t ht)
      · rw [List.mem_singleton.1 ht] at hmem
        rcases List.mem_flatMap.1 hmem with ⟨vi, hvi, hmem⟩
        have hi : i = vi.2 := fst_of_mem_newLuns hmem
        have hslot := (List.mem_zipIdx_iff_le_and_getElem?_sub.1 hv).2
        rw [hi] at hslot
        have hslot' := (List.mem_zipIdx_iff_le_and_getElem?_sub.1 hvi).2
        rw [hslot, Option.some.injEq] at hslot'
        rw [← hi, ← hslot'] at hmem
        exact hmem
    · intro hmem
      exact ⟨_, List.mem_append_right _ (List.mem_singleton_self _), rfl,
        List.mem_flatMap.2 ⟨(v, i), hv, hmem⟩⟩
  have hready : LunReady s r w' i v ↔
      ∃ store, (i, store) ∈ newLuns s w₅ i v ((devs[i - 1]?).join) ∧ v.OwnStore s r w' store := by
    unfold LunReady
    simp only [← hlun]
    constructor
    · rintro ⟨t, ht, hname, store, hmem, hown⟩
      exact ⟨store, ⟨t, ht, hname, hmem⟩, hown⟩
    · rintro ⟨store, ⟨t, ht, hname, hmem⟩, hown⟩
      exact ⟨t, ht, hname, store, hmem, hown⟩
  rw [hready]
  unfold newLuns Img.OwnStore Img.Backed
  simp only [hpath, Option.some.injEq, exists_eq_left', hattached]
  by_cases hen : v.enable.isOne
  · by_cases hdyn : v.isDyn
    · -- a disk or a volume: the device that was found serves the child
      have hnotiso : v.type ≠ .str "iso" := by
        rcases hdyn with h | h <;> simp [h]
      rcases slot_of_mem_zipIdx hv with ⟨n, hi, hget⟩
      rcases (nbdConnect_attached hs h.connect).2 n v path hget ⟨hen, hdyn, hpath⟩ with
        ⟨dev, hdev, hiff⟩
      have hn : i - 1 = n := by
        have hi : i = n + 1 := hi
        omega
      rw [if_pos ⟨hen, hdyn⟩, hn, hdev]
      simp [hdyn, hnotiso, hen, hiff, h.child]
    · rw [if_neg fun h => hdyn h.2]
      by_cases ht : v.type = .str "iso"
      · rw [if_pos ⟨hen, ht⟩, ← h.disk _ (hiso path)]
        simp [ht, hen, hdyn, and_comm]
      · rw [if_neg fun h => ht h.2]
        simp [hdyn, ht]
  · rw [if_neg fun h => hen h.1, if_neg fun h => hen h.1]
    simp [hen]

/-! ## Another target -/

/-- Nothing happens to the targets as long as none has the workstation's tid. -/
def Untargeted (r : Wks) (w w' : World) : Prop :=
  (∀ t ∈ w.tgts, r.tid.concat? ≠ some t.tid) → w'.tgts = w.tgts

theorem Untargeted.of_eq (h : w'.tgts = w.tgts) : Untargeted r w w' := fun _ => h

instance (r : Wks) : IsPreorder World (Untargeted r) where
  refl _ := .of_eq rfl
  trans _ _ _ h h' hnone := by
    rw [h' (by rwa [h hnone]), h hnone]

theorem StopAct.untargeted {o : Op} (h : StopAct r.tid.concat? o w w') : Untargeted r w w' := by
  cases h with
  | kill h =>
    cases h with
    | idle => exact .of_eq rfl
    | tgtKill _ tid ht =>
      intro hnone
      refine List.filter_eq_self.2 fun t hmem => decide_eq_true fun heq => hnone t hmem ?_
      rw [heq, ht]
  | nbdDel => exact .of_eq rfl

theorem lunNew_untargeted {tid : String} (ht : r.tid.concat? = some tid) (i : Nat)
    (store : String) : Untargeted r w (w.lunNew tid i store) := by
  intro hnone
  refine (List.map_congr_left fun t hmem => if_neg fun h => hnone t hmem ?_).trans (List.map_id _)
  rw [ht, h.1]

theorem lunAddSlot_untargeted (i : Nat) (v : Img) (dev : Option String) :
    Does (fun _ => Untargeted r) (fun _ => True) (lunAddSlot s r.tid i v dev) := by
  refine Does.bind (Does.when fun _ => ?_) fun _ _ => Does.when fun _ => ?_
  · exact Does.bind (Does.lift fun t ht => ht) fun t ht =>
      Does.bind (Does.lift fun _ _ => trivial) fun d _ =>
        Does.modify fun w => lunNew_untargeted ht i d
  · refine Does.bind (Does.lift fun _ _ => trivial) fun path _ =>
      Does.bind (Does.get fun w => refl_of _ w) fun w _ => Does.when fun _ => ?_
    exact Does.bind (Does.lift fun t ht => ht) fun t ht =>
      Does.modify fun w => lunNew_untargeted ht i _

/-- When another target is taken for the workstation's, the request makes none and adds no
LUN: at its end there are the targets from before, without those that have the
workstation's tid. -/
theorem pipeline_leftover (hs : Separate s) (hup : w.services) (hother : ¬ NoOther s r w)
    (h : exec (pipeline s r) w = .ok () w') :
    w'.tgts = w.tgts.filter fun t => r.tid.concat? ≠ some t.tid := by
  unfold NoOther at hother
  push Not at hother
  rcases hother with ⟨t₀, ht₀, hseen, hne⟩
  unfold pipeline at h
  rw [exec_bind_ok_iff] at h
  rcases h with ⟨_, w₁, hstop, h⟩
  rw [exec_bind_ok_iff] at h
  rcases h with ⟨nbds, w₂, hfree, h⟩
  rw [exec_bind_ok_iff] at h
  rcases h with ⟨_, w₃, hzfs, h⟩
  rw [exec_bind_ok_iff] at h
  rcases h with ⟨_, w₄, hmk, h⟩
  rw [exec_bind_ok_iff] at h
  rcases h with ⟨devs, w₅, hconnect, hluns⟩
  -- `tgtstop` kills the target of the workstation, not the one that was seen
  have htgts₁ : w₁.tgts = w.tgts.filter fun t => r.tid.concat? ≠ some t.tid := by
    unfold tgtstop at hstop
    rw [exec_get_bind, exec_when_ok_iff] at hstop
    rcases hstop with ⟨-, hstop⟩ | ⟨hnot, -⟩
    · rw [exec_bind_ok_iff] at hstop
      rcases hstop with ⟨tid, _, hlift, hmodify⟩
      rw [exec_lift_ok_iff] at hlift
      rw [exec_modify_ok_iff] at hmodify
      rcases hlift with ⟨htid, rfl⟩
      rw [← hmodify]
      refine List.filter_congr fun t _ => decide_eq_decide.2 ?_
      rw [htid, ne_eq, ne_eq, Option.some.injEq, eq_comm]
    · exact absurd ⟨hup, tgtUsed_iff.2 ⟨t₀, ht₀, hseen⟩⟩ hnot
  have hnone : ∀ t ∈ w₁.tgts, r.tid.concat? ≠ some t.tid := by
    intro t ht
    rw [htgts₁] at ht
    simpa using (List.mem_filter.1 ht).2
  have hzfs' : Does (fun _ => Untargeted r) (fun _ => True) (zfsmount s r) := by
    have hop (o : Op) : Does (fun _ => Untargeted r) (fun _ => True) (zfs o) :=
      Does.perform fun _ => .of_eq rfl
    refine Does.bind (nbdFree_does.weaken fun _ _ _ => StopAct.untargeted) fun _ _ =>
      Does.bind (hop _) fun _ _ => Does.bind (hop _) fun _ _ => Does.forM fun v _ => ?_
    exact Does.when fun _ => Does.bind (Does.lift fun _ _ => trivial) fun path _ => hop _
  have htgts₅ : w₅.tgts = w₁.tgts := by
    have htgts₂ : w₂.tgts = w₁.tgts :=
      (nbdFree_does.weaken fun _ _ _ => StopAct.untargeted).of_ok hfree hnone
    have htgts₃ : w₃.tgts = w₂.tgts := hzfs'.of_ok hzfs (by rwa [htgts₂])
    rw [(nbdConnect_attached hs hconnect).1.tgts, mkChild_tgts hmk, htgts₃, htgts₂]
  -- the other target is still seen, so `LunAdd` makes none
  have hused : w₅.tgtUsed (targetName s r.vid) := by
    rw [tgtUsed_iff, htgts₅, htgts₁]
    exact ⟨t₀, List.mem_filter.2 ⟨ht₀, by simpa using hne⟩, hseen⟩
  unfold lunAdd at hluns
  rw [exec_get_bind, exec_bind_ok_iff] at hluns
  rcases hluns with ⟨_, w₆, hstart, hluns⟩
  rw [exec_when_ok_iff] at hstart
  rcases hstart with ⟨hnot, -⟩ | ⟨-, rfl⟩
  · exact absurd hused hnot
  · have hlast := (Does.forM fun vi _ => lunAddSlot_untargeted (s := s) (r := r) vi.2 vi.1
      ((devs[vi.2 - 1]?).join)).of_ok hluns
    rw [hlast (by rwa [htgts₅]), htgts₅, htgts₁]

/-- Targets with another tid stay, and no process is started on a device that one of them has
a LUN for. -/
def Spared (r : Wks) (w w' : World) : Prop :=
  ∀ t ∈ w.tgts, r.tid.concat? ≠ some t.tid → t ∈ w'.tgts ∧
    ∀ l ∈ t.luns, IsDevice l.2 → ∀ p ∈ w'.procs, l.2 ∈ p.files → p ∈ w.procs

instance (r : Wks) : IsPreorder World (Spared r) where
  refl _ _ ht _ := ⟨ht, fun _ _ _ _ hp _ => hp⟩
  trans _ _ _ h h' t ht hne := by
    rcases h t ht hne with ⟨ht', hprocs⟩
    rcases h' t ht' hne with ⟨ht'', hprocs'⟩
    refine ⟨ht'', fun l hl hname p hp hfile => ?_⟩
    exact hprocs l hl hname p (hprocs' l hl hname p hp hfile) hfile

theorem Spared.of_procs (htgts : ∀ t ∈ w.tgts, r.tid.concat? ≠ some t.tid → t ∈ w'.tgts)
    (hprocs : w'.procs ⊆ w.procs) : Spared r w w' :=
  fun t ht hne => ⟨htgts t ht hne, fun _ _ _ _ hp _ => hprocs hp⟩

theorem Spared.of_tgts (htgts : w'.tgts = w.tgts) (hprocs : w'.procs ⊆ w.procs) :
    Spared r w w' := .of_procs (fun t ht _ => by rwa [htgts]) hprocs

theorem StopAct.spared {o : Op} (h : StopAct r.tid.concat? o w w') : Spared r w w' := by
  cases h with
  | kill h =>
    cases h with
    | idle => exact refl_of _ w
    | tgtKill _ tid ht =>
      refine .of_procs (fun t hmem hne => List.mem_filter.2 ⟨hmem, ?_⟩) (List.Subset.refl _)
      refine decide_eq_true fun heq => hne ?_
      rw [ht, heq]
  | nbdDel => exact .of_tgts rfl List.filter_sublist.subset

theorem AddAct.spared (hs : Separate s) {o : Op} (h : AddAct s r o w w') : Spared r w w' := by
  cases h with
  | idle => exact refl_of _ w
  | tgtNew _ tid ht =>
    unfold World.tgtNew
    split
    · exact refl_of _ w
    · exact .of_procs (fun t hmem _ => List.mem_append_left _ hmem) (List.Subset.refl _)
  | lunNew _ tid ht i store =>
    refine .of_procs (fun t hmem hne => List.mem_map.2 ⟨t, hmem, if_neg fun hif => hne ?_⟩)
      (List.Subset.refl _)
    rw [ht, hif.1]
  | nbdAdd _ n f hf =>
    unfold World.nbdAdd
    split
    · next hif =>
      intro t ht hne
      refine ⟨ht, fun l hl hname p hp hfile => ?_⟩
      rcases List.mem_append.1 hp with hp | hp
      · exact hp
      · -- the new server has a child and a device that no LUN has
        rw [List.mem_singleton.1 hp, List.mem_cons, List.mem_singleton] at hfile
        rcases hfile with hfile | hfile
        · rcases hf with ⟨v, -, -, -, path, -, rfl⟩
          rcases hname with ⟨k, hname⟩
          exact absurd (hfile.symm.trans hname) (hs.device k path r.vid)
        · refine absurd ?_ hif.2
          rw [World.devUsed, Bool.or_eq_true, List.any_eq_true]
          exact .inr ⟨t, ht, List.any_eq_true.2 ⟨l, hl, by simpa using hfile⟩⟩
    · exact refl_of _ w

theorem ChildAct.spared {o : Op} (h : ChildAct s r o w w') : Spared r w w' := by
  cases h with
  | kill => exact .of_tgts rfl List.filter_sublist.subset
  | create _ p f =>
    rcases create_cases w p f with h | h
    · rw [h]
      exact refl_of _ w
    · rw [h]
      exact .of_tgts rfl (List.Subset.refl _)
  | idle => exact refl_of _ w
  | del | setLock => exact .of_tgts rfl (List.Subset.refl _)

theorem BootAct.spared (hs : Separate s) {o : Op} (h : BootAct s r o w w') : Spared r w w' := by
  cases h with
  | dev h =>
    cases h with
    | stop h => exact h.spared
    | add h => exact h.spared hs
  | zfs => exact .of_tgts rfl (List.Subset.refl _)
  | child h => exact h.spared

/-- The children of the slots are held by one process at most, and only if they are there. -/
structure OneHolder (s : Server) (r : Wks) (w : World) : Prop where
  pids : (w.procs.map Proc.pid).Nodup
  held : ∀ v ∈ r.img, v.isDyn → ∀ path, v.path.concat? = some path →
    w.holders (childName s path r.vid) = [] ∨
      (w.child (childName s path r.vid)).isSome ∧ ∃ p, w.holders (childName s path r.vid) = [p]

theorem IsDevice.isNbdName {dev : String} (h : IsDevice dev) : isNbdName dev := by
  rcases h with ⟨n, rfl⟩
  rw [NsBoot.isNbdName, List.any_eq_true]
  refine ⟨_, (List.mem_tails _ _).2 (List.suffix_refl _), ?_⟩
  rw [String.toList_append, List.isPrefixOf_iff_prefix]
  exact List.prefix_append _ _

/-- The servers of the slots' children end, and none is started on a device that another
target has. -/
theorem pipeline_detached (hs : Separate s) (hone : OneHolder s r w)
    (h : exec (pipeline s r) w = .ok () w') {t : Target} (ht : t ∈ w.tgts)
    (hne : r.tid.concat? ≠ some t.tid) {l : Nat × String} (hl : l ∈ t.luns) {v : Img}
    (hv : v ∈ r.img) (hdyn : v.isDyn) {path : String} (hpath : v.path.concat? = some path) :
    ¬ Attached w' (childName s path r.vid) l.2 := by
  rintro ⟨hname, p, hp, hjob, hf, hdev⟩
  unfold pipeline at h
  rw [exec_bind_ok_iff] at h
  rcases h with ⟨_, w₁, hstop, h⟩
  rw [exec_bind_ok_iff] at h
  rcases h with ⟨nbds, w₂, hfree, h⟩
  have hrest : Does (BootAct s r) (fun _ => True) (do
      zfsmount s r
      mkChild s r
      let devs ← nbdConnect s r
      lunAdd s r devs) :=
    Does.bind zfsmount_does fun _ _ =>
      Does.bind (mkChild_does.weaken fun _ _ _ => .child) fun _ _ =>
        Does.bind (nbdConnect_does.weaken fun _ _ _ h => .dev (.add h)) fun devs _ =>
          (lunAdd_does devs).weaken fun _ _ _ h => .dev (.add h)
  have hspared : Spared r w₂ w' :=
    (hrest.weaken (S := fun _ => Spared r) fun _ _ _ => BootAct.spared hs).of_ok h
  have hspared₂ : Spared r w₁ w₂ :=
    (nbdFree_does.weaken (S := fun _ => Spared r) fun _ _ _ => StopAct.spared).of_ok hfree
  have hspared₁ : Spared r w w₁ :=
    (tgtstop_does.weaken (S := fun _ => Spared r) fun _ _ _ h =>
      (StopAct.kill h).spared).of_ok hstop
  -- it was there before, and is still there after `nbdFree`
  rcases hspared₁ t ht hne with ⟨ht₁, hprocs₁⟩
  rcases hspared₂ t ht₁ hne with ⟨ht₂, hprocs₂⟩
  have hp₂ := (hspared t ht₂ hne).2 l hl hname p hp hdev
  have hp₀ := hprocs₁ l hl hname p (hprocs₂ l hl hname p hp₂ hdev) hdev
  have hholder : p ∈ w.holders (childName s path r.vid) :=
    List.mem_filter.2 ⟨hp₀, by simpa using hf⟩
  rcases hone.held v hv hdyn path hpath with hnone | ⟨hchild, q, hq⟩
  · rw [hnone] at hholder
    cases hholder
  · rw [hq, List.mem_singleton] at hholder
    rw [← hholder] at hq
    rcases tgtstop_ok hstop with ⟨hprocs, hchilds⟩
    rcases nbdFree_rounds hfree with ⟨fs, hfs, -, hfreed⟩
    rw [hfreed] at hp₂
    refine not_mem_freeRounds (by rw [hprocs]; exact hone.pids) (mem_childFiles hfs hv hpath)
      (by rwa [hchilds]) ?_ hjob (List.mem_filter.2 ⟨hdev, hname.isNbdName⟩) hp₂
    rw [World.holders, hprocs]
    exact hq

/-- Another target of the workstation's name has the slot's ISO file under its number. -/
def Img.LeftIso (s : Server) (r : Wks) (w : World) (i : Nat) (v : Img) : Prop :=
  v.type = .str "iso" ∧ ∃ path, v.path.concat? = some path ∧ ∃ t ∈ w.tgts,
    r.tid.concat? ≠ some t.tid ∧ t.name = targetName s r.vid ∧ (i, isoFile s path) ∈ t.luns

/-- Every slot with a boot flag is enabled and has an image. When another target is taken for the
workstation's, every such slot is an ISO file that a target of the workstation's name with
another tid has under the slot's number. -/
def Bootable (s : Server) (r : Wks) (w : World) : Prop :=
  if NoOther s r w then ∀ v ∈ r.img, v.Boots → v.Backed s r w
  else ∀ i v, (v, i) ∈ r.img.zipIdx 1 → v.Boots → v.LeftIso s r w i

/-- Every LUN of the script is there with the slot's own image. -/
def ScriptReady (s : Server) (r : Wks) (c : Value) (w : World) : Prop :=
  ∀ i v, (v, i) ∈ r.img.zipIdx 1 → Printed s r c i v → LunReady s r w i v

section Ready

variable {c : Value} {script : List String}

theorem scriptReady_iff (hs : Separate s) (hiso : ∀ path, ¬ OwnSnap s r (isoFile s path))
    (hlive : LiveApart s r) (hup : w.services) (hscript : bootScript s r c = some script)
    (h : exec (pipeline s r) w = .ok () w') (hother : NoOther s r w) :
    ScriptReady s r c w' ↔ ∀ v ∈ r.img, v.Boots → v.Backed s r w := by
  rcases pipeline_piped hs hlive hup hother h with ⟨w₄, w₅, devs, hpiped⟩
  constructor
  · intro hready v hv hboots
    rcases exists_mem_zipIdx hv with ⟨i, hi⟩
    exact (hpiped.lunReady_iff hs hiso hi).1 (hready _ v hi ((printed_iff hscript hi).2 hboots))
  · intro hbacked i v hv hprinted
    exact (hpiped.lunReady_iff hs hiso hv).2
      (hbacked v (List.fst_mem_of_mem_zipIdx hv) ((printed_iff hscript hv).1 hprinted))

theorem mem_tgts_leftover (hs : Separate s) (hup : w.services) (hother : ¬ NoOther s r w)
    (h : exec (pipeline s r) w = .ok () w') {t : Target} :
    t ∈ w'.tgts ↔ t ∈ w.tgts ∧ r.tid.concat? ≠ some t.tid := by
  rw [pipeline_leftover hs hup hother h, List.mem_filter, decide_eq_true_eq]

theorem Img.LeftIso.lunReady (hs : Separate s) (hup : w.services) (hother : ¬ NoOther s r w)
    (h : exec (pipeline s r) w = .ok () w') {i : Nat} {v : Img} (hleft : v.LeftIso s r w i) :
    LunReady s r w' i v := by
  rcases hleft with ⟨htype, path, hpath, t, ht, hne, hname, hlun⟩
  exact ⟨t, (mem_tgts_leftover hs hup hother h).2 ⟨ht, hne⟩, hname, _, hlun, path, hpath,
    .inr ⟨htype, rfl⟩⟩

theorem LunReady.leftIso (hs : Separate s) (hup : w.services) (hother : ¬ NoOther s r w)
    (hone : OneHolder s r w) (h : exec (pipeline s r) w = .ok () w') {i : Nat} {v : Img}
    (hv : v ∈ r.img) (hready : LunReady s r w' i v) : v.LeftIso s r w i := by
  rcases hready with ⟨t, ht, hname, store, hlun, path, hpath, hown⟩
  rcases (mem_tgts_leftover hs hup hother h).1 ht with ⟨ht, hne⟩
  rcases hown with ⟨hdyn, hattached⟩ | ⟨htype, rfl⟩
  · exact absurd hattached (pipeline_detached hs hone h ht hne hlun hv hdyn hpath)
  · exact ⟨htype, path, hpath, t, ht, hne, hname, hlun⟩

/-- **After a completed boot every LUN of the script is there with the slot's own image** if
every slot with a boot flag is enabled and has an image; or, when another target is taken for
the workstation's, if they are ISO files that such a target has. The converse holds as well, in
the second case for children with one holder at most. -/
theorem script_luns_iff (hs : Separate s) (hiso : ∀ path, ¬ OwnSnap s r (isoFile s path))
    (hlive : LiveApart s r) (hup : w.services) (hscript : bootScript s r c = some script)
    (h : exec (pipeline s r) w = .ok () w') :
    (Bootable s r w → ScriptReady s r c w') ∧
    (NoOther s r w ∨ OneHolder s r w → (ScriptReady s r c w' ↔ Bootable s r w)) := by
  unfold Bootable
  split
  · next hother =>
    have hiff := scriptReady_iff hs hiso hlive hup hscript h hother
    exact ⟨hiff.2, fun _ => hiff⟩
  · next hother =>
    have hsufficient (hleft : ∀ i v, (v, i) ∈ r.img.zipIdx 1 → v.Boots → v.LeftIso s r w i) :
        ScriptReady s r c w' := fun i v hv hprinted =>
      (hleft i v hv ((printed_iff hscript hv).1 hprinted)).lunReady hs hup hother h
    refine ⟨hsufficient, fun hone => ⟨fun hready i v hv hboots => ?_, hsufficient⟩⟩
    exact (hready i v hv ((printed_iff hscript hv).2 hboots)).leftIso hs hup hother
      (hone.resolve_left hother) h (List.fst_mem_of_mem_zipIdx hv)

end Ready

/-! ## A LUN that is not there -/

/-- The disk is the first choice to boot from, and a CD that is switched off the second. -/
def twoChoices : Wks :=
  { superRecord with
    img := [⟨.str "win10cc.qcow2", .str "dyndisk", .num 1, .num 0, .num 1, .str "unsafe"⟩,
      ⟨.str "lord.qcow2", .str "dynblock", .num 1, .num 0, .num 0, .str "unsafe"⟩,
      ⟨.str "setup.iso", .str "iso", .num 0, .num 0, .num 2, .str "none"⟩] }

/-- The script has a line for LUN 3, and the target has no such LUN. -/
theorem script_names_no_lun :
    ∃ w', exec (pipeline shippedServer twoChoices) oneStation = .ok () w' ∧
      ∃ v, (v, 3) ∈ twoChoices.img.zipIdx 1 ∧
        Printed shippedServer twoChoices oneStation.file.val 3 v ∧
        ¬ LunReady shippedServer twoChoices w' 3 v := by
  refine ⟨_, Result.eq_ok_of_isOk (by decide +kernel), _, List.mem_of_getElem? (i := 2) rfl,
    ⟨_, rfl⟩, ?_⟩
  rintro ⟨t, ht, -, store, hmem, -⟩
  have hnone : (exec (pipeline shippedServer twoChoices) oneStation).final.tgts.all
      fun t => t.luns.all fun l => l.1 ≠ 3 := by decide +kernel
  rw [List.all_eq_true] at hnone
  have hluns := hnone t ht
  rw [List.all_eq_true] at hluns
  simpa using hluns _ hmem

theorem isoFile_shipped (r : Wks) (path : String) :
    ¬ OwnSnap shippedServer r (isoFile shippedServer path) := by
  rintro ⟨q, heq | heq⟩
  · have hlist := congrArg (fun t => t.toList.take 13) heq
    simp [isoFile, zpoint, shippedServer] at hlist
  · have hlist := congrArg (fun t => t.toList.take 2) heq
    simp [isoFile, snapZvol, shippedServer] at hlist

theorem superRecord_liveApart : LiveApart shippedServer superRecord := by
  refine Wks.Storable.liveApart shipped_separate ⟨rfl, by decide, ?_⟩
  intro v hv
  simp only [superRecord, List.mem_cons, List.not_mem_nil, or_false] at hv
  rcases hv with rfl | rfl | rfl
  · exact Img.storable_of_texts (by simp) (by decide) (by simp) (by simp)
  · exact Img.storable_of_texts (by simp) (by decide) (by simp) (by simp)
  · exact Img.storable_of_texts (by simp) (by decide) (by simp) (by simp)

theorem script_luns_super :
    ∃ w', exec (pipeline shippedServer superRecord) oneStation = .ok () w' ∧
      ∃ v, (v, 1) ∈ superRecord.img.zipIdx 1 ∧ LunReady shippedServer superRecord w' 1 v := by
  have hok : (exec (pipeline shippedServer superRecord) oneStation).isOk := by decide +kernel
  have hscript : (bootScript shippedServer superRecord oneStation.file.val).isSome := by
    decide +kernel
  rcases Option.isSome_iff_exists.1 hscript with ⟨script, hscript⟩
  refine ⟨_, Result.eq_ok_of_isOk hok, _, List.mem_cons_self, ?_⟩
  have hother : NoOther shippedServer superRecord oneStation := by
    simp [NoOther, oneStation, World.initial]
  refine (script_luns_iff shipped_separate (isoFile_shipped _) superRecord_liveApart rfl hscript
    (Result.eq_ok_of_isOk hok)).1 ?_ 1 _ List.mem_cons_self ⟨_, rfl⟩
  rw [Bootable, if_pos hother]
  intro v hv hboots
  simp only [superRecord, List.mem_cons, List.not_mem_nil, or_false] at hv
  rcases hv with rfl | rfl | rfl
  · refine ⟨by decide, _, rfl, .inl ⟨.inl rfl, .inr ⟨[], _, _, rfl, ?_, ?_, fun _ => .inr ?_⟩⟩⟩
    · exact ⟨⟨by decide, .inl rfl, rfl⟩, by decide⟩
    · decide
    · decide +kernel
  · exact absurd hboots (by decide)
  · exact absurd hboots (by decide)

end NsBoot
