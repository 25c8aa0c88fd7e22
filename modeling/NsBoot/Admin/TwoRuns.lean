import NsBoot.Admin.Races
import NsBoot.Flags
import NsBoot.Lib.Alike

/-!
# NsBoot.Admin.TwoRuns — the same request on two representations of the flags

Two servers that differ in the representation of flags in `nsboot.json` only
(`SameButFlags`) get the same request.

* `BesideFile`: no command of the controller but the load and the save touches the file.
* `alike_iff`: the two runs show the same commands, end in the same way and leave states
  that differ in flags only, exactly when the one test without `tostring` does not tell the
  two apart: in `disableCommit` the `supper` flags are both the text `"1"` or both are not,
  or there is nothing to commit.
* `numeric_supper_uncommitted`: a super mode that was switched on with a number is left
  without a commit.
-/

namespace NsBoot

open Lua Prog

/-! ## Outside the file -/

def World.setFile (w : World) (j : Json) : World := { w with file := j }

/-- The states differ in the representation of flags in the file only. -/
def SameButFlags (w w' : World) : Prop :=
  ∃ j : Json, cfgTexts w.file.val = cfgTexts j.val ∧ w' = w.setFile j

theorem SameButFlags.file {w w' : World} (h : SameButFlags w w') :
    cfgTexts w.file.val = cfgTexts w'.file.val := by
  rcases h with ⟨j, hj, rfl⟩
  exact hj

/-- The update neither looks at the file nor changes it. -/
def BesideFile (u : World → World) : Prop := ∀ w j, u (w.setFile j) = (u w).setFile j

theorem BesideFile.same {u : World → World} (h : BesideFile u) {w w' : World}
    (hE : SameButFlags w w') : SameButFlags (u w) (u w') := by
  rcases hE with ⟨j, hj, rfl⟩
  have hself : u w = (u w).setFile w.file := h w w.file
  have hfile : (u w).file = w.file := by
    rw [hself]
    rfl
  refine ⟨j, ?_, h w j⟩
  rw [hfile]
  exact hj

theorem BesideFile.modify {u : World → World} (h : BesideFile u) :
    Respects SameButFlags (modify u : Sys PUnit) := Respects.modify fun _ _ => h.same

theorem BesideFile.perform {u : World → World} (h : BesideFile u) (o : Op) :
    Respects SameButFlags (perform o u : Sys Unit) := Respects.perform fun _ _ => h.same

/-- A program that goes on from a part of the state that is not the file. -/
theorem get_bind_beside {α : Type} {k : World → Sys α} (hk : ∀ w j, k (w.setFile j) = k w)
    (hrest : ∀ w, Respects SameButFlags (k w)) : Respects SameButFlags (get >>= k) := by
  refine Respects.get_bind ?_ hrest
  rintro w _ ⟨j, -, rfl⟩
  exact (hk w j).symm

theorem tgtNew_beside (tid name : String) : BesideFile (World.tgtNew · tid name) := by
  intro w j
  show (w.setFile j).tgtNew tid name = (w.tgtNew tid name).setFile j
  have htgts : (w.setFile j).tgts = w.tgts := rfl
  unfold World.tgtNew
  rw [htgts]
  split
  · rfl
  · rfl

theorem startCommit_beside (f : String) : BesideFile (World.startCommit · f) := by
  intro w j
  show (w.setFile j).startCommit f = (w.startCommit f).setFile j
  have hchild : (w.setFile j).child = w.child := rfl
  unfold World.startCommit
  rw [hchild]
  split
  · rfl
  · rfl

theorem nbdAdd_beside (dev f : String) : BesideFile (World.nbdAdd · dev f) := by
  intro w j
  show (w.setFile j).nbdAdd dev f = (w.nbdAdd dev f).setFile j
  have hchild : (w.setFile j).child = w.child := rfl
  have hused : (w.setFile j).devUsed dev = w.devUsed dev := rfl
  unfold World.nbdAdd
  rw [hchild, hused]
  split
  · rfl
  · rfl

theorem create_beside (p f : String) : BesideFile (World.create · p f) := by
  intro w j
  show (w.setFile j).create p f = (w.create p f).setFile j
  have hdisk : (w.setFile j).disk = w.disk := rfl
  unfold World.create
  rw [hdisk]
  split
  · rfl
  · rfl

/-! ## The parts of a request -/

section Beside

variable {s : Server} {r : Wks}

theorem tgtstart_beside : Respects SameButFlags (tgtstart s r) :=
  get_bind_beside (fun _ _ => rfl) fun _ => Respects.when fun _ =>
    Respects.bind (.lift _) fun tid => (tgtNew_beside tid _).modify

theorem tgtstop_beside : Respects SameButFlags (tgtstop s r) :=
  get_bind_beside (fun _ _ => rfl) fun _ => Respects.when fun _ =>
    Respects.bind (.lift _) fun tid =>
      BesideFile.modify (u := (World.tgtKill · tid)) fun _ _ => rfl

theorem nbdFreeSlot_beside (v : Img) : Respects SameButFlags (nbdFreeSlot s r v) := by
  refine Respects.bind (.lift _) fun path => get_bind_beside (fun _ _ => rfl) fun w => ?_
  split
  · next dev devs _ =>
    refine Respects.bind tgtstop_beside fun _ => Respects.bind ?_ fun _ => .pure _
    exact BesideFile.modify (u := (World.nbdDel · dev)) fun _ _ => rfl
  · exact .pure _

theorem nbdFree_beside : Respects SameButFlags (nbdFree s r) := Respects.mapM nbdFreeSlot_beside

theorem nbdConnect_beside : Respects SameButFlags (nbdConnect s r) := by
  refine Respects.mapM fun v => get_bind_beside (fun _ _ => rfl) fun w => ?_
  refine Respects.bind (Respects.when fun _ => ?_) fun _ => .pure _
  exact Respects.bind (.lift _) fun dev => Respects.bind (.lift _) fun path =>
    Respects.bind (.lift _) fun _ => (nbdAdd_beside dev _).modify

theorem lunAdd_beside (devs : List (Option String)) : Respects SameButFlags (lunAdd s r devs) := by
  have hlun (tid : String) (i : Nat) (store : String) : Respects SameButFlags
      (modify fun w => w.lunNew tid i store : Sys PUnit) :=
    BesideFile.modify (u := (World.lunNew · tid i store)) fun _ _ => rfl
  refine get_bind_beside (fun _ _ => rfl) fun w =>
    Respects.bind ?_ fun _ => Respects.forM fun vi => ?_
  · exact Respects.when fun _ => Respects.bind tgtstart_beside fun _ => Respects.wait (by
      rintro w _ ⟨j, -, rfl⟩
      rfl)
  · refine Respects.bind (Respects.when fun _ => ?_) fun _ => Respects.when fun _ => ?_
    · exact Respects.bind (.lift _) fun t => Respects.bind (.lift _) fun d => hlun t _ d
    · refine Respects.bind (.lift _) fun path => get_bind_beside (fun _ _ => rfl) fun w => ?_
      exact Respects.when fun _ => Respects.bind (.lift _) fun t => hlun t _ _

theorem zfs_beside (o : Op) : Respects SameButFlags (zfs o) :=
  BesideFile.perform (u := fun w => { w with disk := o.disks w.disk }) (fun _ _ => rfl) o

theorem zfsmount_beside : Respects SameButFlags (zfsmount s r) := by
  refine Respects.bind nbdFree_beside fun _ => Respects.bind (zfs_beside _) fun _ =>
    Respects.bind (zfs_beside _) fun _ => Respects.forM fun v => Respects.when fun _ => ?_
  exact Respects.bind (.lift _) fun path => zfs_beside _

theorem imgChild_beside (x : Vars) : Respects SameButFlags (imgChild x) :=
  Respects.bind (.lift _) fun p => Respects.bind (.lift _) fun c => (create_beside p c).modify

theorem setLock_beside (f : String) (b : Bool) :
    Respects SameButFlags (modify fun w => w.setLock f b : Sys PUnit) :=
  BesideFile.modify (u := (World.setLock · f b)) fun _ _ => rfl

theorem freeAndDel_beside (x : Vars) : Respects SameButFlags (freeAndDel x) :=
  Respects.bind (.lift _) fun c =>
    Respects.bind (BesideFile.perform (u := (World.killHolders · c)) (fun _ _ => rfl) _) fun _ =>
      BesideFile.modify (u := (World.del · c)) fun _ _ => rfl

theorem recreate_beside (lockf : String) (x : Vars) : Respects SameButFlags (recreate lockf x) := by
  refine get_bind_beside ?_ fun w => Respects.bind (Respects.when fun _ => ?_) fun _ => ?_
  · intro w j
    cases x.child with
    | none => rfl
    | some c => rfl
  · exact Respects.bind (freeAndDel_beside x) fun _ => get_bind_beside (fun _ _ => rfl) fun w =>
      Respects.when fun _ => setLock_beside lockf false
  · split
    · next p c hp hc =>
      refine Respects.bind (Respects.wait ?_) fun _ => imgChild_beside x
      rintro w _ ⟨j, -, rfl⟩
      rfl
    · exact .pure _

theorem mkChild_beside : Respects SameButFlags (mkChild s r) := by
  have hcreate (lockf : String) (super : Bool) (x : Vars) :
      Respects SameButFlags (createChild lockf super x) := by
    refine get_bind_beside ?_ fun w => Respects.ite (fun _ => ?_) fun _ =>
      Respects.ite (fun _ => ?_) fun _ => Respects.ite (fun _ => ?_) fun _ =>
        recreate_beside lockf x
    · intro w j
      cases x.child with
      | none => rfl
      | some c => rfl
    · exact Respects.bind (freeAndDel_beside x) fun _ => Respects.bind (imgChild_beside x) fun _ =>
        setLock_beside lockf true
    · exact Respects.bind (setLock_beside lockf true) fun _ => imgChild_beside x
    · exact setLock_beside lockf true
  refine Respects.when fun _ => Respects.bind (Respects.foldlM (fun x vi => ?_) _) fun _ => .pure _
  refine Respects.bind (.lift _) fun x => Respects.ite (fun _ => ?_) fun _ => .pure _
  exact Respects.bind (hcreate _ _ x) fun _ => .pure _

theorem askConnected_beside (v : Value) : Respects SameButFlags (askConnected v) := by
  have hask (ip : String) : Respects SameButFlags (perform (.ask ip) id : Sys Unit) :=
    Respects.perform fun _ _ h => h
  exact Respects.bind (.lift _) fun _ => Respects.when fun _ => Respects.bind (.lift _) fun ip =>
    Respects.bind (hask ip) fun _ => get_bind_beside (fun _ _ => rfl) fun _ =>
      Respects.when fun _ => hask ip

theorem powerOn_beside (p : Post) (c : Value) : Respects SameButFlags (powerOn p c) := by
  refine Respects.when fun _ => Respects.bind (.lift _) fun _ => Respects.when fun _ =>
    Respects.bind (.lift _) fun v => Respects.when fun _ => Respects.bind (.lift _) fun enable =>
      Respects.when fun _ => Respects.bind (.lift _) fun ifaces => ?_
  split
  · exact Respects.forM fun e => Respects.bind (.lift _) fun iface =>
      Respects.bind (.lift _) fun mac => Respects.perform fun _ _ h => h
  · exact .fail

theorem pipeline_beside : Respects SameButFlags (pipeline s r) :=
  Respects.bind tgtstop_beside fun _ => Respects.bind nbdFree_beside fun _ =>
    Respects.bind zfsmount_beside fun _ => Respects.bind mkChild_beside fun _ =>
      Respects.bind nbdConnect_beside fun devs => lunAdd_beside devs

end Beside

/-! ## The handlers -/

/-- The commands that the other requests, and the programs, can notice. -/
def Op.visible (o : Op) : Bool := o ≠ .tau

section Handlers

variable {w w' : World} {c c' : Value}

/-- Configurations that differ in flags only, in states that do. -/
abbrev Flags (c c' : Value) (_ _ : World) : Prop := cfgTexts c = cfgTexts c'

theorem load_alike {α β : Type} {k : Value → Sys α} {k' : Value → Sys β}
    {Q : α → β → World → World → Prop} (hE : SameButFlags w w')
    (hk : cfgTexts w.file.val = cfgTexts w'.file.val →
      Alike Op.visible SameButFlags Q (k w.file.val) (k' w'.file.val) w w') :
    Alike Op.visible SameButFlags Q (loadFromFile >>= k) (loadFromFile >>= k') w w' :=
  Alike.observe_bind (hk hE.file)

theorem checkconf_alike (hc : cfgTexts c = cfgTexts c') : checkconf c = checkconf c' := by
  rw [← checkconf_cfgTexts c, hc, checkconf_cfgTexts]

theorem save_alike (hE : SameButFlags w w') (hc : cfgTexts c = cfgTexts c') :
    Alike Op.visible SameButFlags (fun _ _ _ _ => True) (saveToFile c) (saveToFile c') w w' := by
  unfold saveToFile
  rw [checkconf_alike hc]
  cases checkconf c' with
  | none => exact Alike.fail hE
  | some ok =>
    rw [lift_some_bind, lift_some_bind]
    cases ok with
    | false => exact Alike.pure hE trivial
    | true =>
      refine Alike.perform ?_ trivial
      rcases hE with ⟨j, -, rfl⟩
      refine ⟨encode c', ?_, rfl⟩
      show cfgTexts (encode c).val = cfgTexts (encode c').val
      rw [cfgTexts_encode, cfgTexts_encode, hc]

/-- An edit that can be made before or after `cfgTexts`, and the save. -/
theorem edit_alike {edit : Value → Option Value}
    (hedit : ∀ c, edit (cfgTexts c) = (edit c).map cfgTexts) (hE : SameButFlags w w')
    (hc : cfgTexts c = cfgTexts c') :
    Alike Op.visible SameButFlags Flags
      (do let c ← lift (edit c); saveToFile c; return c : Sys Value)
      (do let c ← lift (edit c'); saveToFile c; return c) w w' := by
  have hsame : (edit c).map cfgTexts = (edit c').map cfgTexts := by
    rw [← hedit, hc, hedit]
  refine Alike.lift_bind hE hsame fun d d' _ _ hd => ?_
  exact Alike.bind (save_alike hE hd) fun _ _ _ _ hE _ => Alike.pure hE hd

end Handlers

section Commits

variable {w w' : World} {c c' : Value}

theorem freeByIPv4_alike {s : Server} {ip : Value} (hE : SameButFlags w w')
    (hc : cfgTexts c = cfgTexts c') :
    Alike Op.visible SameButFlags Flags (freeByIPv4 s ip c) (freeByIPv4 s ip c') w w' := by
  have hfind : getIDFromIPv4 c ip = getIDFromIPv4 c' ip := by
    rw [← getIDFromIPv4_cfgTexts c, hc, getIDFromIPv4_cfgTexts]
  unfold freeByIPv4
  rw [hfind]
  refine Alike.lift_bind_same hE fun o _ => Alike.lift_bind_same hE fun k _ => ?_
  have hrecord : wksTexts ((wksOf c).get k) = wksTexts ((wksOf c').get k) := by
    have hget : ∀ c, wksTexts ((wksOf c).get k) = (wksOf (cfgTexts c)).get k := by
      intro c
      rw [wksOf_cfgTexts, wks_faithful.get]
    rw [hget, hget, hc]
  have hread : (Wks.ofBare? ((wksOf c).get k)).map Wks.texts =
      (Wks.ofBare? ((wksOf c').get k)).map Wks.texts := by
    rw [← wks_ofBare?_wksTexts, hrecord, wks_ofBare?_wksTexts]
  refine Alike.lift_bind hE hread fun r r' _ _ hr => ?_
  have hstop : tgtstop s r = tgtstop s r' := by
    rw [← tgtstop_texts, hr, tgtstop_texts]
  have hfree : nbdFree s r = nbdFree s r' := by
    rw [← nbdFree_texts, hr, nbdFree_texts]
  rw [hstop, hfree]
  refine Alike.bind (Alike.of_respects tgtstop_beside hE) fun _ _ w w' hE _ => ?_
  refine Alike.bind (Alike.of_respects nbdFree_beside hE) ?_
  rintro nbds _ w w' hE rfl
  refine Alike.lift hE ?_
  rw [← setNbds_cfgTexts, hc, setNbds_cfgTexts]

theorem commitSlot_alike {n : Int} {u : Key} (hE : SameButFlags w w')
    (hc : cfgTexts c = cfgTexts c') :
    Alike Op.visible SameButFlags Flags (commitSlot n u c) (commitSlot n u c') w w' := by
  have hslot : (c.at? ["wks", .num n, "img", u]).map slotTexts =
      (c'.at? ["wks", .num n, "img", u]).map slotTexts := by
    rw [← at?_slot_cfgTexts, hc, at?_slot_cfgTexts]
  have hback : Server.back? c = Server.back? c' := by
    rw [← serverBack_cfgTexts c, hc, serverBack_cfgTexts]
  have hmac : c.at? ["wks", .num n, "mac"] = c'.at? ["wks", .num n, "mac"] := by
    have hfield : ∀ x, wksField "mac" x = x := fun x => by simp [wksField]
    rw [← at?_field_cfgTexts c n hfield, hc, at?_field_cfgTexts c' n hfield]
  have hip : c.at? ["wks", .num n, "ipv4"] = c'.at? ["wks", .num n, "ipv4"] := by
    have hfield : ∀ x, wksField "ipv4" x = x := fun x => by simp [wksField]
    rw [← at?_field_cfgTexts c n hfield, hc, at?_field_cfgTexts c' n hfield]
  unfold commitSlot
  refine Alike.lift_bind hE hslot fun v v' _ _ hv => ?_
  have hget : ∀ k, slotField k (v.get k) = slotField k (v'.get k) := by
    intro k
    rw [← slotField_faithful.get, ← slotField_faithful.get]
    exact congrArg (Value.get · k) hv
  have henable : (v.at? ["enable"]).map Value.textual = (v'.at? ["enable"]).map Value.textual := by
    have hflag : slotField "enable" = Value.textual := by
      funext x
      simp [slotField]
    rw [← hflag, ← slotField_faithful.at?_one, ← slotField_faithful.at?_one]
    exact congrArg (Value.at? ["enable"]) hv
  have hcommit : (v.get "commit").isOne ↔ (v'.get "commit").isOne := by
    have htext : (v.get "commit").textual = (v'.get "commit").textual := by
      simpa [slotField] using hget "commit"
    rw [← isOne_textual, htext, isOne_textual]
  have htype : v.get "type" = v'.get "type" := by simpa [slotField] using hget "type"
  have hpath : v.get "path" = v'.get "path" := by simpa [slotField] using hget "path"
  refine Alike.lift_bind hE henable fun e e' _ _ he => ?_
  have hone : e.isOne ↔ e'.isOne := by
    rw [← isOne_textual, he, isOne_textual]
  refine Alike.ite (by rw [hone, hcommit, htype]) (fun _ _ => ?_) fun _ _ => Alike.pure hE hc
  rw [hback, hpath, hmac, hip]
  refine Alike.lift_bind_same hE fun s _ => Alike.lift_bind_same hE fun path _ =>
    Alike.lift_bind_same hE fun mac _ => Alike.get_bind ?_
  refine Alike.ite ?_ (fun _ _ => ?_) fun _ _ => Alike.pure hE hc
  · rcases hE with ⟨j, -, rfl⟩
    rfl
  · refine Alike.lift_bind_same hE fun ip _ => Alike.bind (Q := Flags) ?_ fun d d' w w' hE hd => ?_
    · exact Alike.ite Iff.rfl (fun _ _ => freeByIPv4_alike hE hc) fun _ _ => Alike.pure hE hc
    · have hcommits := Alike.of_respects (f := Op.visible) ((startCommit_beside
        (childName s path (alnum mac))).perform (.commit (childName s path (alnum mac)))) hE
      exact Alike.bind hcommits fun _ _ w w' hE _ => Alike.pure hE hd

/-- The loop of `disableCommit`, when the tests on the flags come out the same. -/
theorem commitSlots_alike {n : Int} (hE : SameButFlags w w') (hc : cfgTexts c = cfgTexts c')
    (hflag : supperOf c n = .str "1" ↔ supperOf c' n = .str "1") :
    Alike Op.visible SameButFlags Flags (commitSlots n c) (commitSlots n c') w w' := by
  have hrecord : (c.at? ["wks", .num n]).map wksTexts = (c'.at? ["wks", .num n]).map wksTexts := by
    rw [← at?_record, hc, at?_record]
  have hsupper : wksField "supper" = Value.textual := by
    funext x
    simp [wksField]
  unfold commitSlots
  refine Alike.lift_bind hE hrecord fun v v' hv hv' htexts => ?_
  refine Alike.ite ?_ (fun _ _ => Alike.pure hE hc) fun _ _ => ?_
  · rw [← wksTexts_eq_nil, htexts, wksTexts_eq_nil]
  have hread : (v.at? ["supper"]).map Value.textual = (v'.at? ["supper"]).map Value.textual := by
    rw [← hsupper, ← wksField_faithful.at?_one, ← wksField_faithful.at?_one]
    exact congrArg (Value.at? ["supper"]) htexts
  refine Alike.lift_bind hE hread fun e e' he he' _ => ?_
  have hone : e = .str "1" ↔ e' = .str "1" := by
    rw [← at?_one he, ← at?_one he', ← at?_wks hv, ← at?_wks hv']
    exact hflag
  refine Alike.ite hone (fun _ _ => ?_) fun _ _ => Alike.pure hE hc
  have himg : (v.get "img").rewrite (fun _ => slotTexts) =
      (v'.get "img").rewrite fun _ => slotTexts := by
    rw [← img_wksTexts, htexts, img_wksTexts]
  revert himg
  cases v.get "img" with
  | table img =>
    cases v'.get "img" with
    | table img' =>
      intro himg
      have hkeys : keys img = keys img' := by
        rw [← keys_rewriteKvs (g := fun _ => slotTexts), Value.table.inj himg, keys_rewriteKvs]
      show Alike Op.visible SameButFlags Flags ((keys img).foldlM (fun c u => commitSlot n u c) c)
        ((keys img').foldlM (fun c u => commitSlot n u c) c') w w'
      rw [hkeys]
      refine Alike.foldlM (fun d d' t t' hE hd u _ => ?_) hE hc
      exact commitSlot_alike hE hd
    | nil | bool | num | str => simp [Value.rewrite]
  | nil | bool | num | str =>
    cases v'.get "img" with
    | table img' => simp [Value.rewrite]
    | nil | bool | num | str => exact fun _ => Alike.fail hE

end Commits

/-! ## Whether something is committed -/

/-- At this slot `disableCommit` has nothing to do: it is not chosen, or it is and its child
is not there. -/
def IdleSlot (n : Int) (c : Value) (w : World) (u : Key) : Prop :=
  ∃ v enable, c.at? ["wks", .num n, "img", u] = some v ∧ v.at? ["enable"] = some enable ∧
    (enable.isOne ∧ (v.get "commit").isOne ∧ v.get "type" ≠ .str "iso" →
      ∃ s path mac, Server.back? c = some s ∧ (v.get "path").concat? = some path ∧
        (c.at? ["wks", .num n, "mac"]).bind Value.str? = some mac ∧
        w.child (childName s path (alnum mac)) = none)

/-- Nothing is to be committed: there is no record, its flag is not the text `"1"`, or all of
its slots are idle. -/
def NothingToCommit (n : Int) (c : Value) (w : World) : Prop :=
  ∃ v, c.at? ["wks", .num n] = some v ∧ (v = .nil ∨ ∃ supper, v.at? ["supper"] = some supper ∧
    (supper = .str "1" → ∃ img, v.get "img" = .table img ∧ ∀ u ∈ keys img, IdleSlot n c w u))

/-- From `w` the program gives `c` back and shows and changes nothing, and then `P`; or a
commit is the first thing it shows; or it stops and shows nothing. -/
def CommitsOrNot (P : Prop) (c : Value) (x : Sys Value) (w : World) : Prop :=
  P ∧ exec x w = .ok c w ∧ (labels x w).filter Op.visible = [] ∨
  (∃ f os, (labels x w).filter Op.visible = .commit f :: os) ∨
  (exec x w).isOk = false ∧ (labels x w).filter Op.visible = []

section CommitsOrNot

variable {P P' : Prop} {c : Value} {w : World}

theorem CommitsOrNot.pure (h : P) : CommitsOrNot P c (Pure.pure c) w := .inl ⟨h, rfl, rfl⟩

theorem CommitsOrNot.fail : CommitsOrNot P c fail w := .inr (.inr ⟨rfl, rfl⟩)

theorem CommitsOrNot.lift_bind {α : Type} {x : Option α} {g : α → Sys Value}
    (hg : ∀ a, x = some a → CommitsOrNot P c (g a) w) :
    CommitsOrNot P c (Prog.lift x >>= g) w := by
  cases x with
  | none => exact .fail
  | some a => exact hg a rfl

theorem CommitsOrNot.ite {p : Prop} [Decidable p] {x y : Sys Value}
    (hx : p → CommitsOrNot P c x w) (hy : ¬ p → CommitsOrNot P c y w) :
    CommitsOrNot P c (if p then x else y) w := by
  split
  · next h => exact hx h
  · next h => exact hy h

theorem CommitsOrNot.bind {x : Sys Value} {g : Value → Sys Value} (hx : CommitsOrNot P c x w)
    (hg : P → CommitsOrNot P' c (g c) w) : CommitsOrNot P' c (x >>= g) w := by
  rcases hx with ⟨hP, hok, hnone⟩ | ⟨f, os, hfirst⟩ | ⟨hstop, hnone⟩
  · have hlabels : (labels (x >>= g) w).filter Op.visible = (labels (g c) w).filter Op.visible := by
      rw [labels_bind hok, List.filter_append, hnone, List.nil_append]
    have hexec : exec (x >>= g) w = exec (g c) w := by
      rw [exec_bind, hok]
    unfold CommitsOrNot
    rw [hlabels, hexec]
    exact hg hP
  · refine .inr (.inl ?_)
    cases hx : exec x w with
    | ok a w₁ =>
      rw [labels_bind hx, List.filter_append, hfirst]
      exact ⟨f, _, List.cons_append⟩
    | error w₁ | hang w₁ =>
      rw [labels_bind_of_not_ok g (by rw [hx]; rfl), hfirst]
      exact ⟨f, os, rfl⟩
  · refine .inr (.inr ⟨isOk_bind_of_not_ok g hstop, ?_⟩)
    rw [labels_bind_of_not_ok g hstop]
    exact hnone

theorem CommitsOrNot.get_bind {k : World → Sys Value} (hk : CommitsOrNot P c (k w) w) :
    CommitsOrNot P c (get >>= k) w := hk

/-- A part that shows nothing, and the commit. -/
theorem CommitsOrNot.commit {x : Sys Value} {f : String}
    (hx : (labels x w).filter Op.visible = []) :
    CommitsOrNot P c (x >>= fun d => imgCommit f >>= fun _ => Pure.pure d) w := by
  cases hexec : exec x w with
  | ok d w₁ =>
    refine .inr (.inl ⟨f, [], ?_⟩)
    rw [labels_bind hexec, List.filter_append, hx]
    rfl
  | error w₁ | hang w₁ =>
    have hstop : (exec x w).isOk = false := by
      rw [hexec]
      rfl
    refine .inr (.inr ⟨isOk_bind_of_not_ok _ hstop, ?_⟩)
    rw [labels_bind_of_not_ok _ hstop]
    exact hx

/-- Stopping the target and the servers shows nothing. -/
theorem freeByIPv4_silent (s : Server) (ip : Value) :
    (labels (freeByIPv4 s ip c) w).filter Op.visible = [] := by
  have hdoes : Does (fun o _ _ => o = .tau) (fun _ => True) (freeByIPv4 s ip c) := by
    refine Does.bind (Does.lift fun _ _ => trivial) fun o _ =>
      Does.bind (Does.lift fun _ _ => trivial) fun k _ =>
        Does.bind (Does.lift fun _ _ => trivial) fun r _ =>
          Does.bind (tgtstop_does.mono (fun o _ _ h => ?_) fun _ _ => trivial) fun _ _ =>
            Does.bind (nbdFree_does.mono (fun o _ _ h => ?_) fun _ _ => trivial) fun nbds _ =>
              Does.lift fun _ _ => trivial
    · cases h <;> rfl
    · cases h with
      | kill hkill => cases hkill <;> rfl
      | nbdDel => rfl
  rw [List.filter_eq_nil_iff]
  intro o ho
  rcases hdoes.exists_of_mem_labels ho with ⟨-, -, rfl⟩
  decide

theorem commitSlot_commitsOrNot (n : Int) (u : Key) :
    CommitsOrNot (IdleSlot n c w u) c (commitSlot n u c) w := by
  refine CommitsOrNot.lift_bind fun v hv => CommitsOrNot.lift_bind fun enable henable =>
    CommitsOrNot.ite (fun _ => ?_) fun hidle =>
      .pure ⟨v, enable, hv, henable, fun h => absurd h hidle⟩
  refine CommitsOrNot.lift_bind fun s hs => CommitsOrNot.lift_bind fun path hpath =>
    CommitsOrNot.lift_bind fun mac hmac => CommitsOrNot.get_bind (CommitsOrNot.ite (fun _ => ?_)
      fun hchild => .pure ⟨v, enable, hv, henable, fun _ => ?_⟩)
  · refine CommitsOrNot.lift_bind fun ip _ => CommitsOrNot.commit ?_
    split
    · exact freeByIPv4_silent s ip
    · rfl
  · exact ⟨s, path, mac, hs, hpath, hmac, Option.not_isSome_iff_eq_none.1 hchild⟩

theorem commitSlots_commitsOrNot (n : Int) :
    CommitsOrNot (NothingToCommit n c w) c (commitSlots n c) w := by
  refine CommitsOrNot.lift_bind fun v hv => CommitsOrNot.ite (fun hnil => .pure ⟨v, hv, .inl hnil⟩)
    fun _ => CommitsOrNot.lift_bind fun supper hsupper => CommitsOrNot.ite (fun _ => ?_)
      fun hoff => .pure ⟨v, hv, .inr ⟨supper, hsupper, fun h => absurd h hoff⟩⟩
  split
  · next img himg =>
    have hloop (us : List Key) : CommitsOrNot (∀ u ∈ us, IdleSlot n c w u) c
        (us.foldlM (fun c u => commitSlot n u c) c) w := by
      induction us with
      | nil => exact .pure (by simp)
      | cons u us ih =>
        rw [List.foldlM_cons]
        refine (commitSlot_commitsOrNot n u).bind fun hu => ?_
        rcases ih with ⟨hus, hrest⟩ | hrest
        · exact .inl ⟨by simpa using ⟨hu, hus⟩, hrest⟩
        · exact .inr hrest
    rcases hloop (keys img) with ⟨hidle, hrest⟩ | hrest
    · exact .inl ⟨⟨v, hv, .inr ⟨supper, hsupper, fun _ => ⟨img, himg, hidle⟩⟩⟩, hrest⟩
    · exact .inr hrest
  · exact .fail

end CommitsOrNot

/-- The program gives the configuration back, and shows and changes nothing. -/
def Skips (c : Value) (x : Sys Value) (w : World) : Prop :=
  exec x w = .ok c w ∧ (labels x w).filter Op.visible = []

theorem Skips.get_bind {c : Value} {k : World → Sys Value} {w : World} (h : Skips c (k w) w) :
    Skips c (get >>= k) w := h

theorem IdleSlot.skips {n : Int} {c : Value} {w : World} {u : Key} (h : IdleSlot n c w u) :
    Skips c (commitSlot n u c) w := by
  rcases h with ⟨v, enable, hv, henable, hchild⟩
  unfold commitSlot
  rw [hv, lift_some_bind, henable, lift_some_bind]
  split
  · next hchosen =>
    rcases hchild hchosen with ⟨s, path, mac, hs, hpath, hmac, hnone⟩
    rw [hs, lift_some_bind, hpath, lift_some_bind, hmac, lift_some_bind]
    refine Skips.get_bind ?_
    rw [if_neg (by simp [hnone])]
    exact ⟨rfl, rfl⟩
  · exact ⟨rfl, rfl⟩

/-- Then the loop does nothing. -/
theorem NothingToCommit.skips {n : Int} {c : Value} {w : World} (h : NothingToCommit n c w) :
    Skips c (commitSlots n c) w := by
  rcases h with ⟨v, hv, hcases⟩
  unfold commitSlots
  rw [hv, lift_some_bind]
  split
  · exact ⟨rfl, rfl⟩
  · next hne =>
    rcases hcases with hnil | ⟨supper, hsupper, hslots⟩
    · exact absurd hnil hne
    rw [hsupper, lift_some_bind]
    split
    · next hone =>
      rcases hslots hone with ⟨img, himg, hidle⟩
      rw [himg]
      simp only
      generalize keys img = us at hidle
      induction us with
      | nil => exact ⟨rfl, rfl⟩
      | cons u us ih =>
        have hu := (hidle u List.mem_cons_self).skips
        have hus := ih fun u' hu' => hidle u' (List.mem_cons_of_mem _ hu')
        rw [List.foldlM_cons]
        refine ⟨?_, ?_⟩
        · rw [exec_bind, hu.1]
          exact hus.1
        · rw [labels_bind hu.1, List.filter_append, hu.2, hus.2, List.nil_append]
    · exact ⟨rfl, rfl⟩

/-- The request is `disableCommit` for workstation `n`. -/
def Post.Commits (p : Post) (n : Int) : Prop :=
  p.id.bind numberOf = some n ∧ p.supper.bind SupperCmd.of? = some .disableCommit

/-- The flags of the workstation pass the test of `disableCommit` on both sides or on none,
or nothing is to be committed on either. -/
def CommitsAlike (n : Int) (w w' : World) : Prop :=
  (supperOf w.file.val n = .str "1" ↔ supperOf w'.file.val n = .str "1") ∨
  NothingToCommit n w.file.val w ∧ NothingToCommit n w'.file.val w'

/-! ## Requests -/

section Requests

variable {w w' : World} {c c' : Value}

theorem disableCommit_alike {n : Int} (hE : SameButFlags w w') (hcommits : CommitsAlike n w w') :
    Alike Op.visible SameButFlags Flags (disableCommit n) (disableCommit n) w w' := by
  refine load_alike hE fun hc => Alike.bind (Q := Flags) ?_ fun d d' w w' hE hd => ?_
  · rcases hcommits with hflag | ⟨hnothing, hnothing'⟩
    · exact commitSlots_alike hE hc hflag
    · rcases hnothing.skips with ⟨hok, hnone⟩
      rcases hnothing'.skips with ⟨hok', hnone'⟩
      constructor
      · rw [hnone, hnone']
      · rw [hok, hok']
        exact ⟨hE, hc⟩
  · exact edit_alike (clearFlags_cfgTexts n) hE hd

theorem supperPart_alike (p : Post) (hE : SameButFlags w w') (hc : cfgTexts c = cfgTexts c')
    (hcommits : ∀ n, p.Commits n → CommitsAlike n w w') :
    Alike Op.visible SameButFlags Flags (supperPart p c) (supperPart p c') w w' := by
  have hrecord : ∀ n, (wksAt? c n).map wksTexts = (wksAt? c' n).map wksTexts := by
    intro n
    rw [← wksAt?_cfgTexts, hc, wksAt?_cfgTexts]
  have hend (n : Int) : Alike Op.visible SameButFlags Flags (endSession n) (endSession n) w w' :=
    load_alike hE fun hc => edit_alike (clearFlags_cfgTexts n) hE hc
  unfold supperPart
  split
  · next id cmd hid hcmd =>
    rw [checkconf_alike hc]
    refine Alike.lift_bind_same hE fun ok _ => Alike.ite Iff.rfl (fun _ _ => ?_) fun _ _ =>
      Alike.pure hE hc
    refine Alike.lift_bind hE (hrecord _) fun v v' _ _ hv => ?_
    have hnil : v = .nil ↔ v' = .nil := by
      rw [← wksTexts_eq_nil, hv, wksTexts_eq_nil]
    have hfalse : v = .bool false ↔ v' = .bool false := by
      rw [← rewrite_eq_bool (g := wksField), ← rewrite_eq_bool (v := v') (g := wksField)]
      exact Eq.to_iff (congrArg (· = Value.bool false) hv)
    cases hn : numberOf id with
    | none => exact Alike.pure hE hc
    | some n =>
      refine Alike.ite hnil (fun _ _ => Alike.pure hE hc) fun _ _ => ?_
      cases cmd with
      | enable =>
        refine load_alike hE fun hc => ?_
        cases p.jsondata with
        | none => exact Alike.pure hE hc
        | some data => exact edit_alike (setFlags_cfgTexts n data) hE hc
      | disableUncommit | disableCommitPoint =>
        exact Alike.ite hfalse (fun _ _ => Alike.pure hE hc) fun _ _ => hend n
      | disableCommit =>
        refine Alike.ite hfalse (fun _ _ => Alike.pure hE hc) fun _ _ => ?_
        refine disableCommit_alike hE (hcommits n ⟨?_, hcmd⟩)
        rw [hid]
        exact hn
      | supperCheck =>
        refine Alike.ite hfalse (fun _ _ => Alike.pure hE hc) fun _ _ => ?_
        have hask : askConnected v = askConnected v' := by
          rw [← askConnected_wksTexts, hv, askConnected_wksTexts]
        rw [hask]
        exact Alike.bind (Alike.of_respects (askConnected_beside v') hE) fun _ _ _ _ hE _ =>
          Alike.pure hE hc
      | diskList =>
        refine Alike.ite hfalse (fun _ _ => Alike.pure hE hc) fun _ _ => ?_
        have hpaths : diskPaths v = diskPaths v' := by
          rw [← diskPaths_wksTexts, hv, diskPaths_wksTexts]
        rw [hpaths]
        exact Alike.lift_bind_same hE fun _ _ => Alike.pure hE hc
  · exact Alike.pure hE hc

theorem exportDHCP_alike (hE : SameButFlags w w') (hc : cfgTexts c = cfgTexts c') :
    Alike Op.visible SameButFlags (fun _ _ _ _ => True) (exportDHCP c) (exportDHCP c') w w' := by
  have hconf : dhcpdConf c = dhcpdConf c' := by
    rw [← dhcpdConf_cfgTexts c, hc, dhcpdConf_cfgTexts]
  have hdir : textAt? c ["dhcp", "workdir"] = textAt? c' ["dhcp", "workdir"] := by
    rw [← textAt?_cfgTexts (by decide), hc, textAt?_cfgTexts (by decide)]
  have hwrite (t : String) : Respects SameButFlags
      (modify fun w => { w with dhcpd := t } : Sys PUnit) :=
    BesideFile.modify (u := fun w => { w with dhcpd := t }) fun _ _ => rfl
  have hsame : exportDHCP c = exportDHCP c' := by
    rw [exportDHCP, exportDHCP, checkconf_alike hc, hconf, hdir]
  have hbeside : Respects SameButFlags (exportDHCP c') := by
    refine Respects.bind (.lift _) fun _ => Respects.when fun _ =>
      Respects.bind (.lift _) fun _ => ?_
    split
    · exact hwrite _
    · exact Respects.bind (hwrite _) fun _ => .fail
  rw [hsame]
  exact (Alike.of_respects hbeside hE).mono fun _ _ _ _ _ => trivial

theorem applyMy_alike (p : Post) (hE : SameButFlags w w') (hc : cfgTexts c = cfgTexts c') :
    Alike Op.visible SameButFlags Flags (applyMy p c) (applyMy p c') w w' := by
  have htable : (c.at? ["wks"]).map (Value.rewrite fun _ => wksTexts) =
      (c'.at? ["wks"]).map (Value.rewrite fun _ => wksTexts) := by
    rw [← at?_wks_cfgTexts, hc, at?_wks_cfgTexts]
  have hold : ∀ tid, (wksIndex? c tid).map wksTexts = (wksIndex? c' tid).map wksTexts := by
    intro tid
    rw [← wksIndex?_cfgTexts, hc, wksIndex?_cfgTexts]
  have hassign : ∀ (n : Int) (v : Value), (c.assign? ["wks", .num n] v).map cfgTexts =
      (c'.assign? ["wks", .num n] v).map cfgTexts := by
    intro n v
    rw [← assignWks_cfgTexts, hc, assignWks_cfgTexts]
  unfold applyMy
  split
  · refine Alike.lift_bind_same hE fun v _ => Alike.lift_bind_same hE fun tid _ => ?_
    refine Alike.lift_bind hE htable fun t t' _ _ ht => ?_
    refine Alike.ite ?_ (fun _ _ => Alike.pure hE hc) fun _ _ => ?_
    · rw [← rewrite_eq_nil (g := fun _ => wksTexts), ht, rewrite_eq_nil]
    refine Alike.lift_bind hE (hold tid) fun o o' _ _ ho => ?_
    refine Alike.ite ?_ (fun _ _ => ?_) fun _ _ => Alike.pure hE hc
    · rw [← wksTexts_eq_nil, ho, wksTexts_eq_nil]
    refine Alike.lift_bind_same hE fun n _ => Alike.lift_bind hE (hassign n _) fun d d' _ _ hd => ?_
    refine Alike.bind (save_alike hE hd) fun _ _ w w' hE _ => ?_
    exact Alike.bind (exportDHCP_alike hE hd) fun _ _ w w' hE _ => Alike.pure hE hd
  · exact Alike.pure hE hc

theorem deleteMachine_alike (p : Post) (hE : SameButFlags w w') (hc : cfgTexts c = cfgTexts c') :
    Alike Op.visible SameButFlags (fun _ _ _ _ => True) (deleteMachine p c) (deleteMachine p c')
      w w' := by
  unfold deleteMachine
  split
  · next id _ _ =>
    have hdeleted : (deleted id c).map cfgTexts = (deleted id c').map cfgTexts := by
      rw [← deleted_cfgTexts, hc, deleted_cfgTexts]
    exact Alike.lift_bind hE hdeleted fun d d' _ _ hd => save_alike hE hd
  · exact Alike.pure hE trivial

/-- What is sent differs in flags only. -/
abbrev Replies (a b : Option Value) (_ _ : World) : Prop := a.map wksTexts = b.map wksTexts

theorem otherHandlers_alike (p : Post) (hE : SameButFlags w w') (hc : cfgTexts c = cfgTexts c') :
    Alike Op.visible SameButFlags Replies (otherHandlers p c) (otherHandlers p c') w w' := by
  have hpower : powerOn p c = powerOn p c' := by
    rw [← powerOn_cfgTexts, hc, powerOn_cfgTexts]
  have hget {w w' : World} (hE : SameButFlags w w') :
      (getMy p w.arp c).map (Option.map wksTexts) =
        (getMy p w'.arp c').map (Option.map wksTexts) := by
    have harp : w.arp = w'.arp := by
      rcases hE with ⟨j, -, rfl⟩
      rfl
    rw [harp, ← getMy_cfgTexts, hc, getMy_cfgTexts]
  unfold otherHandlers
  rw [hpower]
  refine Alike.bind (Alike.of_respects (powerOn_beside p c') hE) fun _ _ w w' hE _ =>
    Alike.get_bind (Alike.lift_bind hE (hget hE) fun a b _ _ hab => ?_)
  refine Alike.bind (applyMy_alike p hE hc) fun d d' w w' hE hd => ?_
  exact Alike.bind (deleteMachine_alike p hE hd) fun _ _ w w' hE _ => Alike.pure hE hab

theorem post_alike (p : Post) (hE : SameButFlags w w')
    (hcommits : checkconf w.file.val = some true → ∀ n, p.Commits n → CommitsAlike n w w') :
    Alike Op.visible SameButFlags Replies (post p) (post p) w w' := by
  rw [post_eq]
  refine load_alike hE fun hc => ?_
  unfold afterFirst
  rw [checkconf_alike hc]
  refine Alike.lift_bind_same hE fun ok hok => Alike.ite Iff.rfl (fun htrue _ => ?_) fun _ _ =>
    Alike.pure hE rfl
  refine load_alike hE fun hc => ?_
  have hconf : checkconf w.file.val = some true := by
    rw [checkconf_alike hc, hok, htrue]
  exact Alike.bind (supperPart_alike p hE hc (hcommits hconf)) fun d d' w w' hE hd =>
    otherHandlers_alike p hE hd

theorem bootRequest_alike (ip : String) (hE : SameButFlags w w') :
    Alike Op.visible SameButFlags (fun _ _ _ _ => True) (bootRequest ip) (bootRequest ip) w w' := by
  refine load_alike hE fun hc => ?_
  have hfind : getIDFromIPv4 w.file.val (.str ip) = getIDFromIPv4 w'.file.val (.str ip) := by
    rw [← getIDFromIPv4_cfgTexts, hc, getIDFromIPv4_cfgTexts]
  have hserver : Server.of? w.file.val = Server.of? w'.file.val := by
    rw [← server_cfgTexts, hc, server_cfgTexts]
  have hrecord : ∀ k, (Wks.of? ((wksOf w.file.val).get k)).map Wks.texts =
      (Wks.of? ((wksOf w'.file.val).get k)).map Wks.texts := by
    have hget : ∀ c k, wksTexts ((wksOf c).get k) = (wksOf (cfgTexts c)).get k := by
      intro c k
      rw [wksOf_cfgTexts, wks_faithful.get]
    intro k
    rw [← wks_of?_wksTexts, hget, hc, ← hget, wks_of?_wksTexts]
  rw [checkconf_alike hc, hfind, hserver]
  refine Alike.lift_bind_same hE fun ok _ => ?_
  refine Alike.ite Iff.rfl (fun _ _ => ?_) fun _ _ => Alike.pure hE trivial
  refine Alike.lift_bind_same hE fun o _ => Alike.lift_bind_same hE fun k _ =>
    Alike.lift_bind_same hE fun s _ => Alike.lift_bind hE (hrecord k) fun r r' _ _ hr => ?_
  have hscript : bootScript s r w.file.val = bootScript s r' w'.file.val := by
    rw [← bootScript_texts, hr, hc, bootScript_texts]
  have hpipeline : pipeline s r = pipeline s r' := by
    rw [← pipeline_texts, hr, pipeline_texts]
  rw [hscript, hpipeline]
  refine Alike.lift_bind_same hE fun _ _ => ?_
  exact (Alike.of_respects pipeline_beside hE).mono fun _ _ _ _ _ => trivial

end Requests

/-! ## What the runs show -/

/-- What follows the loop of `disableCommit`. -/
def afterLoop (p : Post) (n : Int) (c : Value) : Sys (Option Value) :=
  (do let c ← lift (clearFlags n c); saveToFile c; return c) >>= otherHandlers p

section Shown

variable {p : Post} {n : Int} {w : World}

theorem table_of_clearFlags {c : Value} (hclear : (clearFlags n c).isSome) :
    ∃ kvs, c.at? ["wks", .num n] = some (.table kvs) := by
  by_contra habsent
  rw [clearFlags_absent fun kvs h => habsent ⟨kvs, h⟩] at hclear
  cases hclear

/-- The request reads the file three times before the loop. -/
theorem labels_post_commits (hcommits : p.Commits n) (hconf : checkconf w.file.val = some true)
    (hclear : (clearFlags n w.file.val).isSome) :
    (labels (post p) w).filter Op.visible = .load :: .load :: .load ::
      (labels (commitSlots n w.file.val >>= afterLoop p n) w).filter Op.visible := by
  rcases table_of_clearFlags hclear with ⟨kvs, hat⟩
  have hedit : SupperCmd.disableCommit.edit n p.jsondata w.file.val >>= otherHandlers p =
      commitSlots n w.file.val >>= afterLoop p n := bind_assoc _ _ _
  have hpart : afterSecond p w.file.val =
      loadFromFile >>= fun c =>
        SupperCmd.disableCommit.edit n p.jsondata c >>= otherHandlers p := by
    rw [afterSecond, supperPart_table hcommits.1 hcommits.2 (by decide) hconf hat, bind_assoc]
  have hfirst : afterFirst p w.file.val = loadFromFile >>= afterSecond p := by
    rw [afterFirst, hconf, lift_some_bind, if_pos rfl]
  have hload : ∀ k : Value → Sys (Option Value),
      (labels (loadFromFile >>= k) w).filter Op.visible =
        .load :: (labels (k w.file.val) w).filter Op.visible := fun _ => rfl
  rw [post_eq, hload, hfirst, hload, hpart, hload, hedit]

/-- After the loop the configuration is saved. -/
theorem labels_afterLoop {c : Value} (hconf : checkconf c = some true)
    (hclear : (clearFlags n c).isSome) :
    ∃ os, (labels (afterLoop p n c) w).filter Op.visible = .save :: os := by
  rcases Option.isSome_iff_exists.1 hclear with ⟨d, hd⟩
  have hconf' : checkconf d = some true := by
    rw [(clearFlags_puts hd).sameSettings.checkconf, hconf]
  refine ⟨(labels (otherHandlers p d) { w with file := encode d }).filter Op.visible, ?_⟩
  rw [afterLoop, hd, lift_some_bind, saveToFile, hconf', lift_some_bind]
  rfl

/-- The loop is skipped when the flag is not the text `"1"`. -/
theorem commitSlots_skipped {c : Value} {kvs : List (Key × Value)}
    (hat : c.at? ["wks", .num n] = some (.table kvs)) (hoff : supperOf c n ≠ .str "1") :
    commitSlots n c = pure c := by
  have hne : lookup "supper" kvs ≠ .str "1" := by
    intro h
    apply hoff
    rw [supperOf, at?_wks hat, Value.get_table, h]
  rw [commitSlots, hat, lift_some_bind, if_neg (by simp)]
  simp only [Value.at?, lift_some_bind, if_neg hne]

theorem nothingToCommit_of_flag {c : Value} {kvs : List (Key × Value)}
    (hat : c.at? ["wks", .num n] = some (.table kvs)) (hoff : supperOf c n ≠ .str "1") :
    NothingToCommit n c w := by
  refine ⟨.table kvs, hat, .inr ⟨lookup "supper" kvs, rfl, fun hone => ?_⟩⟩
  rw [supperOf, at?_wks hat, Value.get_table] at hoff
  exact absurd hone hoff

/-- A run that shows what a run that skips the loop shows has nothing to commit. -/
theorem nothingToCommit_of_shown {w' : World} (hcommits : p.Commits n)
    (hconf : checkconf w.file.val = some true) (hclear : (clearFlags n w.file.val).isSome)
    (hconf' : checkconf w'.file.val = some true) (hclear' : (clearFlags n w'.file.val).isSome)
    (hskip : commitSlots n w'.file.val = pure w'.file.val)
    (hsame : (labels (post p) w).filter Op.visible = (labels (post p) w').filter Op.visible) :
    NothingToCommit n w.file.val w := by
  rcases labels_afterLoop (p := p) (w := w') hconf' hclear' with ⟨os, hsave⟩
  rw [labels_post_commits hcommits hconf hclear, labels_post_commits hcommits hconf' hclear', hskip,
    pure_bind, hsave] at hsame
  simp only [List.cons.injEq, true_and] at hsame
  rcases commitSlots_commitsOrNot (c := w.file.val) (w := w) n
    with hidle | ⟨f, os', hfirst⟩ | ⟨hstop, hnone⟩
  · exact hidle.1
  · -- a commit is shown where the other run shows the save
    exfalso
    cases hx : exec (commitSlots n w.file.val) w with
    | ok d w₁ =>
      rw [labels_bind hx, List.filter_append, hfirst] at hsame
      cases hsame
    | error w₁ | hang w₁ =>
      rw [labels_bind_of_not_ok _ (by rw [hx]; rfl), hfirst] at hsame
      cases hsame
  · -- the run ends before the save
    rw [labels_bind_of_not_ok _ hstop, hnone] at hsame
    cases hsame

end Shown

/-- A session on the first disk, with this flag; its child is there. -/
def sessionFlag (supper : Value) : World :=
  { World.initial (shippedCfg ⟨"", "", ""⟩
      [.table [("mac", .str "b4:2e:99:2c:dd:52"), ("ipv4", .str "192.168.0.3"),
        ("name", .str "PC001"), ("enable", .num 1), ("tid", .num 1), ("supper", supper),
        ("fileboot", .str "ipxe"),
        ("img", array [.table [("path", .str "win10cc.qcow2"), ("boot", .num 1),
            ("cache", .str "unsafe"), ("type", .str "dyndisk"), ("commit", .num 1),
            ("enable", .num 1)],
          shippedSlot "lord.qcow2" "dynblock" 0 1, shippedSlot "" "iso" 0 0]),
        ("opt", array [])]]) [] with
    child := fun f => if f = "/srv/writeback/win10cc.qcow2_child_b42e992cdd52"
      then some ⟨"/srv/images/boot/win10cc.qcow2", [(5, ⟨77, 0⟩)], 0⟩ else none }

theorem sessionFlag_same : SameButFlags (sessionFlag (.num 1)) (sessionFlag (.str "1")) :=
  ⟨(sessionFlag (.str "1")).file, by decide +kernel, rfl⟩

/-- A super-mode command for the workstation. -/
def flagPost (t : String) : Post := ⟨some "1", some t, none, none, none⟩

end NsBoot
