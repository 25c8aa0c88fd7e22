import NsBoot.Admin
import NsBoot.Records
import NsBoot.Boot.Steps

/-!
# NsBoot.Admin.Edits — what a POST request does to the configuration

The request `p` changes the configuration it holds in memory one record at a
time:

* `SuperEdit`: the super-mode flags of the record `id`, or the devices of the
  record that `nbdFree` finds for the address of `id`;
* `RecordEdit`: the record posted by `ApplyMy`, under its `tid`, or the record
  `id`, by `DeleteMachine`.

`Edited` is the order they come in. `post_saved` is the specification of the
whole request, whether it returns or stops with an error: the file is as it was,
or it is the saved image of a configuration edited from the one that was loaded.
-/

namespace NsBoot

open Lua Prog Relation

/-! ## Assignments inside one record -/

/-- The record `k` is replaced by one reached with steps of `S`. -/
def Puts (S : Value → Value → Prop) (k : Key) (c c' : Value) : Prop :=
  ∃ v, ReflTransGen S ((wksOf c).get k) v ∧ v ≠ .nil ∧ Put k v c c'

section Puts

variable {S : Value → Value → Prop} {k : Key} {c c' c'' : Value}

theorem Puts.trans (h : Puts S k c c') (h' : Puts S k c' c'') : Puts S k c c'' := by
  obtain ⟨v, hv, hne, hp⟩ := h
  obtain ⟨v', hv', hne', hp'⟩ := h'
  rw [hp.get_self] at hv'
  exact ⟨v', hv.trans hv', hne', hp.put hp' hne hne'⟩

theorem Puts.of_assign {f : Key} {fs : List Key} {x : Value}
    (hS : ∀ v v', v.assign? (f :: fs) x = some v' → S v v')
    (h : c.assign? ("wks" :: k :: f :: fs) x = some c') : Puts S k c c' := by
  obtain ⟨v, v', hat, hassign, hput⟩ := Value.assign?_append (p := ["wks", k]) h
  obtain ⟨kvs, u, -, -, hv'⟩ := Value.assign?_cons hassign
  refine ⟨v', .single (hS _ _ ?_), by simp [hv'], hput⟩
  rwa [at?_wks hat]

theorem Puts.of_foldlM {α : Type} {f : Value → α → Option Value} {xs : List α}
    (hf : ∀ x ∈ xs, ∀ c c', f c x = some c' → Puts S k c c')
    (h : xs.foldlM f c = some c') : c' = c ∨ Puts S k c c' := by
  induction xs generalizing c with
  | nil =>
    cases h
    exact Or.inl rfl
  | cons x xs ih =>
    rw [List.foldlM_cons, Option.bind_eq_bind, Option.bind_eq_some_iff] at h
    obtain ⟨c₁, hx, hxs⟩ := h
    have hput := hf x List.mem_cons_self c c₁ hx
    rcases ih (fun y hy => hf y (List.mem_cons_of_mem _ hy)) hxs with rfl | hrest
    · exact Or.inr hput
    · exact Or.inr (hput.trans hrest)

end Puts

theorem setSupper_puts {n : Int} {x : String} {c c' : Value}
    (h : setSupper n (.str x) c = some c') : Puts (FlagStep x) (.num n) c c' :=
  Puts.of_assign (fun _ _ h => .supper h) h

theorem setCommit_puts {n i : Int} {x : String} {c c' : Value}
    (h : setCommit n i (.str x) c = some c') : Puts (FlagStep x) (.num n) c c' :=
  Puts.of_assign (fun _ _ h => .commit i h) h

theorem setFlags_puts {n : Int} {data : Option Json} {c c' : Value}
    (h : setFlags n data c = some c') : Puts (FlagStep "1") (.num n) c c' := by
  simp only [setFlags, Option.bind_eq_bind, Option.bind_eq_some_iff] at h
  obtain ⟨d, -, h⟩ := h
  split at h
  · next us _ =>
    obtain ⟨c₁, hfold, hsup⟩ := Option.bind_eq_some_iff.1 h
    have hloop := Puts.of_foldlM (S := FlagStep "1") (k := .num n) (fun u _ c c' hu => by
      obtain ⟨i, -, hi⟩ := Option.bind_eq_some_iff.1 hu
      exact setCommit_puts hi) hfold
    rcases hloop with rfl | hloop
    · exact setSupper_puts hsup
    · exact hloop.trans (setSupper_puts hsup)
  · simp at h

theorem clearFlags_puts {n : Int} {c c' : Value} (h : clearFlags n c = some c') :
    Puts (FlagStep "0") (.num n) c c' := by
  simp only [clearFlags, Option.bind_eq_bind, Option.bind_eq_some_iff] at h
  obtain ⟨c₁, hsup, hfold⟩ := h
  rcases Puts.of_foldlM (S := FlagStep "0") (k := .num n) (fun i _ c c' hi => setCommit_puts hi)
    hfold with rfl | hloop
  · exact setSupper_puts hsup
  · exact (setSupper_puts hsup).trans hloop

theorem setNbds_puts {k : Key} {nbds : List Value} (hn : ∀ v ∈ nbds, Value.Normal v)
    {c c' : Value} (h : setNbds k nbds c = some c') : c' = c ∨ Puts NbdStep k c c' := by
  refine Puts.of_foldlM (fun vi hvi c c' h => Puts.of_assign (fun _ _ h => ?_) h) h
  exact .nbd _ _ (hn _ (List.fst_mem_of_mem_zipIdx hvi)) h

/-! ## Edits -/

/-- The changes the super-mode handlers can make. -/
inductive SuperEdit (p : Post) : Value → Value → Prop
  | flags {c c' : Value} {n : Int} {cmd : SupperCmd} (hid : p.id.bind numberOf = some n)
      (hcmd : p.supper.bind SupperCmd.of? = some cmd) (hset : cmd.Sets)
      (h : Puts (FlagStep cmd.flag) (.num n) c c') : SuperEdit p c c'
  | nbd {c c' ip : Value} {n : Int} {k : Key} (hid : p.id.bind numberOf = some n)
      (hsup : p.supper = some "disableCommit")
      (hip : c.at? ["wks", .num n, "ipv4"] = some ip) (hne : ip ≠ .nil)
      (hfind : getIDFromIPv4 c ip = some (some k)) (h : Puts NbdStep k c c') : SuperEdit p c c'

/-- The changes `ApplyMy` and `DeleteMachine` can make. -/
inductive RecordEdit (p : Post) : Value → Value → Prop
  | apply {c c' tid : Value} {d : Json} {n : Int} (hcmd : p.wksCmd = some "ApplyMy")
      (hdata : p.jsondata = some (some d)) (htid : d.val.at? ["WKS", "tid"] = some tid)
      (hfree : wksIndex? c tid = some .nil) (hn : tid.tonumber = some n)
      (h : Put (.num n) (d.val.get "WKS") c c') : RecordEdit p c c'
  | delete {c c' v tid : Value} {id : String} {n : Int} (hid : p.id = some id)
      (hcmd : p.wksCmd = some "DeleteMachine") (hn : numberOf id = some n)
      (hold : c.at? ["wks", .num n] = some v) (hv : v ≠ .nil) (htid : v.at? ["tid"] = some tid)
      (heq : tid.tostring = id) (h : Put (.num n) tombstone c c') : RecordEdit p c c'

theorem Post.tid?_eq {p : Post} {d : Json} {tid : Value} (hdata : p.jsondata = some (some d))
    (htid : d.val.at? ["WKS", "tid"] = some tid) : p.tid? = some tid := by
  simp [Post.tid?, hdata, htid]

/-- Any number of changes by the super-mode handlers. -/
abbrev SuperEdits (p : Post) : Value → Value → Prop := ReflTransGen (SuperEdit p)

/-- The changes of a whole request, in their order. -/
def Edited (p : Post) (c c' : Value) : Prop :=
  ∃ c₁, SuperEdits p c c₁ ∧ (c' = c₁ ∨ RecordEdit p c₁ c')

/-- The file is as it was, or the image of an edited configuration. -/
def Saved (p : Post) (w w' : World) : Prop :=
  w'.file = w.file ∨
    ∃ c, Edited p w.file.val c ∧ checkconf c = some true ∧ w'.file = encode c

theorem Edited.of_super {p : Post} {c c' : Value} (h : SuperEdits p c c') : Edited p c c' :=
  ⟨c', h, Or.inl rfl⟩

/-! ## The steps -/

/-- Targets and devices are freed, and commits are started. -/
inductive CommitAct : Op → World → World → Prop
  | stop {t : Option String} {o : Op} {w w' : World} (h : StopAct t o w w') : CommitAct o w w'
  | commit (w : World) (f : String) : CommitAct (.commit f) w (w.startCommit f)

/-- Steps that only ask: reads, `etherwake`, and `tgtadm` for an address. -/
inductive AskAct : Op → World → World → Prop
  | idle (w : World) : AskAct .tau w w
  | wake (w : World) (iface mac : String) : AskAct (.wake iface mac) w w
  | ask (w : World) (ip : String) : AskAct (.ask ip) w w

theorem AskAct.eq {o : Op} {w w' : World} (h : AskAct o w w') : w' = w := by
  cases h with
  | idle | wake | ask => rfl

/-- What a request does besides reading and writing the configuration. -/
inductive FreeAct : Op → World → World → Prop
  | stop {t : Option String} {o : Op} {w w' : World} (h : StopAct t o w w') : FreeAct o w w'
  | commit (w : World) (f : String) : FreeAct (.commit f) w (w.startCommit f)
  | dhcpd (w : World) (t : String) : FreeAct .tau w { w with dhcpd := t }
  | ask {o : Op} {w w' : World} (h : AskAct o w w') : FreeAct o w w'

theorem FreeAct.idle (w : World) : FreeAct .tau w w := .stop (.idle (t := none) w)

theorem CommitAct.free {o : Op} {w w' : World} (h : CommitAct o w w') : FreeAct o w w' := by
  cases h with
  | stop h => exact .stop h
  | commit _ f => exact .commit w f

theorem FreeAct.file {o : Op} {w w' : World} (h : FreeAct o w w') : w'.file = w.file := by
  cases h with
  | stop h => exact congrArg Prod.fst h.images
  | commit =>
    unfold World.startCommit
    split <;> rfl
  | dhcpd => rfl
  | ask h => rw [h.eq]

theorem askConnected_does (v : Value) : Does AskAct (fun _ => True) (askConnected v) := by
  refine Does.bind (Does.lift fun _ _ => trivial) fun supper _ => Does.when fun _ => ?_
  refine Does.bind (Does.lift fun _ _ => trivial) fun ip _ =>
    Does.bind (Does.perform fun w => .ask w ip) fun _ _ =>
      Does.bind (Does.get .idle) fun w _ => Does.when fun _ => ?_
  exact Does.perform fun w => .ask w ip

theorem powerOn_does (p : Post) (c : Value) : Does AskAct (fun _ => True) (powerOn p c) := by
  refine Does.when fun _ => Does.bind (Does.lift fun _ _ => trivial) fun _ _ => Does.when fun _ =>
    Does.bind (Does.lift fun _ _ => trivial) fun v _ => Does.when fun _ =>
      Does.bind (Does.lift fun _ _ => trivial) fun enable _ => Does.when fun _ =>
        Does.bind (Does.lift fun _ _ => trivial) fun ifaces _ => ?_
  split
  · refine Does.forM fun e _ => Does.bind (Does.lift fun _ _ => trivial) fun iface _ =>
      Does.bind (Does.lift fun _ _ => trivial) fun mac _ => Does.perform fun w => ?_
    exact .wake w iface mac
  · exact Does.fail

theorem powerOn_of_none {p : Post} (h : p.cmd = none) (c : Value) : powerOn p c = pure () := by
  unfold powerOn Prog.when
  exact if_neg fun hif => by simp [h] at hif

theorem powerOn_ends {I : World → Prop} {p : Post} {c : Value} {w : World} (h : I w) :
    Ends I (fun _ w' => w = w') (powerOn p c) w := by
  have hsame := (powerOn_does p c).weaken (S := fun _ => Same id) fun _ _ _ => AskAct.eq
  refine Ends.of_does hsame (fun w' hw' => ?_) fun _ _ _ hw' => hw'.symm
  rwa [show w' = w from hw']

theorem powerOn_ok {p : Post} {c : Value} {w w' : World} {u : Unit}
    (h : exec (powerOn p c) w = .ok u w') : w = w' :=
  Eq.symm (((powerOn_does p c).weaken (S := fun _ => Same id) fun _ _ _ => AskAct.eq).of_ok h)

theorem freeByIPv4_does (s : Server) (ip c : Value) :
    Does CommitAct (fun c' => ∃ k, getIDFromIPv4 c ip = some (some k) ∧
      (c' = c ∨ Puts NbdStep k c c')) (freeByIPv4 s ip c) := by
  refine Does.bind (Does.lift fun o ho => ho) fun o ho =>
    Does.bind (Does.lift fun k hk => hk) fun k hk =>
      Does.bind (Does.lift fun _ _ => trivial) fun r _ =>
        Does.bind (tgtstop_does.weaken fun _ _ _ h => .stop (.kill h)) fun _ _ =>
          Does.bind (nbdFree_does.weaken fun _ _ _ => .stop) fun nbds hn =>
            Does.lift fun c' hc' => ⟨k, ?_, setNbds_puts hn hc'⟩
  rw [ho, hk]

section Commit

variable {p : Post} {n : Int} (hid : p.id.bind numberOf = some n)
  (hsup : p.supper = some "disableCommit")

include hid hsup

theorem commitSlot_does (u : Key) (c : Value) :
    Does CommitAct (SuperEdits p c) (commitSlot n u c) := by
  have hstay : SuperEdits p c c := .refl
  refine Does.bind (Does.lift fun _ _ => trivial) fun v _ =>
    Does.bind (Does.lift fun _ _ => trivial) fun enable _ =>
      Does.ite (fun _ => ?_) fun _ => Does.pure hstay
  refine Does.bind (Does.lift fun _ _ => trivial) fun s _ =>
    Does.bind (Does.lift fun _ _ => trivial) fun path _ =>
      Does.bind (Does.lift fun _ _ => trivial) fun mac _ =>
        Does.bind (Does.get fun w => .stop (.idle (t := none) w)) fun w _ =>
          Does.ite (fun _ => ?_) fun _ => Does.pure hstay
  refine Does.bind (Does.lift fun ip hip => hip) fun ip hip =>
    Does.bind (P := SuperEdits p c) (Does.ite (fun hne => ?_) fun _ => Does.pure hstay)
      fun c' hc' =>
      Does.bind (Does.perform fun w => .commit w _) fun _ _ => Does.pure hc'
  refine (freeByIPv4_does s ip c).mono (fun _ _ _ => id) ?_
  rintro c' ⟨k, hfind, rfl | hput⟩
  · exact .refl
  · exact .single (.nbd hid hsup hip hne hfind hput)

theorem commitSlots_does (c : Value) : Does CommitAct (SuperEdits p c) (commitSlots n c) := by
  refine Does.bind (Does.lift fun _ _ => trivial) fun v _ =>
    Does.ite (fun _ => Does.pure .refl) fun _ =>
      Does.bind (Does.lift fun _ _ => trivial) fun supper _ =>
        Does.ite (fun _ => ?_) fun _ => Does.pure .refl
  split
  · refine Does.foldlM (fun c' hc' u _ => ?_) .refl
    exact (commitSlot_does hid hsup u c').mono (fun _ _ _ => id) fun _ h => hc'.trans h
  · exact Does.fail

end Commit

theorem exportDHCP_does (c : Value) : Does FreeAct (fun _ => True) (exportDHCP c) := by
  refine Does.bind (Does.lift fun _ _ => trivial) fun ok _ => Does.when fun _ =>
    Does.bind (Does.lift fun _ _ => trivial) fun _ _ => ?_
  split
  · exact Does.modify fun w => .dhcpd w _
  · exact Does.bind (Does.modify fun w => .dhcpd w _) fun _ _ => Does.fail

/-! ## The request -/

section Request

variable {p : Post} {w₀ : World}

theorem Saved.of_file {w w' : World} (h : Saved p w₀ w) (hf : w'.file = w.file) :
    Saved p w₀ w' := by
  unfold Saved at h ⊢
  rwa [hf]

/-- After the super-mode handlers. -/
def Held (p : Post) (w₀ : World) (c : Value) (w : World) : Prop :=
  SuperEdits p w₀.file.val c ∧ Saved p w₀ w

theorem Ends.of_free {α : Type} {P : α → Prop} {x : Sys α} (h : Does FreeAct P x)
    {I : World → Prop} {Q : α → World → Prop} {w : World}
    (hI : ∀ w', w'.file = w.file → I w') (hQ : ∀ a w', P a → w'.file = w.file → Q a w') :
    Ends I Q x w :=
  Ends.of_does (h.weaken (S := fun _ => Same World.file) fun _ _ _ => FreeAct.file) hI hQ

theorem saveToFile_ends {c : Value} (hc : Edited p w₀.file.val c) {w : World}
    (hw : Saved p w₀ w) : Ends (Saved p w₀) (fun _ => Saved p w₀) (saveToFile c) w := by
  refine Ends.bind (Q := fun ok w' => checkconf c = some ok ∧ w = w')
    (Ends.lift hw fun ok hok => ⟨hok, rfl⟩) ?_
  rintro ok _ ⟨hok, rfl⟩
  unfold Prog.when
  refine Ends.ite (fun h => Or.inr ⟨c, hc, ?_, rfl⟩) fun _ => hw
  rw [hok, h]

theorem saveAndReturn_ends {c : Value} (hc : SuperEdits p w₀.file.val c) {w : World}
    (hw : Saved p w₀ w) :
    Ends (Saved p w₀) (Held p w₀) (do saveToFile c; return c) w :=
  Ends.bind (saveToFile_ends (.of_super hc) hw) fun _ _ hw' => Ends.pure ⟨hc, hw'⟩

section Super

variable {n : Int} (hid : p.id.bind numberOf = some n) {w : World} (hw : w.file = w₀.file)

include hid hw

theorem supperTrue_ends (hcmd : p.supper.bind SupperCmd.of? = some .enable) :
    Ends (Saved p w₀) (Held p w₀) (supperTrue n p.jsondata) w := by
  refine Ends.bind (Ends.observe ⟨rfl, rfl⟩) (Q := fun c w' => c = w.file.val ∧ w = w') ?_
  rintro _ _ ⟨rfl, rfl⟩
  rw [hw]
  split
  · exact Ends.pure ⟨.refl, Or.inl hw⟩
  · refine Ends.bind (Q := Held p w₀) (Ends.lift (Or.inl hw) fun c' hc' => ?_) fun c' w' h =>
      saveAndReturn_ends h.1 h.2
    exact ⟨.single (.flags hid hcmd (by decide) (setFlags_puts hc')), Or.inl hw⟩

theorem endSession_ends {cmd : SupperCmd} (hcmd : p.supper.bind SupperCmd.of? = some cmd)
    (hset : cmd.Sets) (hflag : cmd.flag = "0") :
    Ends (Saved p w₀) (Held p w₀) (endSession n) w := by
  refine Ends.bind (Ends.observe ⟨rfl, rfl⟩) (Q := fun c w' => c = w.file.val ∧ w = w') ?_
  rintro _ _ ⟨rfl, rfl⟩
  rw [hw]
  refine Ends.bind (Q := Held p w₀) (Ends.lift (Or.inl hw) fun c' hc' => ?_) fun c' w' h =>
    saveAndReturn_ends h.1 h.2
  exact ⟨.single (.flags hid hcmd hset (hflag ▸ clearFlags_puts hc')), Or.inl hw⟩

theorem disableCommit_ends (hsup : p.supper = some "disableCommit") :
    Ends (Saved p w₀) (Held p w₀) (disableCommit n) w := by
  refine Ends.bind (Ends.observe ⟨rfl, rfl⟩) (Q := fun c w' => c = w.file.val ∧ w = w') ?_
  rintro _ _ ⟨rfl, rfl⟩
  rw [hw]
  refine Ends.bind (Q := Held p w₀) ?_ fun c' w' h => ?_
  · exact Ends.of_free ((commitSlots_does hid hsup _).weaken fun _ _ _ => CommitAct.free)
      (fun w' h => Or.inl (h.trans hw)) fun c' w' hc' h => ⟨hc', Or.inl (h.trans hw)⟩
  · refine Ends.bind (Q := Held p w₀) (Ends.lift h.2 fun c'' hc'' => ?_) fun c' w' h =>
      saveAndReturn_ends h.1 h.2
    have hcmd : p.supper.bind SupperCmd.of? = some .disableCommit := by
      rw [hsup]
      rfl
    exact ⟨h.1.tail (.flags hid hcmd (by decide) (clearFlags_puts hc'')), h.2⟩

end Super

theorem eq_disableCommit {o : Option String} (h : o.bind SupperCmd.of? = some .disableCommit) :
    o = some "disableCommit" := by
  obtain ⟨t, rfl, ht⟩ := Option.bind_eq_some_iff.1 h
  unfold SupperCmd.of? at ht
  split at ht <;> simp_all

theorem supperPart_ends {w : World} (hw : w.file = w₀.file) :
    Ends (Saved p w₀) (Held p w₀) (supperPart p w₀.file.val) w := by
  have hstay : Held p w₀ w₀.file.val w := ⟨.refl, Or.inl hw⟩
  unfold supperPart
  split
  · next id cmd hid hcmd =>
    refine Ends.bind (Q := fun _ w' => w = w') (Ends.lift hstay.2 fun _ _ => rfl) ?_
    rintro ok _ rfl
    refine Ends.ite (fun _ => ?_) fun _ => hstay
    refine Ends.bind (Q := fun _ w' => w = w') (Ends.lift hstay.2 fun _ _ => rfl) ?_
    rintro v _ rfl
    split
    · exact hstay
    · next n hn =>
      have hid' : p.id.bind numberOf = some n := by simp [hid, hn]
      refine Ends.ite (fun _ => hstay) fun _ => ?_
      cases cmd with
      | enable => exact supperTrue_ends hid' hw hcmd
      | disableUncommit =>
        exact Ends.ite (fun _ => hstay) fun _ => endSession_ends hid' hw hcmd (by decide) rfl
      | disableCommit =>
        refine Ends.ite (fun _ => hstay) fun _ => disableCommit_ends hid' hw ?_
        exact eq_disableCommit hcmd
      | disableCommitPoint =>
        exact Ends.ite (fun _ => hstay) fun _ => endSession_ends hid' hw hcmd (by decide) rfl
      | supperCheck =>
        refine Ends.ite (fun _ => hstay) fun _ =>
          Ends.bind (Q := fun _ w' => w'.file = w.file) ?_ ?_
        · exact Ends.of_free ((askConnected_does v).weaken fun _ _ _ => .ask)
            (fun w' h => Or.inl (h.trans hw)) fun _ _ _ h => h
        · intro _ w' h
          exact ⟨.refl, Or.inl (h.trans hw)⟩
      | diskList =>
        refine Ends.ite (fun _ => hstay) fun _ =>
          Ends.bind (Q := fun _ w' => w = w') (Ends.lift hstay.2 fun _ _ => rfl) ?_
        rintro _ _ rfl
        exact hstay
  · exact hstay

/-- After `ApplyMy`: a `DeleteMachine` that follows finds the super-mode
changes only. -/
def Applied (p : Post) (w₀ : World) (c : Value) (w : World) : Prop :=
  (p.wksCmd = some "DeleteMachine" → SuperEdits p w₀.file.val c) ∧ Saved p w₀ w

theorem applyMy_ends {c : Value} {w : World} (h : Held p w₀ c w) :
    Ends (Saved p w₀) (Applied p w₀) (applyMy p c) w := by
  have hstay : Applied p w₀ c w := ⟨fun _ => h.1, h.2⟩
  unfold applyMy
  split
  · next hcmd hdata =>
    refine Ends.bind (Q := fun d w' => p.jsondata = some (some d) ∧ w = w')
      (Ends.lift h.2 fun d hd => ⟨by rw [hdata, hd], rfl⟩) ?_
    rintro d _ ⟨hd, rfl⟩
    refine Ends.bind (Q := fun tid w' => d.val.at? ["WKS", "tid"] = some tid ∧ w = w')
      (Ends.lift h.2 fun tid htid => ⟨htid, rfl⟩) ?_
    rintro tid _ ⟨htid, rfl⟩
    refine Ends.bind (Q := fun _ w' => w = w') (Ends.lift h.2 fun _ _ => rfl) ?_
    rintro wks _ rfl
    refine Ends.ite (fun _ => hstay) fun _ => ?_
    refine Ends.bind (Q := fun old w' => wksIndex? c tid = some old ∧ w = w')
      (Ends.lift h.2 fun old hold => ⟨hold, rfl⟩) ?_
    rintro old _ ⟨hold, rfl⟩
    refine Ends.ite (fun hnil => ?_) fun _ => hstay
    refine Ends.bind (Q := fun n w' => tid.tonumber = some n ∧ w = w')
      (Ends.lift h.2 fun n hn => ⟨hn, rfl⟩) ?_
    rintro n _ ⟨hn, rfl⟩
    refine Ends.bind (Q := fun c' w' => Edited p w₀.file.val c' ∧ Saved p w₀ w')
      (Ends.lift h.2 fun c' hc' => ?_) fun c' w' h' => ?_
    · exact ⟨⟨c, h.1, Or.inr (.apply hcmd hd htid (by rw [hold, hnil]) hn hc')⟩, h.2⟩
    · refine Ends.bind (saveToFile_ends h'.1 h'.2) fun _ w' hw' => ?_
      refine Ends.bind (Q := fun _ => Saved p w₀) ?_ fun _ w' hw' =>
        Ends.pure ⟨by simp [hcmd], hw'⟩
      exact Ends.of_free (exportDHCP_does c') (fun _ hf => hw'.of_file hf)
        fun _ _ _ hf => hw'.of_file hf
  · exact hstay

theorem deleted_edit {id : String} (hid : p.id = some id) (hcmd : p.wksCmd = some "DeleteMachine")
    {c c' : Value} (h : deleted id c = some c') : c' = c ∨ RecordEdit p c c' := by
  simp only [deleted, Option.bind_eq_bind, Option.bind_eq_some_iff] at h
  obtain ⟨v, hv, h⟩ := h
  split at h
  · cases h
    exact Or.inl rfl
  · next hne =>
    obtain ⟨tid, htid, h⟩ := Option.bind_eq_some_iff.1 h
    split at h
    · next heq =>
      obtain ⟨n, hn, hput⟩ := Option.bind_eq_some_iff.1 h
      rw [hn] at hv
      exact Or.inr (.delete hid hcmd hn hv hne htid heq hput)
    · cases h
      exact Or.inl rfl

theorem deleteMachine_ends {c : Value} {w : World} (h : Applied p w₀ c w) :
    Ends (Saved p w₀) (fun _ => Saved p w₀) (deleteMachine p c) w := by
  unfold deleteMachine
  split
  · next id hid hcmd =>
    refine Ends.bind (Q := fun c' w' => Edited p w₀.file.val c' ∧ Saved p w₀ w')
      (Ends.lift h.2 fun c' hc' => ?_) fun c' w' h' => saveToFile_ends h'.1 h'.2
    exact ⟨⟨c, h.1 hcmd, deleted_edit hid hcmd hc'⟩, h.2⟩
  · exact h.2

/-- What `GetMy` sends was read off the configuration the super-mode handlers
left. -/
def Replied (p : Post) (w₀ : World) (reply : Option Value) : Prop :=
  ∃ c arp, SuperEdits p w₀.file.val c ∧ (reply ≠ none → getMy p arp c = some reply)

theorem post_ends (p : Post) (w : World) :
    Ends (Saved p w) (fun reply w' => Saved p w w' ∧ Replied p w reply) (post p) w := by
  have hstay : Saved p w w := Or.inl rfl
  refine Ends.bind (Q := fun c w' => c = w.file.val ∧ w = w') (Ends.observe ⟨rfl, rfl⟩) ?_
  rintro _ _ ⟨rfl, rfl⟩
  refine Ends.bind (Q := fun _ w' => w = w') (Ends.lift hstay fun _ _ => rfl) ?_
  rintro ok _ rfl
  refine Ends.ite (fun _ => ?_) fun _ => ⟨hstay, _, w.arp, .refl, by simp⟩
  refine Ends.bind (Q := fun c w' => c = w.file.val ∧ w = w') (Ends.observe ⟨rfl, rfl⟩) ?_
  rintro _ _ ⟨rfl, rfl⟩
  refine Ends.bind (supperPart_ends rfl) fun c w₀ h₀ => ?_
  refine Ends.bind (Q := fun _ w' => w'.file = w₀.file) ?_ fun _ w₁ hw₁ => ?_
  · exact Ends.of_free ((powerOn_does p c).weaken fun _ _ _ => .ask) (fun _ h => h₀.2.of_file h)
      fun _ _ _ h => h
  have h₁ : Held p w c w₁ := ⟨h₀.1, h₀.2.of_file hw₁⟩
  refine Ends.bind (Q := fun _ w' => w₁ = w') (Ends.observe rfl) ?_
  rintro w₂ _ rfl
  refine Ends.bind (Q := fun reply w' => getMy p w₂.arp c = some reply ∧ w₁ = w')
    (Ends.lift h₁.2 fun _ h => ⟨h, rfl⟩) ?_
  rintro reply _ ⟨hreply, rfl⟩
  refine Ends.bind (applyMy_ends h₁) fun c' w₃ h₃ => ?_
  exact Ends.bind (deleteMachine_ends h₃) fun _ _ h =>
    Ends.pure ⟨h, c, w₂.arp, h₁.1, fun _ => hreply⟩

/-- **What a request leaves in the file**, however it ends. -/
theorem post_saved (p : Post) (w : World) : Saved p w (exec (post p) w).final :=
  ((post_ends p w).mono fun _ _ h => h.1).final

/-- **What a request answers.** -/
theorem post_replied {p : Post} {w w' : World} {reply : Option Value}
    (h : exec (post p) w = .ok reply w') : Replied p w reply :=
  ((post_ends p w).of_ok h).2

end Request

/-! ## The steps of a request -/

/-- The atomic steps of a POST request. -/
inductive PostAct : Op → World → World → Prop
  | load (w : World) : PostAct .load w w
  | save (w : World) (c : Value) : PostAct .save w { w with file := encode c }
  | free {o : Op} {w w' : World} (h : FreeAct o w w') : PostAct o w w'

/-- The atomic steps of the super-mode handlers. -/
inductive SuperAct : Op → World → World → Prop
  | load (w : World) : SuperAct .load w w
  | save (w : World) (c : Value) : SuperAct .save w { w with file := encode c }
  | commit {o : Op} {w w' : World} (h : CommitAct o w w') : SuperAct o w w'
  | ask {o : Op} {w w' : World} (h : AskAct o w w') : SuperAct o w w'

theorem SuperAct.post {o : Op} {w w' : World} (h : SuperAct o w w') : PostAct o w w' := by
  cases h with
  | load => exact .load w
  | save _ c => exact .save w c
  | commit h => exact .free h.free
  | ask h => exact .free (.ask h)

theorem loadFromFile_does : Does SuperAct (fun _ => True) loadFromFile :=
  Does.observe .load fun _ => trivial

theorem saveToFile_does (c : Value) : Does SuperAct (fun _ => True) (saveToFile c) :=
  Does.bind (Does.lift fun _ _ => trivial) fun _ _ => Does.when fun _ =>
    Does.perform fun w => .save w c

theorem clearAndSave_does (n : Int) (c : Value) :
    Does SuperAct (fun _ => True) (do let c ← lift (clearFlags n c); saveToFile c; return c) :=
  Does.bind (Does.lift fun _ _ => trivial) fun c' _ =>
    Does.bind (saveToFile_does c') fun _ _ => Does.done _

theorem supperPart_does (p : Post) (c : Value) :
    Does SuperAct (fun _ => True) (supperPart p c) := by
  unfold supperPart
  split
  · next id cmd hid hcmd =>
    refine Does.bind (Does.lift fun _ _ => trivial) fun _ _ => Does.ite (fun _ => ?_) fun _ =>
      Does.done _
    refine Does.bind (Does.lift fun _ _ => trivial) fun v _ => ?_
    split
    · exact Does.done _
    · next n hn =>
      refine Does.ite (fun _ => Does.done _) fun _ => ?_
      cases cmd with
      | enable =>
        refine Does.bind loadFromFile_does fun c' _ => ?_
        split
        · exact Does.done _
        · exact Does.bind (Does.lift fun _ _ => trivial) fun c' _ =>
            Does.bind (saveToFile_does c') fun _ _ => Does.done _
      | disableUncommit | disableCommitPoint =>
        exact Does.ite (fun _ => Does.done _) fun _ =>
          Does.bind loadFromFile_does fun c' _ => clearAndSave_does n c'
      | disableCommit =>
        refine Does.ite (fun _ => Does.done _) fun _ => Does.bind loadFromFile_does fun c' _ => ?_
        have hid' : p.id.bind numberOf = some n := by simp [hid, hn]
        refine Does.bind ((commitSlots_does hid' (eq_disableCommit hcmd) c').mono
          (fun _ _ _ => .commit) fun _ _ => trivial) fun c'' _ => clearAndSave_does n c''
      | supperCheck =>
        exact Does.ite (fun _ => Does.done _) fun _ =>
          Does.bind ((askConnected_does v).weaken fun _ _ _ => .ask) fun _ _ => Does.done _
      | diskList =>
        exact Does.ite (fun _ => Does.done _) fun _ =>
          Does.bind (Does.lift fun _ _ => trivial) fun _ _ => Does.done _
  · exact Does.done _

theorem applyMy_does (p : Post) (c : Value) : Does PostAct (fun _ => True) (applyMy p c) := by
  unfold applyMy
  split
  · refine Does.bind (Does.lift fun _ _ => trivial) fun v _ =>
      Does.bind (Does.lift fun _ _ => trivial) fun tid _ =>
        Does.bind (Does.lift fun _ _ => trivial) fun wks _ =>
          Does.ite (fun _ => Does.done _) fun _ =>
          Does.bind (Does.lift fun _ _ => trivial) fun old _ => Does.ite (fun _ => ?_) fun _ =>
            Does.done _
    exact Does.bind (Does.lift fun _ _ => trivial) fun n _ =>
      Does.bind (Does.lift fun _ _ => trivial) fun c' _ =>
        Does.bind ((saveToFile_does c').weaken fun _ _ _ => SuperAct.post) fun _ _ =>
          Does.bind ((exportDHCP_does c').weaken fun _ _ _ => .free) fun _ _ => Does.done _
  · exact Does.done _

theorem deleteMachine_does (p : Post) (c : Value) :
    Does SuperAct (fun _ => True) (deleteMachine p c) := by
  unfold deleteMachine
  split
  · exact Does.bind (Does.lift fun _ _ => trivial) fun c' _ => saveToFile_does c'
  · exact Does.done _

/-- A POST request takes only the steps of `PostAct`. -/
theorem post_does (p : Post) : Does PostAct (fun _ => True) (post p) := by
  have hload := loadFromFile_does.weaken fun _ _ _ => SuperAct.post
  refine Does.bind hload fun c _ => Does.bind (Does.lift fun _ _ => trivial) fun _ _ =>
    Does.ite (fun _ => ?_) fun _ => Does.done _
  refine Does.bind hload fun c _ =>
    Does.bind ((supperPart_does p c).weaken fun _ _ _ => SuperAct.post) fun c' _ =>
    Does.bind ((powerOn_does p c').weaken fun _ _ _ h => .free (.ask h)) fun _ _ =>
      Does.bind (Does.get fun w => .free (.idle w)) fun w _ =>
        Does.bind (Does.lift fun _ _ => trivial) fun reply _ => ?_
  exact Does.bind (applyMy_does p c') fun c'' _ =>
    Does.bind ((deleteMachine_does p c'').weaken fun _ _ _ => SuperAct.post) fun _ _ => Does.done _

end NsBoot
