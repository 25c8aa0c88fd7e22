import NsBoot.Admin.Keep
import NsBoot.Admin.Unique
import NsBoot.Dhcp.Export

/-!
# NsBoot.Dhcp.Hosts — dhcpd.conf and the table of workstations

dhcpd.conf is written by `ApplyMy` only. The other requests change the saved table
and leave the declarations of dhcpd.conf as they are, `DeleteMachine` among them.

* `HostDecl`: what a host block of dhcpd.conf declares; `Given`: what the enabled
  live workstations of a configuration ask for.
* `post_twoFiles`: what a request does to the two files.
* `hosts_in_step`: the two agree along every run in which no exported workstation
  is deleted and every posted record can be exported.
-/

namespace NsBoot

open Lua Conf Prog Relation Run

/-! ## Declarations -/

/-- A host declaration: name, hardware address, fixed address and boot files. -/
structure HostDecl where
  name : List Word
  hardware : List Word
  address : List Word
  files : List Word
deriving DecidableEq

/-- What follows `key` in the first line that starts with it. -/
def lineAfter (key : List Word) (body : List Stmt) : List Word :=
  (body.findSome? fun
    | .line ws => if key.isPrefixOf ws then some (ws.drop key.length) else none
    | .block _ _ => none).getD []

/-- The file of a `filename` line. -/
def Stmt.filename : Stmt → List Word
  | .line (.plain "filename" :: ws) => ws
  | _ => []

/-- The files named in a block. -/
def Stmt.files : Stmt → List Word
  | .block _ body => body.flatMap Stmt.filename
  | _ => []

def Stmt.host? : Stmt → Option HostDecl
  | .block (.plain "host" :: name) body => some {
      name
      hardware := lineAfter [.plain "hardware", .plain "ethernet"] body
      address := lineAfter [.plain "fixed-address"] body
      files := body.flatMap Stmt.files }
  | _ => none

/-- One of the statements declares the host. -/
def Declares (ss : List Stmt) (h : HostDecl) : Prop := ∃ s ∈ ss, Stmt.host? s = some h

def hostDecl (name mac ipv4 fileboot : String) : HostDecl where
  name := words name
  hardware := words mac
  address := words ipv4
  files := [".kpxe", "32.efi", ".efi"].map fun suffix => .quoted (fileboot ++ suffix)

/-- The declaration a record asks for. -/
def HostDecl.of? (v : Value) : Option HostDecl := do
  let name ← (v.get "name").concat?
  let mac ← (v.get "mac").concat?
  let ipv4 ← (v.get "ipv4").concat?
  let fileboot ← (v.get "fileboot").concat?
  return hostDecl name mac ipv4 fileboot

/-- The declaration is given by an enabled live workstation. -/
def Given (c : Value) (h : HostDecl) : Prop :=
  ∃ k, Live c k ∧ (((wksOf c).get k).get "enable").isOne ∧
    HostDecl.of? ((wksOf c).get k) = some h

/-- dhcpd.conf can be read, and declares what the saved configuration gives. -/
def InStep (w : World) : Prop :=
  ∃ ss, read? w.dhcpd = some ss ∧ ∀ h, Declares ss h ↔ Given w.file.val h

def Host.decl (x : Host) : HostDecl := hostDecl x.name x.mac x.ipv4 x.fileboot

theorem Host.host?_stmt (x : Host) : Stmt.host? x.stmt = some x.decl := by
  have hopts : (x.opts.map fun o => Stmt.line (.plain "option" :: words o)).flatMap Stmt.files =
      [] := by
    simp [List.flatMap_map, Stmt.files]
  simp only [Host.stmt, Stmt.host?, List.flatMap_append, hopts]
  simp [Host.decl, hostDecl, lineAfter, Stmt.files, Stmt.filename, fileStmt]

theorem declares_stmts {d : Dhcp} {ipxe : List Stmt} (hipxe : ∀ h, ¬ Declares ipxe h)
    {hs : List Host} {h : HostDecl} :
    Declares (d.stmts ipxe hs) h ↔ ∃ x ∈ hs, x.decl = h := by
  constructor
  · rintro ⟨s, hs, hdecl⟩
    simp only [Dhcp.stmts, List.mem_append, List.mem_map] at hs
    rcases hs with (((⟨e, -, rfl⟩ | ⟨e, -, rfl⟩) | ⟨s, -, rfl⟩) | hs) | ⟨x, hx, rfl⟩
    · cases hdecl
    · cases hdecl
    · simp [Subnet.stmt, Stmt.host?] at hdecl
    · exact absurd ⟨s, hs, hdecl⟩ (hipxe h)
    · rw [Host.host?_stmt, Option.some.injEq] at hdecl
      exact ⟨x, hx, hdecl⟩
  · rintro ⟨x, hx, rfl⟩
    refine ⟨x.stmt, ?_, x.host?_stmt⟩
    simp only [Dhcp.stmts, List.mem_append, List.mem_map]
    exact Or.inr ⟨x, hx, rfl⟩

/-! ## The two files -/

/-- What a request that does not export makes of the configuration. -/
def Unposted (p : Post) (c c' : Value) : Prop :=
  ∃ c₁, SuperEdits p c c₁ ∧ (c' = c₁ ∨ p.wksCmd = some "DeleteMachine" ∧ RecordEdit p c₁ c')

/-- What `ApplyMy` makes of it. -/
def Posted (p : Post) (c c' : Value) : Prop :=
  ∃ c₁, SuperEdits p c c₁ ∧ p.wksCmd = some "ApplyMy" ∧ RecordEdit p c₁ c'

/-- dhcpd.conf is left alone. -/
def KeptConf (p : Post) (w w' : World) : Prop :=
  w'.dhcpd = w.dhcpd ∧
    (w'.file = w.file ∨ ∃ c, Unposted p w.file.val c ∧ w'.file = encode c)

/-- A new configuration is saved and exported, as far as that goes. -/
def SentConf (p : Post) (w w' : World) : Prop :=
  ∃ c, Posted p w.file.val c ∧ w'.file = encode c ∧
    (textAt? c ["dhcp", "workdir"] = none ∨ dhcpdText? c = none ∨ dhcpdText? c = some w'.dhcpd)

def TwoFiles (p : Post) (w w' : World) : Prop := KeptConf p w w' ∨ SentConf p w w'

theorem SuperAct.dhcpd {o : Op} {w w' : World} (h : SuperAct o w w') : w'.dhcpd = w.dhcpd := by
  cases h with
  | load => rfl
  | save => rfl
  | commit h =>
    cases h with
    | stop h =>
      cases h with
      | kill h => cases h <;> rfl
      | nbdDel => rfl
    | commit =>
      unfold World.startCommit
      split <;> rfl
  | ask h => rw [h.eq]

section Request

variable {p : Post} {w₀ : World}

theorem supperPart_twoFiles :
    Ends (KeptConf p w₀) (fun c w => SuperEdits p w₀.file.val c ∧ KeptConf p w₀ w)
      (supperPart p w₀.file.val) w₀ := by
  -- the super-mode handlers do not look at `wksCmd`
  let q : Post := { p with wksCmd := none }
  have hsuper {c : Value} (h : SuperEdits q w₀.file.val c) : SuperEdits p w₀.file.val c := by
    refine ReflTransGen.mono (fun c c' hstep => ?_) _ _ h
    cases hstep with
    | flags hid hcmd hset hput => exact .flags hid hcmd hset hput
    | nbd hid hsup hip hne hfind hput => exact .nbd hid hsup hip hne hfind hput
  have hsaved {w : World} (h : Saved q w₀ w) :
      w.file = w₀.file ∨ ∃ c, Unposted p w₀.file.val c ∧ w.file = encode c := by
    rcases h with hsame | ⟨c, ⟨c₁, hfirst, rfl | hrec⟩, -, hfile⟩
    · exact Or.inl hsame
    · exact Or.inr ⟨_, ⟨_, hsuper hfirst, Or.inl rfl⟩, hfile⟩
    · cases hrec with
      | apply hcmd => cases hcmd
      | delete _ hcmd => cases hcmd
  have hfile : Ends (Saved q w₀) (Held q w₀) (supperPart p w₀.file.val) w₀ :=
    supperPart_ends (p := q) rfl
  have hdhcpd : Ends (fun w => w.dhcpd = w₀.dhcpd) (fun _ w => w.dhcpd = w₀.dhcpd)
      (supperPart p w₀.file.val) w₀ :=
    Ends.of_does ((supperPart_does p _).weaken (S := fun _ => Same World.dhcpd)
      fun _ _ _ => SuperAct.dhcpd) (fun _ h => h) fun _ _ _ h => h
  refine (hfile.and hdhcpd).imp ?_ ?_
  · rintro w ⟨hw, hconf⟩
    exact ⟨hconf, hsaved hw⟩
  · rintro c w ⟨⟨hc, hw⟩, hconf⟩
    exact ⟨hsuper hc, hconf, hsaved hw⟩

theorem saveToFile_kept {c : Value} (hc : Unposted p w₀.file.val c) {w : World}
    (hw : KeptConf p w₀ w) :
    Ends (KeptConf p w₀) (fun _ => KeptConf p w₀) (saveToFile c) w := by
  refine Ends.bind (Q := fun _ w' => w = w') (Ends.lift hw fun _ _ => rfl) ?_
  rintro ok _ rfl
  unfold Prog.when
  refine Ends.ite (fun _ => ?_) fun _ => hw
  exact ⟨hw.1, Or.inr ⟨c, hc, rfl⟩⟩

theorem saveAndExport_twoFiles {c : Value} (hc : Posted p w₀.file.val c) {w : World}
    (hw : KeptConf p w₀ w) :
    Ends (TwoFiles p w₀) (fun _ => TwoFiles p w₀) (do saveToFile c; exportDHCP c; return c) w := by
  unfold saveToFile exportDHCP Prog.when
  cases hconf : checkconf c with
  | none => exact Or.inl hw
  | some ok =>
    cases ok with
    | false => exact Or.inl hw
    | true =>
      cases hdir : textAt? c ["dhcp", "workdir"] with
      | none => exact Or.inr ⟨c, hc, rfl, Or.inl hdir⟩
      | some dir =>
        simp only [lift_some_bind, if_true]
        cases htext : dhcpdConf c "" with
        | ok u t =>
          refine Or.inr ⟨c, hc, rfl, Or.inr (Or.inr ?_)⟩
          rw [dhcpdText?, htext]
        | error e t =>
          refine Or.inr ⟨c, hc, rfl, Or.inr (Or.inl ?_)⟩
          rw [dhcpdText?, htext]

/-- After `ApplyMy`: a `DeleteMachine` that follows finds the super-mode changes
only. -/
def AppliedConf (p : Post) (w₀ : World) (c : Value) (w : World) : Prop :=
  TwoFiles p w₀ w ∧
    (p.wksCmd = some "DeleteMachine" → SuperEdits p w₀.file.val c ∧ KeptConf p w₀ w)

theorem applyMy_twoFiles {c : Value} {w : World} (hc : SuperEdits p w₀.file.val c)
    (hw : KeptConf p w₀ w) : Ends (TwoFiles p w₀) (AppliedConf p w₀) (applyMy p c) w := by
  have hstay : AppliedConf p w₀ c w := ⟨Or.inl hw, fun _ => ⟨hc, hw⟩⟩
  unfold applyMy
  split
  · next hcmd hdata =>
    refine Ends.bind (Q := fun d w' => p.jsondata = some (some d) ∧ w = w')
      (Ends.lift hstay.1 fun d hd => ⟨by rw [hdata, hd], rfl⟩) ?_
    rintro d _ ⟨hd, rfl⟩
    refine Ends.bind (Q := fun tid w' => d.val.at? ["WKS", "tid"] = some tid ∧ w = w')
      (Ends.lift hstay.1 fun tid htid => ⟨htid, rfl⟩) ?_
    rintro tid _ ⟨htid, rfl⟩
    refine Ends.bind (Q := fun _ w' => w = w') (Ends.lift hstay.1 fun _ _ => rfl) ?_
    rintro wks _ rfl
    refine Ends.ite (fun _ => hstay) fun _ => ?_
    refine Ends.bind (Q := fun old w' => wksIndex? c tid = some old ∧ w = w')
      (Ends.lift hstay.1 fun old hold => ⟨hold, rfl⟩) ?_
    rintro old _ ⟨hold, rfl⟩
    refine Ends.ite (fun hnil => ?_) fun _ => hstay
    refine Ends.bind (Q := fun n w' => tid.tonumber = some n ∧ w = w')
      (Ends.lift hstay.1 fun n hn => ⟨hn, rfl⟩) ?_
    rintro n _ ⟨hn, rfl⟩
    refine Ends.bind (Q := fun c' w' => Posted p w₀.file.val c' ∧ w = w')
      (Ends.lift hstay.1 fun c' hc' => ⟨⟨c, hc, hcmd, ?_⟩, rfl⟩) ?_
    · exact .apply hcmd hd htid (by rw [hold, hnil]) hn hc'
    · rintro c' _ ⟨hposted, rfl⟩
      refine (saveAndExport_twoFiles hposted hw).mono ?_
      intro _ _ h
      exact ⟨h, fun hdelete => absurd (hcmd.symm.trans hdelete) (by decide)⟩
  · exact hstay

theorem deleteMachine_twoFiles {c : Value} {w : World} (h : AppliedConf p w₀ c w) :
    Ends (TwoFiles p w₀) (fun _ => TwoFiles p w₀) (deleteMachine p c) w := by
  unfold deleteMachine
  split
  · next id hid hcmd =>
    rcases h.2 hcmd with ⟨hc, hw⟩
    refine Ends.bind (Q := fun c' w' => Unposted p w₀.file.val c' ∧ w = w')
      (Ends.lift h.1 fun c' hc' => ⟨⟨c, hc, ?_⟩, rfl⟩) ?_
    · rcases deleted_edit hid hcmd hc' with rfl | hrec
      · exact Or.inl rfl
      · exact Or.inr ⟨hcmd, hrec⟩
    · rintro c' _ ⟨hc', rfl⟩
      exact (saveToFile_kept hc' hw).imp (fun _ => Or.inl) fun _ _ => Or.inl
  · exact h.1

/-- **What a request leaves in the two files**, however it ends. -/
theorem post_twoFiles (p : Post) (w : World) : TwoFiles p w (exec (post p) w).final := by
  have hstay : KeptConf p w w := ⟨rfl, Or.inl rfl⟩
  suffices h : Ends (TwoFiles p w) (fun _ => TwoFiles p w) (post p) w from h.final
  refine Ends.bind (Q := fun c w' => c = w.file.val ∧ w = w') (Ends.observe ⟨rfl, rfl⟩) ?_
  rintro _ _ ⟨rfl, rfl⟩
  refine Ends.bind (Q := fun _ w' => w = w') (Ends.lift (Or.inl hstay) fun _ _ => rfl) ?_
  rintro ok _ rfl
  refine Ends.ite (fun _ => ?_) fun _ => Or.inl hstay
  refine Ends.bind (Q := fun c w' => c = w.file.val ∧ w = w') (Ends.observe ⟨rfl, rfl⟩) ?_
  rintro _ _ ⟨rfl, rfl⟩
  refine Ends.bind (supperPart_twoFiles.imp (fun _ => Or.inl) fun _ _ => id) ?_
  rintro c w₁ ⟨hc, hw₁⟩
  refine Ends.bind (powerOn_ends (Or.inl hw₁)) ?_
  rintro _ _ rfl
  refine Ends.bind (Q := fun _ w' => w₁ = w') (Ends.observe rfl) ?_
  rintro _ _ rfl
  refine Ends.bind (Q := fun _ w' => w₁ = w') (Ends.lift (Or.inl hw₁) fun _ _ => rfl) ?_
  rintro reply _ rfl
  refine Ends.bind (applyMy_twoFiles hc hw₁) fun c' w₂ h₂ => ?_
  exact Ends.bind (deleteMachine_twoFiles h₂) fun _ _ h => Ends.pure h

end Request

/-! ## Records that can be exported -/

/-- The fields of a record that dhcpd.conf depends on. -/
def leaseFields : List String := ["name", "mac", "ipv4", "fileboot", "opt", "enable", "empty"]

def lease (v : Value) : List Value := leaseFields.map fun f => v.get (.str f)

theorem get_of_lease {v v' : Value} (h : lease v' = lease v) {f : String} (hf : f ∈ leaseFields) :
    v'.get (.str f) = v.get (.str f) := List.map_inj_left.1 h f hf

theorem FlagStep.lease {x : String} {v v' : Value} (h : FlagStep x v v') :
    lease v' = lease v := by
  refine List.map_inj_left.2 ?_
  intro f hf
  refine h.get_ne ?_ ?_
  · rintro ⟨rfl⟩
    exact absurd hf (by decide)
  · rintro ⟨rfl⟩
    exact absurd hf (by decide)

theorem NbdStep.lease {v v' : Value} (h : NbdStep v v') : lease v' = lease v := by
  refine List.map_inj_left.2 ?_
  intro f hf
  refine h.get_ne ?_
  rintro ⟨rfl⟩
  exact absurd hf (by decide)

theorem Tame.lease_reload {v : Value} (h : Tame v) : lease v.reload = lease v := by
  have hfield : ∀ f ∈ leaseFields, isField f = true ∧ f ≠ "img" := by decide
  refine List.map_inj_left.2 ?_
  intro f hf
  exact h.get_reload (hfield f hf).1 (hfield f hf).2

/-- A record that has no name, or that is exported, with every field that takes. -/
structure RecordOk (v : Value) : Prop where
  table : ∃ kvs, v = .table kvs
  host : v.get "name" ≠ .nil → Exported v ∧ ∃ h, Host.of? v = some h ∧ h.Plain ∧ h.Bare ∧ h.Literal

theorem Host.of?_table {v : Value} (h : ∃ kvs, v = .table kvs) : Host.of? v = (do
    let name ← (v.get "name").concat?
    let mac ← (v.get "mac").concat?
    let ipv4 ← (v.get "ipv4").concat?
    let fileboot ← (v.get "fileboot").concat?
    let opts ← texts? (v.get "opt")
    return { name, mac, ipv4, fileboot, opts }) := by
  rcases h with ⟨kvs, rfl⟩
  rfl

theorem RecordOk.plain {v : Value} (hv : RecordOk v) : RecordPlain v := by
  rcases hv.table with ⟨fs, hfs⟩
  refine ⟨by rw [hfs]; rfl, fun hempty => ?_, fun hname => ?_⟩
  · by_contra hname
    exact (hv.host hname).1.2.2 hempty
  · rcases hv.host hname with ⟨-, h, hh, hplain, -⟩
    rw [Host.of?_table hv.table] at hh
    simp only [Option.bind_eq_bind, Option.bind_eq_some_iff, Option.pure_def,
      Option.some.injEq] at hh
    rcases hh with ⟨name, -, mac, -, ipv4, -, file, -, opts, hopts, rfl⟩
    exact ⟨opts, hopts, hplain.opts⟩

theorem Exported.of_lease {v v' : Value} (h : lease v' = lease v) (hv : Exported v) :
    Exported v' := by
  unfold Exported at hv ⊢
  rwa [get_of_lease h (f := "name") (by decide), get_of_lease h (f := "enable") (by decide),
    get_of_lease h (f := "empty") (by decide)]

theorem RecordOk.of_lease {v v' : Value} (hv : RecordOk v) (ht : ∃ kvs, v' = .table kvs)
    (h : lease v' = lease v) : RecordOk v' := by
  refine ⟨ht, fun hname => ?_⟩
  rw [get_of_lease h (f := "name") (by decide)] at hname
  rcases hv.host hname with ⟨hexp, x, hx, hplain⟩
  refine ⟨hexp.of_lease h, x, ?_, hplain⟩
  rw [Host.of?_table hv.table] at hx
  rw [Host.of?_table ht, get_of_lease h (f := "name") (by decide),
    get_of_lease h (f := "mac") (by decide), get_of_lease h (f := "ipv4") (by decide),
    get_of_lease h (f := "fileboot") (by decide), get_of_lease h (f := "opt") (by decide)]
  exact hx

theorem FlagStep.table {x : String} {v v' : Value} (h : FlagStep x v v') :
    ∃ kvs, v' = .table kvs := by
  cases h with
  | supper h | commit _ h =>
    rcases Value.assign?_cons h with ⟨kvs, c, -, -, rfl⟩
    exact ⟨_, rfl⟩

theorem NbdStep.table {v v' : Value} (h : NbdStep v v') : ∃ kvs, v' = .table kvs := by
  rcases h with ⟨i, x, -, h⟩
  rcases Value.assign?_cons h with ⟨kvs, c, -, -, rfl⟩
  exact ⟨_, rfl⟩

theorem RecordOk.reload {v : Value} (hv : RecordOk v) (ht : Tame v) : RecordOk v.reload := by
  rcases hv.table with ⟨kvs, rfl⟩
  exact hv.of_lease ⟨_, rfl⟩ ht.lease_reload

theorem RecordOk.tombstone : RecordOk tombstone := by
  refine ⟨⟨_, rfl⟩, fun hname => ?_⟩
  exact absurd rfl hname

/-! ## Configurations that can be exported -/

/-- The keys are `1..n`, every record can be exported or has no name, and so can the
settings. -/
structure Ready (d : Dhcp) (n : Nat) (c : Value) : Prop where
  keys : HasKeys n c
  records : ∀ k ∈ seqKeys n, RecordOk ((wksOf c).get k)
  settings : Dhcp.of? c = some d
  workdir : (textAt? c ["dhcp", "workdir"]).isSome

theorem SameSettings.dhcp {c c' : Value} (h : SameSettings c c') : Dhcp.of? c' = Dhcp.of? c := by
  simp only [Dhcp.of?, h.textAt? (show Key.str "server" ≠ .str "wks" by decide),
    h.textAt? (show Key.str "dhcp" ≠ .str "wks" by decide),
    h.at? (show Key.str "dhcp" ≠ .str "wks" by decide)]

namespace Ready

variable {d : Dhcp} {n : Nat} {c c' : Value}

theorem of_sameSettings (h : Ready d n c) (hset : SameSettings c c') {n' : Nat}
    (hkeys : HasKeys n' c') (hrec : ∀ k ∈ seqKeys n', RecordOk ((wksOf c').get k)) :
    Ready d n' c' := by
  refine ⟨hkeys, hrec, hset.dhcp.trans h.settings, ?_⟩
  rw [hset.textAt? (by decide)]
  exact h.workdir

theorem puts {S : Value → Value → Prop} {k : Key} (h : Ready d n c) (hput : Puts S k c c')
    (hne : ∀ v v', S v v' → v ≠ .nil) (htable : ∀ v v', S v v' → ∃ kvs, v' = .table kvs)
    (hlease : ∀ v v', S v v' → lease v' = lease v) : Ready d n c' := by
  have hnil := hput.eq_nil_iff hne
  refine h.of_sameSettings hput.sameSettings (hput.hasKeys h.keys hne) ?_
  intro l hl
  have hok := h.records l hl
  rcases hput with ⟨v, hv, -, hput⟩
  by_cases hk : l = k
  · subst hk
    rw [hput.get_self]
    clear hput hnil
    -- one assignment after the other
    induction hv with
    | refl => exact hok
    | tail _ hstep ih => exact ih.of_lease (htable _ _ hstep) (hlease _ _ hstep)
  · rwa [hput.get_ne hk]

theorem superEdits {p : Post} (h : Ready d n c) (he : SuperEdits p c c') : Ready d n c' := by
  induction he with
  | refl => exact h
  | tail _ hstep ih =>
    cases hstep with
    | flags _ _ _ hput =>
      exact ih.puts hput (fun _ _ => FlagStep.ne_nil) (fun _ _ => FlagStep.table)
        fun _ _ => FlagStep.lease
    | nbd _ _ _ _ _ hput =>
      exact ih.puts hput (fun _ _ => NbdStep.ne_nil) (fun _ _ => NbdStep.table)
        fun _ _ => NbdStep.lease

theorem put {k : Key} {v : Value} {n' : Nat} (h : Ready d n c) (hput : Put k v c c')
    (hv : RecordOk v)
    (hkeys : HasKeys n' c') (hold : ∀ l ∈ seqKeys n', l ≠ k → l ∈ seqKeys n) : Ready d n' c' := by
  refine h.of_sameSettings hput.sameSettings hkeys ?_
  intro l hl
  by_cases hk : l = k
  · subst hk
    rwa [hput.get_self]
  · rw [hput.get_ne hk]
    exact h.records l (hold l hl hk)

theorem reload (h : Ready d n c) (hc : InMemory c) : Ready d n c.reload := by
  refine h.of_sameSettings hc.sameSettings_reload (h.keys.reload hc) ?_
  intro k hk
  rw [h.keys.get_reload hc]
  exact (h.records k hk).reload (hc.records k)

/-- A posted record that can be exported takes a slot of the table, or the next one. -/
theorem apply {m : Int} {v : Value} (h : Ready d n c) (hput : Put (.num m) v c c')
    (hv : RecordOk v) (h1 : 1 ≤ m) (hn : m ≤ n + 1) : ∃ n', Ready d n' c' := by
  have hne : v ≠ .nil := by
    rcases hv.table with ⟨kvs, rfl⟩
    simp
  by_cases hlast : m = n + 1
  · subst hlast
    refine ⟨n + 1, h.put hput hv (h.keys.put_next hput hne) ?_⟩
    intro l hl hlm
    rw [seqKeys_succ, List.mem_append, List.mem_singleton] at hl
    exact hl.resolve_right hlm
  · have hmem : Key.num m ∈ seqKeys n := mem_seqKeys.2 ⟨m, rfl, h1, by omega⟩
    exact ⟨n, h.put hput hv (h.keys.put_mem hput hne hmem) fun l hl _ => hl⟩

end Ready

/-! ## What is given -/

theorem mapM_of_isSome {α β : Type} {f : α → Option β} {xs : List α}
    (h : ∀ x ∈ xs, (f x).isSome) : xs.mapM f = some (xs.filterMap f) := by
  induction xs with
  | nil => rfl
  | cons x xs ih =>
    rcases Option.isSome_iff_exists.1 (h x List.mem_cons_self) with ⟨y, hy⟩
    have hxs := ih fun z hz => h z (List.mem_cons_of_mem _ hz)
    rw [List.mapM_cons, hy, List.filterMap_cons_some hy, hxs]
    rfl

theorem Host.of?_decl {v : Value} {x : Host} (hv : Host.of? v = some x) :
    HostDecl.of? v = some x.decl := by
  simp only [Host.of?, Option.bind_eq_bind, Option.bind_eq_some_iff, Option.pure_def,
    Option.some.injEq] at hv
  rcases hv with ⟨n, hn, name, hname, mac, hmac, ipv4, hipv4, file, hfile, opts, -, rfl⟩
  simp [HostDecl.of?, at?_one hn, hname, hmac, hipv4, hfile, Host.decl]

/-- The workstations of a table that are exported. -/
def exportedHosts (kvs : List (Key × Value)) : List Host :=
  (kvs.filter fun e => Exported e.2).filterMap fun e => Host.of? e.2

theorem mem_exportedHosts {kvs : List (Key × Value)} {x : Host} :
    x ∈ exportedHosts kvs ↔ ∃ e ∈ kvs, Exported e.2 ∧ Host.of? e.2 = some x := by
  simp only [exportedHosts, List.mem_filterMap, List.mem_filter, decide_eq_true_eq, and_assoc]

section Given

variable {d : Dhcp} {n : Nat} {c : Value} (h : Ready d n c) {kvs : List (Key × Value)}
  (hkvs : wksOf c = .table kvs)

include h hkvs

/-- The entries of the table are the records under their keys. -/
theorem Ready.entry {e : Key × Value} (he : e ∈ kvs) : (wksOf c).get e.1 = e.2 ∧ RecordOk e.2 := by
  rcases h.keys with ⟨kvs', hkvs', hkeys⟩
  rw [hkvs, Value.table.injEq] at hkvs'
  subst hkvs'
  have hnodup : (Lua.keys kvs).Nodup := by
    rw [hkeys]
    exact seqKeys_nodup n
  have hget : (wksOf c).get e.1 = e.2 := by
    rw [hkvs, Value.get_table]
    exact lookup_of_mem hnodup he
  refine ⟨hget, ?_⟩
  rw [← hget]
  refine h.records e.1 ?_
  rw [← hkeys]
  exact List.mem_map_of_mem he

theorem Ready.exportable (hplain : d.Plain) :
    Exportable c d (exportedHosts kvs) ∧ AllEnabled c ∧ 
      ∀ x ∈ exportedHosts kvs, x.Bare ∧ x.Literal := by
  have hat : c.at? ["wks"] = some (.table kvs) := by
    cases c with
    | table top => exact congrArg some hkvs
    | nil | bool | num | str => simp [wksOf, Value.get] at hkvs
  have hhost : ∀ e ∈ kvs, Exported e.2 → 
      ∃ x, Host.of? e.2 = some x ∧ x.Plain ∧ x.Bare ∧ x.Literal := by
    intro e he hexp
    exact ((h.entry hkvs he).2.host hexp.1).2
  have hread : ∀ x ∈ exportedHosts kvs, x.Plain ∧ x.Bare ∧ x.Literal := by
    intro x hx
    rcases mem_exportedHosts.1 hx with ⟨e, he, hexp, hex⟩
    rcases hhost e he hexp with ⟨x', hx', hread⟩
    rw [hex] at hx'
    cases hx'
    exact hread
  refine ⟨⟨h.settings, ?_, ?_, hplain, fun x hx => (hread x hx).1⟩, ?_, fun x hx => (hread x hx).2⟩
  · rw [hosts?, hat]
    refine mapM_of_isSome fun e he => ?_
    rw [List.mem_filter, decide_eq_true_eq] at he
    rcases hhost e he.1 he.2 with ⟨x, hx, -⟩
    rw [hx]
    rfl
  · intro kvs' hkvs' e he
    rw [hat, Option.some.injEq, Value.table.injEq] at hkvs'
    subst hkvs'
    exact (h.entry hkvs he).2.plain
  · intro kvs' hkvs' e he hname
    rw [hat, Option.some.injEq, Value.table.injEq] at hkvs'
    subst hkvs'
    exact ((h.entry hkvs he).2.host hname).1

/-- What is exported is what is given. -/
theorem Ready.given_iff {x : HostDecl} : (∃ y ∈ exportedHosts kvs, y.decl = x) ↔ Given c x := by
  constructor
  · rintro ⟨y, hy, rfl⟩
    rcases mem_exportedHosts.1 hy with ⟨e, he, hexp, hey⟩
    rcases h.entry hkvs he with ⟨hget, hok⟩
    refine ⟨e.1, ⟨?_, ?_⟩, ?_, ?_⟩
    · rcases hok.table with ⟨fs, hfs⟩
      simp [hget, hfs]
    · rw [hget]
      exact hexp.2.2
    · rw [hget]
      exact hexp.2.1
    · rw [hget]
      exact Host.of?_decl hey
  · rintro ⟨k, hlive, henable, hdecl⟩
    have hmem : (k, (wksOf c).get k) ∈ kvs := by
      have hne := hlive.1
      rw [hkvs, Value.get_table] at hne ⊢
      exact mem_of_lookup_ne_nil hne
    -- a record that asks for a declaration has a name
    have hname : ((wksOf c).get k).get "name" ≠ .nil := by
      intro hnil
      simp [HostDecl.of?, hnil, Value.concat?] at hdecl
    rcases (h.entry hkvs hmem).2.host hname with ⟨hexp, y, hy, -⟩
    refine ⟨y, mem_exportedHosts.2 ⟨_, hmem, hexp, hy⟩, ?_⟩
    rw [Host.of?_decl hy, Option.some.injEq] at hdecl
    exact hdecl

end Given

/-- The fixed block, which declares no host. -/
structure FixedBlock (d : Dhcp) : Prop where
  plain : d.Plain
  clear : d.Bare ∧ d.Literal
  reads : ∃ ipxe, read? (d.ipxe ++ "\n") = some ipxe ∧ ∀ x, ¬ Declares ipxe x

/-- The export of an exportable configuration declares what is given. -/
theorem Ready.declares {d : Dhcp} {n : Nat} {c : Value} (h : Ready d n c) (hd : FixedBlock d) :
    ∃ t ss, dhcpdText? c = some t ∧ read? t = some ss ∧ ∀ x, Declares ss x ↔ Given c x := by
  rcases h.keys with ⟨kvs, hkvs, -⟩
  rcases hd.reads with ⟨ipxe, hipxe, hnone⟩
  rcases h.exportable hkvs hd.plain with ⟨hexp, hall, hclear⟩
  rcases dhcpdText?_of_takes (hexp.takes hipxe hall hd.clear hclear) with ⟨t, ht, hread⟩
  exact ⟨t, _, ht, read?_of_feeds hread, fun x => (declares_stmts hnone).trans (h.given_iff hkvs)⟩

/-! ## Runs -/

/-- The posted record can be exported or has no name, and takes a slot of the table or
the next one; no exported workstation is deleted. -/
def KeepsHosts (w : World) (p : Post) : Prop :=
  (p.wksCmd = some "ApplyMy" → (∀ n, HasKeys n w.file.val → TidIn n p) ∧
    ∀ d, p.jsondata = some (some d) → RecordOk (d.val.get "WKS")) ∧
  (p.wksCmd = some "DeleteMachine" → ∀ m, p.id.bind numberOf = some m →
    ¬ Exported ((wksOf w.file.val).get (.num m)))

theorem Given.of_lease {c c' : Value} {x : HostDecl}
    (h : ∀ k, lease ((wksOf c').get k) = lease ((wksOf c).get k) ∧
      ((wksOf c').get k = .nil ↔ (wksOf c).get k = .nil)) (hx : Given c' x) : Given c x := by
  rcases hx with ⟨k, ⟨hne, hempty⟩, henable, hdecl⟩
  rcases h k with ⟨hl, hnil⟩
  rw [get_of_lease hl (f := "empty") (by decide)] at hempty
  rw [get_of_lease hl (f := "enable") (by decide)] at henable
  refine ⟨k, ⟨fun h => hne (hnil.2 h), hempty⟩, henable, ?_⟩
  rw [HostDecl.of?, get_of_lease hl (f := "name") (by decide),
    get_of_lease hl (f := "mac") (by decide), get_of_lease hl (f := "ipv4") (by decide),
    get_of_lease hl (f := "fileboot") (by decide)] at hdecl
  exact hdecl

section Same

variable {d : Dhcp} {n : Nat} {c c' : Value} {x : HostDecl}

theorem given_super {p : Post} (h : SuperEdits p c c') : Given c' x ↔ Given c x := by
  have hl := h.same (fun _ _ _ => FlagStep.lease) fun _ _ => NbdStep.lease
  have hnil := SuperEdits.eq_nil_iff h
  constructor
  · exact Given.of_lease fun k => ⟨hl k, hnil k⟩
  · exact Given.of_lease fun k => ⟨(hl k).symm, (hnil k).symm⟩

theorem given_reload (hkeys : HasKeys n c) (hc : InMemory c) : Given c.reload x ↔ Given c x := by
  have hsame (k : Key) : lease ((wksOf c.reload).get k) = lease ((wksOf c).get k) ∧
      ((wksOf c.reload).get k = .nil ↔ (wksOf c).get k = .nil) := by
    rw [hkeys.get_reload hc]
    exact ⟨(hc.records k).lease_reload, reload_eq_nil⟩
  constructor
  · exact Given.of_lease hsame
  · exact Given.of_lease fun k => ⟨(hsame k).1.symm, (hsame k).2.symm⟩

/-- Deleting a workstation that was not exported. -/
theorem given_delete (h : Ready d n c) {k : Key} (hput : Put k tombstone c c')
    (hk : k ∈ seqKeys n) (hexp : ¬ Exported ((wksOf c).get k)) : Given c' x ↔ Given c x := by
  have hnone : ∀ v, v.get "name" = .nil → HostDecl.of? v = none := by
    intro v hv
    simp [HostDecl.of?, hv, Value.concat?]
  constructor
  · rintro ⟨l, hlive, henable, hdecl⟩
    by_cases hl : l = k
    · -- a tombstone gives nothing
      subst hl
      rw [hput.get_self, hnone _ rfl] at hdecl
      cases hdecl
    · rw [hput.get_ne hl] at henable hdecl
      exact ⟨l, hput.live_ne hl hlive, henable, hdecl⟩
  · rintro ⟨l, hlive, henable, hdecl⟩
    by_cases hl : l = k
    · -- nor did what was there
      subst hl
      have hname : ((wksOf c).get l).get "name" = .nil := by
        by_contra hne
        exact hexp ((h.records l hk).host hne).1
      rw [hnone _ hname] at hdecl
      cases hdecl
    · refine ⟨l, ?_, ?_, ?_⟩
      · unfold Live at hlive ⊢
        rwa [hput.get_ne hl]
      · rwa [hput.get_ne hl]
      · rwa [hput.get_ne hl]

end Same

/-- Whatever a conforming request does, the two files stay in step. -/
theorem handle_inStep {d : Dhcp} (hd : FixedBlock d) {w : World} {p : Post}
    (hw : (∃ n, Ready d n w.file.val) ∧ InStep w) (hp : KeepsHosts w p) :
    (∃ n, Ready d n (handle w p).file.val) ∧ InStep (handle w p) := by
  rcases hw with ⟨⟨n, hready⟩, ss, hread, hdecl⟩
  have hmem := hready.keys.inMemory
  rcases post_twoFiles p w with ⟨hconf, hkept⟩ | ⟨c, ⟨c₁, hsuper, hcmd, hrec⟩, hfile, htext⟩
  · -- dhcpd.conf is as it was
    rcases hkept with hsame | ⟨c, ⟨c₁, hsuper, hrec⟩, hfile⟩
    · refine ⟨⟨n, ?_⟩, ss, ?_, ?_⟩
      · rwa [handle, hsame]
      · rwa [handle, hconf]
      · rwa [handle, hsame]
    · have hready₁ := hready.superEdits hsuper
      have hmem₁ := SuperEdits.inMemory hsuper hmem
      have hval : (handle w p).file.val = c.reload := congrArg Subtype.val hfile
      suffices hnew : Ready d n c ∧ InMemory c ∧ ∀ x, Given c x ↔ Given w.file.val x by
        rcases hnew with ⟨hready', hmem', hgiven⟩
        refine ⟨⟨n, ?_⟩, ss, ?_, fun x => ?_⟩
        · rw [hval]
          exact hready'.reload hmem'
        · rwa [handle, hconf]
        · rw [hval, given_reload hready'.keys hmem', hgiven, hdecl]
      rcases hrec with rfl | ⟨hcmd, hrec⟩
      · exact ⟨hready₁, hmem₁, fun x => given_super hsuper⟩
      · have hmem' := hrec.inMemory hmem₁
        cases hrec with
        | apply happly => exact absurd (hcmd.symm.trans happly) (by decide)
        | @delete v tid id m hid _ hm hold hv _ _ hput =>
          have hk : Key.num m ∈ seqKeys n := hready₁.keys.mem_of_get (by rwa [at?_wks hold])
          have hnum : p.id.bind numberOf = some m := by
            rw [hid]
            exact hm
          -- the record was not exported when the request came
          have hexp : ¬ Exported ((wksOf c₁).get (.num m)) := by
            have hl := hsuper.same (fun _ _ _ => FlagStep.lease) (fun _ _ => NbdStep.lease) (.num m)
            exact fun h => hp.2 hcmd m hnum (h.of_lease hl.symm)
          refine ⟨?_, hmem', fun x =>
            (given_delete hready₁ hput hk hexp).trans (given_super hsuper)⟩
          exact hready₁.put hput .tombstone (hready₁.keys.put_mem hput (by simp [tombstone]) hk)
            fun l hl _ => hl
  · -- a new dhcpd.conf
    have hready₁ := hready.superEdits hsuper
    have hmem' := hrec.inMemory (SuperEdits.inMemory hsuper hmem)
    have hval : (handle w p).file.val = c.reload := congrArg Subtype.val hfile
    have hnew : ∃ n', Ready d n' c := by
      cases hrec with
      | @apply tid data m _ hdata htid _ hm hput =>
        rcases hp.1 hcmd with ⟨htidIn, hok⟩
        rcases htidIn n hready.keys tid m (Post.tid?_eq hdata htid) hm with ⟨h1, hn⟩
        exact hready₁.apply hput (hok data hdata) h1 hn
      | delete _ hdelete => exact absurd (hcmd.symm.trans hdelete) (by decide)
    rcases hnew with ⟨n', hready'⟩
    rcases hready'.declares hd with ⟨t, ss', ht, hread', hdecl'⟩
    have hconf : (handle w p).dhcpd = t := by
      rcases htext with hnone | hnone | hsome
      · have hdir := hready'.workdir
        rw [hnone] at hdir
        cases hdir
      · rw [hnone] at ht
        cases ht
      · rw [hsome, Option.some.injEq] at ht
        exact ht
    refine ⟨⟨n', ?_⟩, ss', ?_, fun x => ?_⟩
    · rw [hval]
      exact hready'.reload hmem'
    · rwa [hconf]
    · rw [hval, given_reload hready'.keys hmem', hdecl']

/-- **dhcpd.conf declares the enabled live workstations** after every run of admin
requests that deletes no exported workstation and posts only records that can be
exported. -/
theorem hosts_in_step {d : Dhcp} (hd : FixedBlock d) {n : Nat} {w : World}
    (hw : Ready d n w.file.val) (hconf : dhcpdText? w.file.val = some w.dhcpd) {ps : List Post}
    (hps : Along handle KeepsHosts w ps) : InStep (run handle w ps) := by
  have hstart : InStep w := by
    rcases hw.declares hd with ⟨t, ss, ht, hread, hdecl⟩
    rw [hconf, Option.some.injEq] at ht
    subst ht
    exact ⟨ss, hread, hdecl⟩
  have hrun := hps.invariant (I := fun w => (∃ n, Ready d n w.file.val) ∧ InStep w)
    (fun w p hI hp => handle_inStep hd hI hp) ⟨⟨n, hw⟩, hstart⟩
  exact hrun.2

/-! ## The shipped workstations -/

theorem shippedWks_ok (tid : Int) {mac ipv4 name : String} (hmac : Plain mac ∧ Bare mac)
    (hipv4 : Plain ipv4 ∧ Bare ipv4) (hname : Plain name ∧ Bare name ∧ Literal name)
    (disk volume : String) : RecordOk (shippedWks tid mac ipv4 name disk volume) := by
  refine ⟨⟨_, rfl⟩, fun _ => ⟨⟨?_, ?_, ?_⟩, shippedHost mac ipv4 name, rfl, ?_⟩⟩
  · simp [shippedWks, lookup]
  · exact (by decide : (Value.num 1).isOne)
  · simp [shippedWks, lookup]
  · exact ⟨⟨hname.1, hmac.1, hipv4.1, (by decide +kernel : Plain "ipxe"),
      (by decide +kernel : ∀ o ∈ ["ipxe.keep-san 1", "ipxe.no-pxedhcp 1"], Plain o)⟩,
      ⟨hname.2.1, hmac.2, hipv4.2,
        (by decide +kernel : ∀ o ∈ ["ipxe.keep-san 1", "ipxe.no-pxedhcp 1"], Bare o)⟩,
      hname.2.2, (by decide +kernel : Literal "ipxe")⟩

theorem shipped_fixedBlock : FixedBlock (shippedDhcp ⟨"", "", ""⟩) := by
  refine ⟨shippedDhcp_plain _, shippedDhcp_clear _, [], rfl, ?_⟩
  rintro x ⟨s, hs, -⟩
  exact absurd hs List.not_mem_nil

/-- The office with its dhcpd.conf. -/
def exportedOffice : World :=
  { office with dhcpd := (dhcpdText? office.file.val).getD "" }

theorem office_ready : Ready (shippedDhcp ⟨"", "", ""⟩) 2 exportedOffice.file.val := by
  refine ⟨office_wellFormed.keys, ?_, by decide +kernel, by decide +kernel⟩
  have hfirst : (wksOf exportedOffice.file.val).get (.num 1) =
      shippedWks 1 "b4:2e:99:2c:dd:df" "192.168.0.4" "PC001" "lord.qcow2" "lord" := by
    decide +kernel
  have hsecond : (wksOf exportedOffice.file.val).get (.num 2) =
      shippedWks 2 "b4:2e:99:2c:dd:52" "192.168.0.3" "PC002" "win10cc.qcow2" "win10cc" := by
    decide +kernel
  intro k hk
  have hk : k = .num 1 ∨ k = .num 2 := by simpa [seqKeys, List.range_succ] using hk
  rcases hk with rfl | rfl
  · rw [hfirst]
    exact shippedWks_ok _ (by decide +kernel) (by decide +kernel) (by decide +kernel) _ _
  · rw [hsecond]
    exact shippedWks_ok _ (by decide +kernel) (by decide +kernel) (by decide +kernel) _ _

theorem exportedOffice_text :
    dhcpdText? exportedOffice.file.val = some exportedOffice.dhcpd := by
  rcases office_ready.declares shipped_fixedBlock with ⟨t, ss, ht, -⟩
  rw [ht]
  exact congrArg some (congrArg (Option.getD · "") ht).symm

/-- A new machine is saved, and a super-mode session is started. -/
def addAndSuper : List Post :=
  [savedAs "3" "b4:2e:99:2c:dd:01" "192.168.0.5",
    ⟨some "1", some "true", none, none, some (some (encode (array [.num 1])))⟩]

theorem hosts_in_step_office : InStep (run handle exportedOffice addAndSuper) := by
  refine hosts_in_step shipped_fixedBlock office_ready exportedOffice_text ⟨⟨?_, ?_⟩, ?_, trivial⟩
  · refine fun _ => ⟨fun n hn => ?_, ?_⟩
    · have h2 := hn.unique office_ready.keys
      subst h2
      intro tid m htid hm
      have htid' : tid = .str "3" := (Option.some.inj htid).symm
      subst htid'
      have hm' : m = 3 := (Option.some.inj hm).symm
      omega
    · intro d hd
      have hd' := (Option.some.inj (Option.some.inj hd)).symm
      subst hd'
      refine ⟨⟨_, rfl⟩, fun _ =>
        ⟨by decide +kernel, ⟨"PC", "b4:2e:99:2c:dd:01", "192.168.0.5", "ipxe",
        []⟩, by decide +kernel, ?_⟩⟩
      refine ⟨?_, ?_, ?_⟩
      · constructor <;> decide +kernel
      · constructor <;> decide +kernel
      · constructor <;> decide +kernel
  · exact fun hcmd => absurd hcmd (by decide)
  · exact ⟨fun hcmd => absurd hcmd (by decide), fun hcmd => absurd hcmd (by decide)⟩

/-- A deleted workstation stays in dhcpd.conf. -/
theorem deleted_stays_declared :
    dhcpdText? exportedOffice.file.val = some exportedOffice.dhcpd ∧
    (exec (post (deletePost "1")) exportedOffice).isOk ∧
    ¬ InStep (handle exportedOffice (deletePost "1")) := by
  refine ⟨exportedOffice_text, by decide +kernel, ?_⟩
  rintro ⟨ss, hread, hdecl⟩
  have hconf : (handle exportedOffice (deletePost "1")).dhcpd = exportedOffice.dhcpd := by
    rcases post_twoFiles (deletePost "1") exportedOffice with hkept | ⟨c, ⟨c₁, -, hcmd, -⟩, -⟩
    · exact hkept.1
    · exact absurd hcmd (by decide)
  -- the declaration of the first workstation
  let x := hostDecl "PC001" "b4:2e:99:2c:dd:df" "192.168.0.4" "ipxe"
  have hbefore : Given exportedOffice.file.val x :=
    ⟨.num 1, by decide +kernel, by decide +kernel, by decide +kernel⟩
  have hafter : Given (handle exportedOffice (deletePost "1")).file.val x := by
    rcases office_ready.declares shipped_fixedBlock with ⟨t, ss', ht, hread', hdecl'⟩
    rw [exportedOffice_text, Option.some.injEq] at ht
    rw [hconf, ht, hread', Option.some.injEq] at hread
    subst hread
    exact (hdecl x).1 ((hdecl' x).2 hbefore)
  -- neither the tombstone nor the other workstation gives it
  rcases hafter with ⟨k, hlive, -, hx⟩
  have hkeys : HasKeys 2 (handle exportedOffice (deletePost "1")).file.val :=
    ⟨_, rfl, by decide +kernel⟩
  have hk := hkeys.mem_of_get hlive.1
  have hk : k = .num 1 ∨ k = .num 2 := by simpa [seqKeys, List.range_succ] using hk
  rcases hk with rfl | rfl
  · exact absurd hlive (by decide +kernel)
  · exact absurd hx (by decide +kernel)

end NsBoot
