import NsBoot.Admin.Adding
import NsBoot.Dhcp.Hosts

/-!
# NsBoot.Dhcp.Complete — which configurations ExportDHCP gets through

`ExportDHCP` stops at the first field that is missing, with the file half written.

* `Goes`: a piece of the writer comes to its end exactly under a condition, whatever
  was written before it. One rule for each construct.
* `Complete`: the records it gets past. `Exports`: the configurations it gets through.
* `ApplyMy` saves first and exports then. A record that is posted into an exporting
  configuration has to be complete itself; then the request returns, and the
  configuration stays one that exports.
-/

namespace NsBoot

open Lua Out Prog

/-! ## Pieces of the writer -/

/-- The piece returns `a` if `P` holds, and stops with an error if not. -/
structure Goes {α : Type} (x : Out α) (a : α) (P : Prop) : Prop where
  ok : P → ∀ s, ∃ t, x s = .ok a t
  error : ¬ P → ∀ s, ∃ t, x s = .error () t

section Goes

variable {α β : Type} {x y : Out α} {a : α} {b : β} {P Q : Prop} {k : α → Out β}

theorem Goes.iff (h : Goes x a P) (hPQ : P ↔ Q) : Goes x a Q := propext hPQ ▸ h

theorem Goes.pure : Goes (Pure.pure a : Out α) a True :=
  ⟨fun _ s => ⟨s, rfl⟩, fun h => absurd trivial h⟩

theorem Goes.text (t : String) : Goes (text t) () True :=
  ⟨fun _ s => ⟨s ++ t, rfl⟩, fun h => absurd trivial h⟩

theorem Goes.value (v : Value) : Goes (value v) () v.concat?.isSome := by
  unfold Out.value
  cases hv : v.concat? with
  | some t => exact (Goes.text t).iff (by simp)
  | none => exact ⟨fun h => absurd h (by simp), fun _ s => ⟨s, rfl⟩⟩

theorem Goes.bind (hx : Goes x a P) (hk : P → Goes (k a) b Q) : Goes (x >>= k) b (P ∧ Q) := by
  constructor
  · rintro ⟨hP, hQ⟩ s
    rcases hx.ok hP s with ⟨t, ht⟩
    rcases (hk hP).ok hQ t with ⟨t', ht'⟩
    refine ⟨t', ?_⟩
    show EStateM.bind x k s = _
    rw [EStateM.bind, ht]
    exact ht'
  · intro hnot s
    show ∃ t, EStateM.bind x k s = _
    by_cases hP : P
    · rcases hx.ok hP s with ⟨t, ht⟩
      rcases (hk hP).error (fun hQ => hnot ⟨hP, hQ⟩) t with ⟨t', ht'⟩
      refine ⟨t', ?_⟩
      rw [EStateM.bind, ht]
      exact ht'
    · rcases hx.error hP s with ⟨t, ht⟩
      refine ⟨t, ?_⟩
      rw [EStateM.bind, ht]

/-- After a piece that always goes. -/
theorem Goes.seq (hx : Goes x a True) (hk : Goes (k a) b Q) : Goes (x >>= k) b Q :=
  (hx.bind fun _ => hk).iff (by rw [true_and])

/-- The last piece before a fixed result. -/
theorem Goes.last (hx : Goes x a P) : Goes (x >>= fun _ => Pure.pure b) b P :=
  have hb : Goes (Pure.pure b : Out β) b True := .pure
  (hx.bind fun _ => hb).iff (by rw [and_true])

theorem Goes.need {o : Option α} {Q : α → Prop} (hk : ∀ a, o = some a → Goes (k a) b (Q a)) :
    Goes (need o >>= k) b (∃ a, o = some a ∧ Q a) := by
  cases o with
  | some a => exact (hk a rfl).iff (by simp)
  | none => exact ⟨fun h => absurd h (by simp), fun _ s => ⟨s, rfl⟩⟩

theorem Goes.entries {v : Value} {k : List (Key × Value) → Out β} {Q : List (Key × Value) → Prop}
    (hk : ∀ kvs, v = .table kvs → Goes (k kvs) b (Q kvs)) :
    Goes (entries v >>= k) b (∃ kvs, v = .table kvs ∧ Q kvs) := by
  cases v with
  | table kvs => exact (hk kvs rfl).iff (by simp)
  | nil | bool | num | str => exact ⟨fun h => absurd h (by simp), fun _ s => ⟨s, rfl⟩⟩

theorem Goes.forIn {γ : Type} {xs : List γ} {body : γ → PUnit → Out (ForInStep PUnit)}
    {Q : γ → Prop} (hbody : ∀ x ∈ xs, Goes (body x ⟨⟩) (.yield ⟨⟩) (Q x)) :
    Goes (forIn xs PUnit.unit body) PUnit.unit (∀ x ∈ xs, Q x) := by
  induction xs with
  | nil => exact Goes.pure.iff (by simp)
  | cons x xs ih =>
    rw [List.forIn_cons]
    have hrest := ih fun z hz => hbody z (List.mem_cons_of_mem _ hz)
    exact ((hbody x List.mem_cons_self).bind fun _ => hrest).iff (by simp)

end Goes

/-! ## Records -/

/-- The fields of a workstation that are written when it is enabled. -/
def hostFields : List String := ["name", "mac", "ipv4", "fileboot"]

/-- A record that is no obstacle: it has no name, or its options and, when it is
enabled, its fields are all texts or numbers. -/
def Complete (v : Value) : Prop :=
  (v.at? ["name"]).isSome ∧ (v.get "name" ≠ .nil → (texts? (v.get "opt")).isSome ∧
    ((v.get "enable").isOne → ∀ f ∈ hostFields, (v.get (.str f)).concat?.isSome))

instance (v : Value) : Decidable (Complete v) := inferInstanceAs (Decidable (_ ∧ (_ → _ ∧ (_ → _))))

theorem isSome_mapM_iff {α β : Type} {f : α → Option β} {xs : List α} :
    (xs.mapM f).isSome ↔ ∀ x ∈ xs, (f x).isSome := by
  induction xs with
  | nil => simp
  | cons x xs ih =>
    rw [List.mapM_cons, List.forall_mem_cons, ← ih]
    cases f x <;> cases xs.mapM f <;> simp

/-- Lines for the texts of an array. -/
theorem texts_goes {v : Value} {β : Type} {k : PUnit → Out β} {b : β} {Q : Prop}
    (before after : String)
    (hk : Goes (k ⟨⟩) b Q) :
    Goes (do
      let kvs ← entries v
      forIn (ipairs kvs) PUnit.unit (fun e _ => do
        text before
        value e.2
        text after
        pure (ForInStep.yield PUnit.unit)) >>= k) b ((texts? v).isSome ∧ Q) := by
  have hline (e : Int × Value) : Goes (do
      text before
      value e.2
      text after
      pure (ForInStep.yield PUnit.unit)) (ForInStep.yield PUnit.unit) e.2.concat?.isSome := by
    refine Goes.seq (.text before) ?_
    have hend : Goes (do text after; pure (ForInStep.yield PUnit.unit))
        (ForInStep.yield PUnit.unit) True := Goes.seq (.text after) .pure
    exact ((Goes.value e.2).bind fun _ => hend).iff (by rw [and_true])
  refine (Goes.entries fun kvs _ => (Goes.forIn fun e _ => hline e).bind fun _ => hk).iff ?_
  cases v with
  | table kvs => simp [texts?, isSome_mapM_iff]
  | nil | bool | num | str => simp [texts?]

theorem dhcpFilename_goes {v : Value} (hv : ∃ kvs, v = .table kvs) (suffix : String) :
    Goes (dhcpFilename v suffix) () (v.get "fileboot").concat?.isSome := by
  rcases hv with ⟨kvs, rfl⟩
  unfold dhcpFilename
  refine Goes.seq (.text _) ?_
  refine (Goes.need fun a _ => (Goes.value a).bind fun _ => Goes.seq (.text _) (.text _)).iff ?_
  simp [Value.at?]

/-- A test of the architecture around the boot file. -/
theorem arch_goes {v : Value} (hv : ∃ kvs, v = .table kvs) (before suffix : String)
    {k : Unit → Out Unit} {Q : Prop} (hk : Goes (k ()) () Q) :
    Goes (do
      text before
      dhcpFilename v suffix
      text "	\x7d\n" >>= k) () ((v.get "fileboot").concat?.isSome ∧ Q) := by
  refine Goes.seq (.text before) ?_
  exact (dhcpFilename_goes hv suffix).bind fun _ => Goes.seq (.text _) hk

theorem dhcpHost_goes (v : Value) : Goes (dhcpHost v) () (Complete v) := by
  unfold dhcpHost
  refine (Goes.need (Q := fun _ => Complete v) fun name hname => ?_).iff ?_
  · have hget : v.get "name" = name := at?_one hname
    by_cases hnil : name = .nil
    · rw [if_neg (not_not.2 hnil)]
      refine Goes.pure.iff ?_
      simp [Complete, hget, hnil, hname]
    · have hv : ∃ kvs, v = .table kvs := by
        cases v with
        | table kvs => exact ⟨kvs, rfl⟩
        | str => exact absurd hget.symm hnil
        | nil | bool | num => cases hname
      have hopts := texts_goes (v := v.get "opt") (k := fun _ => Out.text "\x7d\n") "option	" ";\n"
        (.text _)
      rw [if_pos hnil]
      by_cases hen : (v.get "enable").isOne
      · rw [if_pos hen]
        -- name, mac and address, the name again, and the three boot files
        refine Goes.iff (Goes.seq (.text _) ((Goes.value name).bind fun _ => Goes.seq (.text _)
          (Goes.seq (.text _) ((Goes.value _).bind fun _ => Goes.seq (.text _)
          (Goes.seq (.text _) ((Goes.value _).bind fun _ => Goes.seq (.text _)
          (Goes.seq (.text _) ((Goes.value name).bind fun _ => Goes.seq (.text _)
          (arch_goes hv _ _ (arch_goes hv _ _ (arch_goes hv _ _ hopts))))))))))) ?_
        simp [Complete, hname, hget, hnil, hen, hostFields]
        tauto
      · rw [if_neg hen]
        refine hopts.iff ?_
        simp [Complete, hname, hget, hnil, hen]
  · constructor
    · rintro ⟨_, _, h⟩
      exact h
    · intro h
      rcases Option.isSome_iff_exists.1 h.1 with ⟨name, hname⟩
      exact ⟨name, hname, h⟩

/-! ## The settings and the whole text -/

theorem dhcpSubnet_goes (v : Value) : Goes (dhcpSubnet v) () (Subnet.of? v).isSome := by
  unfold dhcpSubnet
  refine (Goes.need fun sub _ => Goes.need fun mask _ => Goes.seq (.text _)
    ((Goes.value sub).bind fun _ => Goes.seq (.text _) ((Goes.value mask).bind fun _ =>
      Goes.seq (.text _) (Goes.need fun ranges _ =>
        texts_goes (v := ranges) (k := fun _ => Out.text "\x7d\n") _ _ (.text _))))).iff ?_
  simp only [Subnet.of?, Option.bind_eq_bind, Option.isSome_iff_exists, Option.bind_eq_some_iff,
    Option.pure_def, Option.some.injEq]
  constructor
  · rintro ⟨sub, hsub, mask, hmask, ⟨t, ht⟩, ⟨u, hu⟩, ranges, hranges, ⟨ts, hts⟩, -⟩
    exact ⟨_, sub, hsub, t, ht, mask, hmask, u, hu, ranges, hranges, ts, hts, rfl⟩
  · rintro ⟨_, sub, hsub, t, ht, mask, hmask, u, hu, ranges, hranges, ts, hts, rfl⟩
    exact ⟨sub, hsub, mask, hmask, ⟨t, ht⟩, ⟨u, hu⟩, ranges, hranges, ⟨ts, hts⟩, trivial⟩

/-- The records are complete. -/
def CompleteWks (c : Value) : Prop := ∃ kvs, wksOf c = .table kvs ∧ ∀ e ∈ kvs, Complete e.2

theorem at?_wks_table_iff {c : Value} {kvs : List (Key × Value)} :
    c.at? ["wks"] = some (.table kvs) ↔ wksOf c = .table kvs := by
  constructor
  · exact at?_one
  · intro h
    cases c with
    | table top => exact congrArg some h
    | nil | bool | num | str => cases h

/-- A loop of which every round goes. -/
theorem Goes.forIn_always {γ : Type} {xs : List γ} {body : γ → PUnit → Out (ForInStep PUnit)}
    (hbody : ∀ x, Goes (body x ⟨⟩) (.yield ⟨⟩) True) :
    Goes (ForIn.forIn xs PUnit.unit body) PUnit.unit True :=
  (Goes.forIn fun x _ => hbody x).iff (by simp)

theorem global_goes (kvs : List (Key × Value)) :
    Goes (forIn kvs PUnit.unit fun e _ => do
      text e.1.text
      text " "
      text e.2.tostring
      text ";\n"
      pure (ForInStep.yield PUnit.unit)) PUnit.unit True := by
  refine Goes.forIn_always fun e => ?_
  refine Goes.seq (.text _) (Goes.seq (.text _) (Goes.seq (.text _) ?_))
  exact Goes.seq (.text _) .pure

theorem opt_goes (kvs : List (Key × Value)) :
    Goes (forIn kvs PUnit.unit fun e _ => do
      text "	option "
      text e.1.text
      if e.1 = .str "domain-name" then
        text " \""
        text e.2.tostring
        text "\";\n"
        pure (ForInStep.yield PUnit.unit)
      else
        text " "
        text e.2.tostring
        text ";\n"
        pure (ForInStep.yield PUnit.unit)) PUnit.unit True := by
  refine Goes.forIn_always fun e => ?_
  refine Goes.seq (.text _) (Goes.seq (.text _) ?_)
  split <;> exact Goes.seq (.text _) (Goes.seq (.text _) (Goes.seq (.text _) .pure))

theorem subs_goes (kvs : List (Key × Value)) :
    Goes (forIn (ipairs kvs) PUnit.unit fun e _ => do
      dhcpSubnet e.2
      pure (ForInStep.yield PUnit.unit)) PUnit.unit
      ((ipairs kvs).mapM fun e => Subnet.of? e.2).isSome := by
  refine (Goes.forIn fun e _ => (dhcpSubnet_goes e.2).last).iff ?_
  rw [isSome_mapM_iff]

theorem records_goes (kvs : List (Key × Value)) :
    Goes (do
      forIn kvs PUnit.unit fun e _ => do
        dhcpHost e.2
        pure (ForInStep.yield PUnit.unit)
      pure ()) () (∀ e ∈ kvs, Complete e.2) := by
  exact (Goes.forIn fun e _ => (dhcpHost_goes e.2).last).last

theorem dhcpdConf_goes (c : Value) :
    Goes (dhcpdConf c) () ((Dhcp.of? c).isSome ∧ CompleteWks c) := by
  unfold dhcpdConf
  refine Goes.iff (
    -- the comments, the global statements and the options
    Goes.seq (.text _) <| Goes.need fun vendor _ => Goes.need fun version _ =>
    Goes.seq (.text _) <| Goes.seq (.text _) <| Goes.need fun global _ => Goes.entries fun _ _ =>
    Goes.seq (global_goes _) <| Goes.seq (.text _) <| Goes.need fun opt _ => Goes.entries fun _ _ =>
    Goes.seq (opt_goes _) <| Goes.seq (.text _) <|
    -- the subnets
    Goes.need fun sub _ => Goes.entries fun _ _ => Goes.bind (subs_goes _) fun _ =>
    -- the fixed block and the workstations
    Goes.seq (.text _) <| Goes.need fun ipxe _ => (Goes.value ipxe).bind fun _ =>
    Goes.seq (.text _) <| Goes.seq (.text _) <|
    Goes.need fun wks _ => Goes.entries fun kvs _ => records_goes kvs) ?_
  constructor
  · rintro ⟨vendor, hvendor, version, hversion, _, hglobal, global, rfl, _, hopt, opt, rfl, _, hsub,
      sub, rfl, hsubs, ipxe, hipxe, htext, _, hwks, kvs, rfl, hcomplete⟩
    rcases Option.isSome_iff_exists.1 hsubs with ⟨subs, hsubs⟩
    rcases Option.isSome_iff_exists.1 htext with ⟨t, ht⟩
    have hfixed : textAt? c ["dhcp", "config", "ipxe"] = some t := by
      rw [textAt?, hipxe]
      exact ht
    refine ⟨?_, kvs, at?_one hwks, hcomplete⟩
    simp only [Dhcp.of?, hvendor, hversion, hglobal, hopt, hsub, Option.bind_eq_bind,
      Option.bind_some, entries?, hsubs, hfixed]
    rfl
  · rintro ⟨hsettings, kvs, hkvs, hcomplete⟩
    rcases Option.isSome_iff_exists.1 hsettings with ⟨d, hd⟩
    simp only [Dhcp.of?, Option.bind_eq_bind, Option.bind_eq_some_iff (x := textAt? _ _),
      Option.bind_eq_some_iff (x := Option.bind (Value.at? _ _) entries?), Option.pure_def,
      Option.bind_eq_some_iff (x := Option.bind (Option.bind _ _) _), Option.some.injEq] at hd
    rcases hd with ⟨vendor, hvendor, version, hversion, global, hglobal, opt, hopt, subs, hsubs,
      fixed, hfixed, rfl⟩
    rcases hsubs with ⟨sub, hsub, hsubs⟩
    rcases Option.bind_eq_some_iff.1 hfixed with ⟨ipxe, hipxe, ht⟩
    exact ⟨vendor, hvendor, version, hversion, _, bind_entries hglobal, global, rfl, _,
      bind_entries hopt, opt, rfl, _, bind_entries hsub, sub, rfl,
      Option.isSome_of_eq_some hsubs, ipxe, hipxe, Option.isSome_of_eq_some ht, _,
      at?_wks_table_iff.2 hkvs, kvs, rfl, hcomplete⟩

/-! ## Saving and exporting -/

/-- A configuration that `ExportDHCP` gets through. -/
structure Exports (c : Value) : Prop where
  conf : checkconf c = some true
  workdir : (textAt? c ["dhcp", "workdir"]).isSome
  settings : (Dhcp.of? c).isSome
  records : CompleteWks c

/-- The export leaves everything but dhcpd.conf as it is. -/
theorem exec_exportDHCP {c : Value} (hconf : checkconf c = some true) (w : World) :
    ∃ t, exec (exportDHCP c) w = .ok () { w with dhcpd := t } ∧ Exports c ∨
      exec (exportDHCP c) w = .error { w with dhcpd := t } ∧ ¬ Exports c := by
  have hgoes := dhcpdConf_goes c
  simp only [exportDHCP, hconf, lift_some_bind, when, if_true]
  cases hdir : textAt? c ["dhcp", "workdir"] with
  | none =>
    refine ⟨w.dhcpd, .inr ⟨rfl, fun h => ?_⟩⟩
    have hsome := h.workdir
    rw [hdir] at hsome
    cases hsome
  | some dir =>
    rw [lift_some_bind]
    by_cases hc : (Dhcp.of? c).isSome ∧ CompleteWks c
    · rcases hgoes.ok hc "" with ⟨t, ht⟩
      refine ⟨t, .inl ⟨?_, ⟨hconf, Option.isSome_of_eq_some hdir, hc.1, hc.2⟩⟩⟩
      rw [ht]
      rfl
    · rcases hgoes.error hc "" with ⟨t, ht⟩
      refine ⟨t, .inr ⟨?_, fun h => hc ⟨h.settings, h.records⟩⟩⟩
      rw [ht]
      rfl

namespace Exports

variable {c c' : Value}

theorem of_sameSettings (h : Exports c) (hset : SameSettings c c') (hwks : CompleteWks c') :
    Exports c' where
  conf := hset.checkconf.trans h.conf
  workdir := by
    rw [hset.textAt? (by decide)]
    exact h.workdir
  settings := by
    rw [hset.dhcp]
    exact h.settings
  records := hwks

theorem put {k : Key} {v : Value} (h : Exports c) (hput : Put k v c c') (hv : Complete v) :
    Exports c' := by
  refine h.of_sameSettings hput.sameSettings ?_
  rcases h.records with ⟨kvs, hkvs, hall⟩
  rcases hput.wks with ⟨kvs', hkvs', hstore⟩
  rw [hkvs, Value.table.injEq] at hkvs'
  subst hkvs'
  refine ⟨_, hstore, fun e he => ?_⟩
  rcases mem_store he with rfl | he
  · exact hv
  · exact hall e he

/-- What was saved exports when it is loaded again. -/
theorem reload {f : Json} {k : Key} {v : Value} (h : Exports c) (hput : Put k v f.val c)
    (hv : v.Normal) : Exports c.reload := by
  rcases hput.wks with ⟨kvs, hkvs, hstore⟩
  have hmem : InMemory c := (InMemory.of_json hkvs).put hput (.of_normal hv)
  refine h.of_sameSettings hmem.sameSettings_reload ?_
  have hnormal : ∀ e ∈ store k v kvs, e.2.Normal := by
    intro e he
    rcases mem_store he with rfl | he
    · exact hv
    · have hall : (Value.table kvs).Normal := hkvs ▸ Value.All.get f.property "wks"
      exact allKvs_iff.1 hall.2 e he
  rcases h.records with ⟨_, heq, hcomplete⟩
  rw [hstore, Value.table.injEq] at heq
  subst heq
  refine ⟨_, by rw [hmem.wksOf_reload, hstore, Value.reload], fun e he => ?_⟩
  rcases mem_renumber he with ⟨e', he', hval⟩
  rw [reloadKvs_eq_map] at he'
  rcases List.mem_map.1 he' with ⟨e₀, he₀, rfl⟩
  rw [hval, (hnormal e₀ he₀).reload_eq]
  exact hcomplete e₀ he₀

end Exports

/-! ## ApplyMy -/

/-- An `ApplyMy` request with the record `d.WKS`, whose `tid` stands for the number `m`. -/
structure ApplyPost (p : Post) (d : Json) (tid : Value) (m : Int) : Prop where
  id : p.id ≠ none
  supper : p.supper = none
  cmd : p.cmd = none
  wksCmd : p.wksCmd = some "ApplyMy"
  data : p.jsondata = some (some d)
  number : tid.tonumber = some m
  tid : d.val.at? ["WKS", "tid"] = some tid

/-- The record will be stored: there is a table, and nothing in it under the `tid`. -/
structure SlotFree (c tid : Value) : Prop where
  conf : checkconf c = some true
  table : ∃ kvs, wksOf c = .table kvs
  free : wksIndex? c tid = some .nil

/-- What an `ApplyMy` request comes to: it does nothing, stops before it has done
anything, or saves the record and goes on to the export. -/
inductive ApplyOutcome (d : Json) (tid : Value) (m : Int) (w : World) :
    Result World (Option Value) → Prop where
  | idle (h : ¬ SlotFree w.file.val tid) : ApplyOutcome d tid m w (.ok none w)
  | early (h : ¬ Exports w.file.val) : ApplyOutcome d tid m w (.error w)
  | done {c t} (hput : Put (.num m) (d.val.get "WKS") w.file.val c) (h : Exports c) :
      ApplyOutcome d tid m w (.ok none { w with file := encode c, dhcpd := t })
  | late {c t} (hput : Put (.num m) (d.val.get "WKS") w.file.val c) (h : ¬ Exports c) :
      ApplyOutcome d tid m w (.error { w with file := encode c, dhcpd := t })

theorem ApplyPost.exec_post {p : Post} {d : Json} {tid : Value} {m : Int}
    (hp : ApplyPost p d tid m) {w : World} (hconf : checkconf w.file.val = some true) :
    exec (post p) w = exec (applyMy p w.file.val >>= fun _ => pure none) w := by
  have hreply : getMy p w.arp w.file.val = some none := by simp [getMy, hp.wksCmd]
  have hdel : ∀ c, deleteMachine p c = pure () := deleteMachine_of_ne (by simp [hp.wksCmd])
  simp only [post, loadFromFile, exec_observe_bind, hconf, lift_some_bind, if_true,
    supperPart_of_none hp.supper, pure_bind, powerOn_of_none hp.cmd, exec_get_bind, hreply, hdel]

/-- In a table every slot can be read and written. -/
theorem at?_wks_of_table {c : Value} {kvs : List (Key × Value)} (h : wksOf c = .table kvs) :
    (∀ tid, (wksIndex? c tid).isSome) ∧ ∀ k v, (c.assign? ["wks", k] v).isSome := by
  cases c with
  | table top =>
    have hlook : lookup "wks" top = .table kvs := h
    constructor
    · intro tid
      cases tid <;> simp [wksIndex?, wksAt?, Value.at?, hlook]
    · intro k v
      simp [Value.assign?, hlook]
  | nil | bool | num | str => cases h

theorem post_outcome {p : Post} {d : Json} {tid : Value} {m : Int} (hp : ApplyPost p d tid m)
    (w : World) : ApplyOutcome d tid m w (exec (post p) w) := by
  cases hconf : checkconf w.file.val with
  | none =>
    simp only [post, loadFromFile, exec_observe_bind, hconf, lift_none_bind]
    exact .early fun h => by simp [h.conf] at hconf
  | some ok =>
  cases ok with
  | false =>
    simp only [post, loadFromFile, exec_observe_bind, hconf, lift_some_bind]
    exact .idle fun h => by simp [h.conf] at hconf
  | true =>
    rw [hp.exec_post hconf]
    obtain ⟨id, hid⟩ := Option.ne_none_iff_exists'.1 hp.id
    simp only [applyMy, hid, hp.wksCmd, hp.data, lift_some_bind, hp.tid, bind_assoc]
    cases hwks : w.file.val.at? ["wks"] with
    | none =>
      refine .early fun h => ?_
      rcases h.records with ⟨kvs, hkvs, -⟩
      rw [at?_wks_table_iff.2 hkvs] at hwks
      cases hwks
    | some wks =>
    rw [lift_some_bind]
    by_cases hnil : wks = .nil
    · rw [if_pos hnil]
      refine .idle fun h => ?_
      rcases h.table with ⟨kvs, hkvs⟩
      rw [at?_wks_table_iff.2 hkvs, hnil] at hwks
      cases hwks
    rw [if_neg hnil]
    -- the slot, under the posted `tid`
    cases hold : wksIndex? w.file.val tid with
    | none =>
      refine .early fun h => ?_
      rcases h.records with ⟨kvs, hkvs, -⟩
      have hsome := (at?_wks_of_table hkvs).1 tid
      rw [hold] at hsome
      cases hsome
    | some old =>
    rw [lift_some_bind]
    by_cases hfree : old = .nil
    swap
    · rw [if_neg hfree]
      exact .idle fun h => hfree (Option.some.inj (hold.symm.trans h.free))
    rw [if_pos hfree, hp.number, lift_some_bind]
    -- storing the record under its number
    cases hput : w.file.val.assign? ["wks", .num m] (d.val.get "WKS") with
    | none =>
      refine .early fun h => ?_
      rcases h.records with ⟨kvs, hkvs, -⟩
      have hsome := (at?_wks_of_table hkvs).2 (.num m) (d.val.get "WKS")
      rw [hput] at hsome
      cases hsome
    | some c =>
      have hput : Put (.num m) (d.val.get "WKS") w.file.val c := hput
      have hconf' : checkconf c = some true := by rw [hput.sameSettings.checkconf, hconf]
      have hsave : exec (saveToFile c) w = .ok () { w with file := encode c } := by
        simp [saveToFile, hconf', when]
      rw [lift_some_bind]
      rcases exec_exportDHCP hconf' { w with file := encode c } with ⟨t, ⟨hexec, h⟩ | ⟨hexec, h⟩⟩
      · simp only [exec_bind, hsave, hexec]
        exact .done hput h
      · simp only [exec_bind, hsave, hexec]
        exact .late hput h

section Following

variable {p : Post} {d : Json} {tid : Value} {m : Int} {w : World} (hp : ApplyPost p d tid m)

include hp

/-- A complete record, posted into a configuration that exports. -/
theorem post_complete (hd : Complete (d.val.get "WKS")) (hw : Exports w.file.val) :
    (exec (post p) w).isOk := by
  have hout := post_outcome hp w
  generalize exec (post p) w = r at hout
  cases hout with
  | idle | done => rfl
  | early h => exact absurd hw h
  | late hput h => exact absurd (hw.put hput hd) h

/-- A request that returned, and stored its record or found a configuration that
exports, leaves one. -/
theorem post_exports (hok : (exec (post p) w).isOk)
    (hw : SlotFree w.file.val tid ∨ Exports w.file.val) :
    Exports (exec (post p) w).final.file.val := by
  have hout := post_outcome hp w
  generalize exec (post p) w = r at hout hok
  cases hout with
  | idle h => exact hw.resolve_left h
  | done hput h => exact h.reload hput (Value.All.get d.property "WKS")
  | early | late => cases hok

/-- What an error leaves: everything as it was, or the saved record in a configuration
that does not export. -/
theorem post_error (hok : ¬ (exec (post p) w).isOk) :
    (exec (post p) w).final = w ∧ ¬ Exports w.file.val ∨
    ∃ c, Put (.num m) (d.val.get "WKS") w.file.val c ∧ ¬ Exports c ∧
      (exec (post p) w).final.file = encode c := by
  have hout := post_outcome hp w
  generalize exec (post p) w = r at hout hok
  cases hout with
  | idle | done => exact absurd rfl hok
  | early h => exact .inl ⟨rfl, h⟩
  | late hput h => exact .inr ⟨_, hput, h, rfl⟩

end Following

/-- **`ApplyMy` and the two files.** An error before the save leaves both files as they
were; an error after it is one of the export, of a configuration with an incomplete
record or setting, and the record has been saved. With complete records there is none,
and after a request that returned with its record stored there is none either. -/
theorem apply_then_apply {p : Post} {d : Json} {tid : Value} {m : Int}
    (hp : ApplyPost p d tid m) (w : World) :
    (¬ (exec (post p) w).isOk →
      (exec (post p) w).final = w ∧ ¬ Exports w.file.val ∨
      ∃ c, Put (.num m) (d.val.get "WKS") w.file.val c ∧ ¬ Exports c ∧
        (exec (post p) w).final.file = encode c) ∧
    (Exports w.file.val → Complete (d.val.get "WKS") → (exec (post p) w).isOk) ∧
    ((exec (post p) w).isOk → SlotFree w.file.val tid ∨ Exports w.file.val →
      ∀ p' d' tid' m', ApplyPost p' d' tid' m' → Complete (d'.val.get "WKS") →
        (exec (post p') (exec (post p) w).final).isOk) := by
  refine ⟨post_error hp, fun hw hd => post_complete hp hd hw, ?_⟩
  intro hok hw p' d' tid' m' hp' hd'
  exact post_complete hp' hd' (post_exports hp hok hw)

/-- An enabled record with a name and without a hardware address. -/
def withoutMac : Post :=
  ⟨some "3", none, none, some "ApplyMy", some (some (encode (.table [("WKS",
    .table [("enable", .num 1), ("tid", .str "3"), ("ipv4", .str "192.168.0.5"),
      ("name", .str "PC"), ("fileboot", .str "ipxe"), ("opt", array [])])])))⟩

/-- A record for the slot of the first workstation, under its number. -/
def underNumber : Post :=
  ⟨some "1", none, none, some "ApplyMy", some (some (encode (.table [("WKS",
    .table [("tid", .num 1)])])))⟩

/-- What the error of `withoutMac` leaves. -/
def halfApplied : World := (exec (post withoutMac) office).final

/-- Posting a record without a hardware address is an error, and both files are changed.
From then on a request that does nothing returns, and the one after it, with a complete
record, is an error. -/
theorem error_after_save :
    ¬ (exec (post withoutMac) office).isOk ∧
    halfApplied.file.val ≠ office.file.val ∧ halfApplied.dhcpd ≠ office.dhcpd ∧
    (exec (post underNumber) halfApplied).isOk ∧
    ¬ (exec (post (savedAs "4" "b4:2e:99:2c:dd:01" "192.168.0.5"))
      (exec (post underNumber) halfApplied).final).isOk := by
  refine ⟨?_, ?_, ?_, ?_, ?_⟩ <;> decide +kernel

theorem office_exports : Exports office.file.val where
  conf := by decide +kernel
  workdir := by decide +kernel
  settings := by decide +kernel
  records := ⟨_, rfl, by decide +kernel⟩

theorem savedAs_applies {t : String} {m : Int} (ht : numberOf t = some m) (mac ipv4 : String) :
    ∃ d, ApplyPost (savedAs t mac ipv4) d (.str t) m ∧ Complete (d.val.get "WKS") := by
  refine ⟨_, ⟨by simp [savedAs], rfl, rfl, rfl, rfl, ht, rfl⟩, rfl, fun _ => ⟨rfl, fun _ => ?_⟩⟩
  intro f hf
  simp only [hostFields, List.mem_cons, List.not_mem_nil, or_false] at hf
  rcases hf with rfl | rfl | rfl | rfl <;> rfl

theorem apply_then_apply_office :
    (exec (post (savedAs "4" "b4:2e:99:2c:dd:02" "192.168.0.6"))
      (exec (post (savedAs "3" "b4:2e:99:2c:dd:01" "192.168.0.5")) office).final).isOk := by
  rcases savedAs_applies (t := "3") (m := 3) (by decide) "b4:2e:99:2c:dd:01" "192.168.0.5" with
    ⟨d, hd, hcomplete⟩
  rcases savedAs_applies (t := "4") (m := 4) (by decide) "b4:2e:99:2c:dd:02" "192.168.0.6" with
    ⟨d', hd', hcomplete'⟩
  have hfirst := apply_then_apply hd office
  have hok := hfirst.2.1 office_exports hcomplete
  exact hfirst.2.2 hok (.inr office_exports) _ _ _ _ hd' hcomplete'

end NsBoot
