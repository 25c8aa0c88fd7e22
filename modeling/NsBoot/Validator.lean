import NsBoot.Boot
import NsBoot.Dhcp.Export
import NsBoot.Lib.Rewrite

/-!
# NsBoot.Validator — what `checkconf` finds out

`checkconf` reads a fixed list of fields and remembers whether one of them was nil. It
goes on reading after it has found a table missing, and the list is not the list of the
fields that the rest of the controller reads.

* `readFields`: the fields outside the workstation records that the boot request,
  `ExportDHCP`, the callers of `SaveToFile`, `GetMy` and the super-mode handlers read
  without asking whether they are there.
* `checkconf_isSome_iff`, `checkconf_eq_true_iff`: when `checkconf` returns, and when it
  returns true.
* `readFields_present`: the modelled boot request, export and proposal return only with these
  fields there (`bootReads_present`, `exportReads_present`, `getMyReads_present`).
* `checkconf_adequate_iff`: when it returns, and returns true only if every field that is
  read is there.
-/

namespace NsBoot

open Lua

/-! ## The fields -/

/-- What `monit`, the boot script, `zfsmount`, `mkChild`, `nbdConnect` and `LunAdd` read. -/
def bootReads : List (List Key) :=
  [["dhcp", "port"], ["tftp", "port"], ["iscsi", "port"], ["iscsi", "iqn"], ["iscsi", "proto"],
   ["wks"], ["web", "pages", "ipxe", "body"], ["web", "pages", "ipxe", "footer"],
   ["server", "imgbackdir"], ["server", "image_prefix"], ["zfs", "mpoint"], ["zfs", "dpoint"],
   ["zfs", "snadev"], ["zfs", "tmpname"], ["zfs", "devpoint"], ["server", "lockfile"],
   ["server", "imgdir"], ["server", "nbd_nbds"], ["server", "imgisodir"]]

/-- What `ExportDHCP` reads, the entries of the list of subnets apart. -/
def exportReads : List (List Key) :=
  [["dhcp", "workdir"], ["server", "vendor"], ["server", "version"], ["dhcp", "config", "global"],
   ["dhcp", "config", "opt"], ["dhcp", "config", "sub"], ["dhcp", "config", "ipxe"], ["wks"]]

/-- What `ExportDHCP` reads of each subnet. -/
def subnetReads (c : Value) : List (List Key) :=
  match c.at? ["dhcp", "config", "sub"] with
  | some (.table kvs) => (ipairs kvs).flatMap fun iv =>
      [["dhcp", "config", "sub", .num iv.1, "sub"], ["dhcp", "config", "sub", .num iv.1, "mask"],
       ["dhcp", "config", "sub", .num iv.1, "ranges"]]
  | _ => []

/-- The file that `SaveToFile` is called for, by the super-mode handlers among others. -/
def saveReads : List (List Key) :=
  [["server", "workdir"], ["server", "distdir"], ["server", "config"]]

/-- What `GetMy` reads; it asks about the options, and about the directories it lists. -/
def getMyReads : List (List Key) :=
  [["wks"], ["dhcp", "config", "opt"], ["dhcp", "config", "sub", .num 1], ["zfs"],
   ["groups", "wks"]]

def readFields (c : Value) : List (List Key) :=
  bootReads ++ exportReads ++ subnetReads c ++ saveReads ++ getMyReads

/-- The field is there. -/
def Present (c : Value) (path : List Key) : Prop := ∃ v, c.at? path = some v ∧ v ≠ .nil

instance (c : Value) (path : List Key) : Decidable (Present c path) :=
  decidable_of_iff ((c.at? path).any fun v => v ≠ .nil) (by simp [Present, Option.any_eq_true])

/-! ## The result of `checkconf` -/

variable {c : Value}

theorem Present.isSome {path : List Key} (h : Present c path) : (c.at? path).isSome := by
  rcases h with ⟨v, hv, -⟩
  rw [hv, Option.isSome_some]

/-- The tests one after the other: one that stops stops them all. -/
theorem foldlM_present (paths : List (List Key)) (ok : Bool) :
    paths.foldlM (fun ok path => (present? c path).map (ok && ·)) ok =
      if ∀ p ∈ paths, (c.at? p).isSome then some (ok && paths.all fun p => decide (Present c p))
      else none := by
  induction paths generalizing ok with
  | nil => simp
  | cons p paths ih =>
    rw [List.foldlM_cons]
    cases hp : c.at? p with
    | none => simp [present?, hp]
    | some v =>
      have hpresent : decide (Present c p) = decide (v ≠ .nil) := by
        simp [Present, hp]
      have hone : present? c p = some (decide (v ≠ .nil)) := by
        rw [present?, hp, Option.map_some]
      rw [hone, Option.map_some, Option.bind_eq_bind, Option.bind_some, ih]
      simp only [List.forall_mem_cons, hp, Option.isSome_some, true_and, List.all_cons, hpresent,
        Bool.and_assoc]

theorem checkconf_isSome_iff :
    (checkconf c).isSome ↔ c = .nil ∨ ∀ p ∈ checkedFields, (c.at? p).isSome := by
  unfold checkconf
  by_cases hc : c = .nil
  · simp [hc]
  · rw [if_neg hc, foldlM_present, or_iff_right hc]
    split
    · next h => simpa using h
    · next h => simpa using h

theorem checkconf_eq_true_iff :
    checkconf c = some true ↔ ∀ p ∈ checkedFields, Present c p := by
  unfold checkconf
  by_cases hc : c = .nil
  · rw [if_pos hc, hc]
    simp [checkedFields, Present, Value.at?]
  · rw [if_neg hc, foldlM_present]
    constructor
    · intro h
      rw [Option.ite_none_right_eq_some] at h
      simpa using h.2
    · intro h
      rw [if_pos fun p hp => (h p hp).isSome]
      simpa using h

/-! ## Tables that are there -/

/-- The value can be indexed. -/
def Indexable : Value → Prop
  | .table _ => True
  | .str _ => True
  | _ => False

/-- The tables `checkconf` reads fields of. -/
def checkedTables : List (List Key) :=
  [[], ["server"], ["iscsi"], ["dhcp"], ["dhcp", "config"], ["tftp"]]

theorem at?_isSome_append {path : List Key} {k : Key} :
    (c.at? (path ++ [k])).isSome ↔ ∃ v, c.at? path = some v ∧ Indexable v := by
  induction path generalizing c with
  | nil => cases c <;> simp [Value.at?, Indexable]
  | cons k' path ih =>
    cases c with
    | table kvs => exact ih
    | str s => exact ih
    | nil | bool | num => simp [Value.at?]

/-- `checkconf` reads at least one field of each of its tables, and none of others. -/
theorem checked_isSome_iff : (∀ p ∈ checkedFields, (c.at? p).isSome) ↔
    ∀ q ∈ checkedTables, ∃ v, c.at? q = some v ∧ Indexable v := by
  constructor
  · intro h q hq
    have hfield : ∀ q ∈ checkedTables, ∃ p ∈ checkedFields, p.dropLast = q ∧ p ≠ [] := by decide
    rcases hfield q hq with ⟨p, hp, rfl, hne⟩
    have hsome := h p hp
    rw [← List.dropLast_append_getLast hne] at hsome
    exact at?_isSome_append.1 hsome
  · intro h p hp
    have htable : ∀ p ∈ checkedFields, p.dropLast ∈ checkedTables ∧ p ≠ [] := by decide
    rcases htable p hp with ⟨hq, hne⟩
    rw [← List.dropLast_append_getLast hne]
    exact at?_isSome_append.2 (h _ hq)

/-! ## The modelled handlers read these fields -/

theorem Present.of_textAt? {path : List Key} {t : String} (h : textAt? c path = some t) :
    Present c path := by
  rcases Option.bind_eq_some_iff.1 h with ⟨v, hv, ht⟩
  refine ⟨v, hv, ?_⟩
  rintro rfl
  cases ht

theorem Indexable.ne_nil {v : Value} (h : Indexable v) : v ≠ .nil := by
  rintro rfl
  exact h

/-- A table whose field is read is there. -/
theorem Present.of_field (path : List Key) {k : Key} {w : Value}
    (h : c.at? (path ++ [k]) = some w) : Present c path := by
  rcases at?_isSome_append.1 (Option.isSome_of_eq_some h) with ⟨v, hv, hindex⟩
  exact ⟨v, hv, hindex.ne_nil⟩

/-- A boot request that gets as far as its pipeline has found every field there. -/
theorem bootReads_present {s : Server} {r : Wks} {script : List String}
    (hconf : checkconf c = some true) (hs : Server.of? c = some s)
    (hscript : bootScript s r c = some script) : ∀ p ∈ bootReads, Present c p := by
  have hchecked := checkconf_eq_true_iff.1 hconf
  rcases Option.bind_eq_some_iff.1 hs with ⟨_, -, hs⟩
  rcases Option.bind_eq_some_iff.1 hs with ⟨_, -, hs⟩
  rcases Option.bind_eq_some_iff.1 hs with ⟨_, hiso, hs⟩
  rcases Option.bind_eq_some_iff.1 hs with ⟨_, -, hs⟩
  rcases Option.bind_eq_some_iff.1 hs with ⟨_, hlock, hs⟩
  rcases Option.bind_eq_some_iff.1 hs with ⟨_, -, hs⟩
  rcases Option.bind_eq_some_iff.1 hs with ⟨_, -, hs⟩
  rcases Option.bind_eq_some_iff.1 hs with ⟨_, -, hs⟩
  rcases Option.bind_eq_some_iff.1 hs with ⟨_, htmp, hs⟩
  rcases Option.bind_eq_some_iff.1 hs with ⟨_, hmpoint, hs⟩
  rcases Option.bind_eq_some_iff.1 hs with ⟨_, hdpoint, hs⟩
  rcases Option.bind_eq_some_iff.1 hs with ⟨_, hdevpoint, hs⟩
  rcases Option.bind_eq_some_iff.1 hs with ⟨_, hsnadev, -⟩
  rcases Option.bind_eq_some_iff.1 hscript with ⟨_, -, hscript⟩
  rcases Option.bind_eq_some_iff.1 hscript with ⟨body, hbody, hscript⟩
  rcases Option.bind_eq_some_iff.1 hscript with ⟨_, hbodyText, hscript⟩
  rcases Option.bind_eq_some_iff.1 hscript with ⟨footer, hfooter, hscript⟩
  rcases Option.bind_eq_some_iff.1 hscript with ⟨_, hfooterText, -⟩
  have hpage {v : Value} {t : String} {path : List Key} (hv : c.at? path = some v)
      (ht : v.str? = some t) : Present c path := by
    refine ⟨v, hv, ?_⟩
    rintro rfl
    cases ht
  -- what is not checked is read by the settings or the script
  have hrest : ∀ p ∈ bootReads, p ∈ checkedFields ∨
      p ∈ ([["web", "pages", "ipxe", "body"], ["web", "pages", "ipxe", "footer"],
        ["server", "imgisodir"], ["server", "lockfile"], ["zfs", "tmpname"], ["zfs", "mpoint"],
        ["zfs", "dpoint"], ["zfs", "devpoint"], ["zfs", "snadev"]] : List (List Key)) := by decide
  intro p hp
  rcases hrest p hp with hp | hp
  · exact hchecked p hp
  · simp only [List.mem_cons, List.not_mem_nil, or_false] at hp
    rcases hp with rfl | rfl | rfl | rfl | rfl | rfl | rfl | rfl | rfl
    · exact hpage hbody hbodyText
    · exact hpage hfooter hfooterText
    · exact .of_textAt? hiso
    · exact .of_textAt? hlock
    · exact .of_textAt? htmp
    · exact .of_textAt? hmpoint
    · exact .of_textAt? hdpoint
    · exact .of_textAt? hdevpoint
    · exact .of_textAt? hsnadev

/-- `GetMy` makes a proposal only with its fields there; the groups are sent as they are, also
when there are none. -/
theorem getMyReads_present {arp : String → String} {v : Value} (h : proposal arp c = some v) :
    ∀ p ∈ getMyReads, p ≠ [.str "groups", .str "wks"] → Present c p := by
  simp only [proposal, Option.bind_eq_bind, Option.bind_eq_some_iff] at h
  rcases h with ⟨wks, hwks, h⟩
  split at h
  · next kvs =>
    simp only [Option.bind_eq_some_iff] at h
    rcases h with ⟨_, -, opt, hopt, dns, hdns, _, -, _, -, _, -, _, -, _, -, _, -, _, -, _, hsub,
      _, -, _, -, _, hzfs, -⟩
    have hoptThere : opt ≠ .nil := by
      rintro rfl
      cases hdns
    intro p hp hne
    simp only [getMyReads, List.mem_cons, List.not_mem_nil, or_false] at hp
    rcases hp with rfl | rfl | rfl | rfl | rfl
    · exact ⟨_, hwks, Value.noConfusion⟩
    · exact ⟨_, hopt, hoptThere⟩
    · exact .of_field ["dhcp", "config", "sub", .num 1] hsub
    · exact .of_field ["zfs"] hzfs
    · exact absurd rfl hne
  · cases h

/-! ### What a writer that returns has gone through -/

namespace Out

variable {α β : Type}

theorem bind_ok {x : Out α} {k : α → Out β} {t t' : String} {b : β}
    (h : (x >>= k) t = .ok b t') : ∃ a t₁, x t = .ok a t₁ ∧ k a t₁ = .ok b t' := by
  change EStateM.bind x k t = _ at h
  unfold EStateM.bind at h
  split at h
  · next a t₁ hx => exact ⟨a, t₁, hx, h⟩
  · cases h

theorem need_ok {o : Option α} {t t' : String} {a : α} (h : need o t = .ok a t') : o = some a := by
  cases o with
  | none => cases h
  | some b =>
    cases h
    rfl

theorem entries_ok {v : Value} {t t' : String} {kvs : List (Key × Value)}
    (h : entries v t = .ok kvs t') : v = .table kvs := by
  cases v with
  | table kvs' =>
    cases h
    rfl
  | nil | bool | num | str => cases h

theorem value_ok {v : Value} {t t' : String} {u : Unit} (h : value v t = .ok u t') : v ≠ .nil := by
  rintro rfl
  cases h

/-- A loop that comes to its end has gone through every entry. -/
theorem forIn_ok {γ : Type} {xs : List γ} {f : γ → Out Unit} {t t' : String} {u : PUnit}
    (h : (forIn xs PUnit.unit fun x _ => do f x; pure (ForInStep.yield PUnit.unit) : Out PUnit) t =
      .ok u t') : ∀ x ∈ xs, ∃ t₁ t₂, f x t₁ = .ok () t₂ := by
  induction xs generalizing t with
  | nil => exact fun x hx => absurd hx List.not_mem_nil
  | cons x xs ih =>
    rw [List.forIn_cons] at h
    rcases bind_ok h with ⟨step, t₁, hbody, hrest⟩
    rcases bind_ok hbody with ⟨_, t₂, hx, hyield⟩
    cases hyield
    intro y hy
    rcases List.mem_cons.1 hy with rfl | hy
    · exact ⟨t, _, hx⟩
    · exact ih hrest y hy

end Out

open Out

/-- What `ipairs` visits is in the table. -/
theorem lookup_of_mem_ipairs {kvs : List (Key × Value)} {e : Int × Value} (h : e ∈ ipairs kvs) :
    lookup (.num e.1) kvs = e.2 := by
  have hvisit : ∀ fuel i, e ∈ ipairs.visit kvs fuel i → lookup (.num e.1) kvs = e.2 := by
    intro fuel
    induction fuel with
    | zero => exact fun i hi => absurd hi List.not_mem_nil
    | succ fuel ih =>
      intro i hi
      rw [ipairs.visit] at hi
      split at hi
      · exact absurd hi List.not_mem_nil
      · rcases List.mem_cons.1 hi with rfl | hi
        · rfl
        · exact ih _ hi
  exact hvisit _ _ h

/-- A subnet that is written has its three fields. -/
theorem subnet_ok {v : Value} {t t' : String} (h : dhcpSubnet v t = .ok () t') :
    ∀ k ∈ [Key.str "sub", "mask", "ranges"], Present v [k] := by
  unfold dhcpSubnet at h
  rcases bind_ok h with ⟨sub, _, hsub, h⟩
  rcases bind_ok h with ⟨mask, _, hmask, h⟩
  rcases bind_ok h with ⟨_, _, -, h⟩
  rcases bind_ok h with ⟨_, _, hsubText, h⟩
  rcases bind_ok h with ⟨_, _, -, h⟩
  rcases bind_ok h with ⟨_, _, hmaskText, h⟩
  rcases bind_ok h with ⟨_, _, -, h⟩
  rcases bind_ok h with ⟨ranges, _, hranges, h⟩
  rcases bind_ok h with ⟨kvs, _, hentries, -⟩
  have htable := entries_ok hentries
  simp only [List.forall_mem_cons]
  refine ⟨⟨sub, need_ok hsub, value_ok hsubText⟩, ⟨mask, need_ok hmask, value_ok hmaskText⟩,
    ⟨ranges, need_ok hranges, by simp [htable]⟩, fun _ hk => absurd hk List.not_mem_nil⟩

/-- What an export that comes to its end has read and written. -/
theorem dhcpdConf_ok {t t' : String} {u : Unit} (h : dhcpdConf c t = .ok u t') :
    (∃ kvs, c.at? ["dhcp", "config", "opt"] = some (.table kvs)) ∧
    (∃ kvs, c.at? ["dhcp", "config", "sub"] = some (.table kvs) ∧
      ∀ e ∈ ipairs kvs, ∃ t₁ t₂, dhcpSubnet e.2 t₁ = .ok () t₂) ∧
    Present c ["dhcp", "config", "ipxe"] := by
  unfold dhcpdConf at h
  -- the head of the file and the global settings
  rcases bind_ok h with ⟨_, _, -, h⟩
  rcases bind_ok h with ⟨_, _, -, h⟩
  rcases bind_ok h with ⟨_, _, -, h⟩
  rcases bind_ok h with ⟨_, _, -, h⟩
  rcases bind_ok h with ⟨_, _, -, h⟩
  rcases bind_ok h with ⟨_, _, -, h⟩
  rcases bind_ok h with ⟨_, _, -, h⟩
  rcases bind_ok h with ⟨_, _, -, h⟩
  rcases bind_ok h with ⟨_, _, -, h⟩
  -- the options
  rcases bind_ok h with ⟨opt, _, hopt, h⟩
  rcases bind_ok h with ⟨_, _, hoptTable, h⟩
  rcases bind_ok h with ⟨_, _, -, h⟩
  rcases bind_ok h with ⟨_, _, -, h⟩
  -- the subnets
  rcases bind_ok h with ⟨sub, _, hsub, h⟩
  rcases bind_ok h with ⟨subs, _, hsubTable, h⟩
  rcases bind_ok h with ⟨_, _, hloop, h⟩
  rcases bind_ok h with ⟨_, _, -, h⟩
  rcases bind_ok h with ⟨ipxe, _, hipxe, h⟩
  rcases bind_ok h with ⟨_, _, hipxeText, -⟩
  cases entries_ok hoptTable
  cases entries_ok hsubTable
  exact ⟨⟨_, need_ok hopt⟩, ⟨subs, need_ok hsub, forIn_ok hloop⟩,
    ipxe, need_ok hipxe, value_ok hipxeText⟩

theorem subnetReads_present {kvs : List (Key × Value)}
    (hsub : c.at? ["dhcp", "config", "sub"] = some (.table kvs))
    (hwritten : ∀ e ∈ ipairs kvs, ∃ t₁ t₂, dhcpSubnet e.2 t₁ = .ok () t₂) :
    ∀ p ∈ subnetReads c, Present c p := by
  intro p hp
  rw [subnetReads, hsub] at hp
  rcases List.mem_flatMap.1 hp with ⟨e, he, hp⟩
  rcases hwritten e he with ⟨_, _, hwritten⟩
  have hentry : c.at? ["dhcp", "config", "sub", .num e.1] = some e.2 := by
    rw [← lookup_of_mem_ipairs he]
    exact (Value.at?_append c ["dhcp", "config", "sub"] [.num e.1]).trans (by rw [hsub]; rfl)
  have hfield {k : Key} (hk : Present e.2 [k]) :
      Present c ["dhcp", "config", "sub", .num e.1, k] := by
    rcases hk with ⟨w, hw, hne⟩
    refine ⟨w, ?_, hne⟩
    rw [← hw]
    exact (Value.at?_append c ["dhcp", "config", "sub", .num e.1] [k]).trans (by rw [hentry]; rfl)
  have hall := subnet_ok hwritten
  simp only [List.forall_mem_cons] at hall
  simp only [List.mem_cons, List.not_mem_nil, or_false] at hp
  rcases hp with rfl | rfl | rfl
  · exact hfield hall.1
  · exact hfield hall.2.1
  · exact hfield hall.2.2.1

/-- An export that comes to its end has found every field there. -/
theorem exportReads_present {t : String} (hconf : checkconf c = some true)
    (htext : dhcpdText? c = some t) : ∀ p ∈ exportReads ++ subnetReads c, Present c p := by
  have hchecked := checkconf_eq_true_iff.1 hconf
  unfold dhcpdText? at htext
  split at htext
  · next u t' h =>
    rcases dhcpdConf_ok h with ⟨⟨_, hopt⟩, ⟨subs, hsub, hwritten⟩, hipxe⟩
    have hrest : ∀ p ∈ exportReads, p ∈ checkedFields ∨
        p ∈ ([["dhcp", "config", "opt"], ["dhcp", "config", "sub"], ["dhcp", "config", "ipxe"]] :
          List (List Key)) := by decide
    intro p hp
    rcases List.mem_append.1 hp with hp | hp
    · rcases hrest p hp with hp | hp
      · exact hchecked p hp
      · simp only [List.mem_cons, List.not_mem_nil, or_false] at hp
        rcases hp with rfl | rfl | rfl
        · exact ⟨_, hopt, Value.noConfusion⟩
        · exact ⟨_, hsub, Value.noConfusion⟩
        · exact hipxe
    · exact subnetReads_present hsub hwritten p hp
  · cases htext

/-- Where the boot request, the export and the proposal return, every field of the list was
there, the groups apart. -/
theorem readFields_present {s : Server} {r : Wks} {script : List String} {t : String}
    {arp : String → String} {v : Value} (hconf : checkconf c = some true)
    (hs : Server.of? c = some s) (hscript : bootScript s r c = some script)
    (htext : dhcpdText? c = some t) (hproposal : proposal arp c = some v) :
    ∀ p ∈ readFields c, p ≠ [.str "groups", .str "wks"] → Present c p := by
  have hsave : ∀ p ∈ saveReads, p ∈ checkedFields := by decide
  intro p hp hne
  simp only [readFields, List.append_assoc, List.mem_append] at hp
  rcases hp with hp | hp | hp | hp | hp
  · exact bootReads_present hconf hs hscript p hp
  · exact exportReads_present hconf htext p (List.mem_append_left _ hp)
  · exact exportReads_present hconf htext p (List.mem_append_right _ hp)
  · exact checkconf_eq_true_iff.1 hconf p (hsave p hp)
  · exact getMyReads_present hproposal p hp hne

/-! ## Adequacy -/

/-- `checkconf` returns, and if it returns true, what the handlers read is there. -/
def Adequate (c : Value) : Prop :=
  (∃ b, checkconf c = some b) ∧ (checkconf c = some true → ∀ p ∈ readFields c, Present c p)

/-- The fields that are read and not checked. -/
def uncheckedFields (c : Value) : List (List Key) := (readFields c).filter (· ∉ checkedFields)

/-- **`checkconf` does its work on exactly these trees: there is none, or the tables it
reads are there, and moreover a field that it checks is missing or no field is that it
does not check.** -/
theorem checkconf_adequate_iff (c : Value) : Adequate c ↔
    c = .nil ∨ (∀ q ∈ checkedTables, ∃ v, c.at? q = some v ∧ Indexable v) ∧
      ((∃ p ∈ checkedFields, ¬ Present c p) ∨ ∀ p ∈ uncheckedFields c, Present c p) := by
  have hreturns : (∃ b, checkconf c = some b) ↔
      c = .nil ∨ ∀ q ∈ checkedTables, ∃ v, c.at? q = some v ∧ Indexable v := by
    rw [← Option.isSome_iff_exists, checkconf_isSome_iff, checked_isSome_iff]
  have hfields : (checkconf c = some true → ∀ p ∈ readFields c, Present c p) ↔
      (∃ p ∈ checkedFields, ¬ Present c p) ∨ ∀ p ∈ uncheckedFields c, Present c p := by
    rw [checkconf_eq_true_iff]
    constructor
    · intro h
      by_cases hall : ∀ p ∈ checkedFields, Present c p
      · right
        intro p hp
        exact h hall p (List.mem_of_mem_filter hp)
      · left
        simpa using hall
    · rintro (⟨p, hp, hnot⟩ | hrest) hall q hq
      · exact absurd (hall p hp) hnot
      · by_cases hchecked : q ∈ checkedFields
        · exact hall q hchecked
        · exact hrest q (List.mem_filter.2 ⟨hq, by simpa using hchecked⟩)
  rw [Adequate, hreturns, hfields]
  constructor
  · rintro ⟨hnil | htables, hrest⟩
    · exact .inl hnil
    · exact .inr ⟨htables, hrest⟩
  · rintro (hnil | ⟨htables, hrest⟩)
    · refine ⟨.inl hnil, .inl ⟨["server"], by simp [checkedFields], ?_⟩⟩
      rw [hnil]
      simp [Present, Value.at?]
    · exact ⟨.inr htables, hrest⟩

/-- The tree without one of its tables. -/
def without (k : Key) : Value → Value
  | .table kvs => .table (store k .nil kvs)
  | v => v

/-- Without the table `iscsi`, `checkconf` raises an error. Without `zfs`, it returns true,
and the boot request has no settings to work with. -/
theorem checkconf_inadequate :
    checkconf (without "iscsi" (shippedCfg ⟨"", "", ""⟩ [])) = none ∧
    checkconf (without "zfs" (shippedCfg ⟨"", "", ""⟩ [])) = some true ∧
    ¬ Present (without "zfs" (shippedCfg ⟨"", "", ""⟩ [])) ["zfs", "mpoint"] ∧
    Server.of? (without "zfs" (shippedCfg ⟨"", "", ""⟩ [])) = none := by
  decide +kernel

end NsBoot
