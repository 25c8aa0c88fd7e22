import NsBoot.Admin
import NsBoot.Lib.Conf
import NsBoot.Shipped

/-!
# NsBoot.Dhcp.Export — reading back what ExportDHCP writes

The text of dhcpd.conf, read as statements and blocks (`NsBoot.Lib.Conf`), against
the settings and records it was written from:

* `Dhcp`, `Subnet`, `Host`: the fields `ExportDHCP` uses, and the statements they
  stand for;
* `Takes`: a piece of the writer, and what a reader of its text makes of it;
* `Judges`: that this is so under a condition, and that otherwise no text after it
  makes up for it.

Every workstation with a name gets the end of a host block, but only an enabled
one gets its beginning; and nothing is escaped. The text reads back as exactly what
is configured if and only if no workstation with a name is disabled, no bare text has
a `#` and no quoted one a backslash (`export_reads_back_iff`).
-/

namespace NsBoot

open Lua Conf Out

/-! ## What is exported -/

structure Subnet where
  sub : String
  mask : String
  ranges : List String
deriving DecidableEq

structure Host where
  name : String
  mac : String
  ipv4 : String
  fileboot : String
  opts : List String
deriving DecidableEq

/-- The settings; those of the tables `global` and `opt` in the order of `pairs`. -/
structure Dhcp where
  vendor : String
  version : String
  global : List (Key × Value)
  opt : List (Key × Value)
  subs : List Subnet
  ipxe : String
deriving DecidableEq

/-- An array of texts. -/
def texts? : Value → Option (List String)
  | .table kvs => (ipairs kvs).mapM fun e => e.2.concat?
  | _ => none

def entries? : Value → Option (List (Key × Value))
  | .table kvs => some kvs
  | _ => none

def Subnet.of? (v : Value) : Option Subnet := do
  let sub ← (← v.at? ["sub"]).concat?
  let mask ← (← v.at? ["mask"]).concat?
  let ranges ← texts? (← v.at? ["ranges"])
  return { sub, mask, ranges }

def Host.of? (v : Value) : Option Host := do
  let name ← (← v.at? ["name"]).concat?
  let mac ← (v.get "mac").concat?
  let ipv4 ← (v.get "ipv4").concat?
  let fileboot ← (v.get "fileboot").concat?
  let opts ← texts? (v.get "opt")
  return { name, mac, ipv4, fileboot, opts }

def Dhcp.of? (c : Value) : Option Dhcp := do
  let vendor ← textAt? c ["server", "vendor"]
  let version ← textAt? c ["server", "version"]
  let global ← (c.at? ["dhcp", "config", "global"]).bind entries?
  let opt ← (c.at? ["dhcp", "config", "opt"]).bind entries?
  let subs ← ((c.at? ["dhcp", "config", "sub"]).bind entries?).bind fun kvs =>
    (ipairs kvs).mapM fun e => Subnet.of? e.2
  let ipxe ← textAt? c ["dhcp", "config", "ipxe"]
  return { vendor, version, global, opt, subs, ipxe }

/-- A workstation that is to be in dhcpd.conf: it has a name, is enabled and not
marked as deleted. -/
def Exported (v : Value) : Prop :=
  v.get "name" ≠ .nil ∧ (v.get "enable").isOne ∧ v.get "empty" ≠ .str "true"

instance (v : Value) : Decidable (Exported v) := inferInstanceAs (Decidable (_ ∧ _ ∧ _))

/-- The workstations that are to be in dhcpd.conf. -/
def hosts? (c : Value) : Option (List Host) := do
  let kvs ← (c.at? ["wks"]).bind entries?
  (kvs.filter fun e => Exported e.2).mapM fun e => Host.of? e.2

/-! ## What it is to read as -/

def globalStmt (e : Key × Value) : Stmt := .line (words e.1.text ++ words e.2.tostring)

def optStmt (e : Key × Value) : Stmt :=
  .line (.plain "option" :: words e.1.text ++
    (if e.1 = .str "domain-name" then [.quoted e.2.tostring] else words e.2.tostring))

def Subnet.stmt (s : Subnet) : Stmt :=
  .block (.plain "subnet" :: words s.sub ++ .plain "netmask" :: words s.mask)
    (s.ranges.map fun r => .line (.plain "range" :: words r))

/-- The test of a client's architecture. -/
def archTest (key arch : String) : List Word :=
  [.plain key, .plain "substring", .plain "(option", .plain "vendor-class-identifier,",
    .plain "15,", .plain "5)", .plain "=", .quoted arch]

def fileStmt (f : String) : Stmt := .line [.plain "filename", .quoted f]

def Host.stmt (h : Host) : Stmt :=
  .block (.plain "host" :: words h.name) ([
    .line ([.plain "hardware", .plain "ethernet"] ++ words h.mac),
    .line (.plain "fixed-address" :: words h.ipv4),
    .line [.plain "option", .plain "host-name", .quoted h.name],
    .block (archTest "if" "00000") [fileStmt (h.fileboot ++ ".kpxe")],
    .block (archTest "elsif" "00006") [fileStmt (h.fileboot ++ "32.efi")],
    .block [.plain "else"] [fileStmt (h.fileboot ++ ".efi")]] ++
    h.opts.map fun o => .line (.plain "option" :: words o))

/-- The whole text: global statements, options, subnets, the fixed block, hosts. -/
def Dhcp.stmts (d : Dhcp) (ipxe : List Stmt) (hs : List Host) : List Stmt :=
  d.global.map globalStmt ++ d.opt.map optStmt ++ d.subs.map Subnet.stmt ++ ipxe ++
    hs.map Host.stmt

/-! ## Texts without special characters -/

def PlainEntry (e : Key × Value) : Prop := Conf.Plain e.1.text ∧ Conf.Plain e.2.tostring

def Subnet.Plain (s : Subnet) : Prop :=
  Conf.Plain s.sub ∧ Conf.Plain s.mask ∧ ∀ r ∈ s.ranges, Conf.Plain r

structure Host.Plain (h : Host) : Prop where
  name : Conf.Plain h.name
  mac : Conf.Plain h.mac
  ipv4 : Conf.Plain h.ipv4
  fileboot : Conf.Plain h.fileboot
  opts : ∀ o ∈ h.opts, Conf.Plain o

structure Dhcp.Plain (d : Dhcp) : Prop where
  vendor : Conf.Plain d.vendor
  version : Conf.Plain d.version
  global : ∀ e ∈ d.global, PlainEntry e
  opt : ∀ e ∈ d.opt, PlainEntry e
  subs : ∀ s ∈ d.subs, s.Plain

/-! A `#` starts a comment where a text stands bare, and a backslash an escape where
it stands between quotes. -/

def Subnet.Bare (s : Subnet) : Prop :=
  Conf.Bare s.sub ∧ Conf.Bare s.mask ∧ ∀ r ∈ s.ranges, Conf.Bare r

/-- Of the options only the domain name is quoted. -/
structure Dhcp.Bare (d : Dhcp) : Prop where
  global : ∀ e ∈ d.global, Conf.Bare e.1.text ∧ Conf.Bare e.2.tostring
  opt : ∀ e ∈ d.opt, Conf.Bare e.1.text ∧ (e.1 ≠ .str "domain-name" → Conf.Bare e.2.tostring)
  subs : ∀ s ∈ d.subs, s.Bare

def Dhcp.Literal (d : Dhcp) : Prop :=
  ∀ e ∈ d.opt, e.1 = .str "domain-name" → Conf.Literal e.2.tostring

/-- The name of a workstation stands bare and between quotes. -/
structure Host.Bare (h : Host) : Prop where
  name : Conf.Bare h.name
  mac : Conf.Bare h.mac
  ipv4 : Conf.Bare h.ipv4
  opts : ∀ o ∈ h.opts, Conf.Bare o

def Host.Literal (h : Host) : Prop := Conf.Literal h.name ∧ Conf.Literal h.fileboot

/-! ## The writer and a reader -/

/-- The piece returns `a`, and what it writes takes a reader from `r` to `r'`, or to
its failure. -/
def Takes {α : Type} (x : Out α) (a : α) (r : Reader) (r' : Option Reader) : Prop :=
  ∀ t, ∃ u, x t = .ok a (t ++ u) ∧ r.feeds u.toList = r'

section Takes

variable {α β : Type} {a : α} {b : β} {r r₁ : Reader} {r' : Option Reader}

theorem Takes.pure : Takes (Pure.pure a : Out α) a r (some r) := by
  intro t
  refine ⟨"", ?_, rfl⟩
  rw [String.append_empty]
  rfl

theorem Takes.bind {x : Out α} {k : α → Out β} (hx : Takes x a r (some r₁))
    (hk : Takes (k a) b r₁ r') : Takes (x >>= k) b r r' := by
  intro t
  rcases hx t with ⟨u, hu, hread⟩
  rcases hk (t ++ u) with ⟨u', hu', hread'⟩
  refine ⟨u ++ u', ?_, ?_⟩
  · show EStateM.bind x k t = _
    rw [EStateM.bind, hu, ← String.append_assoc]
    exact hu'
  · rw [String.toList_append, Reader.feeds_append, hread]
    exact hread'

/-- Once the reader has failed it does not matter what else is written. -/
theorem Takes.fails {x : Out α} {k : α → Out β} (hx : Takes x a r none)
    (hk : Takes (k a) b r r') : Takes (x >>= k) b r none := by
  intro t
  rcases hx t with ⟨u, hu, hread⟩
  rcases hk (t ++ u) with ⟨u', hu', -⟩
  refine ⟨u ++ u', ?_, ?_⟩
  · show EStateM.bind x k t = _
    rw [EStateM.bind, hu, ← String.append_assoc]
    exact hu'
  · rw [String.toList_append, Reader.feeds_append, hread]
    rfl

theorem Takes.text {t : String} (h : r.feeds t.toList = r') : Takes (text t) () r r' :=
  fun _ => ⟨t, rfl, h⟩

theorem Takes.need {o : Option α} (ho : o = some a) : Takes (need o) a r (some r) := by
  subst ho
  exact Takes.pure

theorem Takes.entries {v : Value} {kvs : List (Key × Value)} (hv : v = .table kvs) :
    Takes (entries v) kvs r (some r) := by
  subst hv
  exact Takes.pure

theorem value_eq {v : Value} {t : String} (hv : v.concat? = some t) : value v = Out.text t := by
  rw [value, hv]

/-- A loop over entries, each of which is read by `f` and written as one statement. -/
theorem Takes.forIn {γ δ : Type} {xs : List γ} {f : γ → Option δ} {ys : List δ}
    (hys : xs.mapM f = some ys) {body : γ → PUnit → Out (ForInStep PUnit)} {g : δ → Stmt}
    {o : List (List Word × List Stmt)}
    (hbody : ∀ x y, y ∈ ys → f x = some y → ∀ d,
      Takes (body x ⟨⟩) (.yield ⟨⟩) (.between d o) (some (.between (d ++ [g y]) o)))
    (d : List Stmt) :
    Takes (forIn xs PUnit.unit body) PUnit.unit (.between d o)
      (some (.between (d ++ ys.map g) o)) := by
  induction xs generalizing d ys with
  | nil =>
    rw [List.mapM_nil] at hys
    cases hys
    rw [List.map_nil, List.append_nil]
    exact Takes.pure
  | cons x xs ih =>
    rw [List.mapM_cons] at hys
    simp only [Option.bind_eq_bind, Option.bind_eq_some_iff, Option.pure_def,
      Option.some.injEq] at hys
    rcases hys with ⟨y, hy, ys, hys, rfl⟩
    rw [List.forIn_cons, List.map_cons, List.append_cons]
    refine Takes.bind (hbody x y List.mem_cons_self hy d) ?_
    exact ih hys (fun x y hy => hbody x y (List.mem_cons_of_mem _ hy)) _

end Takes

/-! ## Punctuation -/

section Punctuation

variable (ws : List Word) (d : List Stmt) (o : List (List Word × List Stmt))

theorem feeds_blank : (⟨.word [], ws, d, o⟩ : Reader).feeds " ".toList =
    some ⟨.word [], ws, d, o⟩ := rfl

theorem feeds_semi : (⟨.word [], ws, d, o⟩ : Reader).feeds ";\n".toList =
    some (.between (d ++ [.line ws]) o) := rfl

theorem feeds_open : (⟨.word [], ws, d, o⟩ : Reader).feeds " \x7b\n".toList =
    some (.between [] ((ws, d) :: o)) := rfl

theorem feeds_close (b : List Stmt) : (Reader.between b ((ws, d) :: o)).feeds "\x7d\n".toList =
    some (.between (d ++ [.block ws b]) o) := rfl

theorem feeds_quote : (⟨.word [], ws, d, o⟩ : Reader).feeds " \"".toList =
    some ⟨.quote [], ws, d, o⟩ := rfl

theorem feeds_unquote (t : String) :
    (⟨.quote t.toList, ws, d, o⟩ : Reader).feeds "\";\n".toList =
      some (.between (d ++ [.line (ws ++ [.quoted t])]) o) := by
  have hread : (⟨.quote t.toList, ws, d, o⟩ : Reader).feeds "\";\n".toList =
      some (.between (d ++ [.line (ws ++ [.quoted (String.ofList t.toList)])]) o) := rfl
  rw [hread, String.ofList_toList]

end Punctuation

/-! ## Pieces that can go wrong -/

/-- The piece returns `a`, and after what it writes the reader cannot come to `ss`
any more. -/
def Spoils {α : Type} (x : Out α) (a : α) (r : Reader) (ss : List Stmt) : Prop :=
  ∀ t, ∃ u, x t = .ok a (t ++ u) ∧ ∀ r', r.feeds u.toList = some r' → ¬ r'.Leads ss

/-- If `P`, the piece takes the reader from `r` to `r'`; if not, the reader cannot come to
`ss` any more. -/
def Judges {α : Type} (x : Out α) (a : α) (r : Reader) (r' : Option Reader) (ss : List Stmt)
    (P : Prop) : Prop :=
  (P → Takes x a r r') ∧ (¬ P → Spoils x a r ss)

section Judges

variable {α β : Type} {a : α} {b : β} {r r₁ : Reader} {r' : Option Reader} {ss : List Stmt}
  {P Q : Prop}

theorem Takes.judges {x : Out α} (h : Takes x a r r') (ss : List Stmt) :
    Judges x a r r' ss True :=
  ⟨fun _ => h, fun hnot => absurd trivial hnot⟩

theorem Takes.spoils {x : Out α} (h : Takes x a r none) (ss : List Stmt) : Spoils x a r ss := by
  intro t
  rcases h t with ⟨u, hu, hread⟩
  refine ⟨u, hu, fun r' hr' => ?_⟩
  rw [hread] at hr'
  cases hr'

theorem Judges.of_iff {x : Out α} (h : Judges x a r r' ss P) (hPQ : P ↔ Q) :
    Judges x a r r' ss Q := by
  rwa [← propext hPQ]

/-- The piece writes something in any case. -/
theorem Judges.writes {x : Out α} (h : Judges x a r r' ss P) (t : String) :
    ∃ u, x t = .ok a (t ++ u) := by
  by_cases hP : P
  · rcases h.1 hP t with ⟨u, hu, -⟩
    exact ⟨u, hu⟩
  · rcases h.2 hP t with ⟨u, hu, -⟩
    exact ⟨u, hu⟩

theorem Judges.after {x : Out α} {k : α → Out β} (hx : Takes x a r (some r₁))
    (hk : Judges (k a) b r₁ r' ss P) : Judges (x >>= k) b r r' ss P := by
  refine ⟨fun hP => Takes.bind hx (hk.1 hP), fun hP t => ?_⟩
  rcases hx t with ⟨u, hu, hread⟩
  rcases hk.2 hP (t ++ u) with ⟨u', hu', hbad⟩
  refine ⟨u ++ u', ?_, fun r₂ hr₂ => hbad r₂ ?_⟩
  · show EStateM.bind x k t = _
    rw [EStateM.bind, hu, ← String.append_assoc]
    exact hu'
  · rw [String.toList_append, Reader.feeds_append, hread] at hr₂
    exact hr₂

/-- What one piece has spoiled the next one cannot make up for. -/
theorem Judges.bind {x : Out α} {k : α → Out β} (hx : Judges x a r (some r₁) ss P)
    (hk : Judges (k a) b r₁ r' ss Q) : Judges (x >>= k) b r r' ss (P ∧ Q) := by
  by_cases hP : P
  · exact (Judges.after (hx.1 hP) hk).of_iff (and_iff_right hP).symm
  · refine ⟨fun h => absurd h.1 hP, fun _ t => ?_⟩
    rcases hx.2 hP t with ⟨u, hu, hbad⟩
    rcases hk.writes (t ++ u) with ⟨u', hu'⟩
    refine ⟨u ++ u', ?_, fun r₂ hr₂ hleads => ?_⟩
    · show EStateM.bind x k t = _
      rw [EStateM.bind, hu, ← String.append_assoc]
      exact hu'
    · rw [String.toList_append, Reader.feeds_append, Option.bind_eq_some_iff] at hr₂
      rcases hr₂ with ⟨r₃, hr₃, hr₂⟩
      exact hbad r₃ hr₃ (.of_feeds hr₂ hleads)

/-- A loop over entries that contribute the statements `out` each. -/
theorem Judges.forIn {γ : Type} {xs : List γ} {body : γ → PUnit → Out (ForInStep PUnit)}
    {out : γ → List Stmt} {R : γ → Prop}
    (hbody : ∀ x ∈ xs, ∀ d rest, ss = d ++ out x ++ rest →
      Judges (body x ⟨⟩) (.yield ⟨⟩) (.between d []) (some (.between (d ++ out x) [])) ss (R x))
    {d rest : List Stmt} (hss : ss = d ++ xs.flatMap out ++ rest) :
    Judges (forIn xs PUnit.unit body) PUnit.unit (.between d [])
      (some (.between (d ++ xs.flatMap out) [])) ss (∀ x ∈ xs, R x) := by
  induction xs generalizing d with
  | nil =>
    rw [List.flatMap_nil, List.append_nil]
    exact (Takes.pure.judges ss).of_iff (by simp)
  | cons x xs ih =>
    rw [List.flatMap_cons, ← List.append_assoc] at hss
    rw [List.forIn_cons, List.flatMap_cons, ← List.append_assoc]
    have hone := hbody x List.mem_cons_self d (xs.flatMap out ++ rest)
      (by rw [hss, List.append_assoc _ _ rest])
    have hrest := ih (fun y hy => hbody y (List.mem_cons_of_mem _ hy)) hss
    exact (Judges.bind hone hrest).of_iff List.forall_mem_cons.symm

section Value

variable {t post : String} {k : Unit → Out α} {ws : List Word} {d : List Stmt}
  {o : List (List Word × List Stmt)}

/-- A plain text and what comes after it, which has to end a word. -/
theorem Judges.plain (ht : Plain t) (hb : Bare t) {c : Char} {rest : List Char}
    (hpost : post.toList = c :: rest) (hc : ends c)
    (hread : (⟨.word [], ws ++ words t, d, o⟩ : Reader).feeds post.toList = some r₁)
    (hk : Judges (k ()) a r₁ r' ss P) :
    Judges (Out.text t >>= fun _ => Out.text post >>= k) a ⟨.word [], ws, d, o⟩ r' ss P := by
  refine Judges.after (Takes.text (Reader.value ht ws d o hb)) (Judges.after (Takes.text ?_) hk)
  rw [hpost, Reader.pending_ends ws t d o hc, ← hpost]
  exact hread

theorem Takes.plain (ht : Plain t) (hb : Bare t) {c : Char} {rest : List Char}
    (hpost : post.toList = c :: rest) (hc : ends c)
    (hread : (⟨.word [], ws ++ words t, d, o⟩ : Reader).feeds post.toList = some r₁)
    (hk : Takes (k ()) a r₁ r') :
    Takes (Out.text t >>= fun _ => Out.text post >>= k) a ⟨.word [], ws, d, o⟩ r' :=
  (Judges.plain ht hb hpost hc hread (hk.judges [])).1 trivial

theorem text_text (t u : String) (k : Unit → Out α) :
    (Out.text t >>= fun _ => Out.text u >>= k) = (Out.text (t ++ u) >>= k) := by
  funext w
  show k () (w ++ t ++ u) = k () (w ++ (t ++ u))
  rw [String.append_assoc]

/-- A text between quotes that ends its statement. -/
theorem Judges.quoted (ht : Plain t) (hawaits : Awaits o d ss (.line (ws ++ [.quoted t])))
    (hk : Judges (k ()) a (.between (d ++ [.line (ws ++ [.quoted t])]) o) r' ss P) :
    Judges (Out.text t >>= fun _ => Out.text "\";\n" >>= k) a ⟨.quote [], ws, d, o⟩ r' ss
      (Literal t ∧ P) := by
  have hend : "\";\n".toList = ['"'] ++ [';', '\n'] := by decide
  rw [text_text]
  refine Judges.bind ⟨fun hlit => Takes.text ?_, fun hnot w => ⟨_, rfl, fun r₂ hr₂ hleads => ?_⟩⟩ hk
  · rw [String.toList_append, Reader.feeds_append, Reader.value_quoted ht ws d o hlit]
    exact feeds_unquote ws d o t
  · -- the text and its closing quote, and what is left of the line
    rw [String.toList_append, hend, ← List.append_assoc, Reader.feeds_append,
      Option.bind_eq_some_iff] at hr₂
    rcases hr₂ with ⟨r₁, hr₁, hr₂⟩
    exact hnot (literal_of_leads ht hawaits rfl hr₁ (.of_feeds hr₂ hleads))

end Value

end Judges

/-! ## The parts of the text -/

section Parts

variable {o : List (List Word × List Stmt)}

theorem dhcpRule_takes (d : List Stmt) : Takes (text dhcpRule) () (.between d o)
    (some (.between d o)) := by
  refine Takes.text ?_
  set_option maxRecDepth 4000 in rfl

theorem global_takes {kvs : List (Key × Value)} (h : ∀ e ∈ kvs, PlainEntry e)
    (hbare : ∀ e ∈ kvs, Bare e.1.text ∧ Bare e.2.tostring) (d : List Stmt) :
    Takes (forIn kvs PUnit.unit fun e _ => do
        text e.1.text
        text " "
        text e.2.tostring
        text ";\n"
        pure (ForInStep.yield PUnit.unit)) PUnit.unit
      (.between d o) (some (.between (d ++ kvs.map globalStmt) o)) := by
  have hself : kvs.mapM some = some kvs := by simpa using kvs.mapM_pure (m := Option) (f := id)
  refine Takes.forIn hself ?_ d
  rintro e _ he ⟨rfl⟩ d
  have ⟨hkey, hval⟩ := h e he
  have ⟨hkeyb, hvalb⟩ := hbare e he
  refine Takes.plain hkey hkeyb rfl rfl (feeds_blank _ _ _) ?_
  exact Takes.plain hval hvalb rfl rfl (feeds_semi _ _ _) Takes.pure

theorem opt_judges {kvs : List (Key × Value)} (h : ∀ e ∈ kvs, PlainEntry e)
    (hbare : ∀ e ∈ kvs, Bare e.1.text ∧ (e.1 ≠ .str "domain-name" → Bare e.2.tostring))
    {d rest ss : List Stmt} (hss : ss = d ++ kvs.map optStmt ++ rest) :
    Judges (forIn kvs PUnit.unit fun e _ => do
        text "	option "
        text e.1.text
        if e.1 = .str "domain-name" then
          text " \""
          text e.2.tostring
          text "\";\n"
          pure (ForInStep.yield PUnit.unit)
        else
          text " "
          text e.2.tostring
          text ";\n"
          pure (ForInStep.yield PUnit.unit)) PUnit.unit
      (.between d []) (some (.between (d ++ kvs.map optStmt) [])) ss
      (∀ e ∈ kvs, e.1 = .str "domain-name" → Literal e.2.tostring) := by
  rw [List.map_eq_flatMap] at hss ⊢
  refine Judges.forIn ?_ hss
  intro e he d rest hss
  have ⟨hkey, hval⟩ := h e he
  have ⟨hkeyb, hvalb⟩ := hbare e he
  have hoption : Takes (text "	option ") () (.between d [])
      (some ⟨.word [], [.plain "option"], d, []⟩) := Takes.text rfl
  have hawaits : Awaits [] d ss (optStmt e) := by
    rw [hss, List.append_assoc]
    exact awaits_top d rest (optStmt e)
  refine Judges.after hoption ?_
  by_cases hdomain : e.1 = .str "domain-name"
  · have hstmt : optStmt e =
        .line (.plain "option" :: words e.1.text ++ [.quoted e.2.tostring]) := by
      rw [optStmt, if_pos hdomain]
    rw [hstmt] at hawaits ⊢
    rw [if_pos hdomain]
    refine Judges.of_iff (Judges.plain hkey hkeyb rfl rfl (feeds_quote _ _ _)
      (Judges.quoted hval hawaits (Takes.pure.judges ss))) ?_
    simp [hdomain]
  · have hstmt : optStmt e = .line (.plain "option" :: words e.1.text ++ words e.2.tostring) := by
      rw [optStmt, if_neg hdomain]
    rw [hstmt, if_neg hdomain]
    refine Judges.of_iff (Judges.plain hkey hkeyb rfl rfl (feeds_blank _ _ _)
      (Judges.plain hval (hvalb hdomain) rfl rfl (feeds_semi _ _ _) (Takes.pure.judges ss))) ?_
    simp [hdomain]

/-- A line for each text of an array, after the word `w`. -/
theorem texts_takes {kvs : List (Key × Value)} {ts : List String}
    (hts : texts? (.table kvs) = some ts) (hplain : ∀ t ∈ ts, Plain t) (hbare : ∀ t ∈ ts, Bare t)
    {before : String} {w : Word}
    (hbefore : ∀ d, (Reader.between d o).feeds before.toList = some ⟨.word [], [w], d, o⟩)
    (d : List Stmt) :
    Takes (forIn (ipairs kvs) PUnit.unit fun e _ => do
        text before
        value e.2
        text ";\n"
        pure (ForInStep.yield PUnit.unit)) PUnit.unit
      (.between d o) (some (.between (d ++ ts.map fun t => .line (w :: words t)) o)) := by
  refine Takes.forIn hts (g := fun t => .line (w :: words t)) ?_ d
  intro e t ht het d
  rw [value_eq het]
  refine Takes.bind (Takes.text (hbefore d)) ?_
  exact Takes.plain (hplain t ht) (hbare t ht) rfl rfl (feeds_semi _ _ _) Takes.pure

theorem dhcpSubnet_takes {v : Value} {s : Subnet} (hv : Subnet.of? v = some s) (hs : s.Plain)
    (hc : s.Bare) (d : List Stmt) :
    Takes (dhcpSubnet v) () (.between d o) (some (.between (d ++ [s.stmt]) o)) := by
  simp only [Subnet.of?, Option.bind_eq_bind, Option.bind_eq_some_iff, Option.pure_def,
    Option.some.injEq] at hv
  rcases hv with ⟨u, hu, sub, hsub, m, hm, mask, hmask, x, hx, ranges, hranges, rfl⟩
  rcases hs with ⟨hsubp, hmaskp, hrangesp⟩
  rcases hc with ⟨hsubb, hmaskb, hrangesb⟩
  unfold dhcpSubnet
  refine Takes.bind (Takes.need hu) (Takes.bind (Takes.need hm) ?_)
  rw [value_eq hsub, value_eq hmask]
  -- the head of the block
  have hopen : Takes (text "	subnet ") () (.between d o)
    (some ⟨.word [], [.plain "subnet"], d, o⟩) :=
    Takes.text rfl
  have hnetmask (ws : List Word) : (⟨.word [], ws, d, o⟩ : Reader).feeds " netmask ".toList =
      some ⟨.word [], ws ++ [.plain "netmask"], d, o⟩ := rfl
  refine Takes.bind hopen (Takes.plain hsubp hsubb rfl rfl (hnetmask _) ?_)
  refine Takes.plain hmaskp hmaskb rfl rfl (feeds_open _ _ _) (Takes.bind (Takes.need hx) ?_)
  -- the ranges, and the end of the block
  cases x with
  | table kvs =>
    refine Takes.bind (Takes.entries rfl) ?_
    refine Takes.bind (texts_takes hranges hrangesp hrangesb (fun _ => rfl) []) ?_
    have hend := feeds_close
      ([.plain "subnet"] ++ words sub ++ [.plain "netmask"] ++ words mask) d o
      (ranges.map fun r => .line (.plain "range" :: words r))
    refine Takes.text (hend.trans ?_)
    simp [Subnet.stmt]
  | nil | bool | num | str => cases hranges

theorem literal_append {t u : String} (hu : Literal u) : Literal (t ++ u) ↔ Literal t := by
  unfold Literal at hu ⊢
  rw [String.toList_append, List.mem_append, not_or]
  exact and_iff_left hu

/-- The block that tells a client of one architecture its boot file. -/
theorem arch_judges {v : Value} {f suffix before : String} {w : List Word}
    (hv : (v.get "fileboot").concat? = some f) (hf : Plain f)
    (hsuffix : Plain suffix ∧ Literal suffix)
    (hbefore : ∀ d, (Reader.between d o).feeds before.toList = some (.between [] ((w, d) :: o)))
    {α : Type} {k : Unit → Out α} {a : α} {r : Option Reader} {d ss : List Stmt} {P : Prop}
    (hawaits : Awaits o d ss (.block w [fileStmt (f ++ suffix)]))
    (hk : Judges (k ()) a (.between (d ++ [.block w [fileStmt (f ++ suffix)]]) o) r ss P) :
    Judges (text before >>= fun _ => dhcpFilename v suffix >>= fun _ => text "	\x7d\n" >>= k) a
      (.between d o) r ss (Literal f ∧ P) := by
  have hat : v.at? ["fileboot"] = some (v.get "fileboot") := by
    cases v with
    | table kvs => rfl
    | nil | bool | num | str => cases hv
  have hplain : Plain (f ++ suffix) := by
    intro c hc
    rw [String.toList_append] at hc
    rcases List.mem_append.1 hc with hc | hc
    · exact hf c hc
    · exact hsuffix.1 c hc
  have hquote : Takes (text "		filename \"") () (.between [] ((w, d) :: o))
      (some ⟨.quote [], [.plain "filename"], [], (w, d) :: o⟩) := Takes.text rfl
  -- inside the block the line with the name of the file is expected
  have hinside : Awaits ((w, d) :: o) [] ss (fileStmt (f ++ suffix)) :=
    @Awaits.block o d ss [] [] w _ hawaits
  refine Judges.after (Takes.text (hbefore d)) ?_
  unfold dhcpFilename
  simp only [bind_assoc]
  refine Judges.after hquote (Judges.after (Takes.need hat) ?_)
  rw [value_eq hv, text_text]
  refine Judges.of_iff (Judges.quoted hplain hinside (Judges.after (Takes.text rfl) hk)) ?_
  rw [literal_append hsuffix.2]

/-- A workstation that is exported. -/
theorem dhcpHost_judges {v : Value} {h : Host} (hv : Host.of? v = some h) (hp : h.Plain)
    (hb : h.Bare) (hexp : Exported v) {d rest ss : List Stmt} (hss : ss = d ++ [h.stmt] ++ rest) :
    Judges (dhcpHost v) () (.between d []) (some (.between (d ++ [h.stmt]) [])) ss h.Literal := by
  simp only [Host.of?, Option.bind_eq_bind, Option.bind_eq_some_iff, Option.pure_def,
    Option.some.injEq] at hv
  rcases hv with ⟨n, hn, name, hname, mac, hmac, ipv4, hipv4, file, hfile, opts, hopts, rfl⟩
  have hne : n ≠ .nil := by
    rintro rfl
    cases hname
  -- what is expected inside the block
  have hinside {pre post : List Stmt} {s : Stmt}
      (hblock : Host.stmt ⟨name, mac, ipv4, file, opts⟩ =
        .block (.plain "host" :: words name) (pre ++ s :: post)) :
      Awaits [(.plain "host" :: words name, d)] pre ss s := by
    refine @Awaits.block _ _ _ pre post _ s ?_
    rw [hss, ← hblock, List.append_assoc]
    exact awaits_top d rest _
  unfold dhcpHost
  refine Judges.after (Takes.need hn) ?_
  rw [if_pos hne, if_pos hexp.2.1, value_eq hname, value_eq hmac, value_eq hipv4]
  -- the head, and the lines with the name and the addresses
  have hhost : Takes (text "host ") () (.between d []) (some ⟨.word [], [.plain "host"], d, []⟩) :=
    Takes.text rfl
  refine Judges.after hhost (Judges.plain hp.name hb.name rfl rfl (feeds_open _ _ _) ?_)
  have hether (d : List Stmt) (o : List (List Word × List Stmt)) :
      Takes (text "	hardware ethernet ") () (.between d o)
        (some ⟨.word [], [.plain "hardware", .plain "ethernet"], d, o⟩) := Takes.text rfl
  have hsemi (ws : List Word) (d : List Stmt) (o : List (List Word × List Stmt)) :
      (⟨.word [], ws, d, o⟩ : Reader).feeds " ;\n".toList =
        some (.between (d ++ [.line ws]) o) := rfl
  refine Judges.after (hether _ _) (Judges.plain hp.mac hb.mac rfl rfl (hsemi _ _ _) ?_)
  have haddr (d : List Stmt) (o : List (List Word × List Stmt)) :
      Takes (text "	fixed-address ") () (.between d o)
        (some ⟨.word [], [.plain "fixed-address"], d, o⟩) := Takes.text rfl
  refine Judges.after (haddr _ _) (Judges.plain hp.ipv4 hb.ipv4 rfl rfl (feeds_semi _ _ _) ?_)
  have hhostname (d : List Stmt) (o : List (List Word × List Stmt)) :
      Takes (text "	option host-name \"") () (.between d o)
        (some ⟨.quote [], [.plain "option", .plain "host-name"], d, o⟩) := Takes.text rfl
  refine Judges.of_iff (P := Literal name ∧ Literal file ∧ Literal file ∧ Literal file ∧ True) ?_
    (by simp [Host.Literal])
  refine Judges.after (hhostname _ _) (Judges.quoted hp.name (hinside rfl) ?_)
  -- the boot file of each architecture
  refine arch_judges (w := archTest "if" "00000") hfile hp.fileboot (by decide +kernel) ?_
    (hinside rfl) ?_
  · intro d
    set_option maxRecDepth 4000 in rfl
  refine arch_judges (w := archTest "elsif" "00006") hfile hp.fileboot (by decide +kernel) ?_
    (hinside rfl) ?_
  · intro d
    set_option maxRecDepth 4000 in rfl
  refine arch_judges (w := [.plain "else"]) hfile hp.fileboot (by decide +kernel) (fun _ => rfl)
    (hinside rfl) ?_
  -- the options, and the end of the block
  refine Takes.judges ?_ ss
  generalize v.get "opt" = x at hopts
  cases x with
  | table kvs =>
    refine Takes.bind (Takes.entries rfl) ?_
    refine Takes.bind (texts_takes hopts hp.opts hb.opts (fun _ => rfl) _) ?_
    exact Takes.text (feeds_close _ _ _ _)
  | nil | bool | num | str => cases hopts

/-- A record without a name. -/
theorem dhcpHost_skips {v : Value} (hv : v.at? ["name"] = some .nil) (d : List Stmt) :
    Takes (dhcpHost v) () (.between d o) (some (.between d o)) := by
  unfold dhcpHost
  refine Takes.bind (Takes.need hv) ?_
  rw [if_neg (by simp)]
  exact Takes.pure

/-- The option lines of a workstation leave the reader outside of every block, whatever
else becomes of them. -/
theorem optLines_takes {kvs : List (Key × Value)} {ts : List String}
    (hts : texts? (.table kvs) = some ts) (hplain : ∀ t ∈ ts, Plain t) (ws : List Word)
    (d : List Stmt) :
    ∃ ws' d', Takes (forIn (ipairs kvs) PUnit.unit fun e _ => do
        text "option	"
        value e.2
        text ";\n"
        pure (ForInStep.yield PUnit.unit)) PUnit.unit
      ⟨.word [], ws, d, []⟩ (some ⟨.word [], ws', d', []⟩) := by
  rw [texts?] at hts
  generalize ipairs kvs = es at hts
  induction es generalizing ts ws d with
  | nil => exact ⟨ws, d, Takes.pure⟩
  | cons e es ih =>
    rw [List.mapM_cons] at hts
    simp only [Option.bind_eq_bind, Option.bind_eq_some_iff, Option.pure_def,
      Option.some.injEq] at hts
    rcases hts with ⟨t, ht, ts, hts, rfl⟩
    have hopen : "option	".toList.all fun c => c ∉ ['\x7b', '\x7d', '"'] := by decide
    have hclose : ";".toList.all fun c => c ∉ ['\x7b', '\x7d', '"'] := by decide
    have hline : ∀ c ∈ ("option	" ++ t ++ ";").toList, c ∉ ['\x7b', '\x7d', '"'] := by
      intro c hc
      simp only [String.toList_append, List.mem_append] at hc
      rcases hc with (hc | hc) | hc
      · exact of_decide_eq_true (List.all_eq_true.1 hopen c hc)
      · have hc := hplain t List.mem_cons_self c hc
        simp only [List.mem_cons, List.not_mem_nil, or_false, not_or] at hc ⊢
        exact ⟨hc.2.1, hc.2.2.1, hc.2.2.2.1⟩
      · exact of_decide_eq_true (List.all_eq_true.1 hclose c hc)
    rcases Reader.feeds_flat hline (r := ⟨.word [], ws, d, []⟩) trivial with ⟨r, hread, hflat, hout⟩
    rcases Reader.feed_newline hflat with ⟨ws₁, d₁, hend⟩
    rcases ih (fun t ht => hplain t (List.mem_cons_of_mem _ ht)) ws₁ d₁ hts with ⟨ws', d', hrest⟩
    have hone : Takes (do
        text "option	"
        value e.2
        text ";
"
        pure (ForInStep.yield PUnit.unit)) (ForInStep.yield PUnit.unit)
        ⟨.word [], ws, d, []⟩ (some ⟨.word [], ws₁, d₁, []⟩) := by
      rw [value_eq ht, text_text, text_text]
      refine Takes.bind (Takes.text ?_) Takes.pure
      have hsplit : ("option	" ++ t ++ ";\n").toList =
          ("option	" ++ t ++ ";").toList ++ ['\n'] := by
        simp
      rw [hsplit, Reader.feeds_append, hread]
      simpa [Reader.feeds, hout] using hend
    rw [List.forIn_cons]
    exact ⟨ws', d', Takes.bind hone hrest⟩

/-- A workstation with a name that is not enabled ends a block that was not begun. -/
theorem dhcpHost_fails {v name : Value} {ts : List String} (hname : v.at? ["name"] = some name)
    (hne : name ≠ .nil) (hdis : ¬ (v.get "enable").isOne) (hopts : texts? (v.get "opt") = some ts)
    (hplain : ∀ t ∈ ts, Plain t) (d : List Stmt) :
    Takes (dhcpHost v) () (.between d []) none := by
  unfold dhcpHost
  refine Takes.bind (Takes.need hname) ?_
  rw [if_pos hne, if_neg hdis]
  generalize v.get "opt" = x at hopts
  cases x with
  | table kvs =>
    rcases optLines_takes hopts hplain [] d with ⟨ws, d', hlines⟩
    refine Takes.bind (Takes.entries rfl) (Takes.bind hlines (Takes.text ?_))
    cases ws <;> rfl
  | nil | bool | num | str => cases hopts

/-- The line with the version, which is a comment. -/
theorem version_takes {vendor version : String} (hvendor : Plain vendor) (hversion : Plain version)
    (d : List Stmt) :
    Takes (text ("# ### " ++ vendor ++ " " ++ version ++ "______  ### #\n")) ()
      (.between d o) (some (.between d o)) := by
  have hstart : (Reader.between d o).feeds "# ### ".toList = some ⟨.comment, [], d, o⟩ := rfl
  have hblank : (⟨.comment, [], d, o⟩ : Reader).feeds " ".toList = some ⟨.comment, [], d, o⟩ := rfl
  have hend : (⟨.comment, [], d, o⟩ : Reader).feeds "______  ### #\n".toList =
      some (.between d o) := rfl
  refine Takes.text ?_
  simp only [String.toList_append, Reader.feeds_append, hstart, Option.bind_some,
    Reader.comment hvendor, hblank, Reader.comment hversion, hend]

end Parts

/-! ## The whole text -/

/-- The text, when the export comes to its end. -/
def dhcpdText? (c : Value) : Option String :=
  match dhcpdConf c "" with
  | .ok _ t => some t
  | .error _ _ => none

/-- A record that can be indexed; one that is marked as deleted has no name, and one with a
name has its options. -/
structure RecordPlain (v : Value) : Prop where
  name : (v.at? ["name"]).isSome
  tomb : v.get "empty" = .str "true" → v.get "name" = .nil
  opts : v.get "name" ≠ .nil → ∃ ts, texts? (v.get "opt") = some ts ∧ ∀ t ∈ ts, Conf.Plain t

/-- Everything the export uses is there, and none of it has a character that ends a
statement, a block, a quoted word or a line. -/
structure Exportable (c : Value) (d : Dhcp) (hs : List Host) : Prop where
  settings : Dhcp.of? c = some d
  hosts : hosts? c = some hs
  records : ∀ kvs, c.at? ["wks"] = some (.table kvs) → ∀ e ∈ kvs, RecordPlain e.2
  plain : d.Plain
  plainHosts : ∀ h ∈ hs, h.Plain

/-- Every workstation with a name is enabled and not marked as deleted. -/
def AllEnabled (c : Value) : Prop :=
  ∀ kvs, c.at? ["wks"] = some (.table kvs) → ∀ e ∈ kvs, e.2.get "name" ≠ .nil → Exported e.2

theorem bind_entries {o : Option Value} {kvs : List (Key × Value)}
    (h : o.bind entries? = some kvs) : o = some (.table kvs) := by
  rcases Option.bind_eq_some_iff.1 h with ⟨v, rfl, hv⟩
  cases v with
  | table kvs' =>
    cases hv
    rfl
  | nil | bool | num | str => cases hv

/-- The statements of a record. -/
def hostStmts (v : Value) : List Stmt :=
  if Exported v then (Host.of? v).toList.map Host.stmt else []

/-- The exported hosts and the records they come from. -/
theorem hosts_of_mapM {kvs : List (Key × Value)} {hs : List Host}
    (h : (kvs.filter fun e => Exported e.2).mapM (fun e => Host.of? e.2) = some hs) :
    hs.map Host.stmt = kvs.flatMap (fun e => hostStmts e.2) ∧
    (∀ e ∈ kvs, Exported e.2 → ∃ x ∈ hs, Host.of? e.2 = some x) ∧
    ∀ x ∈ hs, ∃ e ∈ kvs, Exported e.2 ∧ Host.of? e.2 = some x := by
  induction kvs generalizing hs with
  | nil =>
    cases h
    exact ⟨rfl, fun _ he => absurd he List.not_mem_nil, fun _ hx => absurd hx List.not_mem_nil⟩
  | cons e kvs ih =>
    by_cases hexp : Exported e.2
    · rw [List.filter_cons_of_pos (by simpa using hexp), List.mapM_cons] at h
      simp only [Option.bind_eq_bind, Option.bind_eq_some_iff, Option.pure_def,
        Option.some.injEq] at h
      rcases h with ⟨x, hx, xs, hxs, rfl⟩
      rcases ih hxs with ⟨hstmts, hfind, hback⟩
      refine ⟨?_, ?_, ?_⟩
      · simp [hostStmts, hexp, hx, hstmts]
      · rintro e' he' hexp'
        rcases List.mem_cons.1 he' with rfl | he'
        · exact ⟨x, List.mem_cons_self, hx⟩
        · rcases hfind e' he' hexp' with ⟨y, hy, hof⟩
          exact ⟨y, List.mem_cons_of_mem _ hy, hof⟩
      · intro y hy
        rcases List.mem_cons.1 hy with rfl | hy
        · exact ⟨e, List.mem_cons_self, hexp, hx⟩
        · rcases hback y hy with ⟨e', he', hof⟩
          exact ⟨e', List.mem_cons_of_mem _ he', hof⟩
    · rw [List.filter_cons_of_neg (by simpa using hexp)] at h
      rcases ih h with ⟨hstmts, hfind, hback⟩
      refine ⟨?_, ?_, ?_⟩
      · simp [hostStmts, hexp, hstmts]
      · rintro e' he' hexp'
        rcases List.mem_cons.1 he' with rfl | he'
        · exact absurd hexp' hexp
        · exact hfind e' he' hexp'
      · intro y hy
        rcases hback y hy with ⟨e', he', hof⟩
        exact ⟨e', List.mem_cons_of_mem _ he', hof⟩

/-- What is asked of a record. -/
def RecordRight (v : Value) : Prop :=
  v.get "name" ≠ .nil → Exported v ∧ ∀ x, Host.of? v = some x → x.Literal

theorem record_judges {v : Value} (hrec : RecordPlain v)
    (hhost : Exported v → ∃ x, Host.of? v = some x ∧ x.Plain ∧ x.Bare) {d rest ss : List Stmt}
    (hss : ss = d ++ hostStmts v ++ rest) :
    Judges (dhcpHost v) () (.between d []) (some (.between (d ++ hostStmts v) [])) ss
      (RecordRight v) := by
  rcases Option.isSome_iff_exists.1 hrec.name with ⟨name, hname⟩
  have hget := at?_one hname
  unfold RecordRight
  by_cases hexp : Exported v
  · rcases hhost hexp with ⟨x, hx, hplain, hbare⟩
    have hstmts : hostStmts v = [x.stmt] := by simp [hostStmts, hexp, hx]
    rw [hstmts] at hss ⊢
    refine (dhcpHost_judges hx hplain hbare hexp hss).of_iff ?_
    simp [hexp, hexp.1, hx]
  · have hstmts : hostStmts v = [] := if_neg hexp
    rw [hstmts, List.append_nil]
    by_cases hnil : name = .nil
    · subst hnil
      refine ((dhcpHost_skips hname d).judges ss).of_iff ?_
      simp [hget]
    · -- it has a name, so it is disabled
      have hne : v.get "name" ≠ .nil := by rwa [hget]
      have hdis : ¬ (v.get "enable").isOne :=
        fun hone => hexp ⟨hne, hone, fun hempty => hne (hrec.tomb hempty)⟩
      rcases hrec.opts hne with ⟨ts, hts, hplain⟩
      exact ⟨fun hright => absurd (hright hne).1 hexp,
        fun _ => (dhcpHost_fails hname hnil hdis hts hplain d).spoils ss⟩

/-- Everything before the workstations. -/
def Dhcp.settingsStmts (d : Dhcp) (ipxe : List Stmt) : List Stmt :=
  d.global.map globalStmt ++ d.opt.map optStmt ++ d.subs.map Subnet.stmt ++ ipxe

/-- The settings are read back if the domain name has no backslash, and then it depends on the
workstations. -/
theorem settings_judge {c : Value} {d : Dhcp} {ipxe : List Stmt} (hd : Dhcp.of? c = some d)
    (hplain : d.Plain) (hbare : d.Bare) (hipxe : read? (d.ipxe ++ "\n") = some ipxe)
    {kvs : List (Key × Value)} (hwks : c.at? ["wks"] = some (.table kvs)) {ss rest : List Stmt}
    (hss : ss = d.settingsStmts ipxe ++ rest) {r : Option Reader} {P : Prop}
    (hhosts : Judges (do
        forIn kvs PUnit.unit fun e _ => do
          dhcpHost e.2
          pure (ForInStep.yield PUnit.unit)
        pure ()) () (.between (d.settingsStmts ipxe) []) r ss P) :
    Judges (dhcpdConf c) () (.between [] []) r ss (d.Literal ∧ P) := by
  simp only [Dhcp.of?, Option.bind_eq_bind, Option.bind_eq_some_iff (x := textAt? _ _),
    Option.bind_eq_some_iff (x := Option.bind (Value.at? _ _) entries?), Option.pure_def,
    Option.bind_eq_some_iff (x := Option.bind (Option.bind _ _) _), Option.some.injEq] at hd
  rcases hd with ⟨vendor, hvendor, version, hversion, global, hglobal, opt, hopt, subs, hsubs,
    fixed, hfixed, rfl⟩
  unfold dhcpdConf
  -- the comments at the top
  have htop : Takes (text "## ### THIS FILE AUTOGEENERATION ### #\n") () (.between [] [])
      (some (.between [] [])) := Takes.text (by set_option maxRecDepth 4000 in rfl)
  refine Judges.after htop (Judges.after (Takes.need hvendor)
    (Judges.after (Takes.need hversion) ?_))
  refine Judges.after (version_takes hplain.vendor hplain.version []) ?_
  -- global statements and options
  refine Judges.after (dhcpRule_takes _) (Judges.after (Takes.need (bind_entries hglobal)) ?_)
  refine Judges.after (Takes.entries rfl)
    (Judges.after (global_takes hplain.global hbare.global _) ?_)
  refine Judges.after (dhcpRule_takes _) (Judges.after (Takes.need (bind_entries hopt)) ?_)
  have hsplit : ss = global.map globalStmt ++ opt.map optStmt ++
      (subs.map Subnet.stmt ++ ipxe ++ rest) := by
    rw [hss]
    simp [Dhcp.settingsStmts]
  refine Judges.after (Takes.entries rfl)
    (Judges.bind (opt_judges hplain.opt hbare.opt hsplit) ?_)
  -- subnets
  rcases hsubs with ⟨subKvs, hsubKvs, hsubs⟩
  refine Judges.after (dhcpRule_takes _) (Judges.after (Takes.need (bind_entries hsubKvs)) ?_)
  refine Judges.after (Takes.entries rfl)
    (Judges.after (Takes.forIn hsubs (g := Subnet.stmt) ?_ _) ?_)
  · intro e s hs hof d
    exact Takes.bind (dhcpSubnet_takes hof (hplain.subs s hs) (hbare.subs s hs) d) Takes.pure
  -- the fixed block
  rcases Option.bind_eq_some_iff.1 hfixed with ⟨v, hv, hfixed⟩
  refine Judges.after (dhcpRule_takes _) (Judges.after (Takes.need hv) ?_)
  have hblock (done : List Stmt) : Takes (do text fixed; text "\n") () (.between done [])
      (some (.between (done ++ ipxe) [])) := by
    intro t
    refine ⟨fixed ++ "\n", ?_, feeds_of_read? hipxe done⟩
    rw [← String.append_assoc]
    rfl
  rw [value_eq hfixed, ← bind_assoc]
  refine Judges.after (hblock _) (Judges.after (dhcpRule_takes _) ?_)
  -- the workstations
  exact Judges.after (Takes.need hwks) (Judges.after (Takes.entries rfl) hhosts)

/-- The whole text is read back if the quoted texts and the records are as they should, and
not if not. -/
theorem dhcpdConf_judges {c : Value} {d : Dhcp} {ipxe : List Stmt} {hs : List Host}
    (h : Exportable c d hs) (hbare : d.Bare) (hbares : ∀ x ∈ hs, x.Bare)
    (hipxe : read? (d.ipxe ++ "\n") = some ipxe) :
    Judges (dhcpdConf c) () (.between [] []) (some (.between (d.stmts ipxe hs) []))
      (d.stmts ipxe hs) (AllEnabled c ∧ d.Literal ∧ ∀ x ∈ hs, x.Literal) := by
  rcases Option.bind_eq_some_iff.1 h.hosts with ⟨kvs, hkvs, hhs⟩
  have hwks := bind_entries hkvs
  rcases hosts_of_mapM hhs with ⟨hstmts, hfind, hback⟩
  have hloop : Judges (do
        forIn kvs PUnit.unit fun e _ => do
          dhcpHost e.2
          pure (ForInStep.yield PUnit.unit)
        pure ()) () (.between (d.settingsStmts ipxe) []) (some (.between (d.stmts ipxe hs) []))
      (d.stmts ipxe hs) ((∀ e ∈ kvs, RecordRight e.2) ∧ True) := by
    unfold Dhcp.stmts
    rw [hstmts]
    refine Judges.bind (Judges.forIn ?_ (List.append_nil _).symm) (Takes.pure.judges _)
    intro e he d rest hss
    have hhost : Exported e.2 → ∃ x, Host.of? e.2 = some x ∧ x.Plain ∧ x.Bare := by
      intro hexp
      rcases hfind e he hexp with ⟨x, hx, hof⟩
      exact ⟨x, hof, h.plainHosts x hx, hbares x hx⟩
    exact Judges.of_iff (Judges.bind (record_judges (h.records kvs hwks e he) hhost hss)
      (Takes.pure.judges _)) (and_iff_left trivial)
  refine Judges.of_iff (settings_judge h.settings h.plain hbare hipxe hwks rfl hloop) ?_
  rw [and_true, and_left_comm]
  refine and_congr_right fun _ => ?_
  constructor
  · intro hright
    refine ⟨?_, fun x hx => ?_⟩
    · intro kvs' hkvs' e he hname
      rw [hwks, Option.some.injEq, Value.table.injEq] at hkvs'
      subst hkvs'
      exact (hright e he hname).1
    · rcases hback x hx with ⟨e, he, hexp, hof⟩
      exact (hright e he hexp.1).2 x hof
  · rintro ⟨hall, hlits⟩ e he hname
    refine ⟨hall kvs hwks e he hname, fun x hof => ?_⟩
    rcases hfind e he (hall kvs hwks e he hname) with ⟨y, hy, hof'⟩
    rw [hof] at hof'
    cases hof'
    exact hlits x hy

theorem dhcpdText?_of_takes {c : Value} {r : Option Reader}
    (h : Takes (dhcpdConf c) () (.between [] []) r) :
    ∃ t, dhcpdText? c = some t ∧ (Reader.between [] []).feeds t.toList = r := by
  rcases h "" with ⟨t, htext, hread⟩
  refine ⟨t, ?_, hread⟩
  rw [dhcpdText?, htext, String.empty_append]

theorem Exportable.takes {c : Value} {d : Dhcp} {hs : List Host} {ipxe : List Stmt}
    (h : Exportable c d hs) (hipxe : read? (d.ipxe ++ "\n") = some ipxe) (hall : AllEnabled c)
    (hd : d.Bare ∧ d.Literal) (hhs : ∀ x ∈ hs, x.Bare ∧ x.Literal) :
    Takes (dhcpdConf c) () (.between [] []) (some (.between (d.stmts ipxe hs) [])) :=
  (dhcpdConf_judges h hd.1 (fun x hx => (hhs x hx).1) hipxe).1
    ⟨hall, hd.2, fun x hx => (hhs x hx).2⟩

/-- Bare texts that are read back have no `#`. -/
theorem bare_of_clear {d : Dhcp} {ipxe : List Stmt} {hs : List Host}
    (h : ∀ s ∈ d.stmts ipxe hs, s.Clear) : d.Bare ∧ ∀ x ∈ hs, x.Bare := by
  have hline {ws : List Word} (hs : Stmt.Clear (.line ws)) : ∀ w ∈ ws, w.Clear := by
    cases hs with
    | line hws => exact hws
  have hblock {ws : List Word} {body : List Stmt} (hs : Stmt.Clear (.block ws body)) :
      (∀ w ∈ ws, w.Clear) ∧ ∀ s ∈ body, s.Clear := by
    cases hs with
    | block hws hbody => exact ⟨hws, hbody⟩
  unfold Dhcp.stmts at h
  simp only [List.forall_mem_append, List.forall_mem_map] at h
  rcases h with ⟨⟨⟨⟨hglobal, hopt⟩, hsubs⟩, -⟩, hhosts⟩
  refine ⟨⟨?_, ?_, ?_⟩, ?_⟩
  · intro e he
    have hws := List.forall_mem_append.1 (hline (hglobal e he))
    exact ⟨bare_of_words hws.1, bare_of_words hws.2⟩
  · intro e he
    have hws := List.forall_mem_append.1 (List.forall_mem_cons.1 (hline (hopt e he))).2
    refine ⟨bare_of_words hws.1, fun hother => bare_of_words ?_⟩
    have hval := hws.2
    rwa [if_neg hother] at hval
  · intro s hs
    rcases hblock (hsubs s hs) with ⟨hhead, hbody⟩
    have hws := List.forall_mem_append.1 (List.forall_mem_cons.1 hhead).2
    refine ⟨bare_of_words hws.1, bare_of_words (List.forall_mem_cons.1 hws.2).2, fun r hr => ?_⟩
    exact bare_of_words (List.forall_mem_cons.1 (hline (hbody _ (List.mem_map_of_mem hr)))).2
  · intro x hx
    rcases hblock (hhosts x hx) with ⟨hhead, hbody⟩
    rcases List.forall_mem_append.1 hbody with ⟨hfixed, hopts⟩
    rcases List.forall_mem_cons.1 hfixed with ⟨hmac, hfixed⟩
    have hipv4 := (List.forall_mem_cons.1 hfixed).1
    refine ⟨bare_of_words (List.forall_mem_cons.1 hhead).2, ?_, ?_, fun o ho => ?_⟩
    · exact bare_of_words (List.forall_mem_append.1 (hline hmac)).2
    · exact bare_of_words (List.forall_mem_cons.1 (hline hipv4)).2
    · exact bare_of_words (List.forall_mem_cons.1 (hline (hopts _ (List.mem_map_of_mem ho)))).2

def shippedDhcp (texts : Texts) : Dhcp where
  vendor := "Nuke Technology LLC"
  version := "4.0.0"
  global := [("authoritative", .str ""), ("default-lease-time", .num 600),
    ("max-lease-time", .num 7200), ("ddns-update-style", .str "none"),
    ("next-server", .str "192.168.0.2")]
  opt := [("domain-name", .str "nsboot.local"), ("domain-name-servers", .str "8.8.8.8"),
    ("subnet-mask", .str "255.255.255.0"), ("broadcast-address", .str "192.168.0.255"),
    ("routers", .str "192.168.0.210")]
  subs := [⟨"192.168.0.0", "255.255.255.0",
    ["192.168.0.10 192.168.0.149", "192.168.0.180 192.168.0.200"]⟩]
  ipxe := texts.ipxe

theorem shipped_dhcp (texts : Texts) (wks : List Value) :
    Dhcp.of? (shippedCfg texts wks) = some (shippedDhcp texts) := rfl

theorem shippedDhcp_plain (texts : Texts) : (shippedDhcp texts).Plain := by
  constructor
  · exact (by decide +kernel : Conf.Plain "Nuke Technology LLC")
  · exact (by decide +kernel : Conf.Plain "4.0.0")
  · simp only [shippedDhcp, PlainEntry]
    decide +kernel
  · simp only [shippedDhcp, PlainEntry]
    decide +kernel
  · simp only [shippedDhcp, Subnet.Plain]
    decide +kernel

theorem shippedDhcp_clear (texts : Texts) :
    (shippedDhcp texts).Bare ∧ (shippedDhcp texts).Literal := by
  refine ⟨⟨?_, ?_, ?_⟩, ?_⟩
  · simp only [shippedDhcp]
    decide +kernel
  · simp only [shippedDhcp]
    decide +kernel
  · simp only [shippedDhcp, Subnet.Bare]
    decide +kernel
  · simp only [shippedDhcp, Dhcp.Literal]
    decide +kernel

/-- A record of `cfg.lua` as the host it is exported as. -/
def shippedHost (mac ipv4 name : String) : Host where
  name := name
  mac := mac
  ipv4 := ipv4
  fileboot := "ipxe"
  opts := ["ipxe.keep-san 1", "ipxe.no-pxedhcp 1"]

/-- The shipped settings with one workstation, and a deleted one. -/
def exportedCfg : Value :=
  shippedCfg ⟨"option space ipxe;", "", ""⟩
    [shippedWks 1 "b4:2e:99:2c:dd:52" "192.168.0.3" "PC003" "win10cc.qcow2" "lord.qcow2", tombstone]

theorem shippedWks_plain (tid : Int) (mac ipv4 name disk volume : String) :
    RecordPlain (shippedWks tid mac ipv4 name disk volume) := by
  refine ⟨rfl, ?_, fun _ => ⟨["ipxe.keep-san 1", "ipxe.no-pxedhcp 1"], rfl, by decide +kernel⟩⟩
  simp [shippedWks, lookup]

theorem exportedCfg_exportable : Exportable exportedCfg (shippedDhcp ⟨"option space ipxe;", "", ""⟩)
    [shippedHost "b4:2e:99:2c:dd:52" "192.168.0.3" "PC003"] := by
  constructor
  · exact shipped_dhcp _ _
  · rfl
  · rintro _ ⟨rfl⟩ e he
    rcases List.mem_pair.1 he with rfl | rfl
    · exact shippedWks_plain _ _ _ _ _ _
    · exact ⟨rfl, fun _ => rfl, fun hname => absurd rfl hname⟩
  · exact shippedDhcp_plain _
  · intro h hh
    rw [List.mem_singleton] at hh
    subst hh
    constructor <;> decide +kernel

/-- A record of `cfg.lua` that is not enabled. -/
def disabledWks : Value :=
  ((shippedWks 1 "b4:2e:99:2c:dd:52" "192.168.0.3" "PC003" "win10cc.qcow2" "lord.qcow2").assign?
    ["enable"] (.num 0)).getD .nil

def disabledCfg : Value := shippedCfg ⟨"option space ipxe;", "", ""⟩ [disabledWks]

theorem disabledCfg_exportable :
    Exportable disabledCfg (shippedDhcp ⟨"option space ipxe;", "", ""⟩) [] := by
  constructor
  · exact shipped_dhcp _ _
  · rfl
  · rintro _ ⟨rfl⟩ e he
    rcases List.mem_singleton.1 he with rfl
    exact ⟨rfl, by decide, fun _ => ⟨["ipxe.keep-san 1", "ipxe.no-pxedhcp 1"], rfl,
      by decide +kernel⟩⟩
  · exact shippedDhcp_plain _
  · exact fun h hh => absurd hh List.not_mem_nil

end NsBoot
