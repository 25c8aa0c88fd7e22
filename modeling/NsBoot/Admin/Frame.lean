import NsBoot.Admin.Store
import NsBoot.Shipped

/-!
# NsBoot.Admin.Frame — a request changes the records it names

`post_frame`: whatever handlers a body triggers, the configuration loaded after
the request is the one loaded before it, except at the slots that `id` and the
posted `tid` name. The one handler that could reach further is `disableCommit`:
it calls `nbdFree`, which looks the record up again by its address, and finds
the first record with it.
-/

namespace NsBoot

open Lua Prog Relation

/-- A slot the request names. -/
inductive Names (p : Post) : Key → Prop
  | id {n : Int} (hid : p.id.bind numberOf = some n)
      (h : (p.supper.bind SupperCmd.of?).isSome ∨ p.wksCmd = some "DeleteMachine") :
      Names p (.num n)
  | tid {tid : Value} {n : Int} (hcmd : p.wksCmd = some "ApplyMy") (htid : p.tid? = some tid)
      (hn : tid.tonumber = some n) : Names p (.num n)

/-- The posted `tid` stands for a number in `1..n+1`, if it stands for one. -/
def TidIn (n : Nat) (p : Post) : Prop :=
  ∀ tid m, p.tid? = some tid → tid.tonumber = some m → 1 ≤ m ∧ m ≤ n + 1

/-- No address is in two records. -/
def DistinctIPv4 (c : Value) : Prop :=
  ∀ k l, ((wksOf c).get k).get "ipv4" ≠ .nil →
    ((wksOf c).get k).get "ipv4" = ((wksOf c).get l).get "ipv4" → k = l

/-! ## Single edits -/

theorem FlagStep.ne_nil {x : String} {v v' : Value} (h : FlagStep x v v') : v ≠ .nil := by
  cases h with
  | supper h | commit i h =>
    obtain ⟨kvs, _, rfl, -, -⟩ := Value.assign?_cons h
    simp

theorem NbdStep.ne_nil {v v' : Value} (h : NbdStep v v') : v ≠ .nil := by
  obtain ⟨i, x, -, h⟩ := h
  obtain ⟨kvs, _, rfl, -, -⟩ := Value.assign?_cons h
  simp

theorem FlagStep.get_ne {x : String} {v v' : Value} (h : FlagStep x v v') {f : Key}
    (hs : f ≠ .str "supper") (hi : f ≠ .str "img") : v'.get f = v.get f := by
  cases h with
  | supper h => exact Value.assign?_get_ne h hs
  | commit i h => exact Value.assign?_get_ne h hi

theorem NbdStep.get_ne {v v' : Value} (h : NbdStep v v') {f : Key} (hi : f ≠ .str "img") :
    v'.get f = v.get f := by
  obtain ⟨i, x, -, h⟩ := h
  exact Value.assign?_get_ne h hi

section Puts

variable {S : Value → Value → Prop} {k : Key} {c c' : Value} (h : Puts S k c c')

include h

theorem Puts.get_ne_nil (hS : ∀ v v', S v v' → v ≠ .nil) : (wksOf c).get k ≠ .nil := by
  obtain ⟨v, hv, hne, -⟩ := h
  rcases hv.cases_head with heq | ⟨v₁, hstep, -⟩
  · rwa [heq]
  · exact hS _ _ hstep

theorem Puts.get_ne {l : Key} (hl : l ≠ k) : (wksOf c').get l = (wksOf c).get l := by
  obtain ⟨v, -, -, hput⟩ := h
  exact hput.get_ne hl

/-- What every step keeps of a record, the edit keeps of every record. -/
theorem Puts.same {τ : Type} {g : Value → τ} (hS : ∀ v v', S v v' → g v' = g v) (l : Key) :
    g ((wksOf c').get l) = g ((wksOf c).get l) := by
  by_cases hl : l = k
  · subst hl
    obtain ⟨v, hv, -, hput⟩ := h
    rw [hput.get_self]
    clear hput
    induction hv with
    | refl => rfl
    | tail _ hstep ih => exact (hS _ _ hstep).trans ih
  · rw [h.get_ne hl]

/-- No record comes or goes. -/
theorem Puts.eq_nil_iff (hS : ∀ v v', S v v' → v ≠ .nil) (l : Key) :
    (wksOf c').get l = .nil ↔ (wksOf c).get l = .nil := by
  by_cases hl : l = k
  · subst hl
    have hold := h.get_ne_nil hS
    obtain ⟨v, -, hne, hput⟩ := h
    rw [hput.get_self]
    exact ⟨fun hv => absurd hv hne, fun hv => absurd hv hold⟩
  · rw [h.get_ne hl]

theorem Puts.hasKeys {n : Nat} (hn : HasKeys n c) (hS : ∀ v v', S v v' → v ≠ .nil) :
    HasKeys n c' := by
  have hk : k ∈ seqKeys n := hn.mem_of_get (h.get_ne_nil hS)
  obtain ⟨v, -, hne, hput⟩ := h
  exact hn.put_mem hput hne hk

theorem Puts.sameSettings : SameSettings c c' := by
  obtain ⟨v, -, -, hput⟩ := h
  exact hput.sameSettings

end Puts

section SuperEdits

variable {p : Post} {c c' : Value} (h : SuperEdits p c c')

include h

/-- What flags and devices are not part of, the super-mode handlers keep of every record. -/
theorem SuperEdits.same {τ : Type} {g : Value → τ}
    (hflag : ∀ x v v', FlagStep x v v' → g v' = g v) (hnbd : ∀ v v', NbdStep v v' → g v' = g v)
    (k : Key) : g ((wksOf c').get k) = g ((wksOf c).get k) := by
  induction h with
  | refl => rfl
  | tail _ hstep ih =>
    cases hstep with
    | flags _ _ _ hput => exact (hput.same (hflag _) k).trans ih
    | nbd _ _ _ _ _ hput => exact (hput.same hnbd k).trans ih

theorem SuperEdits.eq_nil_iff (k : Key) :
    (wksOf c').get k = .nil ↔ (wksOf c).get k = .nil := by
  induction h with
  | refl => exact Iff.rfl
  | tail _ hstep ih =>
    cases hstep with
    | flags _ _ _ hput => exact (hput.eq_nil_iff (fun _ _ => FlagStep.ne_nil) k).trans ih
    | nbd _ _ _ _ _ hput => exact (hput.eq_nil_iff (fun _ _ => NbdStep.ne_nil) k).trans ih

end SuperEdits

/-! ## The lookup by address -/

theorem findIPv4_mem {ip : Value} {kvs : List (Key × Value)} {k : Key}
    (h : findIPv4 ip kvs = some (some k)) : ∃ v, (k, v) ∈ kvs ∧ v.at? ["ipv4"] = some ip := by
  induction kvs with
  | nil => simp [findIPv4] at h
  | cons e kvs ih =>
    obtain ⟨i, v⟩ := e
    simp only [findIPv4, Option.bind_eq_bind, Option.bind_eq_some_iff] at h
    obtain ⟨a, ha, h⟩ := h
    split at h
    · next heq =>
      cases h
      exact ⟨v, List.mem_cons_self, by rw [ha, heq]⟩
    · obtain ⟨u, hu, hat⟩ := ih h
      exact ⟨u, List.mem_cons_of_mem _ hu, hat⟩

theorem get_ne_nil_of_at? {v x : Value} {f g : Key} (h : v.at? [f, g] = some x) :
    v.get f ≠ .nil := by
  cases v with
  | table kvs =>
    intro hnil
    rw [Value.get_table] at hnil
    simp [Value.at?, hnil] at h
  | nil | bool | num | str => simp [Value.at?] at h

theorem at?_two {v x : Value} {f g : Key} (h : v.at? [f, g] = some x) : (v.get f).get g = x := by
  cases v with
  | table kvs => exact at?_one h
  | nil | bool | num | str => simp [Value.at?] at h

/-- The record that is found has the address. -/
theorem getIDFromIPv4_get {c ip : Value} {k : Key} (hc : InMemory c)
    (h : getIDFromIPv4 c ip = some (some k)) : ((wksOf c).get k).get "ipv4" = ip := by
  obtain ⟨kvs, hkvs, hnodup⟩ := hc.wks
  simp only [getIDFromIPv4, Option.bind_eq_bind, Option.bind_eq_some_iff] at h
  obtain ⟨ok, -, h⟩ := h
  rw [hkvs] at h ⊢
  split at h
  · obtain ⟨v, hmem, hat⟩ := findIPv4_mem h
    rw [Value.get_table, lookup_of_mem hnodup hmem]
    exact at?_one hat
  · simp at h

/-! ## The request -/

/-- What holds of the configuration in memory while the handlers run. -/
structure Framed (p : Post) (n : Nat) (c₀ c : Value) : Prop where
  keys : HasKeys n c
  memory : InMemory c
  settings : ∀ f, f ≠ .str "wks" → c.get f = c₀.get f
  records : ∀ k, ¬ Names p k → (wksOf c).get k = (wksOf c₀).get k
  ipv4 : ∀ k, ((wksOf c).get k).get "ipv4" = ((wksOf c₀).get k).get "ipv4"

theorem Framed.superEdit {p : Post} {n : Nat} {c₀ c c' : Value}
    (hd : p.supper = some "disableCommit" → DistinctIPv4 c₀)
    (h : Framed p n c₀ c) (he : SuperEdit p c c') : Framed p n c₀ c' := by
  have hmem := he.inMemory h.memory
  cases he with
  | @flags m cmd hid hcmd hset hput =>
    refine ⟨hput.hasKeys h.keys fun _ _ => FlagStep.ne_nil, hmem, fun f hf => ?_, fun k hk => ?_,
      fun k => ?_⟩
    · rw [hput.sameSettings.get f hf, h.settings f hf]
    · rw [hput.get_ne (by rintro rfl; exact hk (.id hid (Or.inl (by simp [hcmd])))), h.records k hk]
    · rw [hput.same (g := fun v => v.get "ipv4")
        (fun _ _ hstep => hstep.get_ne (by decide) (by decide)) k, h.ipv4 k]
  | @nbd ip m k hid hsup hip hne hfind hput =>
    -- the record that is found is the one that was asked for
    have hkm : k = .num m := by
      have hk := getIDFromIPv4_get h.memory hfind
      have hm : ((wksOf c).get (.num m)).get "ipv4" = ip := by
        obtain ⟨top, rfl, -⟩ := h.memory.top
        obtain ⟨kvs, hkvs, -⟩ := h.memory.wks
        have hlook : lookup "wks" top = .table kvs := hkvs
        rw [hkvs]
        simp only [Value.at?, hlook] at hip
        exact at?_one hip
      refine hd hsup k (.num m) ?_ ?_
      · rwa [← h.ipv4, hk]
      · rw [← h.ipv4, ← h.ipv4, hk, hm]
    refine ⟨hput.hasKeys h.keys fun _ _ => NbdStep.ne_nil, hmem, fun f hf => ?_, fun l hl => ?_,
      fun l => ?_⟩
    · rw [hput.sameSettings.get f hf, h.settings f hf]
    · have hsome : (p.supper.bind SupperCmd.of?).isSome := by rw [hsup]; rfl
      rw [hput.get_ne (by rintro rfl; exact hl (hkm ▸ .id hid (Or.inl hsome))), h.records l hl]
    · rw [hput.same (g := fun v => v.get "ipv4") (fun _ _ hstep => hstep.get_ne (by decide)) l,
        h.ipv4 l]

theorem Framed.superEdits {p : Post} {n : Nat} {c₀ c c' : Value}
    (hd : p.supper = some "disableCommit" → DistinctIPv4 c₀)
    (h : Framed p n c₀ c) (he : SuperEdits p c c') : Framed p n c₀ c' := by
  induction he with
  | refl => exact h
  | tail _ hstep ih => exact ih.superEdit hd hstep

theorem RecordEdit.hasKeys {p : Post} {n : Nat} {c c' : Value} (h : RecordEdit p c c')
    (hc : HasKeys n c) (htid : p.wksCmd = some "ApplyMy" → TidIn n p) :
    ∃ n', n ≤ n' ∧ HasKeys n' c' := by
  cases h with
  | @apply tid d m hcmd hdata htid' _ hm hput =>
    have hwks := get_ne_nil_of_at? htid'
    obtain ⟨h1, hn⟩ := htid hcmd tid m (Post.tid?_eq hdata htid') hm
    by_cases hlast : m = n + 1
    · subst hlast
      exact ⟨n + 1, Nat.le_succ n, hc.put_next hput hwks⟩
    · exact ⟨n, le_rfl, hc.put_mem hput hwks (mem_seqKeys.2 ⟨m, rfl, h1, by omega⟩)⟩
  | @delete v tid id m hid hcmd hn hold hv _ _ hput =>
    refine ⟨n, le_rfl, hc.put_mem hput (by simp [tombstone]) (hc.mem_of_get ?_)⟩
    rwa [at?_wks hold]

theorem RecordEdit.get_ne {p : Post} {c c' : Value} (h : RecordEdit p c c') {k : Key}
    (hk : ¬ Names p k) : (wksOf c').get k = (wksOf c).get k := by
  cases h with
  | apply hcmd hdata htid _ hn hput =>
    exact hput.get_ne (by rintro rfl; exact hk (.tid hcmd (Post.tid?_eq hdata htid) hn))
  | delete hid hcmd hn _ _ _ _ hput =>
    refine hput.get_ne ?_
    rintro rfl
    exact hk (.id (by rw [hid]; exact hn) (Or.inr hcmd))

theorem RecordEdit.sameSettings {p : Post} {c c' : Value} (h : RecordEdit p c c') :
    SameSettings c c' := by
  cases h with
  | apply _ _ _ _ _ hput => exact hput.sameSettings
  | delete _ _ _ _ _ _ _ hput => exact hput.sameSettings

/-- **A request changes the records it names.** Settings and all other records
load after it as they did before, however it ends. -/
theorem post_frame {p : Post} {n : Nat} {w : World} (hkeys : HasKeys n w.file.val)
    (hd : p.supper = some "disableCommit" → DistinctIPv4 w.file.val)
    (htid : p.wksCmd = some "ApplyMy" → TidIn n p) :
    (∀ f, f ≠ .str "wks" → (exec (post p) w).final.file.val.get f = w.file.val.get f) ∧
    ∀ k, ¬ Names p k →
      (wksOf (exec (post p) w).final.file.val).get k = (wksOf w.file.val).get k := by
  rcases post_saved p w with heq | ⟨c, ⟨c₁, hsuper, hrec⟩, -, heq⟩
  · rw [heq]
    exact ⟨fun _ _ => rfl, fun _ _ => rfl⟩
  · have h₁ : Framed p n w.file.val c₁ :=
      Framed.superEdits hd ⟨hkeys, hkeys.inMemory, fun _ _ => rfl, fun _ _ => rfl, fun _ => rfl⟩
        hsuper
    obtain ⟨hset, hget, hmem, n', hn'⟩ : (∀ f, f ≠ .str "wks" → c.get f = w.file.val.get f) ∧
        (∀ k, ¬ Names p k → (wksOf c).get k = (wksOf w.file.val).get k) ∧
        InMemory c ∧ ∃ n', HasKeys n' c := by
      rcases hrec with rfl | hrec
      · exact ⟨h₁.settings, h₁.records, h₁.memory, n, h₁.keys⟩
      · obtain ⟨n', -, hn'⟩ := hrec.hasKeys h₁.keys htid
        exact ⟨fun f hf => (hrec.sameSettings.get f hf).trans (h₁.settings f hf),
          fun k hk => (hrec.get_ne hk).trans (h₁.records k hk), hrec.inMemory h₁.memory, n', hn'⟩
    have hval : (exec (post p) w).final.file.val = c.reload := congrArg Subtype.val heq
    rw [hval]
    constructor
    · intro f hf
      rw [hmem.sameSettings_reload.get f hf, hset f hf]
    · intro k hk
      rw [hn'.get_reload hmem, hget k hk]
      exact Value.Normal.reload_eq (Value.All.get (Value.All.get w.file.property "wks") k)

/-! ## A retired record with an address

Tombstones made by `DeleteMachine` have no address, but a posted record can be
marked `empty` and keep one. The lookup does not skip it. -/

theorem distinctIPv4_of_keys {n : Nat} {c : Value} (h : HasKeys n c)
    (hd : ∀ k ∈ seqKeys n, ∀ l ∈ seqKeys n, ((wksOf c).get k).get "ipv4" ≠ .nil →
      ((wksOf c).get k).get "ipv4" = ((wksOf c).get l).get "ipv4" → k = l) : DistinctIPv4 c := by
  intro k l hne heq
  have hmem {m : Key} (hm : ((wksOf c).get m).get "ipv4" ≠ .nil) : m ∈ seqKeys n := by
    refine h.mem_of_get fun hnil => hm ?_
    rw [hnil]
    rfl
  exact hd k (hmem hne) l (hmem (heq ▸ hne)) hne heq

def retired : Value :=
  .table [("empty", .str "true"), ("mac", .str "b4:2e:99:2c:dd:df"), ("ipv4", .str "192.168.0.3"),
    ("img", array [.table [("path", .str "win10cc.qcow2"), ("nbd", .str "/dev/nbd7")]])]

def inSuper : Value :=
  .table [("mac", .str "b4:2e:99:2c:dd:52"), ("ipv4", .str "192.168.0.3"), ("enable", .num 1),
    ("tid", .num 2), ("supper", .str "1"),
    ("img", array [.table [("path", .str "win10cc.qcow2"), ("type", .str "dyndisk"),
      ("commit", .str "1"), ("enable", .num 1)], .table [], .table []])]

/-- The second workstation is in super mode and has a child. -/
def secondInSuper (first : Value) : World :=
  { World.initial (shippedCfg ⟨"", "", ""⟩ [first, inSuper]) [] with
    child := fun f => if f = "/srv/writeback/win10cc.qcow2_child_b42e992cdd52"
      then some ⟨"/srv/images/boot/win10cc.qcow2", [], 0⟩ else none }

def commitSecond : Post := ⟨some "2", some "disableCommit", none, none, none⟩

theorem tidIn_commitSecond : TidIn 2 commitSecond := fun _ _ h => by cases h

theorem not_names_first : ¬ Names commitSecond (.num 1) := by
  intro h
  cases h with
  | id hid => exact absurd hid (by decide)
  | tid hcmd => cases hcmd

/-- Ending the session of the second workstation changes the retired record,
which has its address. -/
theorem commit_changes_retired :
    HasKeys 2 (secondInSuper retired).file.val ∧
    (∀ k l, Live (secondInSuper retired).file.val k → Live (secondInSuper retired).file.val l →
      ((wksOf (secondInSuper retired).file.val).get k).get "ipv4" =
        ((wksOf (secondInSuper retired).file.val).get l).get "ipv4" → k = l) ∧
    TidIn 2 commitSecond ∧ (exec (post commitSecond) (secondInSuper retired)).isOk ∧
    ¬ Names commitSecond (.num 1) ∧
    (wksOf (exec (post commitSecond) (secondInSuper retired)).final.file.val).get (.num 1) ≠
      (wksOf (secondInSuper retired).file.val).get (.num 1) := by
  have hkeys : HasKeys 2 (secondInSuper retired).file.val := ⟨_, rfl, by decide +kernel⟩
  have hlive : ∀ k ∈ seqKeys 2, Live (secondInSuper retired).file.val k → k = .num 2 := by
    decide +kernel
  refine ⟨hkeys, fun k l hk hl _ => ?_, tidIn_commitSecond, by decide +kernel, not_names_first,
    by decide +kernel⟩
  rw [hlive k (hkeys.mem_of_get hk.1) hk, hlive l (hkeys.mem_of_get hl.1) hl]

theorem post_frame_first :
    (wksOf (exec (post commitSecond) (secondInSuper (shippedWks 1 "b4:2e:99:2c:dd:df"
      "192.168.0.4" "PC001" "lord.qcow2" "d"))).final.file.val).get (.num 1) =
    (wksOf (secondInSuper
      (shippedWks 1 "b4:2e:99:2c:dd:df" "192.168.0.4" "PC001" "lord.qcow2" "d")).file.val).get
        (.num 1) :=
  have hkeys : HasKeys 2 (secondInSuper
      (shippedWks 1 "b4:2e:99:2c:dd:df" "192.168.0.4" "PC001" "lord.qcow2" "d")).file.val :=
    ⟨_, rfl, by decide +kernel⟩
  (post_frame hkeys (fun _ => distinctIPv4_of_keys hkeys (by decide +kernel))
    fun _ => tidIn_commitSecond).2 _ not_names_first

end NsBoot
