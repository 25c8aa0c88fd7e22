import NsBoot.Admin.Frame
import NsBoot.Lib.Run

/-!
# NsBoot.Admin.Pages — admin pages and the table of workstations

Several admin pages are open at once. A page opens a dialog with `GetMy` and
saves it, any time later, with `ApplyMy`; in between the other pages do the
same, delete machines, and switch super mode on and off. The state (`Desk`) is
the machine and the dialogs that are open, with the `tid` each of them shows.

* `WellFormed n`: the keys of the table are `1..n`, and a live record has its key
  as its `tid`.
* `scanId_spec`: what `GetMy` proposes for a new machine is a slot in `1..n+1`
  that holds no live record.
* `table_wellFormed`: every run keeps the table well formed and loses no slot.
-/

namespace NsBoot

open Lua Prog Relation Run

/-! ## Well-formed tables -/

structure WellFormed (n : Nat) (c : Value) : Prop where
  keys : HasKeys n c
  tid : ∀ k : Int, Live c (.num k) → (((wksOf c).get (.num k)).get "tid").tonumber = some k

/-- The fields of a record that say whether and as what it is used. -/
def place (v : Value) : Value × Value := (v.get "empty", v.get "tid")

theorem FlagStep.place {x : String} {v v' : Value} (h : FlagStep x v v') : place v' = place v := by
  rw [NsBoot.place, NsBoot.place, h.get_ne (by decide) (by decide),
    h.get_ne (by decide) (by decide)]

theorem NbdStep.place {v v' : Value} (h : NbdStep v v') : place v' = place v := by
  rw [NsBoot.place, NsBoot.place, h.get_ne (by decide), h.get_ne (by decide)]

theorem Live.of_place {c c' : Value} {k : Key} (h : Live c' k) (hne : (wksOf c).get k ≠ .nil)
    (hp : place ((wksOf c').get k) = place ((wksOf c).get k)) : Live c k := by
  have hempty : ((wksOf c').get k).get "empty" = ((wksOf c).get k).get "empty" :=
    congrArg Prod.fst hp
  exact ⟨hne, hempty ▸ h.2⟩

section Edits

variable {n : Nat} {c c' : Value}

theorem WellFormed.puts {S : Value → Value → Prop} {k : Key} (h : WellFormed n c)
    (hput : Puts S k c c') (hne : ∀ v v', S v v' → v ≠ .nil)
    (hplace : ∀ v v', S v v' → place v' = place v) : WellFormed n c' := by
  refine ⟨hput.hasKeys h.keys hne, fun l hl => ?_⟩
  have hp := hput.same hplace (.num l)
  have hold : (wksOf c).get (.num l) ≠ .nil := fun hnil =>
    hl.1 ((hput.eq_nil_iff hne _).2 hnil)
  rw [show ((wksOf c').get (.num l)).get "tid" = ((wksOf c).get (.num l)).get "tid" from
    congrArg Prod.snd hp]
  exact h.tid l (hl.of_place hold hp)

theorem WellFormed.superEdits {p : Post} (h : WellFormed n c) (he : SuperEdits p c c') :
    WellFormed n c' := by
  induction he with
  | refl => exact h
  | tail _ hstep ih =>
    cases hstep with
    | flags _ _ _ hput => exact ih.puts hput (fun _ _ => FlagStep.ne_nil) fun _ _ => FlagStep.place
    | nbd _ _ _ _ _ hput => exact ih.puts hput (fun _ _ => NbdStep.ne_nil) fun _ _ => NbdStep.place

/-- Replacing a record. -/
theorem WellFormed.put {n' : Nat} {m : Int} {v : Value} (h : WellFormed n c)
    (hput : Put (.num m) v c c') (hkeys : HasKeys n' c')
    (hv : v.get "empty" ≠ .str "true" → (v.get "tid").tonumber = some m) : WellFormed n' c' := by
  refine ⟨hkeys, fun l hl => ?_⟩
  by_cases hlm : l = m
  · subst hlm
    obtain ⟨-, hempty⟩ := hl
    rw [hput.get_self] at hempty ⊢
    exact hv hempty
  · have hne : Key.num l ≠ .num m := by simpa using hlm
    have hget := hput.get_ne hne
    unfold Live at hl
    rw [hget] at hl ⊢
    exact h.tid l hl

theorem WellFormed.recordEdit {p : Post} (h : WellFormed n c) (he : RecordEdit p c c')
    (htid : p.wksCmd = some "ApplyMy" → TidIn n p) : ∃ n', n ≤ n' ∧ WellFormed n' c' := by
  cases he with
  | @apply tid d m hcmd hdata htid' hfree hm hput =>
    obtain ⟨n', hle, hkeys⟩ := (RecordEdit.apply hcmd hdata htid' hfree hm hput).hasKeys h.keys htid
    refine ⟨n', hle, h.put hput hkeys fun _ => ?_⟩
    rwa [at?_two htid']
  | @delete v tid id m hid hcmd hn hold hv htid' heq hput =>
    have hmem : Key.num m ∈ seqKeys n := h.keys.mem_of_get (by rwa [at?_wks hold])
    refine ⟨n, le_rfl, h.put hput (h.keys.put_mem hput (by simp [tombstone]) hmem) fun hempty => ?_⟩
    exact absurd rfl hempty

theorem WellFormed.edited {p : Post} (h : WellFormed n c) (he : Edited p c c')
    (htid : p.wksCmd = some "ApplyMy" → TidIn n p) : ∃ n', n ≤ n' ∧ WellFormed n' c' := by
  obtain ⟨c₁, hsuper, rfl | hrec⟩ := he
  · exact ⟨n, le_rfl, h.superEdits hsuper⟩
  · exact (h.superEdits hsuper).recordEdit hrec htid

/-- A record is as live after a save and a load. -/
theorem live_reload {k : Key} (h : HasKeys n c) (hc : InMemory c) :
    Live c.reload k ↔ Live c k := by
  rw [Live, Live, h.get_reload hc, (hc.records k).get_reload rfl (by decide), ne_eq, reload_eq_nil]

theorem WellFormed.reload (h : WellFormed n c) (hc : InMemory c) : WellFormed n c.reload := by
  refine ⟨h.keys.reload hc, fun k hk => ?_⟩
  rw [live_reload h.keys hc] at hk
  rw [h.keys.get_reload hc, (hc.records _).get_reload rfl (by decide)]
  exact h.tid k hk

end Edits

/-- **Every request keeps the table well formed**, if a posted `tid` is in range. -/
theorem WellFormed.post {n : Nat} {p : Post} {w : World} (h : WellFormed n w.file.val)
    (htid : p.wksCmd = some "ApplyMy" → TidIn n p) :
    ∃ n', n ≤ n' ∧ WellFormed n' (exec (post p) w).final.file.val := by
  rcases post_saved p w with heq | ⟨c, hedit, -, heq⟩
  · rw [heq]
    exact ⟨n, le_rfl, h⟩
  · have hmem := hedit.inMemory h.keys.inMemory
    obtain ⟨n', hle, hwf⟩ := h.edited hedit htid
    rw [show (exec (NsBoot.post p) w).final.file.val = c.reload from congrArg Subtype.val heq]
    exact ⟨n', hle, hwf.reload hmem⟩

/-! ## The scan for a free slot -/

/-- The scan over what `ipairs` visits from `i` on, when it got there without
finding a tombstone. -/
theorem scanId_visit {n : Nat} {c : Value} (h : WellFormed n c) {kvs : List (Key × Value)}
    (hkvs : wksOf c = .table kvs) {fuel : Nat} {i m : Int} {t : Option Int}
    (hi : 1 ≤ i) (hfuel : i + fuel = n + 1) (ht : t = some i ∨ i = 1 ∧ t = none)
    (hscan : scanId (ipairs.visit kvs fuel i) t = some (some m)) :
    1 ≤ m ∧ m ≤ n + 1 ∧ ¬ Live c (.num m) := by
  -- when the visit ends at `i`, the proposal is `i`, and `i` is not there
  have hstop (hnil : (wksOf c).get (.num i) = .nil) (hle : i ≤ n + 1) (heq : t = some m) :
      1 ≤ m ∧ m ≤ n + 1 ∧ ¬ Live c (.num m) := by
    rcases ht with ht | ⟨-, ht⟩
    · rw [ht] at heq
      cases heq
      exact ⟨hi, hle, fun hlive => hlive.1 hnil⟩
    · rw [ht] at heq
      cases heq
  induction fuel generalizing i t with
  | zero =>
    have hin : i = n + 1 := by simpa using hfuel
    refine hstop (h.keys.get_eq_nil fun hmem => ?_) (by omega)
      (by simpa [ipairs.visit, scanId] using hscan)
    obtain ⟨j, hj, -, hle⟩ := mem_seqKeys.1 hmem
    cases hj
    omega
  | succ fuel ih =>
    by_cases hnil : lookup (.num i) kvs = .nil
    · rw [ipairs.visit, hnil] at hscan
      exact hstop (by rw [hkvs]; exact hnil) (by omega) (by simpa [scanId] using hscan)
    · have hvisit : ipairs.visit kvs (fuel + 1) i =
          (i, lookup (.num i) kvs) :: ipairs.visit kvs fuel (i + 1) := by
        rw [ipairs.visit]
        split
        · next hnil' => exact absurd hnil' hnil
        · rfl
      rw [hvisit] at hscan
      simp only [scanId, Option.bind_eq_bind, Option.bind_eq_some_iff] at hscan
      obtain ⟨e, he, hscan⟩ := hscan
      have hget : (wksOf c).get (.num i) = lookup (.num i) kvs := by
        rw [hkvs]
        rfl
      split at hscan
      · -- a tombstone
        next hempty =>
        cases hscan
        refine ⟨hi, by omega, fun hlive => hlive.2 ?_⟩
        rw [hget, at?_one he, hempty]
      · -- a live record: its `tid` is `i`
        next hempty =>
        have hlive : Live c (.num i) := ⟨by rwa [hget], by rwa [hget, at?_one he]⟩
        have htid := h.tid i hlive
        rw [hget] at htid
        rw [if_pos htid] at hscan
        refine ih (by omega) (by push_cast at hfuel; omega) (Or.inl rfl) hscan
          fun hnil' hle heq => ?_
        cases heq
        exact ⟨by omega, hle, fun hl => hl.1 hnil'⟩

/-- **The proposal is a slot without a live record.** -/
theorem scanId_spec {n : Nat} {c : Value} (h : WellFormed n c) {kvs : List (Key × Value)}
    (hkvs : wksOf c = .table kvs) {m : Int} (hscan : scanId (ipairs kvs) none = some (some m)) :
    1 ≤ m ∧ m ≤ n + 1 ∧ ¬ Live c (.num m) := by
  have hlen : kvs.length = n := by
    obtain ⟨kvs', hkvs', hkeys⟩ := h.keys
    rw [hkvs, Value.table.injEq] at hkvs'
    subst hkvs'
    simpa using congrArg List.length hkeys
  exact scanId_visit h hkvs (Int.le_refl 1) (by rw [hlen]; omega) (Or.inr ⟨rfl, rfl⟩) hscan

theorem proposal_spec {n : Nat} {c : Value} (h : WellFormed n c) {arp : String → String}
    {v : Value} (hv : proposal arp c = some v) :
    ∃ m : Int, v.get "tid" = .num m ∧ 1 ≤ m ∧ m ≤ n + 1 ∧ ¬ Live c (.num m) := by
  simp only [proposal, Option.bind_eq_bind, Option.bind_eq_some_iff] at hv
  obtain ⟨wks, hwks, hv⟩ := hv
  split at hv
  · next kvs =>
    simp only [Option.bind_eq_some_iff] at hv
    obtain ⟨_, hscan, _, -, _, -, _, -, _, -, _, -, _, -, _, -, _, -, _, -, _, -, m, rfl, _, -,
      _, -,
      _, -, hv⟩ := hv
    obtain rfl := Option.some.inj hv
    exact ⟨m, rfl, scanId_spec h (at?_one hwks) hscan⟩
  · simp at hv

/-! ## Dialogs -/

/-- An open dialog: for a new machine or not, the `tid` it shows, and whether the
slot was written since it was opened. -/
structure Dialog where
  add : Bool
  tid : Value
  stale : Bool
deriving DecidableEq

structure Desk where
  world : World
  dialogs : List Dialog

/-- What a page sends: a request, or the record of an open dialog. -/
inductive Click where
  | request (p : Post)
  | save (j : Nat) (p : Post)

/-- The dialog an answer opens; there are no rows for tombstones. -/
def opened (p : Post) : Result World (Option Value) → List Dialog
  | .ok (some v) _ =>
    if v ≠ .nil ∧ v.get "empty" ≠ .str "true" then [⟨p.id = some "0", v.get "tid", false⟩] else []
  | _ => []

def Dialog.age (p : Post) (dlg : Dialog) : Dialog :=
  if dlg.tid.tonumber = p.tid?.bind Value.tonumber then { dlg with stale := true } else dlg

def Desk.step (s : Desk) : Click → Desk
  | .request p =>
    ⟨(exec (post p) s.world).final, s.dialogs ++ opened p (exec (post p) s.world)⟩
  | .save _ p => ⟨(exec (post p) s.world).final, s.dialogs.map (Dialog.age p)⟩

/-- A dialog is saved with the `tid` it shows, as it is or as text. -/
def Sends (s : Desk) : Click → Prop
  | .request p => p.wksCmd ≠ some "ApplyMy"
  | .save j p => p.wksCmd = some "ApplyMy" ∧ ∃ dlg tid, s.dialogs[j]? = some dlg ∧
      p.tid? = some tid ∧ (tid = dlg.tid ∨ tid = .str dlg.tid.tostring)

/-- The dialog shows a slot in `1..n+1`. -/
def Dialog.In (n : Nat) (dlg : Dialog) : Prop :=
  ∃ m : Int, dlg.tid.tonumber = some m ∧ 1 ≤ m ∧ m ≤ n + 1

theorem Dialog.In.mono {n n' : Nat} (hle : n ≤ n') {dlg : Dialog} (h : dlg.In n) : dlg.In n' := by
  obtain ⟨m, hm, h1, hn⟩ := h
  exact ⟨m, hm, h1, by omega⟩

theorem tonumber_tostring {t : Value} {m : Int} (h : t.tonumber = some m) (hm : 1 ≤ m) :
    (Value.str t.tostring).tonumber = some m := by
  cases t with
  | num i =>
    cases h
    obtain ⟨j, rfl⟩ := Int.eq_ofNat_of_zero_le (by omega : 0 ≤ m)
    exact numberOf_toString j
  | str s => exact h
  | nil | bool | table => cases h

/-- The number that is posted is the one the dialog shows. -/
theorem Dialog.In.tonumber_eq {n : Nat} {dlg : Dialog} (h : dlg.In n) {tid : Value}
    (htid : tid = dlg.tid ∨ tid = .str dlg.tid.tostring) : tid.tonumber = dlg.tid.tonumber := by
  obtain ⟨m, hm, h1, -⟩ := h
  rcases htid with rfl | rfl
  · rfl
  · rw [tonumber_tostring hm h1, hm]

/-- A row that is shown is a live record of the table. -/
theorem getMy_row {p : Post} {arp : String → String} {c v : Value} (hid : p.id ≠ some "0")
    (hv : getMy p arp c = some (some v)) (hne : v ≠ .nil) :
    ∃ k : Int, (wksOf c).get (.num k) = v := by
  simp only [getMy, Option.bind_eq_bind] at hv
  split at hv
  · simp only [Option.bind_eq_some_iff, Option.pure_def, Option.some.injEq] at hv
    obtain ⟨u, hu, _, -, _, -, rfl⟩ := hv
    cases hnum : p.id.bind numberOf with
    | none =>
      rw [hnum, wksAt?, Option.map_eq_some_iff] at hu
      obtain ⟨_, -, heq⟩ := hu
      exact absurd heq.symm hne
    | some k =>
      rw [hnum] at hu
      exact ⟨k, at?_wks hu⟩
  · simp at hv

theorem getMy_new {p : Post} {arp : String → String} {c v : Value} (hid : p.id = some "0")
    (hv : getMy p arp c = some (some v)) : proposal arp c = some v := by
  simp only [getMy, Option.bind_eq_bind] at hv
  split at hv
  · simpa [Option.bind_eq_some_iff] using hv
  · simp at hv

/-- A dialog that is opened shows a slot of the table, or the next one. -/
theorem opened_in {n : Nat} {p : Post} {w : World} (h : WellFormed n w.file.val) {dlg : Dialog}
    (hdlg : dlg ∈ opened p (exec (post p) w)) : dlg.In n := by
  unfold opened at hdlg
  split at hdlg
  · next v w' hexec =>
    split at hdlg
    · next hshow =>
      obtain rfl := List.mem_singleton.1 hdlg
      obtain ⟨c, arp, hsuper, hreply⟩ := post_replied hexec
      have hwf := h.superEdits hsuper
      have hv := hreply (by simp)
      by_cases hid : p.id = some "0"
      · obtain ⟨m, hm, h1, hn, -⟩ := proposal_spec hwf (getMy_new hid hv)
        exact ⟨m, by rw [hm]; rfl, h1, hn⟩
      · obtain ⟨k, rfl⟩ := getMy_row hid hv hshow.1
        obtain ⟨i, hi, h1, hn⟩ := mem_seqKeys.1 (hwf.keys.mem_of_get hshow.1)
        cases hi
        exact ⟨k, hwf.tid k hshow, h1, by omega⟩
    · simp at hdlg
  · simp at hdlg

/-! ## Runs -/

/-- The invariant of a run. -/
def Desk.Ordered (n : Nat) (s : Desk) : Prop :=
  ∃ m, n ≤ m ∧ WellFormed m s.world.file.val ∧ ∀ dlg ∈ s.dialogs, dlg.In m

theorem Dialog.age_tid (p : Post) (dlg : Dialog) : (dlg.age p).tid = dlg.tid := by
  unfold Dialog.age
  split <;> rfl

/-- One click keeps the table well formed and drops no slot. -/
theorem Desk.step_ordered {m : Nat} {s : Desk} {e : Click} (hwf : WellFormed m s.world.file.val)
    (hdlg : ∀ dlg ∈ s.dialogs, dlg.In m) (he : Sends s e) :
    ∃ m', m ≤ m' ∧ WellFormed m' (s.step e).world.file.val ∧
      ∀ dlg ∈ (s.step e).dialogs, dlg.In m' := by
  cases e with
  | request p =>
    obtain ⟨m', hle, hwf'⟩ := hwf.post (p := p) fun hcmd => absurd hcmd he
    refine ⟨m', hle, hwf', fun dlg hmem => ?_⟩
    rcases List.mem_append.1 hmem with hmem | hmem
    · exact (hdlg dlg hmem).mono hle
    · exact (opened_in hwf hmem).mono hle
  | save j p =>
    obtain ⟨hcmd, dlg, tid, hj, htid, heq⟩ := he
    have hin := hdlg dlg (List.mem_of_getElem? hj)
    have hrange : TidIn m p := by
      intro tid' i htid' hi
      rw [htid] at htid'
      cases htid'
      rw [hin.tonumber_eq heq] at hi
      obtain ⟨i', hi', h1, hm⟩ := hin
      rw [hi] at hi'
      cases hi'
      exact ⟨h1, hm⟩
    obtain ⟨m', hle, hwf'⟩ := hwf.post (p := p) fun _ => hrange
    refine ⟨m', hle, hwf', fun dlg' hmem => ?_⟩
    obtain ⟨dlg, hold, rfl⟩ := List.mem_map.1 hmem
    obtain ⟨i, hi, h1, hm⟩ := hdlg dlg hold
    exact ⟨i, by rwa [Dialog.age_tid], h1, by omega⟩

/-- **The table of workstations stays well formed** through every run of admin
pages: before and after every click the keys are `1..m`, live records are where
their `tid` says, and `m` does not decrease. Whatever well-formed table a
request saves, the next one loads it with the same keys. -/
theorem table_wellFormed {n : Nat} {w : World} (h : WellFormed n w.file.val) {es : List Click}
    (hes : Along Desk.step Sends ⟨w, []⟩ es) :
    Along Desk.step (fun s e => ∃ m m', n ≤ m ∧ m ≤ m' ∧ WellFormed m s.world.file.val ∧
      WellFormed m' (s.step e).world.file.val) ⟨w, []⟩ es ∧
    ∀ m c, InMemory c → WellFormed m c → HasKeys m (encode c).val := by
  refine ⟨?_, fun m c hc hwf => hwf.keys.reload hc⟩
  refine hes.imp_of_inv (I := Desk.Ordered n) ?_ ?_ ⟨n, le_rfl, h, by simp⟩
  · rintro s e ⟨m, hle, hwf, hdlg⟩ he
    obtain ⟨m', hle', hwf', hdlg'⟩ := Desk.step_ordered hwf hdlg he
    exact ⟨m', hle.trans hle', hwf', hdlg'⟩
  · rintro s e ⟨m, hle, hwf, hdlg⟩ he
    obtain ⟨m', hle', hwf', -⟩ := Desk.step_ordered hwf hdlg he
    exact ⟨m, m', hle, hle', hwf, hwf'⟩

theorem WellFormed.of_keys {n : Nat} {c : Value} (h : HasKeys n c)
    (ht : ∀ i ∈ List.range n, Live c (.num (i + 1 : Nat)) →
      (((wksOf c).get (.num (i + 1 : Nat))).get "tid").tonumber = some ((i + 1 : Nat) : Int)) :
    WellFormed n c := by
  refine ⟨h, fun k hk => ?_⟩
  obtain ⟨i, hi, h1, hn⟩ := mem_seqKeys.1 (h.mem_of_get hk.1)
  cases hi
  obtain ⟨j, rfl⟩ := Int.eq_ofNat_of_zero_le (by omega : 0 ≤ k)
  obtain ⟨j, rfl⟩ : ∃ j', j = j' + 1 := ⟨j - 1, by omega⟩
  exact ht j (List.mem_range.2 (by omega)) hk

/-- Two of the shipped workstations. -/
def office : World :=
  World.initial (shippedCfg ⟨"", "", ""⟩
    [shippedWks 1 "b4:2e:99:2c:dd:df" "192.168.0.4" "PC001" "lord.qcow2" "lord",
     shippedWks 2 "b4:2e:99:2c:dd:52" "192.168.0.3" "PC002" "win10cc.qcow2" "win10cc"]) []

def newMachine : Post := ⟨some "0", none, none, some "GetMy", none⟩

/-- A record as `SaveMachineSettings` posts it. -/
def savedAs (tid mac ipv4 : String) : Post :=
  ⟨some tid, none, none, some "ApplyMy", some (some (encode (.table [("WKS",
    .table [("enable", .num 1), ("tid", .str tid), ("mac", .str mac), ("ipv4", .str ipv4),
      ("name", .str "PC"), ("fileboot", .str "ipxe"), ("supper", .num 0), ("opt", array []),
      ("img", array [])])])))⟩

def deletePost (id : String) : Post := ⟨some id, none, none, some "DeleteMachine", none⟩

theorem office_wellFormed : WellFormed 2 office.file.val :=
  .of_keys ⟨_, rfl, by decide +kernel⟩ (by decide +kernel)

/-- Two pages open a dialog for the same slot, a machine is deleted, and both
dialogs are saved. -/
def officeDay : List Click :=
  [.request newMachine, .request newMachine, .request (deletePost "1"),
   .save 0 (savedAs "3" "b4:2e:99:2c:dd:01" "192.168.0.5"),
   .save 1 (savedAs "3" "b4:2e:99:2c:dd:02" "192.168.0.6")]

theorem officeDay_sends : Along Desk.step Sends ⟨office, []⟩ officeDay := by
  simp only [officeDay, along_cons, along_nil, Sends, and_true]
  exact ⟨by decide, by decide, by decide,
    ⟨by decide, ⟨true, .num 3, false⟩, .str "3", by decide +kernel, by decide +kernel, Or.inr rfl⟩,
    ⟨by decide, ⟨true, .num 3, true⟩, .str "3", by decide +kernel, by decide +kernel, Or.inr rfl⟩⟩

theorem table_wellFormed_office :
    Along Desk.step (fun s e => ∃ m m', 2 ≤ m ∧ m ≤ m' ∧ WellFormed m s.world.file.val ∧
      WellFormed m' (s.step e).world.file.val) ⟨office, []⟩ officeDay :=
  (table_wellFormed office_wellFormed officeDay_sends).1

end NsBoot
