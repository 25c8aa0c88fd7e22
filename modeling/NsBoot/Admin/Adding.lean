import NsBoot.Admin.Pages

/-!
# NsBoot.Admin.Adding — adding machines from several pages

`GetMy` proposes a slot for a new machine and reserves nothing. `ApplyMy` tests
whether the slot is free under the posted `tid`, which the page sends as a
string, and the keys of the table are numbers: the test always passes. Two
dialogs that were opened on the same table therefore overwrite one another
(`second_add_replaces_first`).

A dialog does no harm as long as nothing was saved to its slot since it was
opened (`adds_replace_nothing`).
-/

namespace NsBoot

open Lua Prog Relation Run

/-! ## Requests without super mode -/

theorem SuperEdits.eq_of_none {p : Post} (hsup : p.supper = none) {c c' : Value}
    (h : SuperEdits p c c') : c' = c := by
  induction h with
  | refl => rfl
  | tail _ hstep ih =>
    cases hstep with
    | flags _ hcmd => simp [hsup] at hcmd
    | nbd _ hcommit => simp [hsup] at hcommit

/-- A request that posts no record makes nothing live. -/
theorem live_of_post {n : Nat} {p : Post} {w : World} (h : HasKeys n w.file.val)
    (hsup : p.supper = none) (hcmd : p.wksCmd ≠ some "ApplyMy") {k : Key}
    (hlive : Live (exec (post p) w).final.file.val k) : Live w.file.val k := by
  rcases post_saved p w with heq | ⟨c, ⟨c₁, hsuper, hrec⟩, -, heq⟩
  · rwa [heq] at hlive
  · obtain rfl := SuperEdits.eq_of_none hsup hsuper
    rw [show (exec (post p) w).final.file.val = c.reload from congrArg Subtype.val heq] at hlive
    rcases hrec with rfl | hrec
    · rwa [live_reload h h.inMemory] at hlive
    · have hmem := hrec.inMemory h.inMemory
      obtain ⟨n', -, hkeys⟩ := hrec.hasKeys h fun hc => absurd hc hcmd
      rw [live_reload hkeys hmem] at hlive
      cases hrec with
      | apply hc => exact absurd hc hcmd
      | @delete _ _ _ m _ _ _ _ _ _ _ hput =>
        by_cases hk : k = .num m
        · subst hk
          obtain ⟨-, hempty⟩ := hlive
          rw [hput.get_self] at hempty
          exact absurd rfl hempty
        · rwa [Live, hput.get_ne hk] at hlive

/-- A dialog for a new machine shows a slot without a live record. -/
theorem opened_vacant {n : Nat} {p : Post} {w : World} (h : WellFormed n w.file.val)
    (hsup : p.supper = none) {dlg : Dialog} (hdlg : dlg ∈ opened p (exec (post p) w))
    (hadd : dlg.add = true) {m : Int} (hm : dlg.tid.tonumber = some m) :
    ¬ Live w.file.val (.num m) := by
  unfold opened at hdlg
  split at hdlg
  · next v w' hexec =>
    split at hdlg
    · obtain rfl := List.mem_singleton.1 hdlg
      obtain ⟨c, arp, hsuper, hreply⟩ := post_replied hexec
      obtain rfl := SuperEdits.eq_of_none hsup hsuper
      obtain ⟨i, hi, -, -, hvacant⟩ :=
        proposal_spec h (getMy_new (of_decide_eq_true hadd) (hreply (by simp)))
      rw [hi] at hm
      cases hm
      exact hvacant
    · simp at hdlg
  · simp at hdlg

/-! ## An acknowledged record -/

theorem exportDHCP_file {c : Value} {w w' : World} {u : Unit}
    (h : exec (exportDHCP c) w = .ok u w') :
    w'.file = w.file :=
  ((exportDHCP_does c).weaken (S := fun _ => Same World.file) fun _ _ _ => FreeAct.file).of_ok h

theorem supperPart_of_none {p : Post} (hsup : p.supper = none) (c : Value) :
    supperPart p c = pure c := by
  unfold supperPart
  simp [hsup]

/-- A save of an edited configuration that passes the check. -/
theorem saveToFile_ok {c : Value} {w w' : World} {u : Unit} (hconf : checkconf c = some true)
    (h : exec (saveToFile c) w = .ok u w') : w'.file = encode c := by
  obtain ⟨ok, _, hlift, h⟩ := exec_bind_ok_iff.1 h
  obtain ⟨hok, rfl⟩ := exec_lift_ok_iff.1 hlift
  rw [hconf] at hok
  cases hok
  rcases exec_when_ok_iff.1 h with ⟨-, h⟩ | ⟨hne, -⟩
  · obtain rfl := exec_perform_ok_iff.1 h
    rfl
  · exact absurd rfl hne

/-- An `ApplyMy` that returns, when the slot of its `tid` reads nil. -/
theorem applyMy_ok {p : Post} {c c' tid : Value} {m : Int} {w w' : World} (hid : p.id ≠ none)
    (hcmd : p.wksCmd = some "ApplyMy") (hwks : ∃ kvs, wksOf c = .table kvs)
    (hconf : checkconf c = some true) (htid : p.tid? = some tid) (hm : tid.tonumber = some m)
    (hfree : wksIndex? c tid = some .nil) (hok : exec (applyMy p c) w = .ok c' w') :
    ∃ d, p.jsondata = some (some d) ∧ Put (.num m) (d.val.get "WKS") c c' ∧
      RecordEdit p c c' ∧ w'.file = encode c' := by
  obtain ⟨id, hid⟩ := Option.ne_none_iff_exists'.1 hid
  simp only [Post.tid?, Option.bind_eq_bind, Option.bind_eq_some_iff] at htid
  obtain ⟨_, hdata, d, rfl, htid⟩ := htid
  simp only [applyMy, hid, hcmd, hdata] at hok
  obtain ⟨_, _, hlift, hok⟩ := exec_bind_ok_iff.1 hok
  obtain ⟨hd, rfl⟩ := exec_lift_ok_iff.1 hlift
  cases hd
  obtain ⟨_, _, hlift, hok⟩ := exec_bind_ok_iff.1 hok
  obtain ⟨ht, rfl⟩ := exec_lift_ok_iff.1 hlift
  rw [htid] at ht
  cases ht
  obtain ⟨wks, _, hlift, hok⟩ := exec_bind_ok_iff.1 hok
  obtain ⟨hw, rfl⟩ := exec_lift_ok_iff.1 hlift
  have hne : wks ≠ .nil := by
    obtain ⟨kvs, hkvs⟩ := hwks
    rw [← at?_one hw]
    intro hnil
    rw [wksOf, hnil] at hkvs
    cases hkvs
  rw [if_neg hne] at hok
  obtain ⟨old, _, hlift, hok⟩ := exec_bind_ok_iff.1 hok
  obtain ⟨hold, rfl⟩ := exec_lift_ok_iff.1 hlift
  rw [hfree] at hold
  cases hold
  rw [if_pos rfl] at hok
  obtain ⟨n, _, hlift, hok⟩ := exec_bind_ok_iff.1 hok
  obtain ⟨hn, rfl⟩ := exec_lift_ok_iff.1 hlift
  rw [hm] at hn
  cases hn
  obtain ⟨c₂, _, hlift, hok⟩ := exec_bind_ok_iff.1 hok
  obtain ⟨hput, rfl⟩ := exec_lift_ok_iff.1 hlift
  obtain ⟨_, w₁, hsave, hok⟩ := exec_bind_ok_iff.1 hok
  obtain ⟨_, w₂, hexp, hok⟩ := exec_bind_ok_iff.1 hok
  obtain ⟨rfl, rfl⟩ := exec_pure_ok_iff.1 hok
  have hconf' : checkconf c₂ = some true := by
    rw [Put.sameSettings hput |>.checkconf, hconf]
  exact ⟨d, hdata, hput, .apply hcmd hdata htid hfree hm hput,
    (exportDHCP_file hexp).trans (saveToFile_ok hconf' hsave)⟩

theorem deleteMachine_of_ne {p : Post} (hcmd : p.wksCmd ≠ some "DeleteMachine") (c : Value) :
    deleteMachine p c = pure () := by
  unfold deleteMachine
  split
  · next h => exact absurd h hcmd
  · rfl

theorem HasKeys.at?_wks {n : Nat} {c : Value} (h : HasKeys n c) (k : Key) :
    c.at? ["wks", k] = some ((wksOf c).get k) := by
  obtain ⟨kvs, hkvs, -⟩ := h
  cases c with
  | table top =>
    have hlook : lookup "wks" top = .table kvs := hkvs
    simp [Value.at?, wksOf, hlook]
  | nil | bool | num | str => cases hkvs

/-- An `ApplyMy` with a text as `tid` that returns has stored its record. -/
theorem post_stored {n : Nat} {p : Post} {w w' : World} {reply : Option Value} {t : String}
    {m : Int} (h : HasKeys n w.file.val) (hconf : checkconf w.file.val = some true)
    (hid : p.id ≠ none) (hsup : p.supper = none) (hcmd : p.wksCmd = some "ApplyMy")
    (htid : p.tid? = some (.str t)) (hm : numberOf t = some m) (hin : TidIn n p)
    (hok : exec (post p) w = .ok reply w') :
    ∃ d, p.jsondata = some (some d) ∧ (wksOf w'.file.val).get (.num m) = d.val.get "WKS" := by
  obtain ⟨_, _, hload, hok⟩ := exec_bind_ok_iff.1 hok
  obtain ⟨rfl, rfl⟩ := exec_observe_ok_iff.1 hload
  obtain ⟨ok, _, hlift, hok⟩ := exec_bind_ok_iff.1 hok
  obtain ⟨hok', rfl⟩ := exec_lift_ok_iff.1 hlift
  rw [hconf] at hok'
  cases hok'
  rw [if_pos rfl] at hok
  obtain ⟨_, _, hload, hok⟩ := exec_bind_ok_iff.1 hok
  obtain ⟨rfl, rfl⟩ := exec_observe_ok_iff.1 hload
  rw [supperPart_of_none hsup] at hok
  obtain ⟨_, _, hpure, hok⟩ := exec_bind_ok_iff.1 hok
  obtain ⟨rfl, rfl⟩ := exec_pure_ok_iff.1 hpure
  obtain ⟨_, _, hpower, hok⟩ := exec_bind_ok_iff.1 hok
  obtain rfl := powerOn_ok hpower
  rw [exec_get_bind] at hok
  obtain ⟨reply', _, hlift, hok⟩ := exec_bind_ok_iff.1 hok
  obtain ⟨-, rfl⟩ := exec_lift_ok_iff.1 hlift
  obtain ⟨c', w₁, happly, hok⟩ := exec_bind_ok_iff.1 hok
  obtain ⟨_, w₂, hdel, hok⟩ := exec_bind_ok_iff.1 hok
  obtain ⟨-, rfl⟩ := exec_pure_ok_iff.1 hok
  rw [deleteMachine_of_ne (by simp [hcmd])] at hdel
  obtain ⟨-, rfl⟩ := exec_pure_ok_iff.1 hdel
  have hfree : wksIndex? w.file.val (.str t) = some .nil := by
    have hnot : Key.str t ∉ seqKeys n := by
      intro hmem
      obtain ⟨i, hi, -⟩ := mem_seqKeys.1 hmem
      cases hi
    rw [wksIndex?, h.at?_wks, h.get_eq_nil hnot]
  have hwks : ∃ kvs, wksOf w.file.val = .table kvs := by
    obtain ⟨kvs, hkvs, -⟩ := h
    exact ⟨kvs, hkvs⟩
  obtain ⟨d, hdata, hput, hrec, hfile⟩ := applyMy_ok hid hcmd hwks hconf htid hm hfree happly
  obtain ⟨n', -, hkeys⟩ := hrec.hasKeys h fun _ => hin
  refine ⟨d, hdata, ?_⟩
  rw [show w₁.file.val = c'.reload from congrArg Subtype.val hfile,
    hkeys.get_reload (hrec.inMemory h.inMemory), hput.get_self]
  exact Value.Normal.reload_eq (Value.All.get d.property "WKS")

/-! ## Runs -/

/-- What the pages do: they open dialogs, delete machines, and save dialogs with
the `tid` as text. -/
def Edits (s : Desk) : Click → Prop
  | .request p => p.supper = none ∧ p.wksCmd ≠ some "ApplyMy"
  | .save j p => p.id ≠ none ∧ p.supper = none ∧ p.wksCmd = some "ApplyMy" ∧
      ∃ dlg, s.dialogs[j]? = some dlg ∧ p.tid? = some (.str dlg.tid.tostring)

/-- A dialog for a new machine is saved only if its slot was not written since. -/
def Unraced (s : Desk) : Click → Prop
  | .request _ => True
  | .save j _ => ∀ dlg, s.dialogs[j]? = some dlg → dlg.add = true → dlg.stale = false

/-- The record is edited or deleted by its own id. -/
def Owned (s : Desk) : Click → Key → Prop
  | .request p, k => Names p k
  | .save j p, k => Names p k ∧ ∃ dlg, s.dialogs[j]? = some dlg ∧ dlg.add = false

/-- Every other live record stays. -/
def KeepsLive (s : Desk) (e : Click) : Prop :=
  ∀ k, Live s.world.file.val k → ¬ Owned s e k →
    (wksOf (s.step e).world.file.val).get k = (wksOf s.world.file.val).get k

/-- A save that is acknowledged stored its record. -/
def Stores (s : Desk) : Click → Prop
  | .request _ => True
  | .save _ p => (exec (post p) s.world).isOk → ∃ d tid m, p.jsondata = some (some d) ∧
      p.tid? = some tid ∧ tid.tonumber = some m ∧
      (wksOf (exec (post p) s.world).final.file.val).get (.num m) = d.val.get "WKS"

/-- The dialog is for a machine that is not there yet. -/
def Dialog.Vacant (c : Value) (dlg : Dialog) : Prop :=
  dlg.add = true → dlg.stale = false → ∀ m, dlg.tid.tonumber = some m → ¬ Live c (.num m)

/-- The invariant: besides a well-formed table, dialogs for new machines that are
not stale show slots without a live record. -/
structure Desk.Tidy (n : Nat) (s : Desk) : Prop where
  table : WellFormed n s.world.file.val
  conf : checkconf s.world.file.val = some true
  shown : ∀ dlg ∈ s.dialogs, dlg.In n
  vacant : ∀ dlg ∈ s.dialogs, dlg.Vacant s.world.file.val

theorem Edits.sends {s : Desk} {e : Click} (h : Edits s e) : Sends s e := by
  cases e with
  | request p => exact h.2
  | save j p =>
    obtain ⟨-, -, hcmd, dlg, hj, htid⟩ := h
    exact ⟨hcmd, dlg, _, hj, htid, Or.inr rfl⟩

theorem post_checkconf {n : Nat} {p : Post} {w : World} (h : HasKeys n w.file.val)
    (hconf : checkconf w.file.val = some true) :
    checkconf (exec (post p) w).final.file.val = some true := by
  rcases post_saved p w with heq | ⟨c, hedit, hc, heq⟩
  · rwa [heq]
  · rw [show (exec (post p) w).final.file.val = c.reload from congrArg Subtype.val heq,
      (hedit.inMemory h.inMemory).sameSettings_reload.checkconf, hc]

section Step

variable {n : Nat} {s : Desk} (h : s.Tidy n)

include h

/-- The slot a saved dialog shows, and the one that is posted. -/
theorem Desk.Tidy.saved {j : Nat} {p : Post} (he : Edits s (.save j p)) :
    ∃ dlg m, dlg ∈ s.dialogs ∧ s.dialogs[j]? = some dlg ∧ p.tid? = some (.str dlg.tid.tostring) ∧
      dlg.tid.tonumber = some m ∧ numberOf dlg.tid.tostring = some m ∧ TidIn n p ∧
      ∀ k, Names p k → k = .num m := by
  obtain ⟨-, hsup, hcmd, dlg, hj, htid⟩ := he
  have hmem := List.mem_of_getElem? hj
  obtain ⟨m, hm, h1, hn⟩ := h.shown dlg hmem
  have hm' : numberOf dlg.tid.tostring = some m := tonumber_tostring hm h1
  refine ⟨dlg, m, hmem, hj, htid, hm, hm', ?_, ?_⟩
  · intro tid i htid' hi
    rw [htid] at htid'
    cases htid'
    rw [Value.tonumber, hm'] at hi
    cases hi
    exact ⟨h1, hn⟩
  · intro k hk
    cases hk with
    | id _ hid => simp [hsup, hcmd] at hid
    | tid _ htid' hi =>
      rw [htid] at htid'
      cases htid'
      rw [Value.tonumber, hm'] at hi
      cases hi
      rfl

theorem Desk.Tidy.keeps {e : Click} (he : Edits s e) (hu : Unraced s e) : KeepsLive s e := by
  intro k hlive hown
  cases e with
  | request p =>
    obtain ⟨hsup, hcmd⟩ := he
    exact (post_frame h.table.keys (by simp [hsup]) fun hc => absurd hc hcmd).2 k hown
  | save j p =>
    obtain ⟨dlg, m, hmem, hj, htid, hm, -, hin, hnames⟩ := h.saved he
    refine (post_frame h.table.keys (by simp [he.2.1]) fun _ => hin).2 k fun hk => ?_
    -- the slot that is posted holds a live record: the dialog was not for a new one
    cases hadd : dlg.add with
    | false => exact hown ⟨hk, dlg, hj, hadd⟩
    | true =>
      rw [hnames k hk] at hlive
      exact h.vacant dlg hmem hadd (hu dlg hj hadd) m hm hlive

theorem Desk.Tidy.stores {e : Click} (he : Edits s e) : Stores s e := by
  cases e with
  | request p => trivial
  | save j p =>
    intro hok
    obtain ⟨dlg, m, -, -, htid, -, hm', hin, -⟩ := h.saved he
    obtain ⟨reply, w', hexec⟩ := Result.exists_of_isOk hok
    obtain ⟨d, hdata, hget⟩ :=
      post_stored h.table.keys h.conf he.1 he.2.1 he.2.2.1 htid hm' hin hexec
    rw [hexec]
    exact ⟨d, _, m, hdata, htid, hm', hget⟩

theorem Desk.Tidy.step {e : Click} (he : Edits s e) : ∃ n', (s.step e).Tidy n' := by
  obtain ⟨n', hle, hwf, hin⟩ := Desk.step_ordered h.table h.shown he.sends
  refine ⟨n', hwf, ?_, hin, ?_⟩
  · cases e with
    | request p => exact post_checkconf h.table.keys h.conf
    | save j p => exact post_checkconf h.table.keys h.conf
  · cases e with
    | request p =>
      obtain ⟨hsup, hcmd⟩ := he
      intro dlg hmem hadd hstale m hm hlive
      have hlive := live_of_post h.table.keys hsup hcmd hlive
      rcases List.mem_append.1 hmem with hmem | hmem
      · exact h.vacant dlg hmem hadd hstale m hm hlive
      · exact opened_vacant h.table hsup hmem hadd hm hlive
    | save j p =>
      obtain ⟨_, m, -, -, htid, -, hm', hin, hnames⟩ := h.saved he
      intro dlg' hmem
      obtain ⟨dlg, hold, rfl⟩ := List.mem_map.1 hmem
      have hnum : p.tid?.bind Value.tonumber = some m := by
        rw [htid]
        exact hm'
      unfold Dialog.age
      rw [hnum]
      split
      · -- the slot of this dialog was just written
        intro _ hstale
        cases hstale
      · next hother =>
        intro hadd hstale i hi hlive
        have hnot : ¬ Names p (.num i) := fun hk => hother (by rw [hi, Key.num.inj (hnames _ hk)])
        have hget := (post_frame h.table.keys (by simp [he.2.1]) fun _ => hin).2 _ hnot
        refine h.vacant dlg hold hadd hstale i hi ?_
        unfold Live at hlive ⊢
        rwa [← hget]

end Step

/-- **Adding machines replaces nothing**, if no dialog for a new machine is saved
after something was saved to its slot: every live record is as it was until it
is edited or deleted by its own id, and what was acknowledged was stored. -/
theorem adds_replace_nothing {n : Nat} {w : World} (h : WellFormed n w.file.val)
    (hconf : checkconf w.file.val = some true) {es : List Click}
    (hes : Along Desk.step (fun s e => Edits s e ∧ Unraced s e) ⟨w, []⟩ es) :
    Along Desk.step (fun s e => KeepsLive s e ∧ Stores s e) ⟨w, []⟩ es := by
  refine hes.imp_of_inv (I := fun s => ∃ n, s.Tidy n) ?_ ?_ ⟨n, h, hconf, by simp, by simp⟩
  · rintro s e ⟨m, hs⟩ ⟨he, -⟩
    exact hs.step he
  · rintro s e ⟨m, hs⟩ ⟨he, hu⟩
    exact ⟨hs.keeps he hu, hs.stores he⟩

/-! ## Two dialogs for one slot -/

def firstAdd : Post := savedAs "3" "b4:2e:99:2c:dd:01" "192.168.0.5"

def secondAdd (tid : String) : Post := savedAs tid "b4:2e:99:2c:dd:02" "192.168.0.6"

theorem Unraced.of_dialog {s : Desk} {j : Nat} {p : Post} {dlg : Dialog}
    (h : s.dialogs[j]? = some dlg) (hs : dlg.stale = false) : Unraced s (.save j p) := by
  intro dlg' h' _
  rw [h] at h'
  cases h'
  exact hs

/-- Two machines are added one after the other. -/
def inTurn : List Click :=
  [.request newMachine, .save 0 firstAdd, .request newMachine, .save 1 (secondAdd "4")]

theorem adds_replace_nothing_inTurn :
    Along Desk.step (fun s e => KeepsLive s e ∧ Stores s e) ⟨office, []⟩ inTurn := by
  have hfirst : (run Desk.step ⟨office, []⟩ (inTurn.take 1)).dialogs[0]? =
      some ⟨true, .num 3, false⟩ := by decide +kernel
  have hsecond : (run Desk.step ⟨office, []⟩ (inTurn.take 3)).dialogs[1]? =
      some ⟨true, .num 4, false⟩ := by decide +kernel
  refine adds_replace_nothing office_wellFormed (by decide +kernel) ?_
  simp only [inTurn, along_cons, along_nil, and_true]
  exact ⟨⟨⟨rfl, by decide⟩, trivial⟩,
    ⟨⟨by decide, rfl, rfl, _, hfirst, by decide +kernel⟩, .of_dialog hfirst rfl⟩,
    ⟨⟨rfl, by decide⟩, trivial⟩,
    ⟨⟨by decide, rfl, rfl, _, hsecond, by decide +kernel⟩, .of_dialog hsecond rfl⟩⟩

/-- The desk after both dialogs were opened and the first was saved. -/
def bothOpen : Desk :=
  run Desk.step ⟨office, []⟩ [.request newMachine, .request newMachine, .save 0 firstAdd]

/-- The second machine takes the place of the first, which was acknowledged. -/
theorem second_add_replaces_first :
    Along Desk.step Edits ⟨office, []⟩
      [.request newMachine, .request newMachine, .save 0 firstAdd, .save 1 (secondAdd "3")] ∧
    Live bothOpen.world.file.val (.num 3) ∧ ¬ Owned bothOpen (.save 1 (secondAdd "3")) (.num 3) ∧
    (exec (post (secondAdd "3")) bothOpen.world).isOk ∧
    (wksOf (bothOpen.step (.save 1 (secondAdd "3"))).world.file.val).get (.num 3) ≠
      (wksOf bothOpen.world.file.val).get (.num 3) := by
  have hdialog : bothOpen.dialogs[1]? = some ⟨true, .num 3, true⟩ := by decide +kernel
  refine ⟨?_, by decide +kernel, ?_, by decide +kernel, by decide +kernel⟩
  · simp only [along_cons, along_nil, Edits, and_true]
    exact ⟨⟨rfl, by decide⟩, ⟨rfl, by decide⟩,
      ⟨by decide, rfl, rfl, ⟨true, .num 3, false⟩, by decide +kernel, by decide +kernel⟩,
      ⟨by decide, rfl, rfl, ⟨true, .num 3, true⟩, hdialog, by decide +kernel⟩⟩
  · rintro ⟨-, dlg, hdlg, hadd⟩
    rw [hdialog] at hdlg
    cases hdlg
    cases hadd

end NsBoot
