import NsBoot.Admin.Sound
import NsBoot.Shipped

/-!
# NsBoot.Admin.Sessions — choosing disks, and ending a session

The page starts a session with `supper=true` and a list of slots, and ends it with
one of three commands.

* `commit_complete`: when `disableCommit` or `disableCommitPoint` starts a commit for the
  child of every chosen slot, and for nothing else, before it clears the flags and saves;
* `selection_exact`: over any run of super-mode requests on a record with three slots, as
  the page makes them, the chosen slots are those of the current session.

Both fail elsewhere: `disableCommitPoint`, which the page sends when a restore point is
asked for, commits nothing (`point_commits_nothing`), and the flag of a fourth slot is
never cleared (`fourth_slot_stays`).
-/

namespace NsBoot

open Lua Prog Run

/-! ## Ending with a commit -/

theorem cleared_supper (r : Wks) : r.cleared.supper.isZero := by
  rw [Wks.cleared, (setCommits_rest _ _ _).1]
  exact isZero_zero

theorem cleared_commit {r : Wks} (hthree : r.img.length = 3) {v : Img} (hv : v ∈ r.cleared.img) :
    v.commit.isZero := by
  rcases List.getElem?_of_mem hv with ⟨i, hi⟩
  rw [Wks.cleared, getElem?_setCommits, Option.map_eq_some_iff] at hi
  rcases hi with ⟨u, hu, rfl⟩
  have hlt : i < 3 := hthree ▸ (List.getElem?_eq_some_iff.1 hu).1
  have hmem : i ∈ [0, 1, 2] := by
    simp only [List.mem_cons, List.not_mem_nil, or_false]
    omega
  rw [if_pos hmem]
  exact isZero_zero

theorem Sound.reads {N : Nat} {c : Value} (hc : Sound N c) {k : Key} {r : Wks}
    (hr : Wks.of? ((wksOf c).get k) = some r) : Reads c k r := by
  rcases hc.keys with ⟨kvs, hkvs, -⟩
  exact ⟨⟨kvs, hkvs⟩, hr⟩

/-- The request commits every chosen disk and no other image, and then saves the record with
its flags cleared. -/
def Completes (n : Int) (s : Server) (r : Wks) (p : Post) (w : World) : Prop :=
  ∃ a w' r', exec (post p) w = .ok a w' ∧
    (labels (post p) w).filter Op.shown = (r.toCommit s w).map .commit ++ [.save] ∧
    Wks.of? ((wksOf w'.file.val).get (.num n)) = some r' ∧
    r'.supper.isZero ∧ ∀ v ∈ r'.img, ¬ v.commit.isOne

/-- What the command `t` needs for that: the three slots whose flags it clears, no flag on
another one, and a child to commit only if it comes to the loop that commits. -/
structure Completable (s : Server) (r : Wks) (w : World) (t : String) : Prop where
  three : 3 ≤ r.img.length
  others : ∀ i v, r.img[i]? = some v → 3 ≤ i → ¬ v.commit.isOne
  loop : r.toCommit s w = [] ∨ t = "disableCommit" ∧ r.supper = .str "1"

theorem cleared_commit_iff {r : Wks} : (∀ v ∈ r.cleared.img, ¬ v.commit.isOne) ↔
    ∀ i v, r.img[i]? = some v → 3 ≤ i → ¬ v.commit.isOne := by
  have hslot (i : Nat) : r.cleared.img[i]? =
      (r.img[i]?).map fun v => if i ∈ [0, 1, 2] then { v with commit := .str "0" } else v :=
    getElem?_setCommits _ _ _ i
  have hmem (i : Nat) : i ∈ [0, 1, 2] ↔ i < 3 := by
    simp only [List.mem_cons, List.not_mem_nil, or_false]
    omega
  constructor
  · intro h i v hv hi
    refine h v (List.mem_of_getElem? (i := i) ?_)
    rw [hslot, hv, Option.map_some, if_neg (mt (hmem i).1 (by omega))]
  · intro h v hv
    rcases List.getElem?_of_mem hv with ⟨i, hi⟩
    rw [hslot, Option.map_eq_some_iff] at hi
    rcases hi with ⟨u, hu, rfl⟩
    by_cases hlt : i < 3
    · rw [if_pos ((hmem i).2 hlt)]
      exact not_isOne_of_isZero isZero_zero
    · rw [if_neg (mt (hmem i).1 hlt)]
      exact h i u hu (by omega)

section Ending

variable {N : Nat} {n : Int} {s : Server} {r : Wks} {w : World} {p : Post} {t : String}
  (hsound : Sound N w.file.val) (hr : Reads w.file.val (.num n) r) (hread : Readable r)
  (hs : Server.back? w.file.val = some s) (hp : SuperOnly p)
  (ht : t = "disableCommit" ∨ t = "disableCommitPoint") (hcmd : p.Is n t)

include hsound hr hread hs hp ht hcmd

/-- The two requests on a record with at least three slots. -/
theorem ending_runs (hlen : 3 ≤ r.img.length) :
    Runs Op.shown ((if t = "disableCommit" ∧ r.supper = .str "1" then
        (r.toCommit s w).map .commit else []) ++ [.save])
      (fun _ => SavedAs N n r.cleared) (post p) w := by
  refine post_super_runs hp hsound.conf ?_
  rcases ht with rfl | rfl
  · rw [supperPart_eq hcmd rfl (by decide) hsound.conf hr]
    simp only [true_and]
    exact disableCommit_runs hsound hr hread hlen hs
  · rw [supperPart_eq hcmd rfl (by decide) hsound.conf hr, if_neg fun h => absurd h.1 (by decide)]
    exact endSession_runs hsound hr hlen

/-- On a record with fewer slots they stop with an error. -/
theorem ending_length {a : Option Value} {w' : World} (hok : exec (post p) w = .ok a w') :
    3 ≤ r.img.length := by
  have hpart : ∃ c, exec (supperPart p w.file.val) w = .ok c w' := by
    rw [exec_post_super hp hsound.conf] at hok
    cases hx : exec (supperPart p w.file.val) w with
    | ok c w₁ =>
      rw [hx] at hok
      cases hok
      exact ⟨c, rfl⟩
    | error w₁ | hang w₁ =>
      rw [hx] at hok
      cases hok
  rcases hpart with ⟨c, hpart⟩
  rcases ht with rfl | rfl
  · rw [supperPart_eq hcmd rfl (by decide) hsound.conf hr] at hpart
    rcases exec_bind_ok_iff.1 hpart with ⟨_, _, hload, hpart⟩
    obtain ⟨rfl, rfl⟩ := exec_observe_ok_iff.1 hload
    rcases exec_bind_ok_iff.1 hpart with ⟨c₁, w₁, hcommits, hpart⟩
    rcases exec_bind_ok_iff.1 hpart with ⟨c₂, w₂, hclear, -⟩
    have hstart : Committing N n s r w w.file.val w :=
      ⟨hsound, hsound.keys.inMemory, hr, hs, rfl, rfl⟩
    have hloop : ∃ ls, Runs Op.shown ls (Committing N n s r w) (commitSlots n w.file.val) w := by
      by_cases hsup : r.supper = .str "1"
      · exact ⟨_, commitSlots_runs hread hsup w.file.property hstart⟩
      · exact ⟨_, commitSlots_skips hsup hstart⟩
    rcases hloop with ⟨ls, c₁', w₁', hexec, -, hdone⟩
    rw [hcommits] at hexec
    cases hexec
    exact clearFlags_length hdone.reads (exec_lift_ok_iff.1 hclear).1
  · rw [supperPart_eq hcmd rfl (by decide) hsound.conf hr] at hpart
    rcases exec_bind_ok_iff.1 hpart with ⟨_, _, hload, hpart⟩
    obtain ⟨rfl, rfl⟩ := exec_observe_ok_iff.1 hload
    rcases exec_bind_ok_iff.1 hpart with ⟨c₂, w₂, hclear, -⟩
    exact clearFlags_length hr (exec_lift_ok_iff.1 hclear).1

end Ending

/-- **A session ends with all its commits** exactly when there is nothing to commit or the
request is `disableCommit` with the flag as a string, and the flags are those of the first
three slots. -/
theorem commit_complete {N : Nat} {n : Int} {s : Server} {r : Wks} {w : World} {p : Post}
    {t : String} (hsound : Sound N w.file.val)
    (hr : Wks.of? ((wksOf w.file.val).get (.num n)) = some r) (hread : Readable r)
    (hs : Server.back? w.file.val = some s) (hp : SuperOnly p)
    (ht : t = "disableCommit" ∨ t = "disableCommitPoint") (hcmd : p.Is n t) :
    Completes n s r p w ↔ Completable s r w t := by
  have hreads := hsound.reads hr
  constructor
  · rintro ⟨a, w', r', hok, hlabels, hr', -, hcleared⟩
    have hlen := ending_length hsound hreads hread hs hp ht hcmd hok
    rcases ending_runs hsound hreads hread hs hp ht hcmd hlen with ⟨a', w'', hok', hlabels', hsaved⟩
    rw [hok] at hok'
    cases hok'
    rw [hsaved.reads.record] at hr'
    cases hr'
    refine ⟨hlen, cleared_commit_iff.1 hcleared, ?_⟩
    by_cases hloop : t = "disableCommit" ∧ r.supper = .str "1"
    · exact .inr hloop
    · rw [if_neg hloop, hlabels] at hlabels'
      exact .inl (List.map_eq_nil_iff.1 (List.append_cancel_right hlabels'))
  · rintro ⟨hlen, hothers, hloop⟩
    rcases ending_runs hsound hreads hread hs hp ht hcmd hlen with ⟨a, w', hok, hlabels, hsaved⟩
    refine ⟨a, w', r.cleared, hok, ?_, hsaved.reads.record, cleared_supper r,
      cleared_commit_iff.2 hothers⟩
    rw [hlabels]
    rcases hloop with hnone | hloop
    · rw [hnone, List.map_nil, ite_self]
    · rw [if_pos hloop]

/-- A super-mode command for the first workstation. -/
def superPost (t : String) (slots : List Int) : Post :=
  ⟨some "1", some t, none, none, some (some (encode (array (slots.map .num))))⟩

/-- A session on the first disk, whose child is there. -/
def inSession : World :=
  { handle oneStation (superPost "true" [1]) with
    child := fun f => if f = "/srv/writeback/win10cc.qcow2_child_b42e992cdd52"
      then some ⟨"/srv/images/boot/win10cc.qcow2", [(5, ⟨77, 0⟩)], 0⟩ else none }

/-- The settings `disableCommit` reads there. -/
def shippedBack : Server :=
  ⟨"", "/srv/writeback", "", "_child_", "", 0, "2020-02-10.com.nsboot", "", "", "", "", ""⟩

theorem entry_of_any {v : Value} {kvs : List (Key × Value)} (hv : v = .table kvs)
    (h : (coreOf v).any (fun r => decide (Readable r)) = true) : Entry v := by
  refine ⟨⟨kvs, hv⟩, fun _ => ?_⟩
  cases hr : coreOf v with
  | none =>
    rw [hr] at h
    cases h
  | some r =>
    rw [hr, Option.any_some, decide_eq_true_iff] at h
    exact ⟨r, rfl, h⟩

theorem sound_of_one {c : Value} {kvs : List (Key × Value)} (hkeys : HasKeys 1 c)
    (hconf : checkconf c = some true) (hback : (Server.back? c).isSome)
    (hv : (wksOf c).get (.num 1) = .table kvs)
    (hread : (coreOf ((wksOf c).get (.num 1))).any (fun r => decide (Readable r)) = true) :
    Sound 1 c := by
  refine ⟨hkeys, hconf, hback, ?_⟩
  intro k hk
  rw [show seqKeys 1 = [Key.num 1] from rfl, List.mem_singleton] at hk
  subst hk
  exact entry_of_any hv hread

theorem commit_complete_office :
    Completes 1 shippedBack superRecord (superPost "disableCommit" []) inSession :=
  (commit_complete
    (sound_of_one ⟨_, rfl, by decide +kernel⟩ (by decide +kernel) (by decide +kernel) rfl
      (by decide +kernel))
    (by decide +kernel) (by decide) (by decide +kernel) (by decide) (.inl rfl)
    (by decide +kernel)).2
    ⟨by decide, by
      intro i v hv hi
      have hlt := (List.getElem?_eq_some_iff.1 hv).1
      rw [show superRecord.img.length = 3 from rfl] at hlt
      omega, .inr ⟨rfl, rfl⟩⟩

/-- `disableCommitPoint` clears the flags of the same session and commits nothing. -/
theorem point_commits_nothing :
    Wks.of? ((wksOf inSession.file.val).get (.num 1)) = some superRecord ∧
    superRecord.toCommit shippedBack inSession =
      ["/srv/writeback/win10cc.qcow2_child_b42e992cdd52"] ∧
    (exec (post (superPost "disableCommitPoint" [])) inSession).isOk ∧
    (labels (post (superPost "disableCommitPoint" [])) inSession).filter Op.shown = [.save] ∧
    supperOf (handle inSession (superPost "disableCommitPoint" [])).file.val 1 = .str "0" := by
  decide +kernel

/-! ## Runs of super-mode requests -/

theorem Sound.superEdits {N : Nat} {p : Post} {c c' : Value} (hc : Sound N c)
    (h : SuperEdits p c c') : Sound N c' := by
  induction h with
  | refl => exact hc
  | tail _ hstep ih =>
    cases hstep with
    | flags _ _ _ hput =>
      exact ih.puts (fun _ _ => FlagStep.entry) (fun _ _ => FlagStep.ne_nil) hput
    | nbd _ _ _ _ _ hput =>
      exact ih.puts (fun _ _ => NbdStep.entry) (fun _ _ => NbdStep.ne_nil) hput

/-- Workstation `n` has a record with three slots that can be read. -/
structure Three (N : Nat) (n : Int) (c : Value) : Prop where
  sound : Sound N c
  record : ∃ r, coreOf ((wksOf c).get (.num n)) = some r ∧ Readable r ∧ r.img.length = 3

theorem Three.reads {N : Nat} {n : Int} {c : Value} (h : Three N n c) :
    ∃ r, Reads c (.num n) r ∧ Readable r ∧ r.img.length = 3 := by
  rcases h.record with ⟨r, hr, hread, hlen⟩
  rcases Option.map_eq_some_iff.1 hr with ⟨r₀, hr₀, rfl⟩
  refine ⟨r₀, h.sound.reads hr₀, readable_core.1 hread, ?_⟩
  rwa [Wks.core, List.length_map] at hlen

/-- Disks are chosen in super mode only. -/
def ChosenInSuper (n : Int) (c : Value) : Prop :=
  ∀ r, Wks.of? ((wksOf c).get (.num n)) = some r → (∃ v ∈ r.img, v.commit.isOne) → r.supper.isOne

/-- Both. -/
def Selected (N : Nat) (n : Int) (c : Value) : Prop := Three N n c ∧ ChosenInSuper n c

section Steps

variable {N : Nat} {n : Int} {p : Post} {c c' : Value}

theorem Three.superEdits (h : Three N n c) (hedits : SuperEdits p c c') : Three N n c' := by
  refine ⟨h.sound.superEdits hedits, ?_⟩
  rw [SuperEdits.core hedits]
  exact h.record

theorem Three.reload (h : Three N n c) (hmem : InMemory c) : Three N n c.reload := by
  refine ⟨h.sound.reload hmem, ?_⟩
  rw [h.sound.keys.get_reload hmem, (hmem.records _).core_reload]
  exact h.record

theorem ChosenInSuper.reload (h : ChosenInSuper n c) (hc : Three N n c) (hmem : InMemory c) :
    ChosenInSuper n c.reload := by
  intro r hr
  rw [hc.sound.keys.get_reload hmem, (hmem.records _).of?_reload] at hr
  exact h r hr

/-- Flags of another workstation, and devices. -/
theorem SuperEdits.of?_ne {m : Int} (hid : p.id.bind numberOf = some m) (hne : n ≠ m)
    (h : SuperEdits p c c') :
    Wks.of? ((wksOf c').get (.num n)) = Wks.of? ((wksOf c).get (.num n)) := by
  induction h with
  | refl => rfl
  | tail _ hstep ih =>
    rw [← ih]
    cases hstep with
    | @flags k cmd hid' hcmd hset hput =>
      rw [hid] at hid'
      cases hid'
      rw [hput.get_ne (by simpa using hne)]
    | nbd _ _ _ _ _ hput => exact hput.same (g := Wks.of?) (fun _ _ => NbdStep.of?) (.num n)

/-- Choosing disks puts the workstation in super mode. -/
theorem setFlags_chosen {m : Int} {data : Option Json} (h : setFlags m data c = some c')
    (hc : ChosenInSuper n c) : ChosenInSuper n c' := by
  by_cases hnm : n = m
  · subst hnm
    intro r hr _
    simp only [setFlags, Option.bind_eq_bind, Option.bind_eq_some_iff] at h
    rcases h with ⟨d, -, h⟩
    split at h
    · rcases Option.bind_eq_some_iff.1 h with ⟨c₁, -, hsup⟩
      rcases Value.assign?_append (p := ["wks", .num n]) hsup with ⟨v, v', -, hassign, hput⟩
      rw [Wks.supper_of hr, Put.get_self hput,
        ← Option.some.inj (Value.assign?_get_self hassign)]
      exact isOne_one
    · cases h
  · intro r hr
    rw [(setFlags_puts h).get_ne (by simpa using hnm)] at hr
    exact hc r hr

/-- Clearing the flags leaves no disk chosen. -/
theorem clearFlags_chosen {m : Int} (h : clearFlags m c = some c') (hthree : Three N n c)
    (hc : n ≠ m → ChosenInSuper n c) : ChosenInSuper n c' := by
  by_cases hnm : n = m
  · subst hnm
    rcases hthree.reads with ⟨r, hr, -, hlen⟩
    rcases clearFlags_exists hr (le_of_eq hlen.symm) with ⟨c₁, hc₁, hr₁⟩
    rw [h] at hc₁
    cases hc₁
    intro r' hr' hone
    rw [hr₁.record] at hr'
    cases hr'
    rcases hone with ⟨v, hv, hone⟩
    exact absurd hone (not_isOne_of_isZero (cleared_commit hlen hv))
  · intro r hr
    rw [(clearFlags_puts h).get_ne (by simpa using hnm)] at hr
    exact hc hnm r hr

end Steps

section Request

variable {N : Nat} {n : Int} {p : Post} {w : World}

/-- The configuration in the file is still as it should be, wherever the program ends. -/
abbrev Safely {α : Type} (N : Nat) (n : Int) (x : Sys α) (w : World) : Prop :=
  Ends (fun w' => Selected N n w'.file.val) (fun _ w' => Selected N n w'.file.val) x w

theorem saveAndReturn_selected {c : Value} (hc : Selected N n c) (hmem : InMemory c) :
    Safely N n (do saveToFile c; return c : Sys Value) w := by
  refine Ends.bind (Q := fun _ w' => Selected N n w'.file.val) ?_ fun _ _ hw' => Ends.pure hw'
  unfold saveToFile
  rw [hc.1.sound.conf, lift_some_bind, Prog.when, if_pos rfl]
  exact ⟨hc.1.reload hmem, hc.2.reload hc.1 hmem⟩

variable (hw : Selected N n w.file.val) {m : Int} (hid : p.id.bind numberOf = some m)

include hw hid

theorem supperTrue_selected (hcmd : p.supper.bind SupperCmd.of? = some .enable) :
    Safely N n (supperTrue m p.jsondata) w := by
  refine Ends.bind (Ends.observe ⟨rfl, rfl⟩) (Q := fun c w' => c = w.file.val ∧ w = w') ?_
  rintro _ _ ⟨rfl, rfl⟩
  split
  · exact Ends.pure hw
  · next data _ =>
    refine Ends.bind (Q := fun c w' => setFlags m data w.file.val = some c ∧ w = w')
      (Ends.lift hw fun c hc => ⟨hc, rfl⟩) ?_
    rintro c _ ⟨hc, rfl⟩
    have hedits : SuperEdits p w.file.val c :=
      .single (.flags hid hcmd (by decide) (setFlags_puts hc))
    exact saveAndReturn_selected ⟨hw.1.superEdits hedits, setFlags_chosen hc hw.2⟩
      (SuperEdits.inMemory hedits hw.1.sound.keys.inMemory)

/-- The end of every command that ends a session, from the configuration `c` that it
works on. -/
theorem clearAndSave_selected {cmd : SupperCmd} (hcmd : p.supper.bind SupperCmd.of? = some cmd)
    (hset : cmd.Sets) (hflag : cmd.flag = "0") {c : Value} (hedits : SuperEdits p w.file.val c) :
    Safely N n (do let c ← lift (clearFlags m c); saveToFile c; return c : Sys Value) w := by
  refine Ends.bind (Q := fun c' w' => clearFlags m c = some c' ∧ w = w')
    (Ends.lift hw fun c' hc' => ⟨hc', rfl⟩) ?_
  rintro c' _ ⟨hc', rfl⟩
  have hthree := hw.1.superEdits hedits
  have hedits' : SuperEdits p w.file.val c' :=
    hedits.tail (.flags hid hcmd hset (hflag ▸ clearFlags_puts hc'))
  refine saveAndReturn_selected ⟨hw.1.superEdits hedits', clearFlags_chosen hc' hthree ?_⟩
    (SuperEdits.inMemory hedits' hw.1.sound.keys.inMemory)
  intro hne r hr
  rw [SuperEdits.of?_ne hid hne hedits] at hr
  exact hw.2 r hr

theorem endSession_selected {cmd : SupperCmd} (hcmd : p.supper.bind SupperCmd.of? = some cmd)
    (hset : cmd.Sets) (hflag : cmd.flag = "0") : Safely N n (endSession m) w := by
  refine Ends.bind (Ends.observe ⟨rfl, rfl⟩) (Q := fun c w' => c = w.file.val ∧ w = w') ?_
  rintro _ _ ⟨rfl, rfl⟩
  exact clearAndSave_selected hw hid hcmd hset hflag .refl

theorem disableCommit_selected (hsup : p.supper = some "disableCommit") :
    Safely N n (disableCommit m) w := by
  refine Ends.bind (Ends.observe ⟨rfl, rfl⟩) (Q := fun c w' => c = w.file.val ∧ w = w') ?_
  rintro _ _ ⟨rfl, rfl⟩
  refine Ends.bind (Q := fun c' w' => SuperEdits p w.file.val c' ∧ w'.file = w.file) ?_ ?_
  · refine Ends.of_free ((commitSlots_does hid hsup _).weaken fun _ _ _ => CommitAct.free) ?_
      fun c' w' hc' hfile => ⟨hc', hfile⟩
    intro w' hfile
    rw [hfile]
    exact hw
  · rintro c' w' ⟨hedits, hfile⟩
    have hcmd : p.supper.bind SupperCmd.of? = some .disableCommit := by
      rw [hsup]
      rfl
    rw [← hfile] at hw hedits
    exact clearAndSave_selected hw hid hcmd (by decide) rfl hedits

omit hid in
theorem asks_selected {α : Type} {P : α → Prop} {x : Sys α} (h : Does AskAct P x) :
    Safely N n x w := by
  refine Ends.of_free (h.weaken fun _ _ _ => FreeAct.ask) (fun w' hfile => ?_)
    fun _ w' _ hfile => ?_
  · rw [hfile]
    exact hw
  · rw [hfile]
    exact hw

omit hid in
theorem supperPart_selected (p : Post) : Safely N n (supperPart p w.file.val) w := by
  unfold supperPart
  split
  · next id cmd hid hcmd =>
    refine Ends.bind (Q := fun _ w' => w = w') (Ends.lift hw fun _ _ => rfl) ?_
    rintro ok _ rfl
    refine Ends.ite (fun _ => ?_) fun _ => hw
    refine Ends.bind (Q := fun _ w' => w = w') (Ends.lift hw fun _ _ => rfl) ?_
    rintro v _ rfl
    split
    · exact hw
    · next m hm =>
      have hid' : p.id.bind numberOf = some m := by simp [hid, hm]
      refine Ends.ite (fun _ => hw) fun _ => ?_
      cases cmd with
      | enable => exact supperTrue_selected hw hid' hcmd
      | disableUncommit =>
        exact Ends.ite (fun _ => hw) fun _ => endSession_selected hw hid' hcmd (by decide) rfl
      | disableCommit =>
        refine Ends.ite (fun _ => hw) fun _ => disableCommit_selected hw hid' ?_
        exact eq_disableCommit hcmd
      | disableCommitPoint =>
        exact Ends.ite (fun _ => hw) fun _ => endSession_selected hw hid' hcmd (by decide) rfl
      | supperCheck =>
        exact Ends.ite (fun _ => hw) fun _ =>
          asks_selected hw (Does.bind (askConnected_does v) fun _ _ => Does.done _)
      | diskList =>
        exact Ends.ite (fun _ => hw) fun _ =>
          asks_selected hw (Does.bind (Does.lift fun _ _ => trivial) fun _ _ => Does.done _)
  · exact hw

omit hid in
/-- One super-mode request, for any workstation. -/
theorem Selected.post (hp : SuperOnly p) : Selected N n (exec (post p) w).final.file.val := by
  have hpart := (supperPart_selected hw p).final
  rw [exec_post_super hp hw.1.sound.conf]
  cases hx : exec (supperPart p w.file.val) w with
  | ok c w' | error w' | hang w' =>
    rw [hx] at hpart
    exact hpart

end Request

/-- The saved record of workstation `n` after a request that returned. -/
def Leaves (n : Int) (p : Post) (w : World) (Q : Wks → Prop) : Prop :=
  ∃ a w' r, exec (post p) w = .ok a w' ∧ Wks.of? ((wksOf w'.file.val).get (.num n)) = some r ∧ Q r

/-- The commands that end a session. -/
def Post.EndsSession (p : Post) (n : Int) : Prop :=
  p.Is n "disableUncommit" ∨ p.Is n "disableCommit" ∨ p.Is n "disableCommitPoint"

/-- `supper=true` for the slots `is` (from 0). -/
def Post.Chooses (p : Post) (n : Int) (is : List Nat) : Prop :=
  p.Is n "true" ∧ ∃ d us, p.jsondata = some (some d) ∧ d.val = .table us ∧
    slotsIn? (ipairs us) = some is

section Single

variable {N : Nat} {n : Int} {p : Post} {w : World} (hw : Selected N n w.file.val)
  (hp : SuperOnly p)

include hw hp

theorem Leaves.of_handler {t : String} {cmd : SupperCmd} (hcmd : p.Is n t)
    (hof : SupperCmd.of? t = some cmd) (hset : cmd.Sets) {ops : List Op} {r : Wks} {Q : Wks → Prop}
    (hruns : Runs Op.shown ops (fun _ => SavedAs N n r)
      (loadFromFile >>= (cmd.edit n p.jsondata ·)) w)
    (hQ : Q r) : Leaves n p w Q := by
  rcases hw.1.reads with ⟨r₀, hr₀, -, -⟩
  rw [← supperPart_eq hcmd hof hset hw.1.sound.conf hr₀] at hruns
  rcases post_super_runs hp hw.1.sound.conf hruns with ⟨a, w', hexec, -, hsaved⟩
  exact ⟨a, w', r, hexec, hsaved.reads.record, hQ⟩

theorem Selected.ends (hcmd : p.EndsSession n) :
    Leaves n p w fun r => r.supper.isZero ∧ ∀ v ∈ r.img, ¬ v.commit.isOne := by
  rcases hw.1.reads with ⟨r, hr, hread, hlen⟩
  have hle : 3 ≤ r.img.length := le_of_eq hlen.symm
  have hcleared : r.cleared.supper.isZero ∧ ∀ v ∈ r.cleared.img, ¬ v.commit.isOne := by
    refine ⟨cleared_supper r, ?_⟩
    intro v hv
    exact not_isOne_of_isZero (cleared_commit hlen hv)
  rcases hcmd with hcmd | hcmd | hcmd
  · exact Leaves.of_handler hw hp hcmd rfl (by decide) (endSession_runs hw.1.sound hr hle) hcleared
  · rcases Option.isSome_iff_exists.1 hw.1.sound.back with ⟨s, hs⟩
    exact Leaves.of_handler hw hp hcmd rfl (by decide)
      (disableCommit_runs hw.1.sound hr hread hle hs) hcleared
  · exact Leaves.of_handler hw hp hcmd rfl (by decide) (endSession_runs hw.1.sound hr hle) hcleared

/-- Out of super mode nothing is chosen, so afterwards just the slots of the list are. -/
theorem Selected.chooses {is : List Nat} (hcmd : p.Chooses n is) (his : ∀ i ∈ is, i < 3)
    (hoff : (supperOf w.file.val n).isZero) :
    Leaves n p w fun r => r.supper.isOne ∧
      ∀ (i : Nat) (v : Img), r.img[i]? = some v → (v.commit.isOne ↔ i ∈ is) := by
  rcases hw.1.reads with ⟨r, hr, hread, hlen⟩
  rcases hcmd with ⟨hcmd, d, us, hdata, hd, hslots⟩
  have hruns := supperTrue_runs hw.1.sound hr hd hslots (hlen ▸ his)
  rw [← hdata] at hruns
  refine Leaves.of_handler hw hp hcmd rfl (by decide) hruns ⟨isOne_one, ?_⟩
  intro i v hv
  simp only [getElem?_setCommits, Option.map_eq_some_iff] at hv
  rcases hv with ⟨u, hu, rfl⟩
  by_cases hi : i ∈ is
  · simp only [hi, iff_true]
    exact isOne_one
  · simp only [hi, iff_false]
    intro hone
    have hsuper := hw.2 r hr.record ⟨u, List.mem_of_getElem? hu, hone⟩
    rw [Wks.supper_of hr.record] at hsuper
    exact not_isOne_of_isZero hoff hsuper

end Single

/-- **The chosen disks are those of the session**, in every state that super-mode
requests lead to: they are chosen in super mode only, a command that ends the session
leaves none, and one that starts a session leaves those of its list. -/
theorem selection_exact {N : Nat} {n : Int} {r : Wks} {w : World} (hsound : Sound N w.file.val)
    (hr : Wks.of? ((wksOf w.file.val).get (.num n)) = some r) (hread : Readable r)
    (hthree : r.img.length = 3) (hstart : (∃ v ∈ r.img, v.commit.isOne) → r.supper.isOne)
    {ps : List Post} (hps : Along handle (fun _ p => SuperOnly p) w ps) :
    ChosenInSuper n (run handle w ps).file.val ∧
    (∀ p, SuperOnly p → p.EndsSession n → Leaves n p (run handle w ps) fun r =>
      r.supper.isZero ∧ ∀ v ∈ r.img, ¬ v.commit.isOne) ∧
    (∀ p is, SuperOnly p → p.Chooses n is → (∀ i ∈ is, i < 3) →
      (supperOf (run handle w ps).file.val n).isZero →
      Leaves n p (run handle w ps) fun r => r.supper.isOne ∧
        ∀ (i : Nat) (v : Img), r.img[i]? = some v → (v.commit.isOne ↔ i ∈ is)) := by
  have hfirst : Selected N n w.file.val := by
    refine ⟨⟨hsound, r.core, ?_, readable_core.2 hread, ?_⟩, ?_⟩
    · rw [coreOf, hr, Option.map_some]
    · rw [Wks.core, List.length_map]
      exact hthree
    · intro r' hr'
      rw [hr] at hr'
      cases hr'
      exact hstart
  have hlast : Selected N n (run handle w ps).file.val :=
    hps.invariant (I := fun w => Selected N n w.file.val) (fun _ _ hw hp => hw.post hp) hfirst
  refine ⟨hlast.2, ?_, ?_⟩
  · intro p hp hcmd
    exact hlast.ends hp hcmd
  · intro p is hp hcmd his hoff
    exact hlast.chooses hp hcmd his hoff

/-- A session that is dropped. -/
def droppedChoice : List Post := [superPost "true" [1], superPost "disableUncommit" []]

/-- After it, another disk is chosen. -/
theorem selection_exact_office :
    ChosenInSuper 1 (run handle oneStation droppedChoice).file.val ∧
    Leaves 1 (superPost "true" [2]) (run handle oneStation droppedChoice) fun r =>
      r.supper.isOne ∧ ∀ (i : Nat) (v : Img), r.img[i]? = some v → (v.commit.isOne ↔ i ∈ [1]) := by
  have hps : Along handle (fun _ p => SuperOnly p) oneStation droppedChoice := by decide
  have hrun := selection_exact (n := 1)
    (sound_of_one ⟨_, rfl, by decide +kernel⟩ (by decide +kernel) (by decide +kernel) rfl
      (by decide +kernel))
    (r := { superRecord.setCommits (.num 0) [0] with supper := .num 0 })
    (by decide +kernel) (by decide) (by decide) (by decide) hps
  refine ⟨hrun.1, hrun.2.2 (superPost "true" [2]) [1] (by decide) ?_ (by decide)
    (by decide +kernel)⟩
  exact ⟨by decide +kernel, _, _, rfl, rfl, by decide +kernel⟩

/-- A workstation with a second volume. -/
def fourSlots : World :=
  World.initial (shippedCfg ⟨"", "", ""⟩
    [.table [("mac", .str "b4:2e:99:2c:dd:52"), ("ipv4", .str "192.168.0.3"),
      ("name", .str "PC001"),
      ("enable", .num 1), ("tid", .num 1), ("supper", .num 0), ("fileboot", .str "ipxe"),
      ("img", array [shippedSlot "win10cc.qcow2" "dyndisk" 1 1,
        shippedSlot "lord.qcow2" "dynblock" 0 1, shippedSlot "" "iso" 0 0,
        shippedSlot "games.qcow2" "dynblock" 0 1]),
      ("opt", array [])]]) []

/-- The flags `(supper, commit of each slot)` of the first workstation. -/
def flagsOf (w : World) : Option (Value × List Value) :=
  (Wks.of? ((wksOf w.file.val).get (.num 1))).map fun r => (r.supper, r.img.map Img.commit)

/-- The flag of the fourth slot outlives its session, and is chosen in the next one. -/
theorem fourth_slot_stays :
    flagsOf (run handle fourSlots [superPost "true" [4], superPost "disableUncommit" []]) =
      some (.str "0", [.str "0", .str "0", .str "0", .str "1"]) ∧
    flagsOf (run handle fourSlots
        [superPost "true" [4], superPost "disableUncommit" [], superPost "true" [1]]) =
      some (.str "1", [.str "1", .str "0", .str "0", .str "1"]) := by
  decide +kernel

end NsBoot
