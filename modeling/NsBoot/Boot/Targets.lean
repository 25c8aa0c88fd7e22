import NsBoot.Admin.Keep
import NsBoot.Admin.Unique
import NsBoot.Machine

/-!
# NsBoot.Boot.Targets — whose the iSCSI targets are

A boot creates the target of its workstation: the id is the `tid` of the record,
the name is made from the MAC. `tgtd` keeps it until it is deleted by its id, and
only a boot or a `disableCommit` of the same record does that. The handlers that
change or delete a record do not: after `DeleteMachine` the target of the deleted
workstation is still there (`target_outlives_machine`).

* `Target.Owned`: the record under the target's id is live, has that id as its
  `tid`, and the name is made from its MAC.
* `BootAct.labels`: a boot adds no target but that of its own record.
* `SparesOwners`: a request leaves the records of the targets there are in place.
* `targets_owned`: along runs of such requests every target is owned.
-/

namespace NsBoot

open Lua Prog Relation Run

/-! ## Owners -/

/-- The record is that of a live workstation with the given `tid`, which the
target is named after. -/
structure Owner (s : Server) (t : Target) (k : Int) (v : Value) : Prop where
  ne_nil : v ≠ .nil
  live : v.get "empty" ≠ .str "true"
  tid : (v.get "tid").tonumber = some k
  name : ∃ x, vidOf v = some x ∧ t.name = targetName s x

/-- The slot with the target's id is that of the target's workstation. -/
def Target.Owned (c : Value) (t : Target) : Prop :=
  ∃ s k, Server.of? c = some s ∧ numberOf t.tid = some k ∧ Owner s t k ((wksOf c).get (.num k))

/-- Neither flags nor devices make an owner. -/
theorem Owner.congr {s : Server} {t : Target} {k : Int} {v v' : Value} (h : Owner s t k v)
    (hplace : place v' = place v) (hid : identity v' = identity v) (hnil : v' = .nil ↔ v = .nil) :
    Owner s t k v' := by
  simp only [place, identity, Prod.mk.injEq] at hplace hid
  constructor
  · exact fun hv' => h.ne_nil (hnil.1 hv')
  · rw [hplace.1]
    exact h.live
  · rw [hplace.2]
    exact h.tid
  · unfold vidOf
    rw [hid.2.1]
    exact h.name

/-- Only the id and the name of a target count. -/
def Target.label (t : Target) : String × String := (t.tid, t.name)

theorem Target.Owned.of_label {c : Value} {t t' : Target} (h : t.Owned c)
    (hl : t.label = t'.label) : t'.Owned c := by
  simp only [Target.label, Prod.mk.injEq] at hl
  rcases h with ⟨s, k, hs, hk, howner⟩
  refine ⟨s, k, hs, hl.1 ▸ hk, howner.ne_nil, howner.live, howner.tid, ?_⟩
  rw [← hl.2]
  exact howner.name

/-! ## Boots -/

/-- The targets after a step are those before it, and that of the record. -/
def AddsOwn (s : Server) (r : Wks) (w w' : World) : Prop :=
  ∀ t ∈ w'.tgts, (∃ t' ∈ w.tgts, t'.label = t.label) ∨
    ∃ tid, r.tid.concat? = some tid ∧ t.label = (tid, targetName s r.vid)

instance (s : Server) (r : Wks) : IsPreorder World (AddsOwn s r) where
  refl w t ht := Or.inl ⟨t, ht, rfl⟩
  trans w₁ w₂ w₃ h h' t ht := by
    rcases h' t ht with ⟨t', ht', hlabel⟩ | hnew
    · rw [← hlabel]
      exact h t' ht'
    · exact Or.inr hnew

theorem AddsOwn.of_mem {s : Server} {r : Wks} {w w' : World} (h : ∀ t ∈ w'.tgts, t ∈ w.tgts) :
    AddsOwn s r w w' :=
  fun t ht => Or.inl ⟨t, h t ht, rfl⟩

theorem BootAct.labels {s : Server} {r : Wks} {o : Op} {w w' : World} (h : BootAct s r o w w') :
    AddsOwn s r w w' := by
  cases h with
  | zfs h => exact .of_mem fun _ => id
  | child h =>
    cases h with
    | create _ p f => rcases create_cases w p f with h | h <;> rw [h] <;> exact .of_mem fun _ => id
    | idle | kill | del | setLock => exact .of_mem fun _ => id
  | dev h =>
    cases h with
    | stop h =>
      cases h with
      | kill h =>
        cases h with
        | idle => exact .of_mem fun _ => id
        | tgtKill => exact .of_mem fun _ => List.mem_of_mem_filter
      | nbdDel => exact .of_mem fun _ => id
    | add h =>
      cases h with
      | idle => exact .of_mem fun _ => id
      | nbdAdd =>
        unfold World.nbdAdd
        split <;> exact .of_mem fun _ => id
      | tgtNew _ tid ht =>
        unfold World.tgtNew
        split
        · exact .of_mem fun _ => id
        · intro t hmem
          rcases List.mem_append.1 hmem with hold | hnew
          · exact Or.inl ⟨t, hold, rfl⟩
          · rw [List.mem_singleton] at hnew
            exact Or.inr ⟨tid, ht, by rw [hnew]; rfl⟩
      | lunNew =>
        intro t hmem
        rcases List.mem_map.1 hmem with ⟨t', ht', rfl⟩
        refine Or.inl ⟨t', ht', ?_⟩
        split <;> rfl

/-- Marked empty, a record has no address: no boot is answered for it. -/
def NoGhost (v : Value) : Prop := v.get "empty" = .str "true" → ∀ a, v.get "ipv4" ≠ .str a

theorem Wks.of?_tid {v : Value} {r : Wks} (h : Wks.of? v = some r) : r.tid = v.get "tid" := by
  simp only [Wks.of?, Option.bind_eq_bind, Option.bind_eq_some_iff, Option.pure_def,
    Option.some.injEq] at h
  obtain ⟨_, -, _, -, _, -, rfl⟩ := h
  rfl

theorem tostring_of_concat? {v : Value} {t : String} (h : v.concat? = some t) : v.tostring = t := by
  cases v with
  | num | str =>
    cases h
    rfl
  | nil | bool | table => cases h

section Boot

variable {n : Nat} {w : World} (hw : WellFormed n w.file.val)
  (hghost : ∀ k, NoGhost ((wksOf w.file.val).get k))

include hw hghost

/-- The record a boot is answered for owns the target it creates. -/
theorem Booted.owner {ip : String} {k : Key} {s : Server} {r : Wks} (h : Booted w ip k s r)
    {t : Target} {tid : String} (htid : r.tid.concat? = some tid)
    (ht : t.label = (tid, targetName s r.vid)) : t.Owned w.file.val := by
  have hip := getIDFromIPv4_get hw.keys.inMemory h.id
  have hlive : Live w.file.val k := by
    constructor
    · intro hnil
      rw [hnil] at hip
      cases hip
    · exact fun hempty => hghost k hempty ip hip
  -- the table is an array, so the record is under its `tid`
  obtain ⟨m, rfl, hm, -⟩ := mem_seqKeys.1 (hw.keys.mem_of_get hlive.1)
  have hnum := hw.tid m hlive
  simp only [Target.label, Prod.mk.injEq] at ht
  refine ⟨s, m, h.server, ?_, hlive.1, hlive.2, hnum, r.vid, vidOf_of? h.wks, ht.2⟩
  rw [← Wks.of?_tid h.wks] at hnum
  have htext := tonumber_tostring hnum hm
  rw [ht.1]
  rwa [tostring_of_concat? htid] at htext

theorem boot_owned (h : ∀ t ∈ w.tgts, t.Owned w.file.val) (ip : String) :
    ∀ t ∈ (exec (bootRequest ip) w).final.tgts,
      t.Owned (exec (bootRequest ip) w).final.file.val := by
  rw [(boot_shrinks ip w).file]
  rcases bootRequest_cases ip w with ⟨hsame, -⟩ | ⟨k, s, r, hboot, hrun⟩
  · rwa [hsame]
  · have hadds : AddsOwn s r w (exec (pipeline s r) w).final :=
      (pipeline_does.weaken (S := fun _ => AddsOwn s r) fun _ _ _ => BootAct.labels).final w
    rw [hrun]
    intro t ht
    rcases hadds t ht with ⟨t', ht', hlabel⟩ | ⟨tid, htid, hlabel⟩
    · exact (h t' ht').of_label hlabel
    · exact hboot.owner hw hghost htid hlabel

end Boot

/-! ## Requests -/

/-- No request adds a target. -/
def Drops (w w' : World) : Prop := ∀ t ∈ w'.tgts, t ∈ w.tgts

instance : IsPreorder World Drops where
  refl _ _ := id
  trans _ _ _ h h' t ht := h t (h' t ht)

theorem PostAct.drops {o : Op} {w w' : World} (h : PostAct o w w') : Drops w w' := by
  cases h with
  | load => exact fun _ => id
  | save => exact fun _ => id
  | free h =>
    cases h with
    | stop h =>
      cases h with
      | kill h =>
        cases h with
        | idle => exact fun _ => id
        | tgtKill => exact fun _ => List.mem_of_mem_filter
      | nbdDel => exact fun _ => id
    | dhcpd => exact fun _ => id
    | ask h =>
      obtain rfl := h.eq
      exact fun _ => id
    | commit =>
      unfold World.startCommit
      split <;> exact fun _ => id

theorem post_drops (p : Post) (w : World) : Drops w (exec (post p) w).final :=
  ((post_does p).weaken (S := fun _ => Drops) fun _ _ _ => PostAct.drops).final w

/-- The request leaves the records of the targets there are in place: it deletes
none of them, and a record it puts in the place of one has the same MAC. -/
structure SparesOwners (w : World) (p : Post) : Prop where
  tid : p.wksCmd = some "ApplyMy" → ∀ n, HasKeys n w.file.val → TidIn n p
  live : p.wksCmd = some "ApplyMy" → ∀ d, p.jsondata = some (some d) →
    (d.val.get "WKS").get "empty" ≠ .str "true"
  mac : p.wksCmd = some "ApplyMy" → ∀ d m, p.jsondata = some (some d) →
    p.tid?.bind Value.tonumber = some m → ∀ t ∈ w.tgts, numberOf t.tid = some m →
      ∃ x, vidOf (d.val.get "WKS") = some x ∧
        ∀ s, Server.of? w.file.val = some s → t.name = targetName s x
  delete : p.wksCmd = some "DeleteMachine" → ∀ m, p.id.bind numberOf = some m →
    ∀ t ∈ w.tgts, numberOf t.tid ≠ some m

theorem NoGhost.congr {v v' : Value} (h : NoGhost v) (hid : identity v' = identity v) :
    NoGhost v' := by
  simp only [identity, Prod.mk.injEq] at hid
  unfold NoGhost
  rw [hid.1, hid.2.2]
  exact h

theorem post_noGhost {p : Post} {w : World} (hw : InMemory w.file.val) (hp : SparesOwners w p)
    (h : ∀ k, NoGhost ((wksOf w.file.val).get k)) :
    ∀ k, NoGhost ((wksOf (exec (post p) w).final.file.val).get k) := by
  refine post_records hw h ?_ ?_ ?_ ?_ ?_
  · constructor
    · intro n cmd _ _ _ v v' _ hflag hv
      exact hv.congr hflag.identity
    · intro v v' hnbd hv
      exact hv.congr hnbd.identity
  · intro hcmd d hdata hempty
    exact absurd hempty (hp.live hcmd d hdata)
  · intro _ a ha
    cases ha
  · intro hempty
    cases hempty
  · intro v hv hghost
    exact hghost.congr hv.identity_reload

/-- One record, over the edits of a request. -/
theorem Edited.owner {p : Post} {w : World} {c : Value} (he : Edited p w.file.val c)
    (hp : SparesOwners w p) {s : Server} (hs : Server.of? w.file.val = some s) {t : Target}
    (ht : t ∈ w.tgts) {k : Int} (hk : numberOf t.tid = some k)
    (h : Owner s t k ((wksOf w.file.val).get (.num k))) : Owner s t k ((wksOf c).get (.num k)) := by
  rcases he with ⟨c₁, hsuper, hrec⟩
  have h₁ : Owner s t k ((wksOf c₁).get (.num k)) := by
    refine h.congr ?_ (SuperEdits.identity hsuper _).1 (SuperEdits.identity hsuper _).2
    exact SuperEdits.same hsuper (fun _ _ _ => FlagStep.place) (fun _ _ => NbdStep.place) _
  rcases hrec with rfl | hrec
  · exact h₁
  · cases hrec with
    | @apply tid d m hcmd hdata htid hfree hm hput =>
      by_cases hkm : k = m
      · -- the posted record takes the place of the owner
        subst hkm
        rw [hput.get_self]
        have htid? : p.tid?.bind Value.tonumber = some k := by
          rw [Post.tid?_eq hdata htid]
          exact hm
        rcases hp.mac hcmd d k hdata htid? t ht hk with ⟨x, hx, hname⟩
        refine ⟨?_, hp.live hcmd d hdata, ?_, x, hx, hname s hs⟩
        · intro hnil
          rw [hnil] at hx
          cases hx
        · rwa [at?_two htid]
      · rw [hput.get_ne (by simpa using hkm)]
        exact h₁
    | @delete v tid id m hid hcmd hm hold hv htid heq hput =>
      have hkm : k ≠ m := by
        rintro rfl
        exact hp.delete hcmd k (by simp [hid, hm]) t ht hk
      rw [hput.get_ne (by simpa using hkm)]
      exact h₁

theorem post_owned {n : Nat} {p : Post} {w : World} (hw : WellFormed n w.file.val)
    (hp : SparesOwners w p) (h : ∀ t ∈ w.tgts, t.Owned w.file.val) :
    ∀ t ∈ (exec (post p) w).final.tgts, t.Owned (exec (post p) w).final.file.val := by
  have hmem := hw.keys.inMemory
  intro t ht
  have hold : t ∈ w.tgts := post_drops p w t ht
  rcases h t hold with ⟨s, k, hs, hk, howner⟩
  refine ⟨s, k, (post_server hmem).trans hs, hk, ?_⟩
  rcases post_file (p := p) hmem with hsame | ⟨c, hedit, hc, hfile⟩
  · rwa [hsame]
  · obtain ⟨n', -, hwf⟩ := hw.edited hedit fun hcmd => hp.tid hcmd n hw.keys
    have hrec := hc.records (.num k)
    rw [hfile, hwf.keys.get_reload hc]
    refine (hedit.owner hp hs hold hk howner).congr ?_ hrec.identity_reload reload_eq_nil
    simp only [place, hrec.get_reload (f := "empty") rfl (by decide),
      hrec.get_reload (f := "tid") rfl (by decide)]

/-! ## Runs -/

/-- What `targets_owned` asks of a step: nothing of a boot. -/
def Tends (w : World) : Event → Prop
  | .post p => SparesOwners w p
  | .boot _ | .write _ _ _ _ | .copy _ => True

structure TargetsOwned (w : World) : Prop where
  table : ∃ n, WellFormed n w.file.val
  ghosts : ∀ k, NoGhost ((wksOf w.file.val).get k)
  owned : ∀ t ∈ w.tgts, t.Owned w.file.val

theorem TargetsOwned.step {w : World} {e : Event} (h : TargetsOwned w) (he : Tends w e) :
    TargetsOwned (w.step e) := by
  rcases h.table with ⟨n, hn⟩
  cases e with
  | boot ip =>
    have hfile : (w.step (.boot ip)).file = w.file := (boot_shrinks ip w).file
    constructor
    · rw [hfile]
      exact h.table
    · rw [hfile]
      exact h.ghosts
    · exact boot_owned hn h.ghosts h.owned ip
  | post p =>
    constructor
    · rcases hn.post fun hcmd => he.tid hcmd n hn.keys with ⟨n', -, hwf⟩
      exact ⟨n', hwf⟩
    · exact post_noGhost hn.keys.inMemory he h.ghosts
    · exact post_owned hn he h.owned
  | write k i b data =>
    rcases writeVia_cases w k i b data with hsame | ⟨f, o, -, -, hnew⟩
    · rwa [World.step, hsame]
    · rw [World.step, hnew]
      exact ⟨h.table, h.ghosts, h.owned⟩
  | copy pid =>
    have htgts : (w.copyBlock pid).tgts = w.tgts := by
      unfold World.copyBlock
      split
      · split <;> rfl
      · rfl
    have hfile := (copyBlock_stores w pid).1
    refine ⟨?_, ?_, ?_⟩ <;> simp only [World.step, htgts, hfile]
    · exact h.table
    · exact h.ghosts
    · exact h.owned

/-- **Every target belongs to a live workstation**, along every run that starts
without targets and whose requests leave the records of targets in place. -/
theorem targets_owned {n : Nat} {w : World} (hw : WellFormed n w.file.val)
    (hghost : ∀ k, NoGhost ((wksOf w.file.val).get k)) (hnone : w.tgts = []) {es : List Event}
    (hes : Along World.step Tends w es) :
    ∀ t ∈ (run World.step w es).tgts, t.Owned (run World.step w es).file.val := by
  have hstart : TargetsOwned w := by
    refine ⟨⟨n, hw⟩, hghost, ?_⟩
    rw [hnone]
    intro t ht
    cases ht
  exact (hes.invariant (I := TargetsOwned) (fun _ _ => TargetsOwned.step) hstart).owned

/-! ## A workstation deleted while it runs -/

/-- The workstation boots, and is deleted. -/
def bootAndDelete : List Event := [.boot "192.168.0.3", .post (deletePost "1")]

theorem oneStation_wellFormed : WellFormed 1 oneStation.file.val :=
  .of_keys ⟨_, rfl, by decide +kernel⟩ (by decide +kernel)

/-- Its target is still there, and its slot is not live. -/
theorem target_outlives_machine : WellFormed 1 oneStation.file.val ∧ oneStation.tgts = [] ∧
    ∃ t ∈ (run World.step oneStation bootAndDelete).tgts,
      ¬ t.Owned (run World.step oneStation bootAndDelete).file.val := by
  refine ⟨oneStation_wellFormed, rfl, ?_⟩
  have hend : (run World.step oneStation bootAndDelete).tgts.map Target.label =
        [("1", "2020-02-10.com.nsboot:b42e992cdd52")] ∧
      ¬ Live (run World.step oneStation bootAndDelete).file.val (.num 1) := by
    decide +kernel
  rcases hend with ⟨hlabel, hdead⟩
  rcases List.map_eq_singleton_iff.1 hlabel with ⟨t, ht, htl⟩
  refine ⟨t, by simp [ht], ?_⟩
  rintro ⟨s, k, -, hk, howner⟩
  have hid : t.tid = "1" := congrArg Prod.fst htl
  rw [hid, show numberOf "1" = some 1 by decide, Option.some.injEq] at hk
  subst hk
  exact hdead ⟨howner.ne_nil, howner.live⟩

/-- The workstation boots, gets another address, and another one is added. -/
def bootAndEdit : List Event :=
  [.boot "192.168.0.3", .post (savedAs "1" "b4-2e-99-2c-dd-52" "192.168.0.9"),
   .post (savedAs "2" "b4:2e:99:2c:dd:01" "192.168.0.5")]

theorem NoGhost.of_keys {n : Nat} {c : Value} (h : HasKeys n c)
    (hd : ∀ k ∈ seqKeys n, ((wksOf c).get k).get "empty" ≠ .str "true") (k : Key) :
    NoGhost ((wksOf c).get k) := by
  intro hempty
  by_cases hk : k ∈ seqKeys n
  · exact absurd hempty (hd k hk)
  · rw [h.get_eq_nil hk] at hempty
    cases hempty

/-- A record with the MAC of the target it gets the place of, if there is one. -/
theorem SparesOwners.of_saved {n : Nat} {w : World} (hkeys : HasKeys n w.file.val)
    {tid mac : String}
    {m : Int} (hm : numberOf tid = some m) (hle : 1 ≤ m ∧ m ≤ n + 1)
    (ht : w.tgts.all fun t => numberOf t.tid ≠ some m ∨
      (Server.of? w.file.val).map (targetName · (alnum mac)) = some t.name) (ipv4 : String) :
    SparesOwners w (savedAs tid mac ipv4) := by
  constructor
  · intro _ n' hn' tid' m' htid' hm'
    have hn := hn'.unique hkeys
    subst hn
    have htid : tid' = .str tid := (Option.some.inj htid').symm
    subst htid
    have hmm : m' = m := Option.some.inj (hm'.symm.trans hm)
    rw [hmm]
    exact hle
  · intro _ d hd
    have hd' := (Option.some.inj (Option.some.inj hd)).symm
    subst hd'
    exact Value.noConfusion
  · intro _ d m' hd hm' t hmem hnum
    have hd' := (Option.some.inj (Option.some.inj hd)).symm
    subst hd'
    have hmm : m' = m := Option.some.inj (hm'.symm.trans hm)
    subst hmm
    refine ⟨alnum mac, rfl, fun s hs => ?_⟩
    have hname := List.all_eq_true.1 ht t hmem
    simpa [hnum, hs, eq_comm] using hname
  · intro hcmd
    exact absurd (Option.some.inj hcmd) (by decide : "ApplyMy" ≠ "DeleteMachine")

theorem targets_owned_oneStation :
    ∃ t, (run World.step oneStation bootAndEdit).tgts = [t] ∧
      t.Owned (run World.step oneStation bootAndEdit).file.val := by
  have hes : Along World.step Tends oneStation bootAndEdit := by
    refine ⟨trivial, ?_, ?_, trivial⟩
    · have hkeys : HasKeys 1 (oneStation.step (.boot "192.168.0.3")).file.val := by
        rw [World.step, (boot_shrinks _ _).file]
        exact oneStation_wellFormed.keys
      exact .of_saved hkeys (m := 1) (by decide) (by decide) (by decide +kernel) _
    · exact .of_saved (n := 1) ⟨_, rfl, by decide +kernel⟩ (m := 2) (by decide) (by decide)
        (by decide +kernel) _
  have howned := targets_owned oneStation_wellFormed
    (NoGhost.of_keys oneStation_wellFormed.keys (by decide +kernel)) rfl hes
  have hlen : (run World.step oneStation bootAndEdit).tgts.length = 1 := by decide +kernel
  rcases List.length_eq_one_iff.1 hlen with ⟨t, ht⟩
  refine ⟨t, ht, howned t ?_⟩
  rw [ht]
  exact List.mem_singleton_self t

end NsBoot
