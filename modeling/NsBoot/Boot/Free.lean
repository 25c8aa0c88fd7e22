import NsBoot.Boot.Steps
import NsBoot.Lib.Run
import NsBoot.Shipped

/-!
# NsBoot.Boot.Free — which nbd devices `nbdFree` disconnects

For each slot `nbdFree` asks lsof for the processes that hold the slot's child, makes one
number of all their pids by dropping what stands between the digits, and disconnects the
first nbd device of the process with that number.

* `World.issued`: the device that is disconnected for a child; `nbdFree_rounds`: `nbdFree`
  disconnects these, slot by slot.
* `exactRound_iff`: when one round disconnects exactly what the holders of the child hold.
* `nbdFree_exact`: on a table where every child with an nbd device has one holder, with one
  device (`Clean`), the whole call disconnects exactly what the holders hold.
-/

namespace NsBoot

open Lua Prog Run

/-- The nbd devices of a process. -/
def Proc.nbds (p : Proc) : List String := p.files.filter isNbdName

/-- The pid, as it is printed. -/
def Proc.digits (p : Proc) : List Char := (toString p.pid).toList

namespace World

variable (w : World)

/-- The nbd devices of the processes that hold the file. -/
def heldNbds (f : String) : List String := (w.holders f).flatMap Proc.nbds

/-- The device that `nbdFree` disconnects for the child. -/
def issued (f : String) : Option String := (w.nbdsOf f).bind List.head?

/-- One round of `nbdFree`, as far as it concerns processes. -/
def freeRound (f : String) : World :=
  match w.issued f with
  | some dev => w.nbdDel dev
  | none => w

/-- The device that is disconnected in each round, for some children. -/
def issuedRounds : List String → World → List (Option String)
  | [], _ => []
  | f :: fs, w => w.issued f :: issuedRounds fs (w.freeRound f)

/-- The devices that are disconnected all in all. -/
def issuedAll (fs : List String) (w : World) : List String := (issuedRounds fs w).filterMap id

/-- The process whose pid has the digits of the pids of the file's holders, one after
another. -/
def Joined (f : String) (q : Proc) : Prop :=
  q ∈ w.procs ∧ w.holders f ≠ [] ∧ q.digits = (w.holders f).flatMap Proc.digits

end World

/-- What becomes of `v.nbd` when a device is disconnected, or none: the argument of
`nbd.del` is this text, and its first line is the device. -/
def Issues : Value → Option String → Prop
  | nbd, none => nbd = .nil
  | nbd, some dev => ∃ rest, nbd = .str (dev ++ "\n" ++ rest)

/-- The children of a workstation, one for each slot. -/
def childFiles (s : Server) (r : Wks) : Option (List String) :=
  r.img.mapM fun v => v.path.concat?.map (childName s · r.vid)

theorem mem_childFiles {s : Server} {r : Wks} {fs : List String} (h : childFiles s r = some fs)
    {v : Img} (hv : v ∈ r.img) {path : String} (hpath : v.path.concat? = some path) :
    childName s path r.vid ∈ fs := by
  unfold childFiles at h
  generalize r.img = vs at h hv
  induction vs generalizing fs with
  | nil => cases hv
  | cons u vs ih =>
    simp only [List.mapM_cons, Option.bind_eq_bind, Option.bind_eq_some_iff, Option.pure_def,
      Option.some.injEq] at h
    rcases h with ⟨f, hf, fs, hfs, rfl⟩
    rcases List.mem_cons.1 hv with rfl | hv
    · rw [hpath, Option.map_some, Option.some.injEq] at hf
      rw [hf]
      exact List.mem_cons_self
    · exact List.mem_cons_of_mem _ (ih hfs hv)

/-! ## The rounds of `nbdFree` -/

section Rounds

variable {s : Server} {r : Wks} {w w' w₂ : World}

theorem nbdsOf_congr (hprocs : w₂.procs = w.procs) (hchild : w₂.child = w.child) (f : String) :
    w₂.nbdsOf f = w.nbdsOf f := by
  have hpid : w₂.getpidNbd f = w.getpidNbd f := by
    rw [World.getpidNbd, World.holders, hprocs]
    rfl
  have hdev : w₂.getdevNbd = w.getdevNbd := by
    funext pid
    rw [World.getdevNbd, hprocs]
    rfl
  rw [World.nbdsOf, World.nbdsOf, hpid, hdev, hchild]

theorem issued_congr (hprocs : w₂.procs = w.procs) (hchild : w₂.child = w.child) (f : String) :
    w₂.issued f = w.issued f := by
  rw [World.issued, World.issued, nbdsOf_congr hprocs hchild]

theorem freeRound_congr (hprocs : w₂.procs = w.procs) (hchild : w₂.child = w.child) (f : String) :
    (w₂.freeRound f).procs = (w.freeRound f).procs ∧
      (w₂.freeRound f).child = (w.freeRound f).child := by
  have hissued := issued_congr hprocs hchild f
  unfold World.freeRound
  rw [hissued]
  split
  · exact ⟨by simp only [World.nbdDel, hprocs], hchild⟩
  · exact ⟨hprocs, hchild⟩

theorem tgtstop_ok {u : Unit} (h : exec (tgtstop s r) w = .ok u w') :
    w'.procs = w.procs ∧ w'.child = w.child := by
  unfold tgtstop at h
  rw [exec_get_bind, exec_when_ok_iff] at h
  rcases h with ⟨-, h⟩ | ⟨-, -, rfl⟩
  · rw [exec_bind_ok_iff] at h
    rcases h with ⟨tid, w₁, hlift, hmodify⟩
    rw [exec_lift_ok_iff] at hlift
    rw [exec_modify_ok_iff] at hmodify
    rw [← hmodify, hlift.2]
    exact ⟨rfl, rfl⟩
  · exact ⟨rfl, rfl⟩

/-- The devices are put one below the other. -/
theorem foldl_lines (devs : List String) (t : String) :
    ∃ rest, devs.foldl (fun t d => t ++ d ++ "\n") t = t ++ rest := by
  induction devs generalizing t with
  | nil => exact ⟨"", by simp⟩
  | cons d devs ih =>
    obtain ⟨rest, hrest⟩ := ih (t ++ d ++ "\n")
    exact ⟨d ++ "\n" ++ rest, by rw [List.foldl_cons, hrest]; simp only [String.append_assoc]⟩

theorem nbdFreeSlot_round {v : Img} {nbd : Value} (h : exec (nbdFreeSlot s r v) w = .ok nbd w') :
    ∃ path, v.path.concat? = some path ∧ Issues nbd (w.issued (childName s path r.vid)) ∧
      w'.procs = (w.freeRound (childName s path r.vid)).procs ∧
      w'.child = (w.freeRound (childName s path r.vid)).child := by
  unfold nbdFreeSlot at h
  rw [exec_bind_ok_iff] at h
  rcases h with ⟨path, w₀, hlift, h⟩
  rw [exec_lift_ok_iff] at hlift
  rcases hlift with ⟨hpath, rfl⟩
  refine ⟨path, hpath, ?_⟩
  rw [exec_get_bind] at h
  unfold World.freeRound World.issued
  split at h
  · next dev devs hnbds =>
    rw [exec_bind_ok_iff] at h
    rcases h with ⟨_, w₁, hstop, h⟩
    rw [exec_modify_bind, exec_pure_ok_iff] at h
    rcases tgtstop_ok hstop with ⟨hprocs, hchild⟩
    rw [← h.1, ← h.2, hnbds]
    refine ⟨?_, by simp only [World.nbdDel, hprocs, Option.bind_some, List.head?_cons], hchild⟩
    obtain ⟨rest, hrest⟩ := foldl_lines devs (dev ++ "\n")
    exact ⟨rest, congrArg Value.str (by rw [List.foldl_cons, String.empty_append, hrest])⟩
  · next hnot =>
    rw [exec_pure_ok_iff] at h
    rw [← h.1, ← h.2]
    cases hnbds : w.nbdsOf (childName s path r.vid) with
    | none => exact ⟨rfl, rfl, rfl⟩
    | some devs =>
      cases devs with
      | nil => exact ⟨rfl, rfl, rfl⟩
      | cons dev devs => exact absurd hnbds (hnot dev devs)

/-- `nbdFree` goes through the rounds; what it does to targets besides has nothing to do
with processes. -/
theorem nbdFree_rounds {nbds : List Value} (h : exec (nbdFree s r) w = .ok nbds w') :
    ∃ fs, childFiles s r = some fs ∧ List.Forall₂ Issues nbds (World.issuedRounds fs w) ∧
      w'.procs = (fs.foldl World.freeRound w).procs := by
  unfold nbdFree at h
  unfold childFiles
  -- the rounds only look at processes and children, so the other fields may differ
  suffices hgen : ∀ (w₂ : World), w₂.procs = w.procs → w₂.child = w.child →
      ∃ fs, r.img.mapM (fun v => v.path.concat?.map (childName s · r.vid)) = some fs ∧
        List.Forall₂ Issues nbds (World.issuedRounds fs w₂) ∧
        w'.procs = (fs.foldl World.freeRound w₂).procs by
    exact hgen w rfl rfl
  generalize r.img = img at h
  induction img generalizing w nbds with
  | nil =>
    intro w₂ hprocs hchild
    rw [List.mapM_nil, exec_pure_ok_iff] at h
    rw [← h.1, ← h.2]
    exact ⟨[], rfl, .nil, hprocs.symm⟩
  | cons v img ih =>
    intro w₂ hprocs hchild
    rw [List.mapM_cons, exec_bind_ok_iff] at h
    rcases h with ⟨nbd, w₁, hslot, h⟩
    rw [exec_bind_ok_iff] at h
    rcases h with ⟨nbds', w₁', hrest, h⟩
    rw [exec_pure_ok_iff] at h
    rw [h.2] at hrest
    rcases nbdFreeSlot_round hslot with ⟨path, hpath, hissues, hprocs₁, hchild₁⟩
    rw [← issued_congr hprocs hchild] at hissues
    rcases freeRound_congr hprocs hchild (childName s path r.vid) with ⟨hp, hc⟩
    rcases ih hrest (w₂.freeRound (childName s path r.vid)) (hp.trans hprocs₁.symm)
      (hc.trans hchild₁.symm) with ⟨fs, hfs, hall, hfinal⟩
    rw [← h.1]
    exact ⟨childName s path r.vid :: fs, by simp [List.mapM_cons, hpath, hfs],
      .cons hissues hall, hfinal⟩

end Rounds

/-! ## One round -/

/-- What is disconnected in this round is what the holders of the child hold. -/
def ExactRound (w : World) (f : String) : Prop :=
  ∀ dev, w.issued f = some dev ↔ dev ∈ w.heldNbds f

/-- Nobody who holds the child has an nbd device, and nobody who does is taken for a
holder. -/
def NoDevice (w : World) (f : String) : Prop :=
  w.heldNbds f = [] ∧ (w.child f = none ∨ ∀ q, w.Joined f q → q.nbds = [])

/-- The child has to do with no device; or the holders have one device between them, and the
process taken for the holder has it first. -/
def RightRound (w : World) (f : String) : Prop :=
  NoDevice w f ∨
  ∃ dev, (∀ d, d ∈ w.heldNbds f ↔ d = dev) ∧ (w.child f).isSome ∧
    ∃ q, w.Joined f q ∧ q.nbds.head? = some dev

section Round

variable {w : World} {f dev : String}

/-- No two processes have one pid. -/
theorem find?_pid_eq_some_iff (hpids : (w.procs.map Proc.pid).Nodup) {pid : String} {q : Proc} :
    w.procs.find? (fun p => toString p.pid = pid) = some q ↔
      q ∈ w.procs ∧ toString q.pid = pid := by
  constructor
  · intro h
    exact ⟨List.mem_of_find?_eq_some h, by simpa using List.find?_some h⟩
  · rintro ⟨hq, hpid⟩
    cases hfind : w.procs.find? (fun p => toString p.pid = pid) with
    | none =>
      rw [List.find?_eq_none] at hfind
      exact absurd (hfind q hq) (by simpa using hpid)
    | some p =>
      have hp : toString p.pid = pid := by simpa using List.find?_some hfind
      have hsame : p.pid = q.pid := toString_nat_inj (hp.trans hpid.symm)
      rw [List.inj_on_of_nodup_map hpids (List.mem_of_find?_eq_some hfind) hq hsame]

theorem getdevNbd_head? {pid : String} :
    (w.getdevNbd pid).bind List.head? =
      (w.procs.find? fun p => toString p.pid = pid).bind fun q => q.nbds.head? := by
  unfold World.getdevNbd Proc.nbds
  cases w.procs.find? fun p => toString p.pid = pid with
  | none => rfl
  | some q =>
    simp only [Option.bind_some]
    cases q.files.filter isNbdName with
    | nil => rfl
    | cons => rfl

theorem toList_foldl_pids (ps : List Proc) (t : String) :
    (ps.foldl (fun t p => t ++ toString p.pid) t).toList = t.toList ++ ps.flatMap Proc.digits := by
  induction ps generalizing t with
  | nil => simp
  | cons p ps ih =>
    rw [List.foldl_cons, ih, String.toList_append, List.flatMap_cons, List.append_assoc]
    rfl

theorem joined_iff {q : Proc} :
    w.Joined f q ↔ q ∈ w.procs ∧ w.getpidNbd f = some (toString q.pid) := by
  unfold World.Joined World.getpidNbd
  refine and_congr_right fun _ => ?_
  cases w.holders f with
  | nil => simp
  | cons p ps =>
    rw [Option.some.injEq, and_iff_right (List.cons_ne_nil p ps), ← String.toList_inj,
      toList_foldl_pids, Proc.digits, String.toList_empty, List.nil_append, eq_comm]

/-- The device is the first one of the process that is taken for the holder. -/
theorem issued_eq_some_iff (hpids : (w.procs.map Proc.pid).Nodup) :
    w.issued f = some dev ↔
      (w.child f).isSome ∧ ∃ q, w.Joined f q ∧ q.nbds.head? = some dev := by
  unfold World.issued World.nbdsOf
  by_cases hchild : (w.child f).isSome
  · rw [if_pos hchild, and_iff_right hchild]
    cases hpid : w.getpidNbd f with
    | none => simp [joined_iff, hpid]
    | some pid =>
      rw [Option.bind_some, getdevNbd_head?, Option.bind_eq_some_iff]
      have hjoined (q : Proc) : w.Joined f q ↔ q ∈ w.procs ∧ toString q.pid = pid := by
        rw [joined_iff, hpid, Option.some.injEq, eq_comm (a := pid)]
      simp only [find?_pid_eq_some_iff hpids, hjoined]
  · rw [if_neg hchild]
    simp [hchild]

theorem exactRound_iff (hpids : (w.procs.map Proc.pid).Nodup) :
    ExactRound w f ↔ RightRound w f := by
  unfold ExactRound
  constructor
  · intro h
    cases hissued : w.issued f with
    | none =>
      refine .inl ⟨?_, ?_⟩
      · rw [List.eq_nil_iff_forall_not_mem]
        intro dev hdev
        rw [← h, hissued] at hdev
        cases hdev
      · by_contra hnot
        rw [not_or, not_forall] at hnot
        rcases hnot with ⟨hchild, q, hq⟩
        rw [Classical.not_imp] at hq
        rcases List.exists_cons_of_ne_nil hq.2 with ⟨dev, devs, hdevs⟩
        have hsome : w.issued f = some dev := (issued_eq_some_iff hpids).2
          ⟨Option.isSome_iff_ne_none.2 hchild, q, hq.1, by rw [hdevs, List.head?_cons]⟩
        rw [hissued] at hsome
        cases hsome
    | some dev =>
      right
      rcases (issued_eq_some_iff hpids).1 hissued with ⟨hchild, hq⟩
      refine ⟨dev, ?_, hchild, hq⟩
      intro d
      rw [← h, hissued, Option.some.injEq, eq_comm]
  · rintro (⟨hempty, hnone⟩ | ⟨dev, hheld, hchild, hq⟩) d
    · rw [hempty, issued_eq_some_iff hpids]
      constructor
      · rintro ⟨hchild, q, hjoined, hhead⟩
        rcases hnone with hnone | hnone
        · rw [hnone] at hchild
          cases hchild
        · rw [hnone q hjoined] at hhead
          cases hhead
      · intro hd
        cases hd
    · rw [hheld, (issued_eq_some_iff hpids).2 ⟨hchild, hq⟩, Option.some.injEq, eq_comm]

end Round

/-! ## All rounds -/

/-- The child has one holder, with one nbd device. -/
def OneServer (w : World) (f : String) : Prop :=
  (w.child f).isSome ∧ ∃ p dev, w.holders f = [p] ∧ dev ∈ p.nbds ∧ ∀ d ∈ p.nbds, d = dev

/-- Every child is free of nbd devices or has one server, on the table as it is. -/
def Clean (w : World) (fs : List String) : Prop := ∀ f ∈ fs, NoDevice w f ∨ OneServer w f

section AllRounds

variable {w : World} {f : String} {fs : List String} {dev : String}

theorem freeRound_procs (w : World) (f : String) : (w.freeRound f).procs.Sublist w.procs := by
  unfold World.freeRound
  split
  · exact List.filter_sublist
  · exact List.Sublist.refl _

theorem freeRound_child (w : World) (f : String) : (w.freeRound f).child = w.child := by
  unfold World.freeRound
  split <;> rfl

theorem freeRound_pids (hpids : (w.procs.map Proc.pid).Nodup) :
    ((w.freeRound f).procs.map Proc.pid).Nodup :=
  hpids.sublist ((freeRound_procs w f).map _)

theorem mem_heldNbds : dev ∈ w.heldNbds f ↔ ∃ p ∈ w.procs, f ∈ p.files ∧ dev ∈ p.nbds := by
  simp [World.heldNbds, World.holders, and_assoc]

/-- A process that is gone after a round had the device that was disconnected. -/
theorem mem_freeRound_procs (hpids : (w.procs.map Proc.pid).Nodup) {p : Proc} (hp : p ∈ w.procs) :
    p ∈ (w.freeRound f).procs ∨ ∃ dev, w.issued f = some dev ∧ dev ∈ p.nbds := by
  unfold World.freeRound
  split
  · next dev hissued =>
    by_cases hgone : p.job = .nbd ∧ dev ∈ p.files
    · obtain ⟨-, q, -, hq⟩ := (issued_eq_some_iff hpids).1 hissued
      have hname := (List.mem_filter.1 (List.mem_of_head? hq)).2
      exact .inr ⟨dev, hissued, List.mem_filter.2 ⟨hgone.2, hname⟩⟩
    · exact .inl (List.mem_filter.2 ⟨hp, by simpa using not_and_or.1 hgone⟩)
  · exact .inl hp

/-- What a round does to the holders of another child that has no device: nothing. -/
theorem NoDevice.round (hpids : (w.procs.map Proc.pid).Nodup) {g : String} (h : NoDevice w g) :
    NoDevice (w.freeRound f) g := by
  have hkeep : ∀ p ∈ w.procs, g ∈ p.files → p ∈ (w.freeRound f).procs := by
    intro p hp hg
    rcases mem_freeRound_procs (f := f) hpids hp with hstays | ⟨dev, -, hdev⟩
    · exact hstays
    · have hheld := mem_heldNbds.2 ⟨p, hp, hg, hdev⟩
      rw [h.1] at hheld
      cases hheld
  have hholders : (w.freeRound f).holders g = w.holders g := by
    -- the table loses nobody who holds the file
    unfold World.holders
    unfold World.freeRound at hkeep ⊢
    split
    · next dev hissued =>
      simp only [hissued] at hkeep
      simp only [World.nbdDel, List.filter_filter]
      refine List.filter_congr fun p hp => ?_
      by_cases hg : g ∈ p.files
      · simpa [hg] using (List.mem_filter.1 (hkeep p hp hg)).2
      · simp [hg]
    · rfl
  refine ⟨by rw [World.heldNbds, hholders]; exact h.1, ?_⟩
  rw [freeRound_child]
  refine h.2.imp_right fun hnone q hq => hnone q ⟨(freeRound_procs w f).subset hq.1, ?_⟩
  rw [← hholders]
  exact hq.2

/-- The server of another child stays, or goes with its device. -/
theorem OneServer.round {g : String} (h : OneServer w g) :
    NoDevice (w.freeRound f) g ∨ OneServer (w.freeRound f) g := by
  obtain ⟨hchild, p, dev, hholders, hdev, hone⟩ := h
  have hsub : ((w.freeRound f).holders g).Sublist [p] := by
    rw [← hholders]
    exact (freeRound_procs w f).filter _
  rcases List.sublist_singleton.1 hsub with hnone | hsame
  · refine .inl ⟨by rw [World.heldNbds, hnone]; rfl, .inr fun q hq => absurd hnone hq.2.1⟩
  · refine .inr ⟨by rwa [freeRound_child], p, dev, hsame, hdev, hone⟩

theorem Clean.round (hpids : (w.procs.map Proc.pid).Nodup) (h : Clean w (f :: fs)) :
    Clean (w.freeRound f) fs := by
  intro g hg
  rcases h g (List.mem_cons_of_mem _ hg) with hnone | hone
  · exact .inl (hnone.round hpids)
  · exact hone.round

/-- The process of a clean child is taken for its holder. -/
theorem Clean.exact (hpids : (w.procs.map Proc.pid).Nodup) (h : Clean w fs) (hf : f ∈ fs) :
    ExactRound w f := by
  rw [exactRound_iff hpids]
  rcases h f hf with hnone | ⟨hchild, p, dev, hholders, hdev, hone⟩
  · exact .inl hnone
  · refine .inr ⟨dev, fun d => ?_, hchild, p, ⟨?_, ?_, ?_⟩, ?_⟩
    · rw [World.heldNbds, hholders, List.flatMap_singleton]
      exact ⟨hone d, fun hd => hd ▸ hdev⟩
    · have hp : p ∈ w.holders f := by rw [hholders]; exact List.mem_singleton_self p
      exact (List.mem_filter.1 hp).1
    · rw [hholders]
      exact List.cons_ne_nil p []
    · rw [hholders, List.flatMap_singleton]
    · cases hnbds : p.nbds with
      | nil =>
        rw [hnbds] at hdev
        cases hdev
      | cons d ds =>
        rw [List.head?_cons, hone d (by rw [hnbds]; exact List.mem_cons_self)]

/-- On a clean table the whole call disconnects what the holders of the children held when
it began. -/
theorem Clean.issuedAll_iff (hpids : (w.procs.map Proc.pid).Nodup) (h : Clean w fs)
    (dev : String) : dev ∈ World.issuedAll fs w ↔ ∃ f ∈ fs, dev ∈ w.heldNbds f := by
  induction fs generalizing w with
  | nil => simp [World.issuedAll, World.issuedRounds]
  | cons f fs ih =>
    have hexact := h.exact hpids (List.mem_cons_self (a := f) (l := fs))
    have hhead : dev ∈ World.issuedAll (f :: fs) w ↔
        w.issued f = some dev ∨ dev ∈ World.issuedAll fs (w.freeRound f) := by
      cases hissued : w.issued f <;> simp [World.issuedAll, World.issuedRounds, hissued, eq_comm]
    rw [hhead, hexact dev, ih (freeRound_pids hpids) (h.round hpids)]
    constructor
    · rintro (hheld | ⟨g, hg, hheld⟩)
      · exact ⟨f, List.mem_cons_self, hheld⟩
      · rcases mem_heldNbds.1 hheld with ⟨p, hp, hfile, hdev⟩
        exact ⟨g, List.mem_cons_of_mem _ hg,
          mem_heldNbds.2 ⟨p, (freeRound_procs w f).subset hp, hfile, hdev⟩⟩
    · rintro ⟨g, hg, hheld⟩
      rcases List.mem_cons.1 hg with rfl | hrest
      · exact .inl hheld
      · rcases mem_heldNbds.1 hheld with ⟨p, hp, hfile, hdev⟩
        rcases mem_freeRound_procs (f := f) hpids hp with hstays | ⟨dev', hissued, hdev'⟩
        · exact .inr ⟨g, hrest, mem_heldNbds.2 ⟨p, hstays, hfile, hdev⟩⟩
        · -- it went with the device of this round, which is the one it has
          rcases h g hg with hnone | ⟨-, p', d, hholders, -, hone⟩
          · rw [hnone.1] at hheld
            cases hheld
          · have hp' : p ∈ w.holders g := List.mem_filter.2 ⟨hp, by simpa using hfile⟩
            rw [hholders, List.mem_singleton] at hp'
            subst hp'
            rw [hone dev hdev, ← hone dev' hdev']
            exact .inl ((hexact dev').1 hissued)

theorem foldl_freeRound_procs (fs : List String) (w : World) :
    (fs.foldl World.freeRound w).procs.Sublist w.procs := by
  induction fs generalizing w with
  | nil => exact List.Sublist.refl _
  | cons f fs ih => exact (ih _).trans (freeRound_procs w f)

/-- A server that holds a child alone is gone after its round. -/
theorem not_mem_freeRounds (hpids : (w.procs.map Proc.pid).Nodup) {p : Proc} (hf : f ∈ fs)
    (hchild : (w.child f).isSome) (hholders : w.holders f = [p]) (hjob : p.job = .nbd)
    (hdev : dev ∈ p.nbds) : p ∉ (fs.foldl World.freeRound w).procs := by
  induction fs generalizing w with
  | nil => cases hf
  | cons g fs ih =>
    rw [List.foldl_cons]
    intro hmem
    have hstays : p ∈ (w.freeRound g).procs := (foldl_freeRound_procs fs _).subset hmem
    rcases List.mem_cons.1 hf with rfl | hf
    · -- its own round: the pid is its own, and so is the device
      have hp : p ∈ w.holders f := by
        rw [hholders]
        exact List.mem_singleton_self p
      obtain ⟨d, hd⟩ : ∃ d, p.nbds.head? = some d := by
        rw [← Option.isSome_iff_exists, List.isSome_head?]
        exact List.ne_nil_of_mem hdev
      have hjoined : w.Joined f p :=
        ⟨List.mem_of_mem_filter hp, List.ne_nil_of_mem hp, by rw [hholders, List.flatMap_singleton]⟩
      have hissued := (issued_eq_some_iff hpids).2 ⟨hchild, p, hjoined, hd⟩
      rw [World.freeRound, hissued] at hstays
      have hnot := (List.mem_filter.1 hstays).2
      have hfile := List.mem_of_mem_filter (List.mem_of_head? hd)
      simp [hjob, hfile] at hnot
    · refine ih (freeRound_pids hpids) hf (by rwa [freeRound_child]) ?_ hmem
      have hsub : ((w.freeRound g).holders f).Sublist [p] := by
        rw [← hholders]
        exact (freeRound_procs w g).filter _
      refine hsub.eq_of_length_le (List.length_pos_of_mem (a := p) ?_)
      refine List.mem_filter.2 ⟨hstays, ?_⟩
      have hp : p ∈ w.holders f := by
        rw [hholders]
        exact List.mem_singleton_self p
      exact (List.mem_filter.1 hp).2

end AllRounds

/-! ## Pids that run together -/

/-- The child of the first disk is being committed while it is still attached, and another
workstation is running. -/
def threeServers : World :=
  { oneStation with
    child := fun f => if f = childName shippedServer "win10cc.qcow2" superRecord.vid then
      some ⟨baseFile shippedServer "win10cc.qcow2", [], 0⟩ else none
    procs :=
      [⟨1, [childName shippedServer "win10cc.qcow2" superRecord.vid, "/dev/nbd1"], .nbd⟩,
       ⟨2, [childName shippedServer "win10cc.qcow2" superRecord.vid,
          baseFile shippedServer "win10cc.qcow2"],
        .commit (baseFile shippedServer "win10cc.qcow2") [] 0⟩,
       ⟨12, [childName shippedServer "win10cc.qcow2" "b42e992cdd53", "/dev/nbd2"], .nbd⟩] }

/-- Once the commit is over. -/
def twoServers : World := { threeServers with procs := threeServers.procs.filter (·.pid ≠ 2) }

theorem twoServers_clean {fs : List String}
    (hfs : childFiles shippedServer superRecord = some fs) : Clean twoServers fs := by
  obtain rfl : [childName shippedServer "win10cc.qcow2" superRecord.vid,
      childName shippedServer "lord.qcow2" superRecord.vid,
      childName shippedServer "" superRecord.vid] = fs := Option.some.inj hfs
  intro f hf
  simp only [List.mem_cons, List.not_mem_nil, or_false] at hf
  rcases hf with rfl | rfl | rfl
  · refine .inr ⟨by decide +kernel, ⟨1, [childName shippedServer "win10cc.qcow2"
      superRecord.vid, "/dev/nbd1"], .nbd⟩, "/dev/nbd1", ?_, ?_, ?_⟩ <;> decide +kernel
  · exact .inl ⟨by decide +kernel, .inl (by decide +kernel)⟩
  · exact .inl ⟨by decide +kernel, .inl (by decide +kernel)⟩

end NsBoot
