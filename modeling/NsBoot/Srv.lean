import NsBoot.Machine
import NsBoot.Shipped

/-!
# NsBoot.Srv — the controller under srv/nsboot

An earlier version of the controller is installed under `srv/nsboot`. It has the
same configuration file and the same super-mode commands, and differs in three
things:

* the nbd device of a slot is fixed in its record (`v.nbd`), and `nbdFree` and
  `nbdConnect` work on that device until nobody holds it;
* `mkChild` goes through its branches for every slot, whatever its type;
* the bodies of `cmd.img.used` and `cmd.img.commit` are exchanged: asking whether
  an image is in use starts `qemu-img commit` on it, and `disableCommit` commits
  nothing.

The rest (`tgtstart`, `tgtstop`, the parents of children, `supper=true`,
`disableUncommit`) is the same text as in the other controller and is taken from
there. A loop runs for any number of rounds given in advance.
-/

namespace NsBoot.Srv

open Lua Prog

/-! ## Devices -/

section Boot

variable (s : Server) (r : Wks) (rounds : Nat)

/-- The loop that frees a device; `del` is how often it disconnects in a round. -/
def freeDevice (del : Sys Unit) (dev : String) : Sys Unit :=
  loop (fun w => w.devUsed dev) (do
    match (← get).usewho dev with
    | some .tgtd => loop (fun w => w.tgtUsed (targetName s r.vid)) (tgtstop s r) rounds
    | some .nbd => del
    | none => pure ()) rounds

/-- `nsboot:nbdFree`, for the devices of the slots. -/
def nbdFree (nbds : List Value) : Sys Unit :=
  nbds.forM fun nbd => do
    let dev ← lift nbd.concat?
    freeDevice s r rounds (do modify fun w => w.nbdDel dev; modify fun w => w.nbdDel dev) dev

/-- `nsboot:nbdConnect`. -/
def nbdConnect (nbds : List Value) : Sys Unit :=
  (r.img.zip nbds).forM fun vn => do
    let dev ← lift vn.2.concat?
    freeDevice s r rounds (modify fun w => w.nbdDel dev) dev
    when (vn.1.path ≠ .nil ∧ vn.1.enable.isOne ∧ vn.1.isDyn) do
      let path ← lift vn.1.path.concat?
      let _ ← lift vn.1.cache.concat?
      modify fun w => w.nbdAdd dev (childName s path r.vid)

/-- One slot of `nsboot:LunAdd`. -/
def lunAddSlot (i : Nat) (v : Img) (nbd : Value) : Sys Unit := do
  when (v.enable.isOne ∧ v.isDyn ∧ r.tid ≠ .nil ∧ nbd ≠ .nil) do
    let t ← lift r.tid.concat?
    let dev ← lift nbd.concat?
    modify fun w => w.lunNew t i dev
  let path ← lift v.path.concat?
  let w ← get
  when (v.enable.isOne ∧ v.type = .str "iso" ∧ r.tid ≠ .nil ∧ (w.disk (isoFile s path)).isSome) do
    let t ← lift r.tid.concat?
    modify fun w => w.lunNew t i (isoFile s path)

/-- `nsboot:LunAdd`. -/
def lunAdd (nbds : List Value) : Sys Unit := do
  let w ← get
  when (¬ w.tgtUsed (targetName s r.vid)) do
    tgtstart s r
    wait fun w => w.tgtUsed (targetName s r.vid)
  ((r.img.zip nbds).zipIdx 1).forM fun vni => lunAddSlot s r vni.2 vni.1.1 vni.1.2

/-- `nsboot:zfsmount`. -/
def zfsmount (nbds : List Value) : Sys Unit := do
  nbdFree s r rounds nbds
  zfs (.unmount (zpoint s r.vid))
  zfs (.snapDir s.imgdir (zpoint s r.vid))
  r.img.forM (zfsmountSlot s r)

end Boot

/-! ## Children -/

/-- `cmd.img.used`: it starts a commit and answers nothing, so that a loop that
asks it runs no round. -/
def imgUsed (f : String) : Sys Unit := imgCommit f

/-- The loop that asks whether the child is in use, and the removal of the file. -/
def askAndDel (x : Vars) : Sys Unit := do
  let c ← lift x.child
  imgUsed c
  modify fun w => w.del c

/-- The last branch of the next definition. -/
def recreate (lockf : String) (x : Vars) : Sys Unit := do
  when ((← get).isChild x.child) do
    askAndDel x
    when ((← get).lock lockf) (modify fun w => w.setLock lockf false)
  match x.parrent, x.child with
  | some p, some _ =>
    wait fun w => (w.disk p).isSome
    imgChild x
  | _, _ => pure ()

/-- `PROCESS CREATE CHILD FILE`. -/
def createChild (lockf : String) (super : Bool) (x : Vars) : Sys Unit := do
  let w ← get
  if super ∧ ¬ w.lock lockf ∧ w.isChild x.child then
    askAndDel x
    imgChild x
    modify fun w => w.setLock lockf true
  else if super ∧ ¬ w.lock lockf ∧ ¬ w.isChild x.child then
    modify fun w => w.setLock lockf true
    imgChild x
  else if super ∧ w.lock lockf ∧ w.isChild x.child then
    modify fun w => w.setLock lockf true
  else recreate lockf x

section Request

variable (s : Server) (r : Wks)

/-- The slot is chosen in a super-mode session. -/
def Chosen (v : Img) : Prop :=
  r.enable.isOne ∧ r.supper.isOne ∧ v.enable.isOne ∧ v.commit.isOne

instance (v : Img) : Decidable (Chosen r v) := inferInstanceAs (Decidable (_ ∧ _))

/-- One iteration of the loop of `nsboot:mkChild`; the variables are reset after
each of them. -/
def mkSlot (i : Nat) (v : Img) : Sys Unit := do
  let x ← lift (findParrents s r v ⟨none, none⟩)
  createChild (lockName s i r.vid) (Chosen r v) x

/-- `nsboot:mkChild`. -/
def mkChild : Sys Unit := do
  when r.enable.isOne do
    (r.img.zipIdx 1).forM fun vi => mkSlot s r vi.2 vi.1

/-- The pipeline. -/
def pipeline (rounds : Nat) (nbds : List Value) : Sys Unit := do
  tgtstop s r
  nbdFree s r rounds nbds
  zfsmount s r rounds nbds
  mkChild s r
  nbdConnect s r rounds nbds
  lunAdd s r nbds

end Request

/-! ## Requests -/

/-- `v.nbd` of the slots of a record. -/
def nbds? (v : Value) : Option (List Value) :=
  readArray? (fun | .table kvs => some (lookup "nbd" kvs) | _ => none) (v.get "img")

/-- A boot request. -/
def bootRequest (rounds : Nat) (ip : String) : Sys Unit := do
  let c ← loadFromFile
  when ((← lift (checkconf c)) ∧ ip ≠ "::1") do
    let id ← lift (← lift (getIDFromIPv4 c (.str ip)))
    let s ← lift (Server.of? c)
    let r ← lift (Wks.of? ((wksOf c).get id))
    let nbds ← lift (nbds? ((wksOf c).get id))
    let _ ← lift (bootScript s r c)
    pipeline s r rounds nbds

/-- The flags of the slots in the posted list, if there is one. -/
def setPosted (n : Int) (jsondata : Option (Option Json)) (c : Value) : Option Value :=
  match jsondata with
  | none => some c
  | some data => do
    let .table us := (← data).val | none
    (ipairs us).foldlM (fun c u => do setCommit n (← u.2.tonumber) (.str "1") c) c

/-- `disableCommit`: the posted flags are set, and all of them cleared. -/
def disableCommit (n : Int) (jsondata : Option (Option Json)) : Sys Unit := do
  let c ← loadFromFile
  let c ← lift (setPosted n jsondata c)
  let c ← lift (clearFlags n c)
  saveToFile c

/-- A POST request; there are only super-mode commands. -/
def post (p : Post) : Sys Unit := do
  let c ← loadFromFile
  when (← lift (checkconf c)) do
    let c ← loadFromFile
    match p.id, p.supper.bind SupperCmd.of? with
    | some id, some cmd =>
      when (← lift (checkconf c)) do
        let v ← lift (wksAt? c (numberOf id))
        match numberOf id with
        | none => pure ()
        | some n =>
          when (v ≠ .nil) do
            match cmd with
            | .enable => let _ ← supperTrue n p.jsondata
            | .disableUncommit => when (v ≠ .bool false) do let _ ← endSession n
            | .disableCommit => when (v ≠ .bool false) (disableCommit n p.jsondata)
            | .disableCommitPoint => when (v ≠ .bool false) do let _ ← endSession n
            -- these two only answer
            | .supperCheck | .diskList => pure ()
    | _, _ => pure ()

/-- The events of a run; a boot comes with the number of rounds its loops make. -/
inductive Event where
  | boot (ip : String) (rounds : Nat)
  | post (p : Post)
  | write (k : Key) (i b data : Nat)
  | copy (pid : Nat)

def step (w : World) : Event → World
  | .boot ip rounds => (exec (bootRequest rounds ip) w).final
  | .post p => (exec (post p) w).final
  | .write k i b data => w.writeVia k i b data
  | .copy pid => w.copyBlock pid

end NsBoot.Srv
