import NsBoot.System

/-!
# NsBoot.Boot — the boot pipeline

A GET request with `getmebootargs` equal to the client's own address runs, for
the workstation with that address,

    tgtstop, nbdFree, zfsmount, mkChild, nbdConnect, LunAdd

on the configuration it loaded when it started. `mkChild` is the heart of it:
for each image slot it chooses what the child is to be backed by, and then
creates, keeps, or deletes and recreates the child, depending on the slot's
lock file and on whether there is a child already.
-/

namespace NsBoot

open Lua Prog

variable (s : Server) (r : Wks)

/-! ## Targets and nbd devices -/

/-- `nsboot:tgtstart`. -/
def tgtstart : Sys Unit := do
  let w ← get
  when (w.services ∧ ¬ w.tgtUsed (targetName s r.vid) ∧ r.enable.isOne) do
    let tid ← lift r.tid.concat?
    modify fun w => w.tgtNew tid (targetName s r.vid)

/-- `nsboot:tgtstop`. -/
def tgtstop : Sys Unit := do
  let w ← get
  when (w.services ∧ w.tgtUsed (targetName s r.vid)) do
    let tid ← lift r.tid.concat?
    modify fun w => w.tgtKill tid

/-- One slot of `nsboot:nbdFree`; returned is the new value of `v.nbd`. -/
def nbdFreeSlot (v : Img) : Sys Value := do
  let path ← lift v.path.concat?
  match (← get).nbdsOf (childName s path r.vid) with
  | some (dev :: devs) =>
    tgtstop s r
    -- the text is one device a line; only the first line is an argument
    modify fun w => w.nbdDel dev
    return .str ((dev :: devs).foldl (fun t d => t ++ d ++ "\n") "")
  | _ => return .nil

/-- `nsboot:nbdFree`. -/
def nbdFree : Sys (List Value) := r.img.mapM (nbdFreeSlot s r)

/-- One slot of `nsboot:nbdConnect`; returned is `v.nbd`. The device found is
free, so the loops that wait for it to become free do not run. -/
def nbdConnectSlot (v : Img) : Sys (Option String) := do
  let w ← get
  when (v.path ≠ .nil ∧ v.enable.isOne ∧ v.isDyn) do
    let dev ← lift (w.searchNbd s.nbdNbds)
    let path ← lift v.path.concat?
    let _ ← lift v.cache.concat?
    modify fun w => w.nbdAdd dev (childName s path r.vid)
  return w.searchNbd s.nbdNbds

/-- `nsboot:nbdConnect`. -/
def nbdConnect : Sys (List (Option String)) := r.img.mapM (nbdConnectSlot s r)

/-- One slot of `nsboot:LunAdd`. -/
def lunAddSlot (tid : Value) (i : Nat) (v : Img) (dev : Option String) : Sys Unit := do
  when (v.enable.isOne ∧ v.isDyn ∧ tid ≠ .nil ∧ dev.isSome) do
    let t ← lift tid.concat?
    let d ← lift dev
    modify fun w => w.lunNew t i d
  when (v.enable.isOne ∧ v.type = .str "iso") do
    let path ← lift v.path.concat?
    let w ← get
    when (tid ≠ .nil ∧ (w.disk (isoFile s path)).isSome) do
      let t ← lift tid.concat?
      modify fun w => w.lunNew t i (isoFile s path)

/-- `nsboot:LunAdd`. The loop repeats `tgtstart` until the target is seen; a
second round finds everything as the first one left it, so when the first does
not help the loop never ends. -/
def lunAdd (devs : List (Option String)) : Sys Unit := do
  let w ← get
  when (¬ w.tgtUsed (targetName s r.vid)) do
    tgtstart s r
    wait fun w => w.tgtUsed (targetName s r.vid)
  (r.img.zipIdx 1).forM fun vi => lunAddSlot s r.tid vi.2 vi.1 ((devs[vi.2 - 1]?).join)

/-! ## Snapshots -/

/-- The volume of a slot is snapshotted under the workstation's name. -/
def zfsmountSlot (v : Img) : Sys Unit := do
  when (v.enable.isOne ∧ v.type = .str "dynblock") do
    let path ← lift v.path.concat?
    zfs (.snapDev (baseZvol s path) (snapZvol s r.vid path))

/-- `nsboot:zfsmount`. -/
def zfsmount : Sys Unit := do
  let _ ← nbdFree s r
  zfs (.unmount (zpoint s r.vid))
  zfs (.snapDir s.imgdir (zpoint s r.vid))
  r.img.forM (zfsmountSlot s r)

/-! ## Children -/

/-- What a child is backed by: the live base image, or the snapshot. -/
inductive Parrent where
  | live
  | snap
deriving DecidableEq, Repr

/-- The tests on the flags, in order; a later one that holds wins. -/
def parrentKind (v : Img) : Option Parrent :=
  let k := none
  let k := if r.enable.isOne ∧ r.supper.isOne ∧ v.enable.isOne ∧ v.commit.isOne
    then some .live else k
  let k := if r.supper.isZero ∧ v.enable.isOne ∧ v.commit.isZero then some .snap else k
  let k := if r.supper.isZero ∧ v.enable.isOne ∧ v.commit.isOne then some .snap else k
  if r.supper.isOne ∧ v.enable.isOne ∧ v.commit.isZero then some .snap else k

/-- The variables `p_parrent` and `p_child`. They are declared outside the loop
over the slots, so a value that is not reset is seen by the next slot. -/
structure Vars where
  parrent : Option String
  child : Option String
deriving DecidableEq, Repr

/-- `PROCESS FIND PATH PARRENTS`, for the names of one slot type. -/
def findParrent (live snap : String → String) (v : Img) (x : Vars) : Option Vars :=
  match parrentKind r v with
  | none => some x
  | some k => do
    let path ← v.path.concat?
    return ⟨some (match k with | .live => live path | .snap => snap path),
            some (childName s path r.vid)⟩

/-- The parent of a slot by its type; other types leave the variables alone. -/
def findParrents (v : Img) (x : Vars) : Option Vars :=
  if r.enable.isOne ∧ v.enable.isOne ∧ v.type = .str "dyndisk" then
    findParrent s r (baseFile s) (snapFile s r.vid) v x
  else if r.enable.isOne ∧ v.enable.isOne ∧ v.type = .str "dynblock" then
    findParrent s r (baseZvol s) (snapZvol s r.vid) v x
  else some x

/-- `cmd.img.child`; concatenating a nil is an error. -/
def imgChild (x : Vars) : Sys Unit := do
  let p ← lift x.parrent
  let c ← lift x.child
  modify fun w => w.create p c

/-- The wait for the child to be free, which kills whatever holds it, and the
removal of the file. -/
def freeAndDel (x : Vars) : Sys Unit := do
  let c ← lift x.child
  lsofkill c
  modify fun w => w.del c

/-- The last branch: a child there is goes, with the lock file, and a new one is
made as soon as its parent is there. -/
def recreate (lockf : String) (x : Vars) : Sys Unit := do
  when ((← get).isChild x.child) do
    freeAndDel x
    when ((← get).lock lockf) (modify fun w => w.setLock lockf false)
  match x.parrent, x.child with
  | some p, some _ =>
    wait fun w => (w.disk p).isSome
    imgChild x
  | _, _ => pure ()

/-- `PROCESS CREATE CHILD FILE`. -/
def createChild (lockf : String) (super : Bool) (x : Vars) : Sys Unit := do
  let w ← get
  if super ∧ ¬ w.lock lockf ∧ w.isChild x.child then
    freeAndDel x
    imgChild x
    modify fun w => w.setLock lockf true
  else if super ∧ ¬ w.lock lockf ∧ ¬ w.isChild x.child then
    modify fun w => w.setLock lockf true
    imgChild x
  else if super ∧ w.lock lockf ∧ w.isChild x.child then
    modify fun w => w.setLock lockf true
  else recreate lockf x

/-- One iteration of the loop of `nsboot:mkChild`. -/
def mkSlot (x : Vars) (i : Nat) (v : Img) : Sys Vars := do
  let x ← lift (findParrents s r v x)
  if r.enable.isOne ∧ v.enable.isOne ∧ v.type ≠ .str "iso" then
    createChild (lockName s i r.vid)
      (r.enable.isOne ∧ r.supper.isOne ∧ v.enable.isOne ∧ v.commit.isOne) x
    return ⟨none, none⟩
  else
    return x

/-- `nsboot:mkChild`. -/
def mkChild : Sys Unit := do
  when r.enable.isOne do
    let _ ← (r.img.zipIdx 1).foldlM (fun x vi => mkSlot s r x vi.2 vi.1) ⟨none, none⟩
    return ()

/-! ## The request -/

/-- The pipeline; it is the same in super mode and out of it. -/
def pipeline : Sys Unit := do
  tgtstop s r
  let _ ← nbdFree s r
  zfsmount s r
  mkChild s r
  let devs ← nbdConnect s r
  lunAdd s r devs

/-- A `set` line of the boot script. -/
def rootLine (c : Value) (name : String) (i : Nat) : Option String := do
  let proto ← textAt? c ["iscsi", "proto"]
  let port ← textAt? c ["iscsi", "port"]
  return "set " ++ name ++ " iscsi:$\x7bnext-server\x7d:" ++ proto ++ ":" ++ port ++ ":" ++
    toString i ++ ":" ++ targetName s r.vid

/-- The lines of a slot. -/
def rootLines (c : Value) (i : Nat) (v : Img) : Option (List String) :=
  if v.boot.tostring = "1" then (rootLine s r c "root-path" i).map ([·])
  else if v.boot.tostring = "2" then (rootLine s r c "root0" i).map ([·])
  else if v.boot.tostring = "3" then (rootLine s r c "root1" i).map ([·])
  else some []

/-- The iPXE script the client gets before the pipeline starts. -/
def bootScript (c : Value) : Option (List String) := do
  let roots ← (r.img.zipIdx 1).mapM fun vi => rootLines s r c vi.2 vi.1
  let body ← (← c.at? ["web", "pages", "ipxe", "body"]).str?
  let footer ← (← c.at? ["web", "pages", "ipxe", "footer"]).str?
  return "#!ipxe" :: ("set  initiator-iqn " ++ targetName s r.vid) :: roots.flatten ++
    [body, footer]

/-- A boot request from the address `ip`. What it prints is not kept. -/
def bootRequest (ip : String) : Sys Unit := do
  let c ← loadFromFile
  when ((← lift (checkconf c)) ∧ ip ≠ "::1") do
    let id ← lift (← lift (getIDFromIPv4 c (.str ip)))
    let s ← lift (Server.of? c)
    let r ← lift (Wks.of? ((wksOf c).get id))
    let _ ← lift (bootScript s r c)
    pipeline s r

end NsBoot
