import NsBoot.Lib.Blocks
import NsBoot.Lib.Grep
import NsBoot.Lib.Prog
import NsBoot.Config

/-!
# NsBoot.System — the machine the controller runs on

What the external commands of `nsboot.cmd` and the file tests of `nsboot.inc`
read and change:

* `child`: the overlay files under `imgbackdir`, by name; `lock`: the lock
  files; `disk`: the images a child can be backed by (live bases, and the files
  and devices of snapshots). The directories of the configuration are separate,
  so these are separate stores.
* `procs`: processes and the files they hold, with the two kinds of processes
  the controller starts: `qemu-nbd` servers and `qemu-img commit` runs.
* `tgts`: the iSCSI targets of `tgtd`; `services`: whether dhcpd, tftpd and tgtd
  listen after `nsboot.inc.monit` has tried to start them, which `tgtstart` and
  `tgtstop` ask for (`nsboot.inc.scCheck`).
* `file`: `nsboot.json`, as the tree a decoder reads from it (`Json`: such trees
  have a decoder's shape by their type).

A request is a program over this state (`Sys`) whose atomic steps are single
commands, file reads and file writes. Those that matter to other requests are
labelled with the command (`Op`). External commands are taken to succeed where they
can; `qemu-img create` needs its parent.
-/

namespace NsBoot

open Lua Prog

/-! ## State -/

/-- The content of a block, and when it was written. -/
structure Cell where
  data : Nat
  time : Nat
deriving DecidableEq, Repr

/-- A child image: the blocks written since it was made, over a backing file. -/
structure Overlay where
  backing : String
  blocks : Blocks.Content Cell
  born : Nat
deriving DecidableEq, Repr

/-- An image a child can be backed by; snapshots are frozen. -/
structure Disk where
  blocks : Blocks.Content Cell
  frozen : Bool
deriving DecidableEq, Repr

/-- What a process does: serve a child on an nbd device, or copy the blocks of a
child, of which `copied` are done, into its backing file. -/
inductive Job where
  | nbd
  | commit (base : String) (blocks : Blocks.Content Cell) (copied : Nat)
  | other
deriving DecidableEq, Repr

structure Proc where
  pid : Nat
  files : List String
  job : Job
deriving DecidableEq, Repr

structure Target where
  tid : String
  name : String
  luns : List (Nat × String)
deriving DecidableEq, Repr

/-- The answers 1 and 2 of `cmd.nbd.usewho`. -/
inductive Holder where
  | nbd
  | tgtd
deriving DecidableEq, Repr

structure World where
  file : Json
  dhcpd : String
  child : String → Option Overlay
  lock : String → Bool
  disk : String → Option Disk
  procs : List Proc
  tgts : List Target
  services : Bool
  arp : String → String
  /-- What `nsboot:checkstatpc` says of an address. -/
  online : String → Bool
  clock : Nat

/-! ## Images -/

/-- A block that reaches an image; a snapshot takes none. -/
def Disk.write (d : Disk) (b : Nat) (x : Cell) : Disk :=
  if d.frozen then d else { d with blocks := Blocks.write d.blocks b x }

/-- A snapshot of a live image; a snapshot of a snapshot there is not. -/
def Disk.snap? (d : Disk) : Option Disk := if d.frozen then none else some { d with frozen := true }

/-- The part of a name after a directory. -/
def under (dir name : String) : Option String :=
  ((dir ++ "/").toList.isPrefixOf? name.toList).map String.ofList

theorem under_eq_some {dir name p : String} : under dir name = some p ↔ name = dir ++ "/" ++ p := by
  simp only [under, Option.map_eq_some_iff, List.isPrefixOf?_eq_some_iff_append_eq]
  constructor
  · rintro ⟨cs, hcs, rfl⟩
    apply String.toList_injective
    simp [← hcs]
  · rintro rfl
    exact ⟨p.toList, by simp, by simp⟩

/-- The commands that other requests can notice, and those that leave the machine as
it is: `etherwake`, and `tgtadm` for the connections of an address. -/
inductive Op where
  | load
  | save
  | unmount (point : String)
  | snapDir (dir point : String)
  | snapDev (dev snap : String)
  | kill (f : String)
  | commit (f : String)
  | wake (iface mac : String)
  | ask (ip : String)
  | tau
deriving DecidableEq, Repr

instance : Inhabited Op := ⟨.tau⟩

/-- What a command does to the images. -/
def Op.disks : Op → (String → Option Disk) → String → Option Disk
  -- the names below the mount point are gone
  | .unmount point, d => fun n => if (under point n).isSome then none else d n
  -- the snapshot of a dataset is mounted: its files, as they are now
  | .snapDir dir point, d => fun n =>
    match under point n with
    | some p => (d (dir ++ "/" ++ p)).bind Disk.snap?
    | none => d n
  -- the snapshot of a volume shows the volume as it is now
  | .snapDev dev snap, d => fun n => if n = snap then (d dev).bind Disk.snap? else d n
  | _, d => d

/-- The line `tgtadm --op show` prints for a target. -/
def Target.line (t : Target) : String := "Target " ++ t.tid ++ ": " ++ t.name

/-- awk's `/\/dev\/nbd/`, for the name of an open file. -/
def isNbdName (f : String) : Bool := f.toList.tails.any ("/dev/nbd".toList.isPrefixOf ·)

namespace World

variable (w : World)

/-- `isFile` of a child name that may be nil. -/
def isChild : Option String → Bool
  | some f => (w.child f).isSome
  | none => false

/-- `os.remove` of a child. -/
def del (f : String) : World :=
  { w with child := fun g => if g = f then none else w.child g }

/-- `qemu-img create -b parent child`: an empty overlay, with the size of its parent.
Without the parent the command fails. -/
def create (parent f : String) : World :=
  if (w.disk parent).isSome then
    { w with
      child := fun g => if g = f then some ⟨parent, [], w.clock⟩ else w.child g
      clock := w.clock + 1 }
  else w

/-- Creating and removing a lock file. -/
def setLock (f : String) (b : Bool) : World :=
  { w with lock := fun g => if g = f then b else w.lock g }

/-! ## Processes -/

/-- `lsof -t f`. -/
def holders (f : String) : List Proc := w.procs.filter fun p => f ∈ p.files

/-- Every process that holds the file is killed. -/
def killHolders (f : String) : World := { w with procs := w.procs.filter fun p => f ∉ p.files }

def nextPid : Nat := w.procs.foldl (fun n p => max n p.pid) 0 + 1

def spawn (files : List String) (job : Job) : World :=
  { w with procs := w.procs ++ [⟨w.nextPid, files, job⟩] }

/-- A process that will copy the blocks of the child into its backing file. -/
def startCommit (f : String) : World :=
  match w.child f with
  | some o => w.spawn [f, o.backing] (.commit o.backing o.blocks 0)
  | none => w

/-- A running commit copies its next block, or ends. -/
def copyBlock (pid : Nat) : World :=
  match w.procs.find? (fun p => p.pid = pid) with
  | some ⟨_, files, .commit base blocks n⟩ =>
    match blocks[n]? with
    | some (b, x) =>
      { w with
        disk := fun g => if g = base then (w.disk g).map (Disk.write · b x) else w.disk g
        procs := w.procs.map fun p =>
          if p.pid = pid then ⟨pid, files, .commit base blocks (n + 1)⟩ else p }
    | none => { w with procs := w.procs.filter fun p => p.pid ≠ pid }
  | _ => w

/-- A block written by a workstation to the child `f`, through the nbd server
that is attached to it. -/
def writeBlock (f : String) (b data : Nat) : World :=
  match w.child f with
  | some o =>
    if w.procs.any (fun p => p.job = .nbd ∧ f ∈ p.files) then
      { w with
        child := fun g =>
          if g = f then some { o with blocks := Blocks.write o.blocks b ⟨data, w.clock⟩ }
          else w.child g
        clock := w.clock + 1 }
    else w
  | none => w

/-! ## iSCSI targets -/

/-- `cmd.tgt.used`: some target line passes both greps. -/
def tgtUsed (name : String) : Bool :=
  w.tgts.any fun t => Grep.grep "Target [0-9]:" t.line && Grep.grep name t.line

/-- `cmd.tgt.new`: tgtd takes a target whose tid and name are both free. -/
def tgtNew (tid name : String) : World :=
  if w.tgts.any (fun t => t.tid = tid ∨ t.name = name) then w
  else { w with tgts := w.tgts ++ [⟨tid, name, []⟩] }

/-- `cmd.tgt.kill`. -/
def tgtKill (tid : String) : World := { w with tgts := w.tgts.filter fun t => t.tid ≠ tid }

/-- `cmd.lun.add`; a LUN number that is taken stays with its store. -/
def lunNew (tid : String) (lun : Nat) (store : String) : World :=
  { w with tgts := w.tgts.map fun t =>
      if t.tid = tid ∧ t.luns.all (fun l => l.1 ≠ lun) then
        { t with luns := t.luns ++ [(lun, store)] }
      else t }

/-! ## nbd devices -/

/-- `lsof` of a device: held by a process, or by tgtd as a LUN's store. -/
def devUsed (dev : String) : Bool :=
  !(w.holders dev).isEmpty || w.tgts.any fun t => t.luns.any fun l => l.2 = dev

/-- `cmd.nbd.usewho`. Without any nbd server the pattern of the first grep is empty,
and every holder of the device matches it. -/
def usewho (dev : String) : Option Holder :=
  let servers := w.procs.filter fun p => p.job = .nbd
  if w.devUsed dev ∧ (servers = [] ∨ ∃ p ∈ servers, dev ∈ p.files) then some .nbd
  else if w.tgts.any fun t => t.luns.any fun l => l.2 = dev then some .tgtd
  else none

/-- `nsboot.inc.search_nbd`. -/
def searchNbd (nbds : Nat) : Option String :=
  ((List.range nbds).map fun i : Nat => "/dev/nbd" ++ toString (i + 1)).find? fun d => !w.devUsed d

/-- `nsboot.inc.getpid_nbd`, then the `gsub('%W','')` its caller applies: the
digits of *all* pids that hold the file, run together. -/
def getpidNbd (f : String) : Option String :=
  match w.holders f with
  | [] => none
  | ps => some (ps.foldl (fun t p => t ++ toString p.pid) "")

/-- `nsboot.inc.getdev_nbd`: the files of the process with that pid that awk picks out. -/
def getdevNbd (pid : String) : Option (List String) :=
  match w.procs.find? fun p => toString p.pid = pid with
  | none => none
  | some p =>
    match p.files.filter isNbdName with
    | [] => none
    | devs => some devs

/-- The nbd devices `nbdFree` finds for a child. -/
def nbdsOf (f : String) : Option (List String) :=
  if (w.child f).isSome then (w.getpidNbd f).bind w.getdevNbd else none

/-- `cmd.nbd.add`, once the daemon has run it: a server for the child. -/
def nbdAdd (dev f : String) : World :=
  if (w.child f).isSome ∧ ¬ w.devUsed dev then w.spawn [f, dev] .nbd else w

/-- `cmd.nbd.del`: the server of the device ends. -/
def nbdDel (dev : String) : World :=
  { w with procs := w.procs.filter fun p => ¬ (p.job = .nbd ∧ dev ∈ p.files) }

end World

/-! ## Programs -/

/-- A request, or a part of one. -/
abbrev Sys (α : Type) := Prog Op World α

/-- `nsboot:LoadFromFile`. -/
def loadFromFile : Sys Value := observe .load fun w => w.file.val

/-- `nsboot:SaveToFile`. -/
def saveToFile (c : Value) : Sys Unit := do
  when (← lift (checkconf c)) do
    perform .save fun w => { w with file := encode c }

/-- A command of `nsboot.cmd.zfs`. -/
def zfs (o : Op) : Sys Unit := perform o fun w => { w with disk := o.disks w.disk }

/-- `nsboot.inc.lsofkill`. -/
def lsofkill (f : String) : Sys Unit := perform (.kill f) (World.killHolders · f)

/-- `cmd.img.commit`. The process is started and not waited for. -/
def imgCommit (f : String) : Sys Unit := perform (.commit f) (World.startCommit · f)

end NsBoot
