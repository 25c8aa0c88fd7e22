import NsBoot.Boot
import NsBoot.Dhcp

/-!
# NsBoot.Admin — the POST requests of the admin page

`GetPage` decodes the body into the table `post`, reloads the configuration and
then runs through its handlers in order; one body can trigger several of them:

* the super-mode commands (`supper`), each of which reloads the configuration
  once more before it changes it;
* `PowerON`;
* `GetMy`, which proposes a record for a new workstation (`id=0`) or returns a
  stored one;
* `ApplyMy`, which stores a posted record under its `tid`;
* `DeleteMachine`, which leaves a tombstone.
-/

namespace NsBoot

open Lua Prog

/-- A decoded body. `jsondata` is `some none` when it is there and is no JSON. -/
structure Post where
  id : Option String
  supper : Option String
  cmd : Option String
  wksCmd : Option String
  jsondata : Option (Option Json)

/-- The `tid` of the posted record. -/
def Post.tid? (p : Post) : Option Value := do
  (← (← p.jsondata)).val.at? ["WKS", "tid"]

/-- `nsboot.cfg.wks[n]`; indexing by nil reads nil. -/
def wksAt? (c : Value) : Option Int → Option Value
  | some n => c.at? ["wks", .num n]
  | none => (c.at? ["wks", .num 0]).map fun _ => .nil

/-! ## Super mode -/

inductive SupperCmd where
  | enable
  | disableUncommit
  | disableCommit
  | disableCommitPoint
  | supperCheck
  | diskList
deriving DecidableEq, Repr

def SupperCmd.of? : String → Option SupperCmd
  | "true" => some .enable
  | "disableUncommit" => some .disableUncommit
  | "disableCommit" => some .disableCommit
  | "disableCommitPoint" => some .disableCommitPoint
  | "supperCheck" => some .supperCheck
  | "DiskList" => some .diskList
  | _ => none

/-- What the command sets the flags to. -/
def SupperCmd.flag : SupperCmd → String
  | .enable => "1"
  | _ => "0"

/-- The commands that set flags; the others only answer. -/
def SupperCmd.Sets (cmd : SupperCmd) : Prop := cmd ≠ .supperCheck ∧ cmd ≠ .diskList

instance (cmd : SupperCmd) : Decidable cmd.Sets := inferInstanceAs (Decidable (_ ∧ _))

/-- `nsboot.cfg.wks[n].supper = v`. -/
def setSupper (n : Int) (v : Value) (c : Value) : Option Value :=
  c.assign? ["wks", .num n, "supper"] v

/-- `nsboot.cfg.wks[n].img[i].commit = v`. -/
def setCommit (n i : Int) (v : Value) (c : Value) : Option Value :=
  c.assign? ["wks", .num n, "img", .num i, "commit"] v

/-- The flags of the slots in the posted list, and the workstation's. -/
def setFlags (n : Int) (data : Option Json) (c : Value) : Option Value := do
  let .table us := (← data).val | none
  let c ← (ipairs us).foldlM (fun c u => do setCommit n (← u.2.tonumber) (.str "1") c) c
  setSupper n (.str "1") c

/-- The flags back to 0. -/
def clearFlags (n : Int) (c : Value) : Option Value := do
  let c ← setSupper n (.str "0") c
  [1, 2, 3].foldlM (fun c i => setCommit n i (.str "0") c) c

/-- `supper=true`. -/
def supperTrue (n : Int) (jsondata : Option (Option Json)) : Sys Value := do
  let c ← loadFromFile
  match jsondata with
  | none => return c
  | some data =>
    let c ← lift (setFlags n data c)
    saveToFile c
    return c

/-- `disableUncommit` and `disableCommitPoint`. -/
def endSession (n : Int) : Sys Value := do
  let c ← loadFromFile
  let c ← lift (clearFlags n c)
  saveToFile c
  return c

/-- `v.nbd` of each slot, as `nbdFree` leaves it. -/
def setNbds (id : Key) (nbds : List Value) (c : Value) : Option Value :=
  (nbds.zipIdx 1).foldlM
    (fun c vi => c.assign? ["wks", id, "img", .num (vi.2 : Int), "nbd"] vi.1) c

/-- `tgtstop` and `nbdFree` of the workstation that has the address. -/
def freeByIPv4 (s : Server) (ip : Value) (c : Value) : Sys Value := do
  let id ← lift (← lift (getIDFromIPv4 c ip))
  let r ← lift (Wks.ofBare? ((wksOf c).get id))
  tgtstop s r
  let nbds ← nbdFree s r
  lift (setNbds id nbds c)

/-- One slot of `disableCommit`. -/
def commitSlot (n : Int) (u : Key) (c : Value) : Sys Value := do
  let v ← lift (c.at? ["wks", .num n, "img", u])
  let enable ← lift (v.at? ["enable"])
  if enable.isOne ∧ (v.get "commit").isOne ∧ v.get "type" ≠ .str "iso" then
    let s ← lift (Server.back? c)
    let path ← lift (v.get "path").concat?
    let mac ← lift ((c.at? ["wks", .num n, "mac"]).bind Value.str?)
    let child := childName s path (alnum mac)
    if ((← get).child child).isSome then
      let ip ← lift (c.at? ["wks", .num n, "ipv4"])
      let c ← (if ip ≠ .nil then freeByIPv4 s ip c else pure c : Sys Value)
      imgCommit child
      return c
    else return c
  else return c

/-- The loop of `disableCommit`; the flag is compared without `tostring`. -/
def commitSlots (n : Int) (c : Value) : Sys Value := do
  let v ← lift (c.at? ["wks", .num n])
  if v = .nil then return c
  else
    let supper ← lift (v.at? ["supper"])
    if supper = .str "1" then
      let .table img := v.get "img" | fail
      (keys img).foldlM (fun c u => commitSlot n u c) c
    else return c

/-- `disableCommit`. -/
def disableCommit (n : Int) : Sys Value := do
  let c ← loadFromFile
  let c ← commitSlots n c
  let c ← lift (clearFlags n c)
  saveToFile c
  return c

/-- `supperCheck` asks `tgtadm` for the workstation's address, and once more when it is
not connected. -/
def askConnected (v : Value) : Sys Unit := do
  let supper ← lift (v.at? ["supper"])
  when supper.isOne do
    let ip ← lift (v.get "ipv4").concat?
    perform (.ask ip) id
    when (¬ (← get).online ip) (perform (.ask ip) id)

/-- `DiskList` reads the paths of the first three slots. -/
def diskPaths (v : Value) : Option (List Value) := do
  [1, 2, 3].mapM fun i => v.at? ["img", .num i, "path"]

/-- The super-mode handlers; the result is `nsboot.cfg` after them. -/
def supperPart (p : Post) (c : Value) : Sys Value := do
  match p.id, p.supper.bind SupperCmd.of? with
  | some id, some cmd =>
    if ← lift (checkconf c) then
      let v ← lift (wksAt? c (numberOf id))
      match numberOf id with
      | none => return c
      | some n =>
        if v = .nil then return c
        else match cmd with
        | .enable => supperTrue n p.jsondata
        | .disableUncommit => if v = .bool false then return c else endSession n
        | .disableCommit => if v = .bool false then return c else disableCommit n
        | .disableCommitPoint => if v = .bool false then return c else endSession n
        | .supperCheck => if v = .bool false then return c else do askConnected v; return c
        | .diskList => if v = .bool false then return c else do let _ ← lift (diskPaths v); return c
    else return c
  | _, _ => return c

/-! ## Power -/

/-- `PowerON`: `etherwake` on every interface. -/
def powerOn (p : Post) (c : Value) : Sys Unit := do
  when (p.id ≠ none ∧ p.cmd = some "PowerON") do
    when (← lift (checkconf c)) do
      let v ← lift (wksAt? c (p.id.bind numberOf))
      when (v ≠ .nil) do
        let enable ← lift (v.at? ["enable"])
        when (enable.isOne ∧ v.get "mac" ≠ .nil) do
          let .table ifaces ← lift (c.at? ["server", "ifaces"]) | fail
          ifaces.forM fun e => do
            let iface ← lift e.2.concat?
            let mac ← lift (v.get "mac").concat?
            perform (.wake iface mac) id

/-! ## Records -/

/-- The scan for a free id: the first tombstone, else one more than the last
entry whose `tid` is its key. -/
def scanId : List (Int × Value) → Option Int → Option (Option Int)
  | [], t => some t
  | (k, v) :: kvs, t => do
    if (← v.at? ["empty"]) = .str "true" then some (some k)
    else scanId kvs (if (v.get "tid").tonumber = some k then some (k + 1) else t)

/-- `s:gsub("[0-9]$", t)`. -/
def replaceLastDigit (s t : String) : String :=
  match s.toList.reverse with
  | c :: cs => if c.isDigit then String.ofList cs.reverse ++ t else s
  | [] => s

/-- The first of two settings that is there, else a default. -/
def firstText? (a b : Value) (d : String) : Option String :=
  if a ≠ .nil then a.concat? else if b ≠ .nil then b.concat? else some d

/-- A slot of the proposed record. -/
def proposedSlot (nbd : Int) (type : String) : Value :=
  .table [("path", .str "none"), ("commit", .num 0), ("enable", .num 1),
    ("nbd", .str ("/dev/nbd" ++ toString nbd)), ("type", .str type), ("boot", .num 0),
    ("cache", .str "none")]

/-- The proposed address; without a subnet its last part is the posted id. -/
def proposedIp (id : Int) : Value → Option String
  | .nil => some "192.168.10.0"
  | .str sub => some (replaceLastDigit sub (toString id))
  | _ => none

/-- The proposed record. -/
def proposedWks (id : Int) (ip mac gw dns dsearch : String) : Value :=
  .table [("enable", .num 1), ("group", .str "DEFAULT"), ("gateway", .str gw), ("dns", .str dns),
    ("domainsearch", .str dsearch), ("supper", .num 0),
    ("img", .table [(.num 1, proposedSlot (id + 2) "dyndisk"),
      (.num 2, proposedSlot (id + 3) "dynblock"), (.num 3, proposedSlot 0 "iso")]),
    ("fileboot", .str "ipxe"), ("mac", .str mac), ("tid", .num id), ("ipv4", .str ip),
    ("opt", .table []), ("name", .str ("PC00" ++ toString id)), ("swp", .num 0)]

/-- What `GetMy` with `id=0` answers. -/
def proposal (arp : String → String) (c : Value) : Option Value := do
  let .table wks ← c.at? ["wks"] | none
  let t ← scanId (ipairs wks) none
  let opt ← c.at? ["dhcp", "config", "opt"]
  let dns ← firstText? (← opt.at? ["domain-name-servers"]) (← c.at? ["server", "dns1"]) "127.0.0.1"
  let gw ← firstText? (← opt.at? ["routers"]) (← c.at? ["server", "gateway"]) "127.0.0.1"
  let dsearch ← firstText? (← opt.at? ["domain-name"]) .nil "nsboot.local"
  let sub ← c.at? ["dhcp", "config", "sub", .num 1, "sub"]
  -- without a subnet nothing but the reply needs the id; the reply does
  let id ← t
  let ip ← proposedIp id sub
  let mac := String.ofList ((arp ip).toList.filter (· ≠ '\n'))
  let _ ← c.at? ["zfs", "devpoint"]
  let _ ← c.at? ["groups", "wks"]
  return proposedWks id ip mac gw dns dsearch

/-- `GetMy`: the record sent to the page, if it was asked for one. -/
def getMy (p : Post) (arp : String → String) (c : Value) : Option (Option Value) := do
  if p.wksCmd = some "GetMy" then
    if p.id = some "0" then
      return some (← proposal arp c)
    else
      let v ← wksAt? c (p.id.bind numberOf)
      let _ ← c.at? ["zfs", "devpoint"]
      let _ ← c.at? ["groups", "wks"]
      return some v
  else return none

/-- `wks[t]` for a value as the index. -/
def wksIndex? (c : Value) : Value → Option Value
  | .num n => c.at? ["wks", .num n]
  | .str t => c.at? ["wks", .str t]
  | _ => wksAt? c none

/-- `nsboot:ExportDHCP`. -/
def exportDHCP (c : Value) : Sys Unit := do
  when (← lift (checkconf c)) do
    let _ ← lift (textAt? c ["dhcp", "workdir"])
    match dhcpdConf c "" with
    | .ok _ t => modify fun w => { w with dhcpd := t }
    | .error _ t =>
      modify fun w => { w with dhcpd := t }
      fail

/-- `ApplyMy`. The slot is tested under the posted `tid` as it is, and written
under the number it stands for. -/
def applyMy (p : Post) (c : Value) : Sys Value := do
  match p.id, p.wksCmd, p.jsondata with
  | some _, some "ApplyMy", some data =>
    let v ← lift data
    let tid ← lift (v.val.at? ["WKS", "tid"])
    let wks ← lift (c.at? ["wks"])
    if wks = .nil then return c
    else
      let old ← lift (wksIndex? c tid)
      if old = .nil then
        let n ← lift tid.tonumber
        let c ← lift (c.assign? ["wks", .num n] (v.val.get "WKS"))
        saveToFile c
        exportDHCP c
        return c
      else return c
  | _, _, _ => return c

def tombstone : Value := .table [("empty", .str "true")]

/-- The new configuration of `DeleteMachine`. -/
def deleted (id : String) (c : Value) : Option Value := do
  let v ← wksAt? c (numberOf id)
  if v = .nil then return c
  else
    let tid ← v.at? ["tid"]
    if tid.tostring = id then c.assign? ["wks", .num (← numberOf id)] tombstone else return c

/-- `DeleteMachine`; the configuration is saved even when nothing was deleted. -/
def deleteMachine (p : Post) (c : Value) : Sys Unit := do
  match p.id, p.wksCmd with
  | some id, some "DeleteMachine" =>
    let c ← lift (deleted id c)
    saveToFile c
  | _, _ => return ()

/-- A POST request; returned is what `GetMy` sends. -/
def post (p : Post) : Sys (Option Value) := do
  let c ← loadFromFile
  if ← lift (checkconf c) then
    let c ← loadFromFile
    let c ← supperPart p c
    powerOn p c
    let reply ← lift (getMy p (← get).arp c)
    let c ← applyMy p c
    deleteMachine p c
    return reply
  else return none

end NsBoot
