import NsBoot.Lib.Json

/-!
# NsBoot.Config — the configuration tree and the names derived from it

`nsboot.cfg` is a Lua tree, kept in `nsboot.json` between requests. The boot
pipeline reads three parts of it, through the views below:

* `Server`: directories, prefixes and names of `nsboot.cfg.server`, `.zfs` and
  `.iscsi`;
* `Wks`, `Img`: a workstation record and its image slots.

Flags are kept as the Lua values they are: they come as numbers or as strings,
and the code compares their `tostring`.

All file, snapshot and target names are built from these by concatenation; the
functions at the end of the file are those names.
-/

namespace NsBoot

open Lua

/-! ## Server settings -/

/-- The settings the pipeline uses. `cfg.lua` computes `mpoint`, `dpoint`, `devpoint`
and `snadev` from the others; the pipeline reads what is stored. -/
structure Server where
  imgdir : String
  imgbackdir : String
  imgisodir : String
  imagePrefix : String
  lockfile : String
  nbdNbds : Nat
  iqn : String
  tmpname : String
  mpoint : String
  dpoint : String
  devpoint : String
  snadev : String
deriving DecidableEq, Repr

/-- A setting that is used as text. -/
def textAt? (c : Value) (path : List Key) : Option String := (c.at? path).bind Value.concat?

/-- The settings of a tree. A missing one is a Lua error at its first use; here
it is one when the request reads its settings. -/
def Server.of? (c : Value) : Option Server := do
  let imgdir ← textAt? c ["server", "imgdir"]
  let imgbackdir ← textAt? c ["server", "imgbackdir"]
  let imgisodir ← textAt? c ["server", "imgisodir"]
  let imagePrefix ← textAt? c ["server", "image_prefix"]
  let lockfile ← textAt? c ["server", "lockfile"]
  let nbds ← (← c.at? ["server", "nbd_nbds"]).tonumber
  let iqn ← textAt? c ["iscsi", "iqn"]
  let tmpname ← textAt? c ["zfs", "tmpname"]
  let mpoint ← textAt? c ["zfs", "mpoint"]
  let dpoint ← textAt? c ["zfs", "dpoint"]
  let devpoint ← textAt? c ["zfs", "devpoint"]
  let snadev ← textAt? c ["zfs", "snadev"]
  return { imgdir, imgbackdir, imgisodir, imagePrefix, lockfile, nbdNbds := nbds.toNat, iqn,
           tmpname, mpoint, dpoint, devpoint, snadev }

/-- The settings `tgtstop` and `nbdFree` use; the others are not read. -/
def Server.back? (c : Value) : Option Server := do
  let imgbackdir ← textAt? c ["server", "imgbackdir"]
  let imagePrefix ← textAt? c ["server", "image_prefix"]
  let iqn ← textAt? c ["iscsi", "iqn"]
  return { imgdir := "", imgbackdir, imgisodir := "", imagePrefix, lockfile := "", nbdNbds := 0,
           iqn, tmpname := "", mpoint := "", dpoint := "", devpoint := "", snadev := "" }

/-- The fields `checkconf` tests, in its order. -/
def checkedFields : List (List Key) :=
  [["server"], ["iscsi"], ["iscsi", "iqn"], ["iscsi", "listen"], ["iscsi", "port"],
   ["iscsi", "proto"], ["dhcp"], ["dhcp", "config"], ["dhcp", "config", "global"],
   ["server", "vendor"], ["server", "version"], ["server", "ipv4"], ["server", "mask"],
   ["server", "gateway"], ["server", "dns1"], ["server", "dns2"], ["server", "workdir"],
   ["server", "tftp"], ["server", "distdir"], ["server", "imgdir"], ["server", "imgdatadir"],
   ["server", "imgbackdir"], ["server", "config"], ["wks"], ["dhcp", "port"],
   ["dhcp", "workdir"], ["tftp", "port"], ["tftp", "workdir"], ["server", "image_prefix"],
   ["server", "nbd_nbds"], ["server", "nbd_max_part"]]

/-- One test of `checkconf`. -/
def present? (c : Value) (path : List Key) : Option Bool := (c.at? path).map fun v => v ≠ .nil

/-- `nsboot.inc.checkconf`. The tests do not stop at a missing table: reading a
field of one is an error. -/
def checkconf (c : Value) : Option Bool :=
  if c = .nil then some false
  else checkedFields.foldlM (fun ok path => (present? c path).map (ok && ·)) true

/-! ## Workstation records -/

/-- An image slot of a record. -/
structure Img where
  path : Value
  type : Value
  enable : Value
  commit : Value
  boot : Value
  cache : Value
deriving DecidableEq

/-- A workstation record, as the pipeline sees it. -/
structure Wks where
  mac : String
  ipv4 : Value
  tid : Value
  enable : Value
  supper : Value
  img : List Img
deriving DecidableEq

/-- `tostring(v) == "1"`. -/
def Lua.Value.isOne (v : Value) : Prop := v.tostring = "1"

/-- `tostring(v) == "0"`. -/
def Lua.Value.isZero (v : Value) : Prop := v.tostring = "0"

instance (v : Value) : Decidable v.isOne := inferInstanceAs (Decidable (_ = _))

instance (v : Value) : Decidable v.isZero := inferInstanceAs (Decidable (_ = _))

theorem isOne_one : (Value.str "1").isOne := by decide

theorem isZero_zero : (Value.str "0").isZero := by decide

theorem not_isOne_of_isZero {v : Value} (h : v.isZero) : ¬ v.isOne := by
  intro h1
  rw [Value.isZero, h1] at h
  exact absurd h (by decide)

def Img.of? : Value → Option Img
  | .table kvs => some {
      path := lookup "path" kvs
      type := lookup "type" kvs
      enable := lookup "enable" kvs
      commit := lookup "commit" kvs
      boot := lookup "boot" kvs
      cache := lookup "cache" kvs }
  | _ => none

/-- The record behind a table entry; `none` where the code would stop with an
error (no table, no `mac` string, no `img` array). -/
def Wks.of? (v : Value) : Option Wks := do
  let mac ← (← v.at? ["mac"]).str?
  let img ← readArray? Img.of? (v.get "img")
  return { mac, ipv4 := v.get "ipv4", tid := v.get "tid", enable := v.get "enable",
           supper := v.get "supper", img }

/-- The same for a record whose `img` may also be nil, which `tgtstop` and
`nbdFree` accept. -/
def Wks.ofBare? (v : Value) : Option Wks :=
  if v.get "img" = .nil then do
    let mac ← (← v.at? ["mac"]).str?
    return { mac, ipv4 := v.get "ipv4", tid := v.get "tid", enable := v.get "enable",
             supper := v.get "supper", img := [] }
  else Wks.of? v

/-- `mac:gsub('%W','')`. -/
def Wks.vid (r : Wks) : String := alnum r.mac

/-- A slot the pipeline makes a child for. -/
def Img.isDyn (v : Img) : Prop := v.type = .str "dyndisk" ∨ v.type = .str "dynblock"

instance (v : Img) : Decidable v.isDyn := inferInstanceAs (Decidable (_ ∨ _))

/-- `nsboot.cfg.wks`. -/
def wksOf (c : Value) : Value := c.get "wks"

/-- `for i,v in pairs(nsboot.cfg.wks) do if p_ipv4 == v.ipv4 then return i`. -/
def findIPv4 (ip : Value) : List (Key × Value) → Option (Option Key)
  | [] => some none
  | (i, v) :: kvs => do
    let a ← v.at? ["ipv4"]
    if ip = a then some (some i) else findIPv4 ip kvs

/-- `nsboot.inc.GetIDFromIPv4`; the inner `none` is the `nil` it returns. -/
def getIDFromIPv4 (c : Value) (ip : Value) : Option (Option Key) := do
  if (← checkconf c) ∧ ip ≠ .nil then
    match wksOf c with
    | .table kvs => findIPv4 ip kvs
    | _ => none
  else some none

/-! ## Names -/

section Names

variable (s : Server)

/-- The child image of a slot. -/
def childName (path vid : String) : String :=
  s.imgbackdir ++ "/" ++ path ++ s.imagePrefix ++ vid

/-- The lock file of slot number `i`. -/
def lockName (i : Nat) (vid : String) : String := s.lockfile ++ toString i ++ vid

/-- The live base image of a `dyndisk`, and of a `dynblock`. -/
def baseFile (path : String) : String := s.imgdir ++ "/" ++ path

def baseZvol (path : String) : String := s.devpoint ++ "/" ++ path

/-- The same image inside the workstation's own snapshot. -/
def snapFile (vid path : String) : String :=
  s.imgdir ++ "/" ++ s.tmpname ++ "/" ++ vid ++ "/" ++ path

def snapZvol (vid path : String) : String :=
  s.devpoint ++ "/" ++ path ++ "@" ++ s.tmpname ++ "_" ++ vid

/-- An image that is given to the workstation as a CD. -/
def isoFile (path : String) : String := s.imgisodir ++ "/" ++ path

/-- The mount point of the workstation's snapshot. -/
def zpoint (vid : String) : String := s.mpoint ++ "/" ++ vid

/-- The snapshot is mounted where the children look for it, as `cfg.lua` computes
`mpoint`. -/
def Server.Mounted : Prop := s.mpoint = s.imgdir ++ "/" ++ s.tmpname

instance : Decidable s.Mounted := inferInstanceAs (Decidable (_ = _))

/-- The workstation's snapshot of the images' dataset, and of one volume. -/
def zdest (vid : String) : String := s.dpoint ++ vid

def zvolSnap (vid path : String) : String :=
  s.snadev ++ "/" ++ path ++ "@" ++ s.tmpname ++ "_" ++ vid

/-- The iSCSI target of the workstation. -/
def targetName (vid : String) : String := s.iqn ++ ":" ++ vid

end Names

/-- A `vid` of twelve hexadecimal digits: what a MAC address leaves. -/
def IsMacId (vid : String) : Prop := vid.length = 12 ∧ ∀ c ∈ vid.toList, isHexDigit c

instance (vid : String) : Decidable (IsMacId vid) :=
  @instDecidableAnd _ _ _ (List.decidableBAll _ _)

theorem append_suffix_inj {a b u v : String} (hlen : u.length = v.length)
    (h : a ++ u = b ++ v) : a = b ∧ u = v := by
  have hl : a.toList ++ u.toList = b.toList ++ v.toList := by
    simpa using congrArg String.toList h
  obtain ⟨hab, huv⟩ := List.append_inj' hl (by rwa [String.length_toList, String.length_toList])
  exact ⟨String.toList_injective hab, String.toList_injective huv⟩

theorem toString_nat_inj {i j : Nat} (h : (toString i : String) = toString j) : i = j := by
  have hnum := congrArg numberOf h
  rw [numberOf_toString, numberOf_toString] at hnum
  exact Int.ofNat.inj (Option.some.inj hnum)

section Injective

variable {s : Server} {u v : String}

theorem Server.Mounted.snapFile_eq (h : s.Mounted) (vid path : String) :
    zpoint s vid ++ "/" ++ path = snapFile s vid path := by
  rw [zpoint, snapFile, h]

theorem childName_inj (hlen : u.length = v.length) {p q : String}
    (h : childName s p u = childName s q v) : p = q ∧ u = v := by
  obtain ⟨hpq, huv⟩ := append_suffix_inj hlen h
  refine ⟨?_, huv⟩
  simpa using (append_suffix_inj rfl hpq).1

theorem lockName_inj (hlen : u.length = v.length) {i j : Nat}
    (h : lockName s i u = lockName s j v) : i = j ∧ u = v := by
  obtain ⟨hij, huv⟩ := append_suffix_inj hlen h
  refine ⟨?_, huv⟩
  exact toString_nat_inj (by simpa using hij)

end Injective

end NsBoot
