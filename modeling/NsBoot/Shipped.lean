import NsBoot.System

/-!
# NsBoot.Shipped — the configuration `cfg.lua` ships

The settings the controller starts with when there is no `nsboot.json` yet, for
a table of workstations that is left open. `shipped_checkconf` says that they
pass the controller's own check whatever the workstations are.
-/

namespace NsBoot

open Lua

/-- A Lua array. -/
def array (vs : List Value) : Value :=
  .table ((vs.zipIdx 1).map fun vi => (.num (vi.2 : Int), vi.1))

/-- An image slot as `cfg.lua` writes it. -/
def shippedSlot (path type : String) (boot enable : Int) : Value :=
  .table [("path", .str path), ("boot", .num boot), ("cache", .str "unsafe"), ("type", .str type),
    ("commit", .num 0), ("enable", .num enable)]

/-- A workstation record as `cfg.lua` writes it, with the fields the controller
reads: a disk, a volume and a CD. -/
def shippedWks (tid : Int) (mac ipv4 name disk volume : String) : Value :=
  .table [("mac", .str mac), ("ipv4", .str ipv4), ("name", .str name), ("enable", .num 1),
    ("tid", .num tid), ("supper", .num 0), ("fileboot", .str "ipxe"),
    ("img", array [shippedSlot disk "dyndisk" 1 1, shippedSlot volume "dynblock" 0 1,
      shippedSlot "" "iso" 0 0]),
    ("opt", array [.str "ipxe.keep-san 1", .str "ipxe.no-pxedhcp 1"])]

/-- The long fixed texts of `cfg.lua`: the iPXE options of dhcpd.conf and the two
parts of the boot menu. -/
structure Texts where
  ipxe : String
  body : String
  footer : String

/-- `cfg.lua` with its fixed texts and its workstations left open. -/
def shippedCfg (texts : Texts) (wks : List Value) : Value :=
  .table [
    ("server", .table [("vendor", .str "Nuke Technology LLC"), ("version", .str "4.0.0"),
      ("ipv4", .str "192.168.0.2"), ("mask", .str "255.255.255.0"),
      ("gateway", .str "192.168.0.210"), ("dns1", .str "8.8.8.8"), ("dns2", .str "8.8.4.4"),
      ("workdir", .str "/srv"), ("tftp", .str "tftp"), ("distdir", .str "nsboot"),
      ("imgdir", .str "/srv/images/boot"), ("imgdatadir", .str "/images/games"),
      ("imgisodir", .str "/srv/images/iso"), ("imgbackdir", .str "/srv/writeback"),
      ("config", .str "nsboot.json"), ("image_prefix", .str "_child_"), ("debug", .num 1),
      ("nbd_max_part", .num 63), ("nbd_nbds", .num 20), ("listen", .num 8888),
      ("shell_port", .num 4200), ("lockfile", .str "/var/lock/nsboot_lock_"),
      ("ifaces", array [.str "eno1"])]),
    ("groups", .table [("wks", array [.str "DEFAULT", .str "VIP"])]),
    ("zfs", .table [("pool", .table [("name", .str "nsboot0"), ("dir", .str "/srv")]),
      ("dsetsrc", .str "images/boot"), ("tmpname", .str "snap"),
      ("devname", .str "images/storages"), ("dpoint", .str "nsboot0/images/boot@snap_"),
      ("mpoint", .str "/srv/images/boot/snap"),
      ("devpoint", .str "/dev/zvol/nsboot0/images/storages"),
      ("snadev", .str "nsboot0/images/storages")]),
    ("iscsi", .table [("iqn", .str "2020-02-10.com.nsboot"), ("listen", .str "0.0.0.0"),
      ("port", .num 3260), ("proto", .num 6)]),
    ("wks", array wks),
    ("dhcp", .table [("listen", .str "0.0.0.0"), ("port", .num 67), ("workdir", .str "/etc/dhcp"),
      ("config", .table [
        ("global", .table [("authoritative", .str ""), ("default-lease-time", .num 600),
          ("max-lease-time", .num 7200), ("ddns-update-style", .str "none"),
          ("next-server", .str "192.168.0.2")]),
        ("opt", .table [("domain-name", .str "nsboot.local"),
          ("domain-name-servers", .str "8.8.8.8"), ("subnet-mask", .str "255.255.255.0"),
          ("broadcast-address", .str "192.168.0.255"), ("routers", .str "192.168.0.210")]),
        ("sub", array [.table [("sub", .str "192.168.0.0"), ("mask", .str "255.255.255.0"),
          ("ranges", array [.str "192.168.0.10 192.168.0.149",
            .str "192.168.0.180 192.168.0.200"])]]),
        ("ipxe", .str texts.ipxe)])]),
    ("web", .table [("pages", .table [("ipxe", .table [("body", .str texts.body),
      ("footer", .str texts.footer)])])]),
    ("tftp", .table [("port", .num 69), ("workdir", .str "/srv/tftp")])]

/-- The shipped settings, as the pipeline reads them. -/
def shippedServer : Server where
  imgdir := "/srv/images/boot"
  imgbackdir := "/srv/writeback"
  imgisodir := "/srv/images/iso"
  imagePrefix := "_child_"
  lockfile := "/var/lock/nsboot_lock_"
  nbdNbds := 20
  iqn := "2020-02-10.com.nsboot"
  tmpname := "snap"
  mpoint := "/srv/images/boot/snap"
  dpoint := "nsboot0/images/boot@snap_"
  devpoint := "/dev/zvol/nsboot0/images/storages"
  snadev := "nsboot0/images/storages"

theorem shipped_checkconf (texts : Texts) (wks : List Value) :
    checkconf (shippedCfg texts wks) = some true := by
  simp [checkconf, checkedFields, present?, shippedCfg, Value.at?, lookup, array]

/-- A machine on which nothing runs yet, with live, empty base images. -/
def World.initial (c : Value) (bases : List String) : World where
  file := encode c
  dhcpd := ""
  child := fun _ => none
  lock := fun _ => false
  disk := fun n => if n ∈ bases then some ⟨[], false⟩ else none
  procs := []
  tgts := []
  services := true
  arp := fun _ => ""
  online := fun _ => false
  clock := 0

/-- One workstation with the shipped settings and a base image. -/
def oneStation : World :=
  World.initial (shippedCfg ⟨"", "", ""⟩
    [shippedWks 1 "b4:2e:99:2c:dd:52" "192.168.0.3" "PC001" "win10cc.qcow2" "lord.qcow2"])
    ["/srv/images/boot/win10cc.qcow2", "/dev/zvol/nsboot0/images/storages/lord.qcow2"]

/-- Its record after `supper=true` for the first disk. -/
def superRecord : Wks where
  mac := "b4:2e:99:2c:dd:52"
  ipv4 := .str "192.168.0.3"
  tid := .num 1
  enable := .num 1
  supper := .str "1"
  img := [⟨.str "win10cc.qcow2", .str "dyndisk", .num 1, .str "1", .num 1, .str "unsafe"⟩,
    ⟨.str "lord.qcow2", .str "dynblock", .num 1, .num 0, .num 0, .str "unsafe"⟩,
    ⟨.str "", .str "iso", .num 0, .num 0, .num 0, .str "unsafe"⟩]

end NsBoot
