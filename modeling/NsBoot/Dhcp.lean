import NsBoot.Config

/-!
# NsBoot.Dhcp — the text of dhcpd.conf

`nsboot:ExportDHCP` writes the whole file anew, piece by piece. A field that is
neither text nor number stops it with an error, and the file is left with what
was written before.
-/

namespace NsBoot

open Lua

/-- Writing to the opened file. -/
abbrev Out (α : Type) := EStateM Unit String α

namespace Out

def text (t : String) : Out Unit := modify (· ++ t)

/-- `file:write(v)`: text and numbers only. -/
def value (v : Value) : Out Unit :=
  match v.concat? with
  | some t => text t
  | none => throw ()

/-- Reading a field, or stopping. -/
def need {α : Type} : Option α → Out α
  | some a => return a
  | none => throw ()

/-- The entries of a table, or stopping. -/
def entries : Value → Out (List (Key × Value))
  | .table kvs => return kvs
  | _ => throw ()

end Out

open Out

def dhcpRule : String :=
  "#[============================================================================================]#\n"

/-- A `subnet` block. -/
def dhcpSubnet (v : Value) : Out Unit := do
  let sub ← need (v.at? ["sub"])
  let mask ← need (v.at? ["mask"])
  text "	subnet "
  value sub
  text " netmask "
  value mask
  text " \x7b\n"
  for r in ipairs (← entries (← need (v.at? ["ranges"]))) do
    text "            range "
    value r.2
    text ";\n"
  text "\x7d\n"

/-- A `filename` line. -/
def dhcpFilename (v : Value) (suffix : String) : Out Unit := do
  text "		filename \""
  value (← need (v.at? ["fileboot"]))
  text suffix
  text "\";\n"

/-- What one workstation contributes. The opening of the block is written for
enabled workstations only, the options and the closing brace for every one that
has a name. -/
def dhcpHost (v : Value) : Out Unit := do
  let name ← need (v.at? ["name"])
  if name ≠ .nil then
    if (v.get "enable").isOne then
      text "host "
      value name
      text " \x7b\n"
      text "	hardware ethernet "
      value (v.get "mac")
      text " ;\n"
      text "	fixed-address "
      value (v.get "ipv4")
      text ";\n"
      text "	option host-name \""
      value name
      text "\";\n"
      text "	if substring (option vendor-class-identifier, 15, 5) = \"00000\" \x7b\n"
      dhcpFilename v ".kpxe"
      text "	\x7d\n"
      text "	elsif substring (option vendor-class-identifier, 15, 5) = \"00006\" \x7b\n"
      dhcpFilename v "32.efi"
      text "	\x7d\n"
      text "	else \x7b\n"
      dhcpFilename v ".efi"
      text "	\x7d\n"
    for o in ipairs (← entries (v.get "opt")) do
      text "option	"
      value o.2
      text ";\n"
    text "\x7d\n"

/-- `nsboot:ExportDHCP`, once the file is open. -/
def dhcpdConf (c : Value) : Out Unit := do
  text "## ### THIS FILE AUTOGEENERATION ### #\n"
  let vendor ← need (textAt? c ["server", "vendor"])
  let version ← need (textAt? c ["server", "version"])
  text ("# ### " ++ vendor ++ " " ++ version ++ "______  ### #\n")
  text dhcpRule
  for e in ← entries (← need (c.at? ["dhcp", "config", "global"])) do
    text e.1.text
    text " "
    text e.2.tostring
    text ";\n"
  text dhcpRule
  for e in ← entries (← need (c.at? ["dhcp", "config", "opt"])) do
    text "	option "
    text e.1.text
    if e.1 = .str "domain-name" then
      text " \""
      text e.2.tostring
      text "\";\n"
    else
      text " "
      text e.2.tostring
      text ";\n"
  text dhcpRule
  for e in ipairs (← entries (← need (c.at? ["dhcp", "config", "sub"]))) do
    dhcpSubnet e.2
  text dhcpRule
  value (← need (c.at? ["dhcp", "config", "ipxe"]))
  text "\n"
  text dhcpRule
  for e in ← entries (← need (c.at? ["wks"])) do
    dhcpHost e.2

end NsBoot
