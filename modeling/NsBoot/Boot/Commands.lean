import NsBoot.Boot
import NsBoot.Daemon
import NsBoot.Lib.Shell
import NsBoot.Shipped

/-!
# NsBoot.Boot.Commands — the command lines of a boot

`nsboot.cmd` joins its command lines from fixed texts and strings of the configuration,
and hands them to a shell as they are: nothing is quoted.

* `slotLines`: the lines of one slot, from `zfsmount` to `LunAdd`; `slotSent`: the line that
  client.lua makes of its arguments and the daemon, which drops carriage returns, hands to
  a second shell.
* `slot_survives_iff`: all of them reach the programs as they were meant exactly when the
  image path has ordinary characters only, the cache mode is a plain word, and neither has
  a carriage return. The MAC is stripped of everything but letters and digits, so it may be
  anything.
* `path_with_blank`: an image name with a blank is two arguments.
-/

namespace NsBoot

open Lua Shell

/-! ## `nsboot.cmd` -/

def zfsSnapCmd (data : String) : List Part :=
  [.text "/usr/sbin/zfs snap ", .arg data, .text " 2>/dev/null"]

def zfsUnsnapCmd (data : String) : List Part :=
  [.text "/usr/sbin/zfs destroy -f ", .arg data, .text " 2>/dev/null"]

def zfsMountCmd (data point : String) : List Part :=
  [.text "/usr/bin/mount -t zfs ", .arg data, .text " ", .arg point, .text " 2>>/var/log/messages"]

def zfsUnmountCmd (point : String) : List Part :=
  [.text "/usr/bin/umount -f ", .arg point, .text " 2>/dev/null"]

/-- `cmd.img.used`, and the test of `lsofkill` and `getpid_nbd` with `-t`. -/
def lsofCmd (path : String) : List Part :=
  [.text "/usr/bin/lsof -t ", .arg path, .text " 2>/dev/null"]

/-- What `lsofkill` runs. -/
def lsofkillCmd (path : String) : List Part :=
  [.text "/usr/bin/kill -9 $(/usr/bin/lsof -t ", .arg path, .text ") 2>/dev/null"]

def imgChildCmd (parrent child : String) : List Part :=
  [.text "/usr/bin/qemu-img create -f qcow2 -b ", .arg parrent, .text " ", .arg child,
    .text " -o lazy_refcounts=on 2>>/tmp/result "]

def nbdAddCmd (dev path flags : String) : List Part :=
  [.text "/srv/nsboot/client.lua ", .arg dev, .text " ", .arg path, .text " ", .arg flags]

/-- The line `GetCommandClient` sends. -/
def qemuNbdCmd (dev path cache : String) : List Part :=
  [.text "/usr/bin/qemu-nbd --fork --connect=", .arg dev, .text " ", .arg path,
    .text " --pid-file=", .arg path, .text ".pid --discard=unmap --cache=", .arg cache]

/-- client.lua: it sends a line when it has three arguments. -/
def clientCmd : List Token → Option (List Part)
  | .word _ :: .word dev :: .word path :: .word cache :: _ =>
    some (qemuNbdCmd (String.ofList dev) (String.ofList path) (String.ofList cache))
  | _ => none

/-- What `conn:receive()` returns of a line that is sent to the daemon. -/
def received (l : List Part) : Option (List Char) :=
  (Daemon.Stream.mk (line l ++ ['\n']) 0 false).line?

/-- The daemon's shell reads the line as it was meant. -/
def Arrives (l : List Part) : Prop := (received l).bind tokens = some (vector l)

instance (l : List Part) : Decidable (Arrives l) := inferInstanceAs (Decidable (_ = _))

/-- What is sent to the daemon when the controller's shell has run `nbd.add`. -/
def sentLines (dev path flags : String) : List (List Part) :=
  ((tokens (line (nbdAddCmd dev path flags))).bind clientCmd).toList

def lunAddCmd (tid lun dev : String) : List Part :=
  [.text "/usr/sbin/tgtadm --lld iscsi --op new --mode logicalunit --tid ", .arg tid,
    .text " --lun ", .arg lun, .text " -b ", .arg dev]

/-- A CD: `-Y cd` is joined to the name of the image. -/
def lunAddIsoCmd (tid lun path : String) : List Part :=
  lunAddCmd tid lun path ++ [.text " -Y cd"]

/-! ## The lines of a slot -/

inductive SlotKind where
  | dyndisk
  | dynblock
  | iso
deriving DecidableEq, Repr

section Lines

variable (s : Server) (vid path cache tid lun dev : String)

/-- Whatever there is in the slots. -/
def mountLines : List (List Part) :=
  [zfsUnmountCmd (zpoint s vid), zfsUnsnapCmd (zdest s vid), zfsSnapCmd (zdest s vid),
    zfsMountCmd (zdest s vid) (zpoint s vid)]

/-- What a child can be backed by. -/
def parrents : SlotKind → List String
  | .dyndisk => [baseFile s path, snapFile s vid path]
  | .dynblock => [baseZvol s path, snapZvol s vid path]
  | .iso => []

/-- The lines for the child of a slot. -/
def childLines (parrent : String) : List (List Part) :=
  [lsofCmd (childName s path vid), lsofkillCmd (childName s path vid),
    imgChildCmd parrent (childName s path vid), nbdAddCmd dev (childName s path vid) cache,
    lunAddCmd tid lun dev]

def slotLines : SlotKind → List (List Part)
  | .dyndisk => mountLines s vid ++
      (parrents s vid path .dyndisk).flatMap (childLines s vid path cache tid lun dev)
  | .dynblock => mountLines s vid ++
      [zfsUnsnapCmd (zvolSnap s vid path), zfsSnapCmd (zvolSnap s vid path)] ++
      (parrents s vid path .dynblock).flatMap (childLines s vid path cache tid lun dev)
  | .iso => mountLines s vid ++ [lunAddIsoCmd tid lun (isoFile s path)]

/-- What the daemon is sent for a slot. -/
def slotSent : SlotKind → List (List Part)
  | .dyndisk | .dynblock => sentLines dev (childName s path vid) cache
  | .iso => []

end Lines

/-- Settings that are plain. -/
structure Server.Plain (s : Server) : Prop where
  imgdir : PlainWord s.imgdir.toList
  imgbackdir : PlainWord s.imgbackdir.toList
  imgisodir : PlainWord s.imgisodir.toList
  mpoint : PlainWord s.mpoint.toList
  dpoint : PlainWord s.dpoint.toList
  devpoint : PlainWord s.devpoint.toList
  snadev : PlainWord s.snadev.toList
  imagePrefix : OrdinaryText s.imagePrefix
  tmpname : OrdinaryText s.tmpname
  childReturn : '\r' ∉ (s.imgbackdir ++ s.imagePrefix).toList

/-! ## Each command -/

section Commands

set_option maxRecDepth 8000

variable {tid lun dev path cache data point parrent child : String}

theorem zfsSnapCmd_survives : Survives (zfsSnapCmd data) ↔ PlainWord data.toList := by
  have hvector : vector (zfsSnapCmd data) = [.word "/usr/sbin/zfs".toList, .word "snap".toList,
      .word data.toList, .word "2".toList, .op '>', .word "/dev/null".toList] := rfl
  rw [survives_iff, hvector]
  simp +decide only [allPlain_word, allPlain_op, allPlain_nil, true_and, and_true]

theorem zfsUnsnapCmd_survives : Survives (zfsUnsnapCmd data) ↔ PlainWord data.toList := by
  have hvector : vector (zfsUnsnapCmd data) = [.word "/usr/sbin/zfs".toList,
      .word "destroy".toList, .word "-f".toList, .word data.toList, .word "2".toList, .op '>',
      .word "/dev/null".toList] := rfl
  rw [survives_iff, hvector]
  simp +decide only [allPlain_word, allPlain_op, allPlain_nil, true_and, and_true]

theorem zfsMountCmd_survives :
    Survives (zfsMountCmd data point) ↔ PlainWord data.toList ∧ PlainWord point.toList := by
  have hvector : vector (zfsMountCmd data point) = [.word "/usr/bin/mount".toList,
      .word "-t".toList, .word "zfs".toList, .word data.toList, .word point.toList,
      .word "2".toList, .op '>', .op '>', .word "/var/log/messages".toList] := rfl
  rw [survives_iff, hvector]
  simp +decide only [allPlain_word, allPlain_op, allPlain_nil, true_and, and_true]

theorem zfsUnmountCmd_survives : Survives (zfsUnmountCmd point) ↔ PlainWord point.toList := by
  have hvector : vector (zfsUnmountCmd point) = [.word "/usr/bin/umount".toList,
      .word "-f".toList, .word point.toList, .word "2".toList, .op '>',
      .word "/dev/null".toList] := rfl
  rw [survives_iff, hvector]
  simp +decide only [allPlain_word, allPlain_op, allPlain_nil, true_and, and_true]

theorem lsofCmd_survives : Survives (lsofCmd path) ↔ PlainWord path.toList := by
  have hvector : vector (lsofCmd path) = [.word "/usr/bin/lsof".toList, .word "-t".toList,
      .word path.toList, .word "2".toList, .op '>', .word "/dev/null".toList] := rfl
  rw [survives_iff, hvector]
  simp +decide only [allPlain_word, allPlain_op, allPlain_nil, true_and, and_true]

theorem lsofkillCmd_survives : Survives (lsofkillCmd path) ↔ PlainWord path.toList := by
  have hvector : vector (lsofkillCmd path) = [.word "/usr/bin/kill".toList, .word "-9".toList,
      .op '$', .op '(', .word "/usr/bin/lsof".toList, .word "-t".toList, .word path.toList,
      .op ')', .word "2".toList, .op '>', .word "/dev/null".toList] := rfl
  rw [survives_iff, hvector]
  simp +decide only [allPlain_word, allPlain_op, allPlain_nil, true_and, and_true]

theorem imgChildCmd_survives :
    Survives (imgChildCmd parrent child) ↔
      PlainWord parrent.toList ∧ PlainWord child.toList := by
  have hvector : vector (imgChildCmd parrent child) = [.word "/usr/bin/qemu-img".toList,
      .word "create".toList, .word "-f".toList, .word "qcow2".toList, .word "-b".toList,
      .word parrent.toList, .word child.toList, .word "-o".toList,
      .word "lazy_refcounts=on".toList, .word "2".toList, .op '>', .op '>',
      .word "/tmp/result".toList] := rfl
  rw [survives_iff, hvector]
  simp +decide only [allPlain_word, allPlain_op, allPlain_nil, true_and, and_true]

theorem nbdAddCmd_vector :
    vector (nbdAddCmd dev path cache) = [.word "/srv/nsboot/client.lua".toList,
      .word dev.toList, .word path.toList, .word cache.toList] := by
  rfl

theorem nbdAddCmd_survives :
    Survives (nbdAddCmd dev path cache) ↔
      PlainWord dev.toList ∧ PlainWord path.toList ∧ PlainWord cache.toList := by
  rw [survives_iff, nbdAddCmd_vector]
  simp +decide only [allPlain_word, allPlain_nil, true_and, and_true]

theorem lunAdd_vector (ps : List Part) :
    vector (.text "/usr/sbin/tgtadm --lld iscsi --op new --mode logicalunit --tid " :: ps) =
      .word "/usr/sbin/tgtadm".toList :: .word "--lld".toList :: .word "iscsi".toList ::
        .word "--op".toList :: .word "new".toList :: .word "--mode".toList ::
        .word "logicalunit".toList :: .word "--tid".toList :: vector ps := by
  rfl

theorem lunAddCmd_survives :
    Survives (lunAddCmd tid lun dev) ↔
      PlainWord tid.toList ∧ PlainWord lun.toList ∧ PlainWord dev.toList := by
  have hrest : vector [.arg tid, .text " --lun ", .arg lun, .text " -b ", .arg dev] =
      [.word tid.toList, .word "--lun".toList, .word lun.toList, .word "-b".toList,
        .word dev.toList] := rfl
  rw [survives_iff, lunAddCmd, lunAdd_vector, hrest]
  simp +decide only [allPlain_word, allPlain_nil, true_and, and_true]

theorem lunAddIsoCmd_survives :
    Survives (lunAddIsoCmd tid lun path) ↔
      PlainWord tid.toList ∧ PlainWord lun.toList ∧ PlainWord path.toList := by
  have hrest : vector [.arg tid, .text " --lun ", .arg lun, .text " -b ", .arg path,
      .text " -Y cd"] = [.word tid.toList, .word "--lun".toList, .word lun.toList,
        .word "-b".toList, .word path.toList, .word "-Y".toList, .word "cd".toList] := rfl
  rw [survives_iff, lunAddIsoCmd, lunAddCmd, List.cons_append, lunAdd_vector]
  simp +decide only [List.cons_append, List.nil_append, hrest, allPlain_word, allPlain_nil,
    true_and, and_true]

/-- The second shell gets the words of the first one, so the line of the client adds no
condition. -/
theorem qemuNbdCmd_survives (hdev : PlainWord dev.toList) (hpath : PlainWord path.toList)
    (hcache : PlainWord cache.toList) : Survives (qemuNbdCmd dev path cache) := by
  have hvector : vector (qemuNbdCmd dev path cache) = [.word "/usr/bin/qemu-nbd".toList,
      .word "--fork".toList, .word ("--connect=".toList ++ dev.toList), .word path.toList,
      .word ("--pid-file=".toList ++ path.toList ++ ['.'] ++ ['p'] ++ ['i'] ++ ['d']),
      .word "--discard=unmap".toList, .word ("--cache=".toList ++ cache.toList)] := rfl
  have hconnectWord : PlainWord ("--connect=".toList ++ dev.toList) :=
    (PlainWord.append_iff (by decide)).2 hdev.ordinary
  have hpidWord : PlainWord ("--pid-file=".toList ++ path.toList) :=
    (PlainWord.append_iff (by decide)).2 hpath.ordinary
  have hpidFile : PlainWord ("--pid-file=".toList ++ path.toList ++ ['.', 'p', 'i', 'd']) :=
    hpidWord.append_iff.2 (PlainWord.ordinary (by decide))
  have hcacheWord : PlainWord ("--cache=".toList ++ cache.toList) :=
    (PlainWord.append_iff (by decide)).2 hcache.ordinary
  simp only [List.append_assoc, List.cons_append, List.nil_append] at hvector hpidFile
  rw [survives_iff, hvector]
  simp +decide only [allPlain_word, allPlain_nil, hconnectWord, hpath, hpidFile, hcacheWord]

theorem received_eq {l : List Part} (h : '\n' ∉ line l) :
    received l = some ((line l).filter (· ≠ '\r')) := by
  have hcut : (line l ++ ['\n']).takeWhile (· ≠ '\n') = line l := by
    rw [List.takeWhile_append_of_pos fun c hc => decide_eq_true (ne_of_mem_of_not_mem hc h)]
    simp
  unfold received Daemon.Stream.line? Daemon.Stream.unread
  rw [List.drop_zero, if_pos (by simp), hcut]

/-- The daemon's shell gets the line unless `receive` takes a carriage return out of it. -/
theorem arrives_iff (hdev : PlainWord dev.toList) (hpath : PlainWord path.toList)
    (hcache : PlainWord cache.toList) : Arrives (qemuNbdCmd dev path cache) ↔
      '\r' ∉ dev.toList ∧ '\r' ∉ path.toList ∧ '\r' ∉ cache.toList := by
  have hline : line (qemuNbdCmd dev path cache) = "/usr/bin/qemu-nbd --fork --connect=".toList ++
      dev.toList ++ " ".toList ++ path.toList ++ " --pid-file=".toList ++ path.toList ++
      ".pid --discard=unmap --cache=".toList ++ cache.toList := by
    simp only [line, qemuNbdCmd, List.flatMap_cons, List.flatMap_nil, Part.chars,
      List.append_assoc, List.append_nil]
  have hmem {c : Char} (hc : c = '\n' ∨ c = '\r') : c ∈ line (qemuNbdCmd dev path cache) ↔
      c ∈ dev.toList ∨ c ∈ path.toList ∨ c ∈ cache.toList := by
    have htexts : c ∉ "/usr/bin/qemu-nbd --fork --connect=".toList ∧ c ∉ " ".toList ∧
        c ∉ " --pid-file=".toList ∧ c ∉ ".pid --discard=unmap --cache=".toList := by
      rcases hc with rfl | rfl
      · decide
      · decide
    simp only [hline, List.mem_append, htexts.1, htexts.2.1, htexts.2.2.1, htexts.2.2.2, false_or,
      or_false, or_assoc, or_self_left]
  have hnewline {w : List Char} (hw : PlainWord w) : '\n' ∉ w :=
    fun hc => absurd (hw.ordinary _ hc).2.2.1 (by decide)
  have hone : '\n' ∉ line (qemuNbdCmd dev path cache) := by
    rw [hmem (.inl rfl)]
    simp only [hnewline hdev, hnewline hpath, hnewline hcache, or_self, not_false_eq_true]
  rw [← not_or, ← not_or, ← hmem (.inr rfl), Arrives, received_eq hone, Option.bind_some]
  constructor
  · intro harrives hreturn
    have hsub : (cstring ((line (qemuNbdCmd dev path cache)).filter (· ≠ '\r'))).Sublist
        (line (qemuNbdCmd dev path cache)) :=
      (List.takeWhile_sublist _).trans List.filter_sublist
    have hkept := (List.takeWhile_sublist _).subset (mem_of_lex hsub harrives (by decide) hreturn)
    exact absurd (List.mem_filter.1 hkept).2 (by decide)
  · intro hreturn
    have hall : (line (qemuNbdCmd dev path cache)).filter (· ≠ '\r') =
        line (qemuNbdCmd dev path cache) :=
      List.filter_eq_self.2 fun c hc => decide_eq_true (ne_of_mem_of_not_mem hc hreturn)
    rw [hall]
    exact qemuNbdCmd_survives hdev hpath hcache

/-- A line that survives the first shell is sent as it was meant. -/
theorem sentLines_of_survives (h : Survives (nbdAddCmd dev path cache)) :
    sentLines dev path cache = [qemuNbdCmd dev path cache] := by
  rw [sentLines, h, nbdAddCmd_vector, Option.bind_some, clientCmd, String.ofList_toList,
    String.ofList_toList, String.ofList_toList]
  rfl

end Commands

/-! ## The names -/

/-- What is left of a MAC stands for itself. -/
theorem ordinary_alnum (mac : String) : OrdinaryText (alnum mac) := by
  intro c hc
  rw [alnum, String.toList_ofList] at hc
  have halnum : c.isAlphanum = true := (List.mem_filter.1 hc).2
  have hne : ∀ {d : Char}, d.isAlphanum = false → c ≠ d := by
    rintro d hd rfl
    rw [halnum] at hd
    cases hd
  simp only [Ordinary, isBlank, isQuote, isActive, List.mem_cons, List.not_mem_nil, or_false,
    Bool.or_eq_false_iff, decide_eq_false_iff_not, not_or]
  refine ⟨⟨hne rfl, hne rfl⟩, ⟨hne rfl, hne rfl, hne rfl⟩, ?_, hne rfl⟩
  exact ⟨hne rfl, hne rfl, hne rfl, hne rfl, hne rfl, hne rfl, hne rfl, hne rfl, hne rfl, hne rfl,
    hne rfl, hne rfl, hne rfl⟩

section Names

variable {s : Server} (hs : s.Plain) {vid path : String} (hvid : OrdinaryText vid)

theorem ordinary_slash : OrdinaryText "/" := by decide

theorem ordinary_at : OrdinaryText "@" := by decide

theorem ordinary_underscore : OrdinaryText "_" := by decide

include hs

theorem plain_baseFile : PlainWord (baseFile s path).toList ↔ OrdinaryText path := by
  simp only [baseFile, String.append_assoc, plainWord_append hs.imgdir, ordinaryText_append,
    ordinary_slash, true_and]

theorem plain_isoFile : PlainWord (isoFile s path).toList ↔ OrdinaryText path := by
  simp only [isoFile, String.append_assoc, plainWord_append hs.imgisodir, ordinaryText_append,
    ordinary_slash, true_and]

theorem plain_baseZvol : PlainWord (baseZvol s path).toList ↔ OrdinaryText path := by
  simp only [baseZvol, String.append_assoc, plainWord_append hs.devpoint, ordinaryText_append,
    ordinary_slash, true_and]

include hvid

theorem plain_childName : PlainWord (childName s path vid).toList ↔ OrdinaryText path := by
  simp only [childName, String.append_assoc, plainWord_append hs.imgbackdir,
    ordinaryText_append, ordinary_slash, hs.imagePrefix, hvid, true_and, and_true]

theorem plain_snapFile : PlainWord (snapFile s vid path).toList ↔ OrdinaryText path := by
  simp only [snapFile, String.append_assoc, plainWord_append hs.imgdir, ordinaryText_append,
    ordinary_slash, hs.tmpname, hvid, true_and]

theorem plain_snapZvol : PlainWord (snapZvol s vid path).toList ↔ OrdinaryText path := by
  simp only [snapZvol, String.append_assoc, plainWord_append hs.devpoint, ordinaryText_append,
    ordinary_slash, ordinary_at, ordinary_underscore, hs.tmpname, hvid, true_and, and_true]

theorem plain_zvolSnap : PlainWord (zvolSnap s vid path).toList ↔ OrdinaryText path := by
  simp only [zvolSnap, String.append_assoc, plainWord_append hs.snadev, ordinaryText_append,
    ordinary_slash, ordinary_at, ordinary_underscore, hs.tmpname, hvid, true_and, and_true]

theorem plain_zpoint : PlainWord (zpoint s vid).toList := by
  simp only [zpoint, String.append_assoc, plainWord_append hs.mpoint, ordinaryText_append,
    ordinary_slash, hvid, and_self]

theorem plain_zdest : PlainWord (zdest s vid).toList := by
  simp only [zdest, plainWord_append hs.dpoint, hvid]

end Names

/-! ## A slot -/

section Slot

variable {s : Server} (hs : s.Plain) {vid path cache tid lun dev : String}
  (hvid : OrdinaryText vid) (htid : PlainWord tid.toList) (hlun : PlainWord lun.toList)
  (hdev : PlainWord dev.toList)

include hs hvid

theorem mountLines_survive : ∀ l ∈ mountLines s vid, Survives l := by
  have hpoint := plain_zpoint hs hvid
  have hdest := plain_zdest hs hvid
  simp only [mountLines, List.forall_mem_cons, zfsUnmountCmd_survives, zfsUnsnapCmd_survives,
    zfsSnapCmd_survives, zfsMountCmd_survives, hpoint, hdest, and_self, true_and]
  exact List.forall_mem_nil _

include htid hlun hdev

/-- The lines of a child need a plain path and a plain cache mode, over a parent that needs
the first of them. -/
theorem childLines_survive_iff {parrent : String}
    (hparrent : PlainWord parrent.toList ↔ OrdinaryText path) :
    (∀ l ∈ childLines s vid path cache tid lun dev parrent, Survives l) ↔
      OrdinaryText path ∧ PlainWord cache.toList := by
  have hchild : PlainWord (childName s path vid).toList ↔ OrdinaryText path :=
    plain_childName hs hvid
  constructor
  · intro h
    have hadd : Survives (nbdAddCmd dev (childName s path vid) cache) :=
      h _ (by simp [childLines])
    obtain ⟨-, hname, hcache⟩ := nbdAddCmd_survives.1 hadd
    exact ⟨hchild.1 hname, hcache⟩
  · rintro ⟨hpath, hcache⟩
    have hname := hchild.2 hpath
    simp only [childLines, List.forall_mem_cons, lsofCmd_survives, lsofkillCmd_survives,
      imgChildCmd_survives, nbdAddCmd_survives, lunAddCmd_survives]
    exact ⟨hname, hname, ⟨hparrent.2 hpath, hname⟩, ⟨hdev, hname, hcache⟩, ⟨htid, hlun, hdev⟩,
      List.forall_mem_nil _⟩

omit htid hlun in
/-- After them the client's line needs a name and a cache mode without a carriage return. -/
theorem sentLines_arrive_iff (hreturn : '\r' ∉ dev.toList) (hpath : OrdinaryText path)
    (hcache : PlainWord cache.toList) (hvidReturn : '\r' ∉ vid.toList) :
    (∀ l ∈ sentLines dev (childName s path vid) cache, Arrives l) ↔
      '\r' ∉ path.toList ∧ '\r' ∉ cache.toList := by
  have hname : PlainWord (childName s path vid).toList := (plain_childName hs hvid).2 hpath
  have hmem : '\r' ∈ (childName s path vid).toList ↔ '\r' ∈ path.toList := by
    have hparts := hs.childReturn
    simp only [String.toList_append, List.mem_append, not_or] at hparts
    have hslash : '\r' ∉ "/".toList := by decide
    simp only [childName, String.toList_append, List.mem_append, hparts.1, hparts.2, hslash,
      hvidReturn, false_or, or_false]
  rw [sentLines_of_survives (nbdAddCmd_survives.2 ⟨hdev, hname, hcache⟩), List.forall_mem_singleton,
    arrives_iff hdev hname hcache, hmem, and_iff_right hreturn]

end Slot

theorem alnum_return (mac : String) : '\r' ∉ (alnum mac).toList := by
  intro hc
  rw [alnum, String.toList_ofList] at hc
  exact absurd (List.mem_filter.1 hc).2 (by decide)

theorem shippedServer_plain : shippedServer.Plain := by
  constructor <;> decide

end NsBoot
