import NsBoot.Admin
import NsBoot.Lib.Rewrite
import NsBoot.Records

/-!
# NsBoot.Flags — flags that are numbers, flags that are texts

cfg.lua and the proposed records hold `enable`, `supper`, `commit`, `boot` and `tid` as
numbers, the super-mode handlers and the page write them as texts. `cfgTexts c` is `c` with
all of them as texts, so two configurations that differ in the representation of flags only
are two configurations with the same `cfgTexts`.

Every reader of the configuration gives the same for `c` and for `cfgTexts c`, and every
assignment can be made before or after `cfgTexts`. The one test that is not among them is
the one of `disableCommit` (`commitSlots`).
-/

namespace NsBoot

open Lua Prog

/-! ## The flag fields -/

/-- A field of a slot. -/
def slotField (k : Key) (v : Value) : Value :=
  if k = "enable" ∨ k = "commit" ∨ k = "boot" then v.textual else v

/-- A slot with its flags as texts. -/
def slotTexts : Value → Value := Value.rewrite slotField

/-- A field of a workstation record. -/
def wksField (k : Key) (v : Value) : Value :=
  if k = "enable" ∨ k = "supper" ∨ k = "tid" then v.textual
  else if k = "img" then v.rewrite fun _ => slotTexts
  else v

/-- A workstation record with its flags, and those of its slots, as texts. -/
def wksTexts : Value → Value := Value.rewrite wksField

/-- A field of the configuration. -/
def cfgField (k : Key) (v : Value) : Value :=
  if k = "wks" then v.rewrite fun _ => wksTexts else v

/-- The configuration with its flags as texts. -/
def cfgTexts : Value → Value := Value.rewrite cfgField

theorem text_eq_field {f : String} (hf : isField f) (k : Key) :
    Key.str k.text = .str f ↔ k = .str f := by
  cases k with
  | num n =>
    constructor
    · intro h
      exact absurd (Key.str.inj h) (toString_ne_of_isField hf n)
    · intro h
      cases h
  | str s => rfl

/-- Turning the flags of a slot into texts can be done before or after a table is read,
written or saved. -/
theorem slotField_faithful : Faithful slotField where
  nil_iff k v := by
    unfold slotField
    split
    · exact textual_eq_nil
    · rfl
  text k := by
    funext v
    simp only [slotField, text_eq_field (f := "enable") (by decide),
      text_eq_field (f := "commit") (by decide), text_eq_field (f := "boot") (by decide)]
  reload k v := by
    unfold slotField
    split
    · exact reload_textual v
    · rfl

/-- The slots of a record. -/
theorem slots_faithful : Faithful fun _ => slotTexts :=
  Faithful.each (fun _ => rewrite_eq_nil) slotField_faithful.reload_rewrite

/-- The same for a record; its slots are a table of their own. -/
theorem wksField_faithful : Faithful wksField where
  nil_iff k v := by
    unfold wksField
    split
    · exact textual_eq_nil
    · split
      · exact rewrite_eq_nil
      · rfl
  text k := by
    funext v
    simp only [wksField, text_eq_field (f := "enable") (by decide),
      text_eq_field (f := "supper") (by decide), text_eq_field (f := "tid") (by decide),
      text_eq_field (f := "img") (by decide)]
  reload k v := by
    unfold wksField
    split
    · exact reload_textual v
    · split
      · exact slots_faithful.reload_rewrite v
      · rfl

/-- The table of workstations. -/
theorem wks_faithful : Faithful fun _ => wksTexts :=
  Faithful.each (fun _ => rewrite_eq_nil) wksField_faithful.reload_rewrite

/-- The same for the configuration, where only the workstations have flags. -/
theorem cfgField_faithful : Faithful cfgField where
  nil_iff k v := by
    unfold cfgField
    split
    · exact rewrite_eq_nil
    · rfl
  text k := by
    funext v
    simp only [cfgField, text_eq_field (f := "wks") (by decide)]
  reload k v := by
    unfold cfgField
    split
    · exact wks_faithful.reload_rewrite v
    · rfl

/-- Texts stay as they are. -/
theorem slotTexts_slotTexts (v : Value) : slotTexts (slotTexts v) = slotTexts v := by
  refine rewrite_rewrite (fun k v => ?_) v
  unfold slotField
  split
  · exact textual_textual v
  · rfl

theorem wksTexts_wksTexts (v : Value) : wksTexts (wksTexts v) = wksTexts v := by
  refine rewrite_rewrite (fun k v => ?_) v
  unfold wksField
  split
  · exact textual_textual v
  · split
    · exact rewrite_rewrite (fun _ => slotTexts_slotTexts) v
    · rfl

/-- Saving and loading keeps the difference to flags. -/
theorem cfgTexts_encode (c : Value) : cfgTexts (encode c).val = (cfgTexts c).reload :=
  (cfgField_faithful.reload_rewrite c).symm

/-! ## Reading -/

@[simp] theorem isOne_textual (v : Value) : v.textual.isOne = v.isOne := by
  simp [Value.isOne]

@[simp] theorem isZero_textual (v : Value) : v.textual.isZero = v.isZero := by
  simp [Value.isZero]

/-- Everything outside the workstations reads the same. -/
theorem at?_cfgTexts {k : Key} (hk : k ≠ "wks") (c : Value) (ks : List Key) :
    (cfgTexts c).at? (k :: ks) = c.at? (k :: ks) :=
  cfgField_faithful.at?_same (fun x => by simp [cfgField, hk]) c ks

theorem textAt?_cfgTexts {k : Key} (hk : k ≠ "wks") (c : Value) (ks : List Key) :
    textAt? (cfgTexts c) (k :: ks) = textAt? c (k :: ks) := by
  rw [textAt?, textAt?, at?_cfgTexts hk]

theorem at?_wks_cfgTexts (c : Value) :
    (cfgTexts c).at? ["wks"] = (c.at? ["wks"]).map (Value.rewrite fun _ => wksTexts) :=
  cfgField_faithful.at?_one c "wks"

theorem wksOf_cfgTexts (c : Value) :
    wksOf (cfgTexts c) = (wksOf c).rewrite fun _ => wksTexts := by
  rw [wksOf, cfgTexts, cfgField_faithful.get]
  simp [cfgField, wksOf]

/-- A field of a record that is no flag. -/
theorem get_wksTexts {k : Key} (hk : ∀ x, wksField k x = x) (v : Value) :
    (wksTexts v).get k = v.get k := by
  rw [wksTexts, wksField_faithful.get, hk]

/-- What `checkconf` looks for is no flag. -/
theorem present?_cfgTexts (c : Value) {path : List Key} (h : path ∈ checkedFields) :
    present? (cfgTexts c) path = present? c path := by
  rcases SameSettings.checkedFields_head path h with rfl | hhead
  · show present? (cfgTexts c) [.str "wks"] = present? c [.str "wks"]
    rw [present?, present?, at?_wks_cfgTexts, Option.map_map]
    congr 1
    funext x
    simp [rewrite_eq_nil]
  · cases path with
    | nil => exact absurd h (by decide)
    | cons k ks =>
      have hk : k ≠ "wks" := hhead
      rw [present?, present?, at?_cfgTexts hk]

theorem checkconf_cfgTexts (c : Value) : checkconf (cfgTexts c) = checkconf c := by
  have hfold : ∀ (paths : List (List Key)) (ok : Bool), (∀ path ∈ paths, path ∈ checkedFields) →
      paths.foldlM (fun ok path => (present? (cfgTexts c) path).map (ok && ·)) ok =
        paths.foldlM (fun ok path => (present? c path).map (ok && ·)) ok := by
    intro paths ok h
    induction paths generalizing ok with
    | nil => rfl
    | cons path paths ih =>
      rw [List.foldlM_cons, List.foldlM_cons, present?_cfgTexts c (h path List.mem_cons_self)]
      exact bind_congr fun ok => ih ok fun p hp => h p (List.mem_cons_of_mem _ hp)
  have hnil : cfgTexts c = .nil ↔ c = .nil := rewrite_eq_nil
  rw [checkconf, checkconf, if_congr hnil rfl (hfold checkedFields true fun _ h => h)]

/-- The settings are no flags. -/
theorem server_cfgTexts (c : Value) : Server.of? (cfgTexts c) = Server.of? c := by
  have hat : ∀ ks, (cfgTexts c).at? ("server" :: ks) = c.at? ("server" :: ks) :=
    at?_cfgTexts (by decide) c
  have hserver : ∀ ks, textAt? (cfgTexts c) ("server" :: ks) = textAt? c ("server" :: ks) :=
    textAt?_cfgTexts (by decide) c
  have hiscsi : ∀ ks, textAt? (cfgTexts c) ("iscsi" :: ks) = textAt? c ("iscsi" :: ks) :=
    textAt?_cfgTexts (by decide) c
  have hzfs : ∀ ks, textAt? (cfgTexts c) ("zfs" :: ks) = textAt? c ("zfs" :: ks) :=
    textAt?_cfgTexts (by decide) c
  simp only [Server.of?, hat, hserver, hiscsi, hzfs]

theorem serverBack_cfgTexts (c : Value) : Server.back? (cfgTexts c) = Server.back? c := by
  have hserver : ∀ ks, textAt? (cfgTexts c) ("server" :: ks) = textAt? c ("server" :: ks) :=
    textAt?_cfgTexts (by decide) c
  have hiscsi : ∀ ks, textAt? (cfgTexts c) ("iscsi" :: ks) = textAt? c ("iscsi" :: ks) :=
    textAt?_cfgTexts (by decide) c
  simp only [Server.back?, hserver, hiscsi]

/-! ## Records -/

/-- The slot and the record of the pipeline, with their flags as texts. -/
def Img.texts (v : Img) : Img :=
  { v with enable := v.enable.textual, commit := v.commit.textual, boot := v.boot.textual }

def Wks.texts (r : Wks) : Wks :=
  { r with tid := r.tid.textual, enable := r.enable.textual, supper := r.supper.textual,
           img := r.img.map Img.texts }

@[simp] theorem Img.texts_path (v : Img) : v.texts.path = v.path := rfl

@[simp] theorem Img.texts_type (v : Img) : v.texts.type = v.type := rfl

@[simp] theorem Img.texts_enable (v : Img) : v.texts.enable = v.enable.textual := rfl

@[simp] theorem Img.texts_commit (v : Img) : v.texts.commit = v.commit.textual := rfl

@[simp] theorem Img.texts_boot (v : Img) : v.texts.boot = v.boot.textual := rfl

@[simp] theorem Img.texts_cache (v : Img) : v.texts.cache = v.cache := rfl

@[simp] theorem Img.texts_isDyn (v : Img) : v.texts.isDyn = v.isDyn := rfl

@[simp] theorem Wks.texts_vid (r : Wks) : r.texts.vid = r.vid := rfl

@[simp] theorem Wks.texts_tid (r : Wks) : r.texts.tid = r.tid.textual := rfl

@[simp] theorem Wks.texts_enable (r : Wks) : r.texts.enable = r.enable.textual := rfl

@[simp] theorem Wks.texts_supper (r : Wks) : r.texts.supper = r.supper.textual := rfl

@[simp] theorem Wks.texts_img (r : Wks) : r.texts.img = r.img.map Img.texts := rfl

/-- Reading a slot and turning its flags into texts commute. -/
theorem img_of?_slotTexts (v : Value) : Img.of? (slotTexts v) = (Img.of? v).map Img.texts := by
  cases v with
  | table kvs =>
    have hget : ∀ k, lookup k (rewriteKvs slotField kvs) = slotField k (lookup k kvs) :=
      fun k => lookup_rewriteKvs (slotField_faithful.nil k) kvs
    simp [slotTexts, Value.rewrite, Img.of?, hget, slotField, Img.texts]
  | nil | bool | num | str => rfl

theorem img_wksTexts (v : Value) :
    (wksTexts v).get "img" = (v.get "img").rewrite fun _ => slotTexts := by
  rw [wksTexts, wksField_faithful.get]
  simp [wksField]

theorem mac_wksTexts (v : Value) : (wksTexts v).at? ["mac"] = v.at? ["mac"] :=
  wksField_faithful.at?_same (fun x => by simp [wksField]) v []

/-- The same for a record. -/
theorem wks_of?_wksTexts (v : Value) : Wks.of? (wksTexts v) = (Wks.of? v).map Wks.texts := by
  have himg := readArray?_rewrite (u := slotTexts) rfl img_of?_slotTexts (v.get "img")
  have hget : ∀ k, (wksTexts v).get k = wksField k (v.get k) := wksField_faithful.get v
  simp only [Wks.of?, mac_wksTexts, img_wksTexts, himg, Option.bind_eq_bind]
  cases v.at? ["mac"] with
  | none => rfl
  | some m =>
    rw [Option.bind_some, Option.bind_some]
    cases m.str? with
    | none => rfl
    | some mac =>
      cases readArray? Img.of? (v.get "img") with
      | none => rfl
      | some img => simp [hget, wksField, Wks.texts]

theorem wks_ofBare?_wksTexts (v : Value) :
    Wks.ofBare? (wksTexts v) = (Wks.ofBare? v).map Wks.texts := by
  have hnil : (wksTexts v).get "img" = .nil ↔ v.get "img" = .nil := by
    rw [img_wksTexts]
    exact rewrite_eq_nil
  have hget : ∀ k, (wksTexts v).get k = wksField k (v.get k) := wksField_faithful.get v
  unfold Wks.ofBare?
  by_cases h : v.get "img" = .nil
  · rw [if_pos h, if_pos (hnil.2 h), mac_wksTexts, Option.bind_eq_bind, Option.bind_eq_bind]
    cases v.at? ["mac"] with
    | none => rfl
    | some m =>
      rw [Option.bind_some, Option.bind_some]
      cases m.str? with
      | none => rfl
      | some mac => simp [hget, wksField, Wks.texts]
  · rw [if_neg h, if_neg (mt hnil.1 h), wks_of?_wksTexts]

theorem findIPv4_wksTexts (ip : Value) (kvs : List (Key × Value)) :
    findIPv4 ip (rewriteKvs (fun _ => wksTexts) kvs) = findIPv4 ip kvs := by
  induction kvs with
  | nil => rfl
  | cons e kvs ih =>
    have hipv4 : (wksTexts e.2).at? ["ipv4"] = e.2.at? ["ipv4"] :=
      wksField_faithful.at?_same (fun x => by simp [wksField]) e.2 []
    show findIPv4 ip ((e.1, wksTexts e.2) :: rewriteKvs (fun _ => wksTexts) kvs) = _
    rw [findIPv4, findIPv4, hipv4, ih]

/-- The address is no flag, so the same record is found. -/
theorem getIDFromIPv4_cfgTexts (c ip : Value) :
    getIDFromIPv4 (cfgTexts c) ip = getIDFromIPv4 c ip := by
  rw [getIDFromIPv4, getIDFromIPv4, checkconf_cfgTexts, wksOf_cfgTexts]
  refine bind_congr fun ok => ?_
  split
  · cases wksOf c with
    | table kvs => exact findIPv4_wksTexts ip kvs
    | nil | bool | num | str => rfl
  · rfl

/-! ## The pipeline -/

section Pipeline

variable (s : Server) (r : Wks)

/-- `tgtstart` normalises `enable` and concatenates `tid`. -/
theorem tgtstart_texts : tgtstart s r.texts = tgtstart s r := by
  simp [tgtstart, Prog.when]

theorem tgtstop_texts : tgtstop s r.texts = tgtstop s r := by
  simp [tgtstop]

theorem nbdFree_texts : nbdFree s r.texts = nbdFree s r := by
  have hslot : nbdFreeSlot s r.texts ∘ Img.texts = nbdFreeSlot s r := by
    funext v
    simp only [Function.comp, nbdFreeSlot, tgtstop_texts, Wks.texts_vid]
    rfl
  rw [nbdFree, nbdFree, ← hslot]
  exact List.mapM_map

theorem zfsmount_texts : zfsmount s r.texts = zfsmount s r := by
  have hslot : ∀ v : Img, zfsmountSlot s r.texts v.texts = zfsmountSlot s r v := by
    intro v
    simp [zfsmountSlot, Prog.when]
  have hslots : r.texts.img.forM (zfsmountSlot s r.texts) = r.img.forM (zfsmountSlot s r) := by
    rw [← funext hslot]
    exact List.forM_map
  rw [zfsmount, zfsmount, nbdFree_texts, Wks.texts_vid, hslots]

theorem nbdConnect_texts : nbdConnect s r.texts = nbdConnect s r := by
  have hslot : nbdConnectSlot s r.texts ∘ Img.texts = nbdConnectSlot s r := by
    funext v
    simp [nbdConnectSlot, Prog.when]
  rw [nbdConnect, nbdConnect, ← hslot]
  exact List.mapM_map

/-- The LUNs do not depend on the representation of the flags. -/
theorem lunAdd_texts (devs : List (Option String)) : lunAdd s r.texts devs = lunAdd s r devs := by
  have hslot : ∀ (i : Nat) (v : Img) (dev : Option String),
      lunAddSlot s r.texts.tid i v.texts dev = lunAddSlot s r.tid i v dev := by
    intro i v dev
    simp [lunAddSlot, Prog.when, textual_eq_nil]
  have hslots : (r.texts.img.zipIdx 1).forM (fun vi =>
        lunAddSlot s r.texts.tid vi.2 vi.1 ((devs[vi.2 - 1]?).join)) =
      (r.img.zipIdx 1).forM fun vi => lunAddSlot s r.tid vi.2 vi.1 ((devs[vi.2 - 1]?).join) := by
    rw [Wks.texts_img, List.zipIdx_map]
    refine List.forM_map.trans ?_
    simp only [Prod.map, id, hslot]
    rfl
  rw [lunAdd, lunAdd, tgtstart_texts, Wks.texts_vid, hslots]

/-- All tests of `mkChild` normalise the flags first. -/
theorem findParrents_texts (v : Img) (x : Vars) :
    findParrents s r.texts v.texts x = findParrents s r v x := by
  have hkind : parrentKind r.texts v.texts = parrentKind r v := by
    simp [parrentKind]
  have hfind : ∀ live snap : String → String,
      findParrent s r.texts live snap v.texts x = findParrent s r live snap v x := by
    intro live snap
    rw [findParrent, findParrent, hkind]
    rfl
  simp [findParrents, hfind]

theorem mkSlot_texts (x : Vars) (i : Nat) (v : Img) :
    mkSlot s r.texts x i v.texts = mkSlot s r x i v := by
  simp [mkSlot, findParrents_texts]

theorem mkChild_texts : mkChild s r.texts = mkChild s r := by
  have hslots :
      (r.texts.img.zipIdx 1).foldlM (fun x vi => mkSlot s r.texts x vi.2 vi.1) ⟨none, none⟩ =
      (r.img.zipIdx 1).foldlM (fun x vi => mkSlot s r x vi.2 vi.1) ⟨none, none⟩ := by
    rw [Wks.texts_img, List.zipIdx_map, List.foldlM_map]
    simp only [Prod.map, id, mkSlot_texts]
  simp only [mkChild, hslots, Prog.when, Wks.texts_enable, isOne_textual]

/-- A boot is the same program for both representations. -/
theorem pipeline_texts : pipeline s r.texts = pipeline s r := by
  simp only [pipeline, tgtstop_texts, nbdFree_texts, zfsmount_texts, mkChild_texts,
    nbdConnect_texts, lunAdd_texts]

/-- The boot flags are printed and compared as texts. -/
theorem bootScript_texts (c : Value) :
    bootScript s r.texts (cfgTexts c) = bootScript s r c := by
  have hline : ∀ (name : String) (i : Nat),
      rootLine s r.texts (cfgTexts c) name i = rootLine s r c name i := by
    intro name i
    rw [rootLine, rootLine, textAt?_cfgTexts (by decide), textAt?_cfgTexts (by decide),
      Wks.texts_vid]
  have hlines : (r.texts.img.zipIdx 1).mapM (fun vi => rootLines s r.texts (cfgTexts c) vi.2 vi.1) =
      (r.img.zipIdx 1).mapM fun vi => rootLines s r c vi.2 vi.1 := by
    rw [Wks.texts_img, List.zipIdx_map, List.mapM_map]
    congr 1
    funext vi
    simp [rootLines, hline]
  rw [bootScript, bootScript, hlines, at?_cfgTexts (by decide), at?_cfgTexts (by decide),
    Wks.texts_vid]

end Pipeline

/-! ## Assignments -/

/-- An assignment in the record under the key `k`. -/
theorem assign?_wks {c v v' : Value} {k : Key} {ks : List Key}
    (hsub : ∀ x, (wksTexts x).assign? ks v' = (x.assign? ks v).map wksTexts) :
    (cfgTexts c).assign? ("wks" :: k :: ks) v' =
      (c.assign? ("wks" :: k :: ks) v).map cfgTexts :=
  cfgField_faithful.assign?_cons (wks_faithful.assign?_cons (hsub _))

/-- An assignment in the slot under the key `i`. -/
theorem assign?_slot {v v' : Value} {i k : Key} (hv : slotField k v = v') (x : Value) :
    (wksTexts x).assign? ["img", i, k] v' = (x.assign? ["img", i, k] v).map wksTexts := by
  refine wksField_faithful.assign?_cons (slots_faithful.assign?_cons ?_)
  refine slotField_faithful.assign?_cons ?_
  simp [Value.assign?, hv]

/-- The handlers store texts, so what they store is the same. -/
theorem setSupper_cfgTexts (n : Int) (t : String) (c : Value) :
    setSupper n (.str t) (cfgTexts c) = (setSupper n (.str t) c).map cfgTexts := by
  refine assign?_wks fun x => wksField_faithful.assign?_cons ?_
  simp [Value.assign?, wksField, Value.textual]

theorem setCommit_cfgTexts (n i : Int) (t : String) (c : Value) :
    setCommit n i (.str t) (cfgTexts c) = (setCommit n i (.str t) c).map cfgTexts :=
  assign?_wks (assign?_slot (by simp [slotField, Value.textual]))

/-- The flags of the slots a request lists. -/
theorem setFlags_cfgTexts (n : Int) (data : Option Json) (c : Value) :
    setFlags n data (cfgTexts c) = (setFlags n data c).map cfgTexts := by
  cases data with
  | none => rfl
  | some j =>
    simp only [setFlags, Option.bind_eq_bind, Option.bind_some]
    cases j.val with
    | table us =>
      have hloop : (ipairs us).foldlM (fun c (u : Int × Value) =>
            u.2.tonumber.bind fun i => setCommit n i (.str "1") c) (cfgTexts c) =
          ((ipairs us).foldlM (fun c (u : Int × Value) =>
            u.2.tonumber.bind fun i => setCommit n i (.str "1") c) c).map cfgTexts := by
        refine foldlM_map_comm (fun c u => ?_) _ c
        simp only [setCommit_cfgTexts, Option.map_bind]
        rfl
      simp only [hloop, Option.bind_map, Option.map_bind]
      exact congrArg _ (funext fun c => setSupper_cfgTexts n "1" c)
    | nil | bool | num | str => rfl

theorem clearFlags_cfgTexts (n : Int) (c : Value) :
    clearFlags n (cfgTexts c) = (clearFlags n c).map cfgTexts := by
  have hloop : ∀ c,
      ([1, 2, 3] : List Int).foldlM (fun c i => setCommit n i (.str "0") c) (cfgTexts c) =
      (([1, 2, 3] : List Int).foldlM (fun c i => setCommit n i (.str "0") c) c).map cfgTexts :=
    fun c => foldlM_map_comm (fun c i => setCommit_cfgTexts n i "0" c) _ c
  simp only [clearFlags, setSupper_cfgTexts, Option.bind_eq_bind, Option.bind_map, Option.map_bind]
  exact congrArg _ (funext hloop)

theorem setNbds_cfgTexts (id : Key) (nbds : List Value) (c : Value) :
    setNbds id nbds (cfgTexts c) = (setNbds id nbds c).map cfgTexts := by
  refine foldlM_map_comm (fun c vi => ?_) _ c
  exact assign?_wks (assign?_slot (by simp [slotField]))

theorem assignWks_cfgTexts (n : Int) (v c : Value) :
    (cfgTexts c).assign? ["wks", .num n] (wksTexts v) =
      (c.assign? ["wks", .num n] v).map cfgTexts :=
  assign?_wks fun _ => rfl

/-! ## What the handlers read -/

/-- A record of the table, and what is in it. -/
theorem at?_record (c : Value) (k : Key) :
    (cfgTexts c).at? ["wks", k] = (c.at? ["wks", k]).map wksTexts := by
  have hparts : ∀ c : Value, c.at? ["wks", k] = (c.at? ["wks"]).bind (Value.at? [k]) :=
    fun c => c.at?_append ["wks"] [k]
  rw [hparts, hparts, at?_wks_cfgTexts, Option.bind_map, Option.map_bind]
  exact congrArg _ (funext fun x => wks_faithful.at?_one x k)

theorem at?_inRecord (c : Value) (n : Int) (ks : List Key) :
    (cfgTexts c).at? ("wks" :: .num n :: ks) =
      (c.at? ["wks", .num n]).bind fun v => (wksTexts v).at? ks := by
  have hparts : (cfgTexts c).at? ("wks" :: .num n :: ks) =
      ((cfgTexts c).at? ["wks", .num n]).bind (Value.at? ks) :=
        Value.at?_append _ ["wks", .num n] ks
  rw [hparts, at?_record, Option.bind_map]
  rfl

/-- A field of a record that is no flag. -/
theorem at?_field_cfgTexts (c : Value) (n : Int) {k : Key} (hk : ∀ x, wksField k x = x) :
    (cfgTexts c).at? ["wks", .num n, k] = c.at? ["wks", .num n, k] := by
  have hparts : c.at? ["wks", .num n, k] = (c.at? ["wks", .num n]).bind (Value.at? [k]) :=
    c.at?_append ["wks", .num n] [k]
  rw [at?_inRecord, hparts]
  exact congrArg _ (funext fun v => wksField_faithful.at?_same hk v [])

/-- A slot of a record. -/
theorem at?_slot_wksTexts (v : Value) (u : Key) :
    (wksTexts v).at? ["img", u] = (v.at? ["img", u]).map slotTexts := by
  have hparts : v.at? ["img", u] = (v.at? ["img"]).bind (Value.at? [u]) :=
    v.at?_append ["img"] [u]
  rw [wksTexts, wksField_faithful.at?_cons, hparts, Option.map_bind]
  exact congrArg _ (funext fun x => slots_faithful.at?_one x u)

/-- The same slot, read from the configuration. -/
theorem at?_slot_cfgTexts (c : Value) (n : Int) (u : Key) :
    (cfgTexts c).at? ["wks", .num n, "img", u] =
      (c.at? ["wks", .num n, "img", u]).map slotTexts := by
  have hparts : c.at? ["wks", .num n, "img", u] =
      (c.at? ["wks", .num n]).bind (Value.at? ["img", u]) := c.at?_append ["wks", .num n] ["img", u]
  rw [at?_inRecord, hparts, Option.map_bind]
  exact congrArg _ (funext fun v => at?_slot_wksTexts v u)

theorem wksAt?_cfgTexts (c : Value) (n : Option Int) :
    wksAt? (cfgTexts c) n = (wksAt? c n).map wksTexts := by
  cases n with
  | some n => exact at?_record c (.num n)
  | none =>
    simp only [wksAt?, at?_record, Option.map_map]
    rfl

theorem wksIndex?_cfgTexts (c v : Value) :
    wksIndex? (cfgTexts c) v = (wksIndex? c v).map wksTexts := by
  cases v with
  | num n => exact at?_record c (.num n)
  | str t => exact at?_record c (.str t)
  | nil | bool | table => exact wksAt?_cfgTexts c none

theorem wksTexts_eq_nil {v : Value} : wksTexts v = .nil ↔ v = .nil := rewrite_eq_nil

/-- A flag of a record. -/
theorem at?_flag {k : Key} (hk : ∀ x, wksField k x = x.textual) (v : Value) :
    (wksTexts v).at? [k] = (v.at? [k]).map Value.textual := by
  rw [wksTexts, wksField_faithful.at?_one, funext hk]

/-- `supperCheck` normalises the flag. -/
theorem askConnected_wksTexts (v : Value) : askConnected (wksTexts v) = askConnected v := by
  have hip : (wksTexts v).get "ipv4" = v.get "ipv4" :=
    get_wksTexts (fun x => by simp [wksField]) v
  have hsupper : (wksTexts v).at? ["supper"] = (v.at? ["supper"]).map Value.textual :=
    at?_flag (fun x => by simp [wksField]) v
  simp only [askConnected, hip, hsupper, lift_map_bind, isOne_textual]

/-- `DiskList` reads paths only. -/
theorem diskPaths_wksTexts (v : Value) : diskPaths (wksTexts v) = diskPaths v := by
  have hpath (u : Key) : (wksTexts v).at? ["img", u, "path"] = v.at? ["img", u, "path"] := by
    have hparts (x : Value) : x.at? ["img", u, "path"] =
        (x.at? ["img", u]).bind (Value.at? ["path"]) := x.at?_append ["img", u] ["path"]
    rw [hparts, hparts, at?_slot_wksTexts, Option.bind_map]
    refine congrArg _ (funext fun x => ?_)
    exact slotField_faithful.at?_same (fun y => by simp [slotField]) x []
  simp only [diskPaths, hpath]

/-- `PowerON` normalises `enable`. -/
theorem powerOn_cfgTexts (p : Post) (c : Value) : powerOn p (cfgTexts c) = powerOn p c := by
  have hmac : ∀ v : Value, (wksTexts v).get "mac" = v.get "mac" :=
    get_wksTexts fun x => by simp [wksField]
  have henable : ∀ v : Value, (wksTexts v).at? ["enable"] = (v.at? ["enable"]).map Value.textual :=
    at?_flag fun x => by simp [wksField]
  have hifaces : (cfgTexts c).at? ["server", "ifaces"] = c.at? ["server", "ifaces"] :=
    at?_cfgTexts (by decide) c _
  simp only [powerOn, checkconf_cfgTexts, wksAt?_cfgTexts, hifaces, lift_map_bind, hmac, henable,
    isOne_textual, ne_eq, wksTexts_eq_nil]

/-- The scan for a free id reads `tid` as a number. -/
theorem scanId_wksTexts (kvs : List (Int × Value)) (t : Option Int) :
    scanId (kvs.map fun e => (e.1, wksTexts e.2)) t = scanId kvs t := by
  have hempty : ∀ v : Value, (wksTexts v).at? ["empty"] = v.at? ["empty"] :=
    fun v => wksField_faithful.at?_same (fun x => by simp [wksField]) v []
  have htid : ∀ v : Value, ((wksTexts v).get "tid").tonumber = (v.get "tid").tonumber := by
    intro v
    rw [wksTexts, wksField_faithful.get]
    simp [wksField]
  induction kvs generalizing t with
  | nil => rfl
  | cons e kvs ih => simp only [List.map_cons, scanId, hempty, htid, ih]

/-- The proposed record depends on no flag. -/
theorem proposal_cfgTexts (arp : String → String) (c : Value) :
    proposal arp (cfgTexts c) = proposal arp c := by
  have hdhcp : ∀ ks, (cfgTexts c).at? ("dhcp" :: ks) = c.at? ("dhcp" :: ks) :=
    at?_cfgTexts (by decide) c
  have hserver : ∀ ks, (cfgTexts c).at? ("server" :: ks) = c.at? ("server" :: ks) :=
    at?_cfgTexts (by decide) c
  have hzfs : ∀ ks, (cfgTexts c).at? ("zfs" :: ks) = c.at? ("zfs" :: ks) :=
    at?_cfgTexts (by decide) c
  have hgroups : ∀ ks, (cfgTexts c).at? ("groups" :: ks) = c.at? ("groups" :: ks) :=
    at?_cfgTexts (by decide) c
  unfold proposal
  simp only [at?_wks_cfgTexts, hdhcp, hserver, hzfs, hgroups]
  cases c.at? ["wks"] with
  | none => rfl
  | some wks =>
    cases wks with
    | table kvs =>
      have hscan : scanId (ipairs (rewriteKvs (fun _ => wksTexts) kvs)) none =
          scanId (ipairs kvs) none := by
        rw [wks_faithful.ipairs, scanId_wksTexts]
      rw [Option.map_some, Value.rewrite, Option.bind_eq_bind, Option.bind_some,
        Option.bind_eq_bind, Option.bind_some]
      simp only [hscan]
    | nil | bool | num | str => rfl

/-- The record sent to the page differs in flags only. -/
theorem getMy_cfgTexts (p : Post) (arp : String → String) (c : Value) :
    (getMy p arp (cfgTexts c)).map (Option.map wksTexts) =
      (getMy p arp c).map (Option.map wksTexts) := by
  have hzfs : ∀ ks, (cfgTexts c).at? ("zfs" :: ks) = c.at? ("zfs" :: ks) :=
    at?_cfgTexts (by decide) c
  have hgroups : ∀ ks, (cfgTexts c).at? ("groups" :: ks) = c.at? ("groups" :: ks) :=
    at?_cfgTexts (by decide) c
  unfold getMy
  split
  · split
    · rw [proposal_cfgTexts]
    · simp only [wksAt?_cfgTexts, hzfs, hgroups, Option.bind_eq_bind, Option.bind_map,
        Option.map_bind, Function.comp_def, Option.pure_def, Option.map_some, wksTexts_wksTexts]
  · rfl

/-- `DeleteMachine` marks the same records. -/
theorem deleted_cfgTexts (id : String) (c : Value) :
    deleted id (cfgTexts c) = (deleted id c).map cfgTexts := by
  have htid : ∀ v : Value, (wksTexts v).at? ["tid"] = (v.at? ["tid"]).map Value.textual :=
    at?_flag fun x => by simp [wksField]
  have hassign : ∀ n : Int, (cfgTexts c).assign? ["wks", .num n] tombstone =
      (c.assign? ["wks", .num n] tombstone).map cfgTexts :=
    fun n => assignWks_cfgTexts n tombstone c
  simp only [deleted, wksAt?_cfgTexts, Option.bind_eq_bind, Option.bind_map, Option.map_bind]
  refine congrArg _ (funext fun v => ?_)
  simp only [Function.comp, wksTexts_eq_nil, htid, Option.bind_map, hassign]
  split
  · rfl
  · rw [Option.map_bind]
    refine congrArg _ (funext fun tid => ?_)
    simp only [Function.comp, tostring_textual]
    split
    · cases numberOf id with
      | none => rfl
      | some n => rfl
    · rfl

theorem dhcpHost_wksTexts (v : Value) : dhcpHost (wksTexts v) = dhcpHost v := by
  have hname : (wksTexts v).at? ["name"] = v.at? ["name"] :=
    wksField_faithful.at?_same (fun x => by simp [wksField]) v []
  have hfileboot : (wksTexts v).at? ["fileboot"] = v.at? ["fileboot"] :=
    wksField_faithful.at?_same (fun x => by simp [wksField]) v []
  have hget : ∀ k, (wksTexts v).get k = wksField k (v.get k) := wksField_faithful.get v
  have hfilename : ∀ suffix, dhcpFilename (wksTexts v) suffix = dhcpFilename v suffix := by
    intro suffix
    rw [dhcpFilename, dhcpFilename, hfileboot]
  simp [dhcpHost, hname, hget, wksField, hfilename]

/-- dhcpd.conf is the same text. -/
theorem dhcpdConf_cfgTexts (c : Value) : dhcpdConf (cfgTexts c) = dhcpdConf c := by
  have hdhcp : ∀ ks, (cfgTexts c).at? ("dhcp" :: ks) = c.at? ("dhcp" :: ks) :=
    at?_cfgTexts (by decide) c
  have hserver : ∀ ks, textAt? (cfgTexts c) ("server" :: ks) = textAt? c ("server" :: ks) :=
    textAt?_cfgTexts (by decide) c
  have hhosts : (do
        let v ← Out.need ((cfgTexts c).at? ["wks"])
        let es ← Out.entries v
        es.foldlM (fun _ e => dhcpHost e.2) PUnit.unit : Out Unit) = (do
        let v ← Out.need (c.at? ["wks"])
        let es ← Out.entries v
        es.foldlM (fun _ e => dhcpHost e.2) PUnit.unit) := by
    rw [at?_wks_cfgTexts]
    cases c.at? ["wks"] with
    | none => rfl
    | some v =>
      cases v with
      | table kvs =>
        show ((kvs.map fun e => (e.1, wksTexts e.2)).foldlM (fun _ e => dhcpHost e.2) PUnit.unit :
          Out Unit) = _
        rw [List.foldlM_map]
        simp only [dhcpHost_wksTexts]
        rfl
      | nil | bool | num | str => rfl
  simp [dhcpdConf, hdhcp, hserver, hhosts]

end NsBoot
