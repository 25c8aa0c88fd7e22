import NsBoot.Lib.JsonText

/-!
# NsBoot.Body — the body of a POST request

The admin page sends its forms as jQuery encodes them. The controller turns the
body into a JSON text by three replacements of characters, decodes the text, and
unescapes each value where it uses it.

* `rewrite`, `post?`, `unescape`: the controller's side.
* `encodeURIComponent`, `param`: the page's side.
* `fields`: what a form body means, whoever sent it.
* `Kept`: what is asked of the decoding of a body.
* `decode_rewrite`: a body of plain texts, `k=v` each, is decoded into its fields.
* `form_round_trip`: what the page sends arrives.
* `body_kept_iff`: which bodies are decoded as the form says.
-/

namespace NsBoot.Body

open JsonText

/-! ## The controller -/

/-- `s:gsub(c, t)` for a character `c` that is no pattern. -/
def gsub (c : UInt8) (t s : Bytes) : Bytes := s.flatMap fun b => if b = c then t else [b]

/-- The text that is decoded: `&` becomes `","`, the opening is put in front, `=`
becomes `":"`, and the closing is put behind. -/
def rewrite (body : Bytes) : Bytes :=
  gsub 0x3D (ascii "\":\"")
    (ascii "\x7b\"post\":\x7b\"" ++ gsub 0x26 (ascii "\",\"") body) ++ ascii "\"\x7d\x7d"

/-- `json.decode(…).post`, when it is an object. -/
def post? (body : Bytes) : Option (List (Bytes × Tree)) := do
  let .obj top ← decode (rewrite body) | none
  let .obj ms ← field? (ascii "post") top | none
  return ms

/-- `gsub("%%(%x%x)", …)`; a text of fewer than three bytes has no match. -/
def percent : Bytes → Bytes
  | b :: h :: l :: r =>
    if b = 0x25 then
      match hexDigit? h, hexDigit? l with
      | some h', some l' => UInt8.ofNat (h' * 16 + l') :: percent r
      | _, _ => b :: percent (h :: l :: r)
    else b :: percent (h :: l :: r)
  | s => s

/-- `nsboot.inc.unescape`. -/
def unescape (s : Bytes) : Bytes := percent (gsub 0x2B [0x20] s)

/-! ## The page -/

/-- The bytes `encodeURIComponent` leaves alone: letters, digits and `-_.!~*'()`. -/
def isUnreserved (b : UInt8) : Prop :=
  (0x30 ≤ b ∧ b ≤ 0x39) ∨ (0x41 ≤ b ∧ b ≤ 0x5A) ∨ (0x61 ≤ b ∧ b ≤ 0x7A) ∨
    b ∈ ascii "-_.!~*'()"

instance (b : UInt8) : Decidable (isUnreserved b) := inferInstanceAs (Decidable (_ ∨ _))

def hexUpper (n : Nat) : UInt8 := if n < 10 then UInt8.ofNat (0x30 + n) else UInt8.ofNat (0x37 + n)

def encodeByte (b : UInt8) : Bytes :=
  if isUnreserved b then [b] else [0x25, hexUpper (b.toNat / 16), hexUpper (b.toNat % 16)]

/-- `encodeURIComponent`, on the bytes of the text. -/
def encodeURIComponent (v : Bytes) : Bytes := v.flatMap encodeByte

/-- `replace(/%20/g, "+")`. -/
def plusForSpace : Bytes → Bytes
  | b :: h :: l :: r =>
    if b = 0x25 ∧ h = 0x32 ∧ l = 0x30 then 0x2B :: plusForSpace r
    else b :: plusForSpace (h :: l :: r)
  | s => s

/-- Pairs with `=` inside and `&` between them. -/
def join : List (Bytes × Bytes) → Bytes
  | [] => []
  | [m] => m.1 ++ 0x3D :: m.2
  | m :: ms => m.1 ++ 0x3D :: (m.2 ++ 0x26 :: join ms)

/-- The body jQuery sends for the pairs. -/
def param (kvs : List (Bytes × Bytes)) : Bytes :=
  plusForSpace (join (kvs.map fun m => (m.1, encodeURIComponent m.2)))

/-! ## Forms -/

/-- The key and the value of a field: the texts before and after its first `=`. -/
def field (f : Bytes) : Bytes × Bytes :=
  (f.takeWhile (· ≠ 0x3D), (f.dropWhile (· ≠ 0x3D)).drop 1)

/-- The fields of a body. -/
def fields (body : Bytes) : List (Bytes × Bytes) := (body.splitOn 0x26).map field

/-- The decoded table is that of the form: the same keys, each with its text. -/
def Agrees (body : Bytes) (ms : List (Bytes × Tree)) : Prop :=
  ∀ k, field? k ms = (field? k (fields body)).map .str

/-- No byte of the body has a meaning in a JSON string, and every field has one `=`. -/
def Plain (body : Bytes) : Prop :=
  (∀ b ∈ body, isPlain b) ∧ ∀ f ∈ body.splitOn 0x26, f.count 0x3D = 1

instance (body : Bytes) : Decidable (Plain body) :=
  @instDecidableAnd _ _ (List.decidableBAll _ _) _

/-- No byte of the text is a quote or a backslash. -/
def Unquoted (s : Bytes) : Prop := ∀ b ∈ s, b ≠ 0x22 ∧ b ≠ 0x5C

instance (s : Bytes) : Decidable (Unquoted s) := List.decidableBAll _ _

/-- What is asked of a body: what it is decoded into is its form's table, and further
`=` signs in the values of its fields do not have it rejected. -/
structure Kept (body : Bytes) : Prop where
  table : ∀ t, decode (rewrite body) = some t → ∃ ms, post? body = some ms ∧ Agrees body ms
  accepted : (∀ f ∈ body.splitOn 0x26, 0x3D ∈ f) → (∃ f ∈ body.splitOn 0x26, 1 < f.count 0x3D) →
    ∃ t, decode (rewrite body) = some t

/-- A field has no `=`, or all have one. -/
def OneOrNone (body : Bytes) : Prop :=
  (∃ f ∈ body.splitOn 0x26, 0x3D ∉ f) ∨ ∀ f ∈ body.splitOn 0x26, f.count 0x3D = 1

instance (body : Bytes) : Decidable (OneOrNone body) := inferInstanceAs (Decidable (_ ∨ _))

/-! ## Plain bodies -/

section Gsub

variable {c : UInt8} {t : Bytes}

theorem gsub_append (a b : Bytes) : gsub c t (a ++ b) = gsub c t a ++ gsub c t b :=
  List.flatMap_append

theorem gsub_cons (b : UInt8) (s : Bytes) :
    gsub c t (b :: s) = (if b = c then t else [b]) ++ gsub c t s := List.flatMap_cons

theorem gsub_of_notMem {s : Bytes} (h : c ∉ s) : gsub c t s = s := by
  induction s with
  | nil => rfl
  | cons b s ih =>
    simp only [List.mem_cons, not_or] at h
    rw [gsub_cons, if_neg (Ne.symm h.1), ih h.2, List.singleton_append]

end Gsub

/-! The text of each field, once its `=` signs are replaced. -/

/-- What becomes of a field, with the quotes around it. -/
def fieldText (f : Bytes) : Bytes := 0x22 :: (gsub 0x3D (ascii "\":\"") f ++ [0x22])

def fieldsText : List Bytes → Bytes
  | [] => []
  | [f] => fieldText f
  | f :: fs => fieldText f ++ 0x2C :: fieldsText fs

theorem gsub_intercalate {fs : List Bytes} (hne : fs ≠ []) (h : ∀ f ∈ fs, 0x26 ∉ f) :
    0x22 :: (gsub 0x3D (ascii "\":\"") (gsub 0x26 (ascii "\",\"") ([0x26].intercalate fs)) ++
      [0x22]) = fieldsText fs := by
  induction fs with
  | nil => exact absurd rfl hne
  | cons f fs ih =>
    have hf : gsub 0x26 (ascii "\",\"") f = f := gsub_of_notMem (h f List.mem_cons_self)
    cases fs with
    | nil => simp [List.intercalate, fieldsText, fieldText, hf]
    | cons f' fs =>
      have hrest := ih (by simp) fun g hg => h g (List.mem_cons_of_mem _ hg)
      have hcons : [0x26].intercalate (f :: f' :: fs) =
        f ++ 0x26 :: [0x26].intercalate (f' :: fs) := by
        simp [List.intercalate, List.intersperse]
      rw [hcons, fieldsText, ← hrest]
      · rw [gsub_append, hf]
        simp [fieldText, gsub_append, gsub_cons, ascii]
      · simp

/-- Key and value of a pair do not contain the separators, or anything that has a
meaning in a JSON string. -/
structure Clean (m : Bytes × Bytes) : Prop where
  key : ∀ b ∈ m.1, isPlain b ∧ b ≠ 0x26 ∧ b ≠ 0x3D
  val : ∀ b ∈ m.2, isPlain b ∧ b ≠ 0x26 ∧ b ≠ 0x3D

/-- A pair as a field. -/
def pairText (m : Bytes × Bytes) : Bytes := m.1 ++ 0x3D :: m.2

theorem join_eq (kvs : List (Bytes × Bytes)) : join kvs = [0x26].intercalate
    (kvs.map pairText) := by
  induction kvs with
  | nil => rfl
  | cons m kvs ih =>
    cases kvs with
    | nil => simp [join, pairText, List.intercalate]
    | cons m' kvs =>
      rw [join, ih]
      · simp [pairText, List.intercalate]
      · simp

theorem Clean.fieldText_eq {m : Bytes × Bytes} (h : Clean m) :
    fieldText (pairText m) = quote m.1 ++ 0x3A :: quote m.2 := by
  have hk : (0x3D : UInt8) ∉ m.1 := fun hmem => (h.key _ hmem).2.2 rfl
  have hv : (0x3D : UInt8) ∉ m.2 := fun hmem => (h.val _ hmem).2.2 rfl
  rw [fieldText, pairText, gsub_append, gsub_cons, gsub_of_notMem hk, gsub_of_notMem hv]
  simp [quote, ascii]

theorem fieldsText_pairs {kvs : List (Bytes × Bytes)} (h : ∀ m ∈ kvs, Clean m) :
    fieldsText (kvs.map pairText) = quoted kvs := by
  induction kvs with
  | nil => rfl
  | cons m kvs ih =>
    have hm := (h m List.mem_cons_self).fieldText_eq
    cases kvs with
    | nil => simpa [fieldsText, quoted] using hm
    | cons m' kvs =>
      have hrest := ih fun m hm => h m (List.mem_cons_of_mem _ hm)
      rw [List.map_cons] at hrest
      simp [fieldsText, quoted, hm, hrest]

theorem Clean.notMem {m : Bytes × Bytes} (h : Clean m) : 0x26 ∉ pairText m := by
  rw [pairText, List.mem_append, List.mem_cons]
  rintro (hk | hsep | hv)
  · exact (h.key _ hk).2.1 rfl
  · exact absurd hsep (by decide)
  · exact (h.val _ hv).2.1 rfl

/-- The replacements turn the separators into the punctuation of an object. -/
theorem gsub_join {kvs : List (Bytes × Bytes)} (hne : kvs ≠ []) (h : ∀ m ∈ kvs, Clean m) :
    0x22 :: (gsub 0x3D (ascii "\":\"") (gsub 0x26 (ascii "\",\"") (join kvs)) ++ [0x22]) =
      quoted kvs := by
  rw [join_eq, gsub_intercalate (by simpa using hne), fieldsText_pairs h]
  exact List.forall_mem_map.2 fun m hm => (h m hm).notMem

theorem rewrite_join {kvs : List (Bytes × Bytes)} (hne : kvs ≠ []) (h : ∀ m ∈ kvs, Clean m) :
    rewrite (join kvs) =
      0x7B :: (quote (ascii "post") ++ 0x3A :: 0x7B :: (quoted kvs ++ 0x7D :: [0x7D])) := by
  have hpre : gsub 0x3D (ascii "\":\"") (ascii "\x7b\"post\":\x7b\"") =
      0x7B :: (quote (ascii "post") ++ [0x3A, 0x7B, 0x22]) := by decide
  have hsuf : ascii "\"\x7d\x7d" = [0x22, 0x7D, 0x7D] := by decide
  rw [rewrite, gsub_append, hpre, hsuf, ← gsub_join hne h]
  simp

/-- **A body of clean pairs is decoded into them.** -/
theorem decode_rewrite {kvs : List (Bytes × Bytes)} (hne : kvs ≠ []) (h : ∀ m ∈ kvs, Clean m) :
    decode (rewrite (join kvs)) =
      some (.obj [(ascii "post", .obj (kvs.map fun m => (m.1, .str m.2)))]) := by
  have hplain : ∀ m ∈ kvs, (∀ b ∈ m.1, isPlain b) ∧ ∀ b ∈ m.2, isPlain b := by
    intro m hm
    exact ⟨fun b hb => ((h m hm).key b hb).1, fun b hb => ((h m hm).val b hb).1⟩
  have hfuel : (rewrite (join kvs)).length + 1 = (quoted kvs).length + 9 + 1 + 2 := by
    rw [rewrite_join hne h]
    simp [quote, ascii]
  have hn : kvs.length < (quoted kvs).length + 9 := by
    have := length_le_quoted kvs
    omega
  have hinner := value_quoted hne hplain hn [0x7D]
  have hpost : ∀ b ∈ ascii "post", isPlain b := by decide +kernel
  have houter := value_single hpost hinner
  rw [decode, hfuel, rewrite_join hne h, houter]
  rfl

theorem post?_join {kvs : List (Bytes × Bytes)} (hne : kvs ≠ []) (h : ∀ m ∈ kvs, Clean m) :
    post? (join kvs) = some (kvs.map fun m => (m.1, .str m.2)) := by
  rw [post?, decode_rewrite hne h]
  simp [field?]

/-! ## What the page sends -/

/-- A byte of a value as it is sent. -/
def formByte (b : UInt8) : Bytes := if b = 0x20 then [0x2B] else encodeByte b

def formValue (v : Bytes) : Bytes := v.flatMap formByte

/-- A byte that is sent as it is has no meaning to any of the replacements. -/
theorem isUnreserved.apart {b : UInt8} (h : isUnreserved b) :
    isPlain b ∧ b ≠ 0x25 ∧ b ≠ 0x26 ∧ b ≠ 0x2B ∧ b ≠ 0x3D ∧ b ≠ 0x20 := by
  have hall : ∀ n < 256, isUnreserved (UInt8.ofNat n) → isPlain (UInt8.ofNat n) ∧
      UInt8.ofNat n ≠ 0x25 ∧ UInt8.ofNat n ≠ 0x26 ∧ UInt8.ofNat n ≠ 0x2B ∧
      UInt8.ofNat n ≠ 0x3D ∧ UInt8.ofNat n ≠ 0x20 := by decide +kernel
  have hb := hall b.toNat b.toNat_lt
  rw [UInt8.ofNat_toNat] at hb
  exact hb h

theorem hexUpper_apart : ∀ n < 16, isPlain (hexUpper n) ∧ hexUpper n ≠ 0x25 ∧ hexUpper n ≠ 0x26 ∧
    hexUpper n ≠ 0x2B ∧ hexUpper n ≠ 0x3D := by
  decide +kernel

theorem hexDigit?_hexUpper : ∀ n < 16, hexDigit? (hexUpper n) = some n := by decide +kernel

theorem hexUpper_inj {m n : Nat} (hm : m < 16) (hn : n < 16) (h : hexUpper m = hexUpper n) :
    m = n := by
  have := congrArg hexDigit? h
  rw [hexDigit?_hexUpper m hm, hexDigit?_hexUpper n hn] at this
  exact Option.some.inj this

theorem plusForSpace_cons {b : UInt8} (h : b ≠ 0x25) (r : Bytes) :
    plusForSpace (b :: r) = b :: plusForSpace r := by
  rcases r with _ | ⟨c, _ | ⟨d, r⟩⟩
  · rfl
  · rfl
  · rw [plusForSpace, if_neg fun hif => h hif.1]

theorem plusForSpace_append {a : Bytes} (h : 0x25 ∉ a) (r : Bytes) :
    plusForSpace (a ++ r) = a ++ plusForSpace r := by
  induction a with
  | nil => rfl
  | cons b a ih =>
    simp only [List.mem_cons, not_or] at h
    rw [List.cons_append, plusForSpace_cons (Ne.symm h.1), ih h.2, List.cons_append]

/-- `%20` comes from a blank and from nothing else. -/
theorem plusForSpace_encodeByte (b : UInt8) (r : Bytes) :
    plusForSpace (encodeByte b ++ r) = formByte b ++ plusForSpace r := by
  unfold formByte encodeByte
  by_cases hb : isUnreserved b
  · obtain ⟨-, h25, -, -, -, h20⟩ := hb.apart
    rw [if_pos hb, if_neg h20]
    exact plusForSpace_append (by simpa using Ne.symm h25) r
  · have hlt := b.toNat_lt
    obtain ⟨-, hhi, -⟩ := hexUpper_apart (b.toNat / 16) (by omega)
    obtain ⟨-, hlo, -⟩ := hexUpper_apart (b.toNat % 16) (by omega)
    rw [if_neg hb]
    by_cases h20 : b = 0x20
    · subst h20
      rfl
    · -- the two digits are not those of a blank
      have hdigits : ¬ (hexUpper (b.toNat / 16) = 0x32 ∧ hexUpper (b.toNat % 16) = 0x30) := by
        rintro ⟨h2, h0⟩
        have hd2 := hexUpper_inj (n := 2) (by omega) (by decide) h2
        have hd0 := hexUpper_inj (n := 0) (by omega) (by decide) h0
        refine h20 (UInt8.toNat_inj.1 ?_)
        have : (0x20 : UInt8).toNat = 32 := rfl
        omega
      rw [if_neg h20, List.cons_append, List.cons_append, List.cons_append, List.nil_append,
        plusForSpace, if_neg fun hif => hdigits hif.2, plusForSpace_cons hhi, plusForSpace_cons hlo]
      rfl

theorem plusForSpace_encode (v r : Bytes) :
    plusForSpace (encodeURIComponent v ++ r) = formValue v ++ plusForSpace r := by
  induction v with
  | nil => rfl
  | cons b v ih =>
    have hstep := plusForSpace_encodeByte b (encodeURIComponent v ++ r)
    rw [ih] at hstep
    simpa [encodeURIComponent, formValue, List.flatMap_cons] using hstep

theorem param_eq {kvs : List (Bytes × Bytes)} (h : ∀ m ∈ kvs, 0x25 ∉ m.1) :
    param kvs = join (kvs.map fun m => (m.1, formValue m.2)) := by
  unfold param
  induction kvs with
  | nil => rfl
  | cons m kvs ih =>
    have hm := h m List.mem_cons_self
    have hrest := ih fun m' hm' => h m' (List.mem_cons_of_mem _ hm')
    cases kvs with
    | nil =>
      have hval := plusForSpace_encode m.2 []
      rw [List.append_nil] at hval
      simp only [List.map_cons, List.map_nil, join]
      rw [plusForSpace_append hm, plusForSpace_cons (by decide), hval]
      simp [plusForSpace]
    | cons m' kvs =>
      simp only [List.map_cons, join] at hrest ⊢
      rw [plusForSpace_append hm, plusForSpace_cons (by decide), plusForSpace_encode,
        plusForSpace_cons (by decide), hrest]

theorem formByte_apart {b c : UInt8} (h : c ∈ formByte b) :
    isPlain c ∧ c ≠ 0x26 ∧ c ≠ 0x3D := by
  unfold formByte encodeByte at h
  split at h
  · rw [List.mem_singleton] at h
    subst h
    decide
  split at h
  · next hb =>
    rw [List.mem_singleton] at h
    subst h
    obtain ⟨hplain, -, h26, -, h3d, -⟩ := hb.apart
    exact ⟨hplain, h26, h3d⟩
  · have hlt := b.toNat_lt
    obtain ⟨hhi, -, hhi26, -, hhi3d⟩ := hexUpper_apart (b.toNat / 16) (by omega)
    obtain ⟨hlo, -, hlo26, -, hlo3d⟩ := hexUpper_apart (b.toNat % 16) (by omega)
    simp only [List.mem_cons, List.not_mem_nil, or_false] at h
    rcases h with rfl | rfl | rfl
    · decide
    · exact ⟨hhi, hhi26, hhi3d⟩
    · exact ⟨hlo, hlo26, hlo3d⟩

theorem percent_cons {b : UInt8} (h : b ≠ 0x25) (r : Bytes) : percent (b :: r) =
    b :: percent r := by
  rcases r with _ | ⟨c, _ | ⟨d, r⟩⟩
  · rfl
  · rfl
  · rw [percent, if_neg h]

/-- One byte of a value, sent and unescaped. -/
theorem percent_formByte (b : UInt8) (r : Bytes) :
    percent (gsub 0x2B [0x20] (formByte b) ++ r) = b :: percent r := by
  unfold formByte encodeByte
  split
  · next hb =>
    subst hb
    exact percent_cons (by decide) r
  split
  · next hb =>
    obtain ⟨-, h25, -, h2b, -, -⟩ := hb.apart
    rw [gsub_of_notMem (by simpa using Ne.symm h2b)]
    exact percent_cons h25 r
  · have hlt := b.toNat_lt
    obtain ⟨-, -, -, hhi, -⟩ := hexUpper_apart (b.toNat / 16) (by omega)
    obtain ⟨-, -, -, hlo, -⟩ := hexUpper_apart (b.toNat % 16) (by omega)
    have hnot : (0x2B : UInt8) ∉ [0x25, hexUpper (b.toNat / 16), hexUpper (b.toNat % 16)] := by
      simp [Ne.symm hhi, Ne.symm hlo]
    have hval : b.toNat / 16 * 16 + b.toNat % 16 = b.toNat := by omega
    rw [gsub_of_notMem hnot, List.cons_append, List.cons_append, List.cons_append, List.nil_append,
      percent, if_pos rfl, hexDigit?_hexUpper _ (by omega), hexDigit?_hexUpper _ (by omega)]
    simp only [hval, UInt8.ofNat_toNat]

theorem unescape_formValue (v : Bytes) : unescape (formValue v) = v := by
  unfold unescape
  induction v with
  | nil => rfl
  | cons b v ih =>
    have hsplit : gsub 0x2B [0x20] (formValue (b :: v)) =
        gsub 0x2B [0x20] (formByte b) ++ gsub 0x2B [0x20] (formValue v) := by
      rw [← gsub_append, formValue, List.flatMap_cons]
      rfl
    rw [hsplit, percent_formByte, ih]

/-- A letter. -/
def isLetter (b : UInt8) : Prop := (0x41 ≤ b ∧ b ≤ 0x5A) ∨ (0x61 ≤ b ∧ b ≤ 0x7A)

instance (b : UInt8) : Decidable (isLetter b) := inferInstanceAs (Decidable (_ ∨ _))

theorem isLetter.isUnreserved {b : UInt8} (h : isLetter b) : isUnreserved b := by
  rcases h with h | h
  · exact Or.inr (Or.inl h)
  · exact Or.inr (Or.inr (Or.inl h))

/-- **What the page sends arrives**: the body is turned into a JSON text whose
`post` has exactly the keys that were sent, and unescaping a value gives the text
that was sent. -/
theorem form_round_trip {kvs : List (Bytes × Bytes)} (hne : kvs ≠ [])
    (hkeys : (kvs.map Prod.fst).Nodup) (hletters : ∀ m ∈ kvs, ∀ b ∈ m.1, isLetter b) :
    ∃ ms, decode (rewrite (param kvs)) = some (.obj [(ascii "post", .obj ms)]) ∧
      ms.map Prod.fst = kvs.map Prod.fst ∧
      ∀ k v, (k, v) ∈ kvs → ∃ t, field? k ms = some (.str t) ∧ unescape t = v := by
  have hpct : ∀ m ∈ kvs, 0x25 ∉ m.1 := by
    intro m hm hmem
    exact (hletters m hm _ hmem).isUnreserved.apart.2.1 rfl
  have hclean : ∀ m ∈ kvs.map (fun m => (m.1, formValue m.2)), Clean m := by
    intro m hmem
    obtain ⟨m, hm, rfl⟩ := List.mem_map.1 hmem
    constructor
    · intro b hb
      obtain ⟨hplain, -, h26, -, h3d, -⟩ := (hletters m hm b hb).isUnreserved.apart
      exact ⟨hplain, h26, h3d⟩
    · intro b hb
      obtain ⟨c, -, hc⟩ := List.mem_flatMap.1 hb
      exact formByte_apart hc
  refine ⟨(kvs.map fun m => (m.1, formValue m.2)).map fun m => (m.1, .str m.2), ?_, ?_, ?_⟩
  · rw [param_eq hpct]
    exact decode_rewrite (by simpa using hne) hclean
  · rw [List.map_map, List.map_map]
    rfl
  · intro k v hkv
    refine ⟨formValue v, field?_of_mem ?_ ?_, unescape_formValue v⟩
    · rw [List.map_map, List.map_map]
      exact hkeys
    · rw [List.map_map]
      exact List.mem_map.2 ⟨(k, v), hkv, rfl⟩

/-- Two fields, with bytes that mean something in a form, in JSON and in Lua
patterns, and one that looks encoded. -/
theorem form_round_trip_two :
    ∃ ms, decode (rewrite (param [(ascii "id", ascii "a&b=\"c\" \\%41+"), (ascii "x", [0, 255])])) =
        some (.obj [(ascii "post", .obj ms)]) ∧
      ms.map Prod.fst = [ascii "id", ascii "x"] ∧
      ∃ t, field? (ascii "id") ms = some (.str t) ∧ unescape t = ascii "a&b=\"c\" \\%41+" := by
  obtain ⟨ms, hdec, hkeys, hvals⟩ := @form_round_trip
    [(ascii "id", ascii "a&b=\"c\" \\%41+"), (ascii "x", [0, 255])] (by simp) (by decide)
    (by decide +kernel)
  exact ⟨ms, hdec, hkeys, hvals _ _ List.mem_cons_self⟩

/-! ## Which bodies are decoded into their fields -/

theorem notMem_of_mem_splitOn {c : UInt8} {s w : Bytes} (h : w ∈ s.splitOn c) : c ∉ w := by
  rw [List.splitOn] at h
  induction s generalizing w with
  | nil =>
    rw [List.splitOnP_nil, List.mem_singleton] at h
    simp [h]
  | cons b s ih =>
    rw [List.splitOnP_cons_eq_if_modifyHead] at h
    split at h
    · rcases List.mem_cons.1 h with rfl | h
      · exact List.not_mem_nil
      · exact ih h
    · next hb =>
      -- the first part gets the byte, which is no separator
      cases hrest : s.splitOnP (· == c) with
      | nil => exact absurd hrest (List.splitOnP_ne_nil _ _)
      | cons p ps =>
        rw [hrest] at h ih
        rw [List.modifyHead_cons] at h
        rcases List.mem_cons.1 h with rfl | h
        · have hp := ih List.mem_cons_self
          have hbc : b ≠ c := by simpa using hb
          simp [hp, Ne.symm hbc]
        · exact ih (List.mem_cons_of_mem _ h)

/-- The bytes of a text are the separators and those of its parts. -/
theorem mem_iff_splitOn {c b : UInt8} {s : Bytes} (hb : b ≠ c) :
    b ∈ s ↔ ∃ f ∈ s.splitOn c, b ∈ f := by
  have hparts : ∀ fs : List (List UInt8), b ∈ [c].intercalate fs ↔ ∃ f ∈ fs, b ∈ f := by
    intro fs
    induction fs with
    | nil => simp [List.intercalate]
    | cons f fs ih =>
      cases fs with
      | nil => simp [List.intercalate]
      | cons f' fs =>
        have hcons : [c].intercalate (f :: f' :: fs) = f ++ c :: [c].intercalate (f' :: fs) := by
          simp [List.intercalate, List.intersperse]
        rw [hcons, List.mem_append, List.mem_cons, ih]
        simp [hb]
  have hsplit := hparts (s.splitOn c)
  rwa [List.intercalate_splitOn] at hsplit

/-- A field is cut at its first `=`, or is all key. -/
theorem field_cases (f : Bytes) :
    (∃ k v, f = k ++ 0x3D :: v ∧ 0x3D ∉ k ∧ field f = (k, v)) ∨
    (0x3D ∉ f ∧ field f = (f, [])) := by
  have hall {k : Bytes} (hk : 0x3D ∉ k) : ∀ b ∈ k, decide (b ≠ 0x3D) = true := by
    intro b hb
    simp only [decide_eq_true_eq]
    rintro rfl
    exact hk hb
  have hfield {k : Bytes} (hk : 0x3D ∉ k) (r : Bytes) (hr : r.takeWhile (· ≠ 0x3D) = []) :
      field (k ++ r) = (k, (r.dropWhile (· ≠ 0x3D)).drop 1) := by
    rw [field, List.takeWhile_append_of_pos (hall hk), List.dropWhile_append_of_pos (hall hk), hr,
      List.append_nil]
  by_cases h : 0x3D ∈ f
  · obtain ⟨k, v, rfl, hk⟩ := List.eq_append_cons_of_mem h
    exact Or.inl ⟨k, v, rfl, hk, by simpa using hfield hk (0x3D :: v) (by simp)⟩
  · exact Or.inr ⟨h, by simpa using hfield h [] rfl⟩

/-- What the text of a field costs as a member is at least what it becomes, and
exactly that only for a plain field with one `=`. -/
theorem weigh_field (f : Bytes) :
    f.length + 3 + 2 * f.count 0x3D ≤ weigh 0x3D (field f).1 + weigh 0x3D (field f).2 + 6 ∧
    (weigh 0x3D (field f).1 + weigh 0x3D (field f).2 + 6 = f.length + 3 + 2 * f.count 0x3D →
      (∀ b ∈ f, isPlain b) ∧ f.count 0x3D = 1) := by
  have hx : isPlain 0x3D := by decide
  rw [weigh_eq hx, weigh_eq hx]
  rcases field_cases f with ⟨k, v, rfl, hk, hf⟩ | ⟨hno, hf⟩
  · rw [hf]
    have hk0 : k.count 0x3D = 0 := List.count_eq_zero.2 hk
    simp only [List.length_append, List.length_cons, List.count_append, List.count_cons_self, hk0]
    refine ⟨by omega, fun heq => ?_⟩
    have hkp : k.countP (fun b => ¬ isPlain b) = 0 := by omega
    have hvp : v.countP (fun b => ¬ isPlain b) = 0 := by omega
    rw [List.countP_eq_zero] at hkp hvp
    refine ⟨?_, by omega⟩
    intro b hb
    rcases List.mem_append.1 hb with hb | hb
    · simpa using hkp b hb
    · rcases List.mem_cons.1 hb with rfl | hb
      · exact hx
      · simpa using hvp b hb
  · rw [hf]
    have h0 : f.count 0x3D = 0 := List.count_eq_zero.2 hno
    simp only [h0, List.length_nil, List.count_nil, List.countP_nil]
    exact ⟨by omega, fun heq => absurd heq (by omega)⟩

/-! ### The length of the text -/

theorem length_gsub {c a b d : UInt8} (s : Bytes) :
    (gsub c [a, b, d] s).length = s.length + 2 * s.count c := by
  induction s with
  | nil => rfl
  | cons x s ih =>
    rw [gsub_cons, List.length_append, ih]
    by_cases hx : x = c
    · subst hx
      simp
      omega
    · simp [hx]
      omega

theorem count_gsub {c e : UInt8} {t : Bytes} (hec : e ≠ c) (het : e ∉ t) (s : Bytes) :
    (gsub c t s).count e = s.count e := by
  induction s with
  | nil => rfl
  | cons x s ih =>
    rw [gsub_cons, List.count_append, ih]
    by_cases hx : x = c
    · subst hx
      simp [List.count_eq_zero.2 het, Ne.symm hec]
    · simp [hx, List.count_cons]
      omega

theorem notMem_gsub {c : UInt8} {t : Bytes} (ht : c ∉ t) (s : Bytes) : c ∉ gsub c t s := by
  intro h
  obtain ⟨b, -, hb⟩ := List.mem_flatMap.1 h
  split at hb
  · exact ht hb
  · next hne => exact hne (List.mem_singleton.1 hb).symm

theorem notMem_rewrite (body : Bytes) : 0x3D ∉ rewrite body := by
  have hsuf : (0x3D : UInt8) ∉ ascii "\"\x7d\x7d" := by decide
  rw [rewrite, List.mem_append, not_or]
  exact ⟨notMem_gsub (by decide) _, hsuf⟩

theorem length_rewrite (body : Bytes) : (rewrite body).length =
    10 + ((body.splitOn 0x26).map fun f => f.length + 3 + 2 * f.count 0x3D).sum := by
  have htext : (rewrite body).length =
    body.length + 2 * body.count 0x26 + 2 * body.count 0x3D + 13 := by
    have hamp : ascii "\",\"" = [0x22, 0x2C, 0x22] := by decide
    have heq : ascii "\":\"" = [0x22, 0x3A, 0x22] := by decide
    have hpre : (ascii "\x7b\"post\":\x7b\"").length = 10 ∧
        (ascii "\x7b\"post\":\x7b\"").count 0x3D = 0 := by decide
    have hsuf : (ascii "\"\x7d\x7d").length = 3 := by decide
    rw [rewrite, hamp, heq, List.length_append, length_gsub, List.length_append, length_gsub,
      List.count_append, count_gsub (by decide) (by decide), hpre.1, hpre.2, hsuf]
    omega
  -- the parts and the separators between them
  have hparts : ∀ fs : List (List UInt8), fs ≠ [] → (∀ f ∈ fs, 0x26 ∉ f) →
      ([0x26].intercalate fs).length + 2 * ([0x26].intercalate fs).count 0x26 +
        2 * ([0x26].intercalate fs).count 0x3D + 3 =
      (fs.map fun f => f.length + 3 + 2 * f.count 0x3D).sum := by
    intro fs hne hno
    induction fs with
    | nil => exact absurd rfl hne
    | cons f fs ih =>
      have hf : f.count 0x26 = 0 := List.count_eq_zero.2 (hno f List.mem_cons_self)
      cases fs with
      | nil =>
        simp [List.intercalate, hf]
        omega
      | cons f' fs =>
        have hrest := ih (by simp) fun g hg => hno g (List.mem_cons_of_mem _ hg)
        rw [List.map_cons, List.sum_cons, ← hrest]
        simp [List.intercalate, List.intersperse, List.count_append, hf]
        omega
  have hsum := hparts _ (List.splitOn_ne_nil 0x26 body) fun f hf => notMem_of_mem_splitOn hf
  rw [List.intercalate_splitOn] at hsum
  omega

/-! ### Bodies that are decoded into their fields -/

/-- Where every term is at least its bound, so is the sum; and where the sum is no
more than that, every term is its bound. -/
theorem sum_bound {α : Type} {l : List α} {g h : α → Nat} (hle : ∀ a ∈ l, h a ≤ g a) :
    (l.map h).sum ≤ (l.map g).sum ∧
      ((l.map g).sum ≤ (l.map h).sum → ∀ a ∈ l, g a = h a) := by
  induction l with
  | nil => exact ⟨Nat.le_refl _, fun _ a ha => absurd ha List.not_mem_nil⟩
  | cons b l ih =>
    have hb := hle b List.mem_cons_self
    obtain ⟨hsum, heq⟩ := ih fun a ha => hle a (List.mem_cons_of_mem _ ha)
    simp only [List.map_cons, List.sum_cons]
    refine ⟨by omega, fun hback a ha => ?_⟩
    rcases List.mem_cons.1 ha with rfl | ha
    · omega
    · exact heq (by omega) a ha

/-- In a plain body the fields are the pairs that were joined. -/
theorem Plain.eq_join {body : Bytes} (h : Plain body) :
    body = join (fields body) ∧ fields body ≠ [] ∧ ∀ m ∈ fields body, Clean m := by
  obtain ⟨hplain, hone⟩ := h
  have hmem : ∀ f ∈ body.splitOn 0x26, ∀ b ∈ f, isPlain b ∧ b ≠ 0x26 := by
    intro f hf b hb
    have hne : b ≠ 0x26 := by
      rintro rfl
      exact notMem_of_mem_splitOn hf hb
    exact ⟨hplain b ((mem_iff_splitOn hne).2 ⟨f, hf, hb⟩), hne⟩
  -- each part is a key, one `=` and a value without another
  have hcut : ∀ f ∈ body.splitOn 0x26, ∃ k v, f = k ++ 0x3D :: v ∧ field f = (k, v) ∧
    Clean (k, v) := by
    intro f hf
    rcases field_cases f with ⟨k, v, rfl, hk, hfield⟩ | ⟨hno, -⟩
    · have hcount := hone _ hf
      rw [List.count_append, List.count_cons_self, List.count_eq_zero.2 hk] at hcount
      have hv : 0x3D ∉ v := List.count_eq_zero.1 (by omega)
      refine ⟨k, v, rfl, hfield, ?_, ?_⟩
      · intro b hb
        have hb' := hmem _ hf b (List.mem_append_left _ hb)
        exact ⟨hb'.1, hb'.2, fun heq => hk (heq ▸ hb)⟩
      · intro b hb
        have hb' := hmem _ hf b (List.mem_append_right _ (List.mem_cons_of_mem _ hb))
        exact ⟨hb'.1, hb'.2, fun heq => hv (heq ▸ hb)⟩
    · have hcount := hone f hf
      rw [List.count_eq_zero.2 hno] at hcount
      cases hcount
  refine ⟨?_, ?_, ?_⟩
  · have hpair : ∀ f ∈ body.splitOn 0x26, (pairText ∘ field) f = f := by
      intro f hf
      obtain ⟨k, v, rfl, hfield, -⟩ := hcut f hf
      rw [Function.comp_apply, hfield, pairText]
    rw [join_eq, fields, List.map_map, List.map_congr_left hpair, List.map_id',
      List.intercalate_splitOn]
  · simp [fields]
  · intro m hm
    obtain ⟨f, hf, rfl⟩ := List.mem_map.1 hm
    obtain ⟨k, v, -, hfield, hclean⟩ := hcut f hf
    rw [hfield]
    exact hclean

/-- The members of the decoded table cost less than the text. -/
theorem costs_le_rewrite {body : Bytes} {ms : List (Bytes × Tree)} (h : post? body = some ms) :
    costs 0x3D ms + 10 ≤ (rewrite body).length := by
  simp only [post?, Option.bind_eq_bind, Option.bind_eq_some_iff] at h
  obtain ⟨t, ht, h⟩ := h
  split at h
  · next top =>
    simp only [Option.bind_eq_some_iff] at h
    obtain ⟨v, hv, h⟩ := h
    split at h
    · next ms' =>
      cases h
      have hle := cost_le_length (x := 0x3D) (by decide) (by decide) ht (notMem_rewrite body)
      have hsub : costs 0x3D [(ascii "post", Tree.obj ms)] ≤ costs 0x3D top :=
        costs_le_of_subset (List.nodup_singleton _) (by simpa using mem_of_field? hv)
      have hweigh : weigh 0x3D (ascii "post") = 4 := by decide
      simp only [cost, costs, hweigh] at hle hsub
      omega
    · cases h
  · cases h

theorem costs_fields (fs : List (List UInt8)) :
    costs 0x3D ((fs.map field).map fun m => (m.1, Tree.str m.2)) =
      (fs.map fun f => weigh 0x3D (field f).1 + weigh 0x3D (field f).2 + 6).sum := by
  induction fs with
  | nil => rfl
  | cons f fs ih =>
    rw [List.map_cons, List.map_cons, costs, cost, ih, List.map_cons, List.sum_cons]
    omega

theorem plain_of_agrees {body : Bytes} (hn : ((fields body).map Prod.fst).Nodup)
    {ms : List (Bytes × Tree)} (hpost : post? body = some ms) (h : Agrees body ms) :
      Plain body := by
  -- the fields are among the members, so the text pays for them
  have hsub : (fields body).map (fun m => (m.1, Tree.str m.2)) ⊆ ms := by
    intro m hm
    obtain ⟨⟨k, v⟩, hkv, rfl⟩ := List.mem_map.1 hm
    refine mem_of_field? ?_
    rw [h k, field?_of_mem hn hkv]
    rfl
  have hnodup : ((fields body).map fun m => (m.1, Tree.str m.2)).Nodup := by
    refine List.Nodup.of_map Prod.fst ?_
    rw [List.map_map]
    exact hn
  have hcost := costs_le_of_subset (x := 0x3D) hnodup hsub
  have htext := costs_le_rewrite hpost
  rw [length_rewrite, Nat.add_comm] at htext
  have hsum : costs 0x3D ((fields body).map fun m => (m.1, Tree.str m.2)) =
      ((body.splitOn 0x26).map fun f =>
        weigh 0x3D (field f).1 + weigh 0x3D (field f).2 + 6).sum := costs_fields _
  rw [hsum] at hcost
  -- no field has anything left over
  have hexact := (sum_bound fun f (_ : f ∈ body.splitOn 0x26) => (weigh_field f).1).2
    (hcost.trans (Nat.le_of_add_le_add_left htext))
  refine ⟨fun b hb => ?_, fun f hf => ((weigh_field f).2 (hexact f hf)).2⟩
  by_cases h26 : b = 0x26
  · rw [h26]
    decide
  · obtain ⟨f, hf, hbf⟩ := (mem_iff_splitOn h26).1 hb
    exact ((weigh_field f).2 (hexact f hf)).1 b hbf

theorem field?_map_str (k : Bytes) (kvs : List (Bytes × Bytes)) :
    field? k (kvs.map fun m => (m.1, Tree.str m.2)) = (field? k kvs).map .str := by
  rw [field?, field?, ← List.map_reverse, List.find?_map, Option.map_map, Option.map_map]
  rfl

theorem Plain.decoded {body : Bytes} (h : Plain body) :
    ∃ ms, post? body = some ms ∧ Agrees body ms := by
  obtain ⟨hbody, hne, hclean⟩ := h.eq_join
  have hpost := post?_join hne hclean
  rw [← hbody] at hpost
  exact ⟨_, hpost, fun k => field?_map_str k _⟩

/-! ### Bodies without quotes and backslashes -/

theorem rewrite_eq (body : Bytes) : rewrite body = 0x7B :: (quote (ascii "post") ++
    0x3A :: 0x7B :: (fieldsText (body.splitOn 0x26) ++ [0x7D, 0x7D])) := by
  have hpre : gsub 0x3D (ascii "\":\"") (ascii "\x7b\"post\":\x7b\"") =
      0x7B :: (quote (ascii "post") ++ [0x3A, 0x7B, 0x22]) := by decide
  have hsuf : ascii "\"\x7d\x7d" = [0x22, 0x7D, 0x7D] := by decide
  rw [rewrite, gsub_append, hpre, hsuf,
    ← gsub_intercalate (List.splitOn_ne_nil 0x26 body) fun f hf => notMem_of_mem_splitOn hf,
    List.intercalate_splitOn]
  simp

/-- A string literal in such a text ends at the first `=`, or with the field. -/
theorem string_field {f t k r : Bytes} (hf : Unquoted f)
    (h : string (gsub 0x3D (ascii "\":\"") f ++ 0x22 :: t) = some (k, r)) :
    (∀ b ∈ k, isPlain b) ∧ 0x3D ∉ k ∧ (f = k ∧ r = t ∨ ∃ v, f = k ++ 0x3D :: v ∧
      r = 0x3A :: 0x22 :: (gsub 0x3D (ascii "\":\"") v ++ 0x22 :: t)) := by
  have hcolon : ascii "\":\"" = [0x22, 0x3A, 0x22] := by decide
  rcases field_cases f with ⟨k', v, rfl, hk, -⟩ | ⟨hno, -⟩
  · rw [gsub_append, gsub_cons, if_pos rfl, gsub_of_notMem hk] at h
    nth_rewrite 1 [hcolon] at h
    simp only [List.append_assoc, List.cons_append, List.nil_append] at h
    obtain ⟨hplain, heq⟩ := plain_of_string (fun b hb => hf b (List.mem_append_left _ hb)) h
    cases heq
    exact ⟨hplain, hk, Or.inr ⟨v, rfl, rfl⟩⟩
  · rw [gsub_of_notMem hno] at h
    obtain ⟨hplain, heq⟩ := plain_of_string hf h
    cases heq
    exact ⟨hplain, hno, Or.inl ⟨rfl, rfl⟩⟩

/-- A field without quotes and backslashes is read as a member only if it is plain
and has one `=`: without one there is no colon after the name, and with another
there is one after the value. -/
theorem members_fieldText {n : Nat} {f r r' : Bytes} {c : UInt8} {ms : List (Bytes × Tree)}
    (hf : Unquoted f) (hc : c = 0x2C ∨ c = 0x7D)
    (h : members n (fieldText f ++ c :: r) = some (ms, r')) :
    ((∀ b ∈ f, isPlain b) ∧ f.count 0x3D = 1) ∧ (c = 0x2C → ∃ n y, members n r = some y) := by
  have hmark : 0x20 < c ∧ c ≠ 0x3A := by rcases hc with rfl | rfl <;> decide
  obtain ⟨n, rfl⟩ : ∃ k, n = k + 1 := by
    cases n with
    | zero => cases h
    | succ n => exact ⟨n, rfl⟩
  obtain ⟨r₁, k, r₂, r₃, v, r₄, r₅, hs, hk, hcolon, hv, hmore⟩ := members_cases h
  rw [fieldText, List.cons_append, List.append_assoc, List.singleton_append,
    skip_mark (by decide)] at hs
  cases hs
  obtain ⟨hkp, hknot, ⟨rfl, rfl⟩ | ⟨w, rfl, rfl⟩⟩ := string_field hf hk
  · -- no `=`: what follows the name is `c`
    rw [skip_mark hmark.1] at hcolon
    exact absurd (List.cons.inj hcolon).1 hmark.2
  rw [skip_mark (by decide)] at hcolon
  cases hcolon
  have hw : Unquoted w := fun b hb => hf b (List.mem_append_right _ (List.mem_cons_of_mem _ hb))
  obtain ⟨t, ht⟩ := value_string hv
  obtain ⟨htp, htnot, ⟨rfl, rfl⟩ | ⟨u, rfl, rfl⟩⟩ := string_field hw ht
  · refine ⟨⟨?_, ?_⟩, fun hcomma => ?_⟩
    · intro b hb
      rcases List.mem_append.1 hb with hb | hb
      · exact hkp b hb
      · rcases List.mem_cons.1 hb with rfl | hb
        · decide
        · exact htp b hb
    · rw [List.count_append, List.count_cons_self, List.count_eq_zero.2 hknot,
        List.count_eq_zero.2 htnot]
    · subst hcomma
      rw [skip_mark (by decide)] at hmore
      rcases hmore with ⟨hr, ms', hms, -⟩ | ⟨hr, -⟩
      · cases hr
        exact ⟨n, _, hms⟩
      · cases hr
  · -- a second `=`: what follows the value is another colon
    rw [skip_mark (by decide)] at hmore
    rcases hmore with ⟨hr, -⟩ | ⟨hr, -⟩
    · cases hr
    · cases hr

theorem members_fieldsText {fs : List Bytes} (hne : fs ≠ []) (hfs : ∀ f ∈ fs, Unquoted f)
    {n : Nat} {r : Bytes} {x : List (Bytes × Tree) × Bytes}
    (h : members n (fieldsText fs ++ 0x7D :: r) = some x) :
    ∀ f ∈ fs, (∀ b ∈ f, isPlain b) ∧ f.count 0x3D = 1 := by
  induction fs generalizing n x with
  | nil => exact absurd rfl hne
  | cons f fs ih =>
    have hf := hfs f List.mem_cons_self
    cases fs with
    | nil =>
      rw [List.forall_mem_singleton]
      exact (members_fieldText hf (Or.inr rfl) h).1
    | cons f' fs =>
      rw [fieldsText, List.append_assoc, List.cons_append] at h
      · obtain ⟨hone, hrest⟩ := members_fieldText hf (Or.inl rfl) h
        obtain ⟨n', y, hy⟩ := hrest rfl
        exact List.forall_mem_cons.2 ⟨hone,
          ih (by simp) (fun g hg => hfs g (List.mem_cons_of_mem _ hg)) hy⟩
      · simp

theorem fieldsText_eq_cons {fs : List Bytes} (hne : fs ≠ []) :
    ∃ r, fieldsText fs = 0x22 :: r := by
  cases fs with
  | nil => exact absurd rfl hne
  | cons f fs => cases fs <;> exact ⟨_, rfl⟩

/-- **A body without quotes and backslashes is decoded only if it is plain.** -/
theorem Unquoted.plain_of_decoded {body : Bytes} (h : Unquoted body) {t : Tree}
    (ht : decode (rewrite body) = some t) : Plain body := by
  have hne := List.splitOn_ne_nil 0x26 body
  have hfs : ∀ f ∈ body.splitOn 0x26, Unquoted f := by
    intro f hf b hb
    have h26 : b ≠ 0x26 := by
      rintro rfl
      exact notMem_of_mem_splitOn hf hb
    exact h b ((mem_iff_splitOn h26).2 ⟨f, hf, hb⟩)
  have hplain : ∀ f ∈ body.splitOn 0x26, (∀ b ∈ f, isPlain b) ∧ f.count 0x3D = 1 := by
    unfold decode at ht
    split at ht
    · next hval =>
      rw [rewrite_eq, quote, List.cons_append, List.append_assoc, List.singleton_append] at hval
      obtain ⟨n, ms, r, hms⟩ := value_object hval
      obtain ⟨n, x, hx⟩ := members_value (by decide +kernel) hms
      obtain ⟨s, hs⟩ := fieldsText_eq_cons hne
      rw [hs, List.cons_append] at hx
      obtain ⟨n, ms, r, hms⟩ := value_object hx
      rw [← List.cons_append, ← hs] at hms
      exact members_fieldsText hne hfs hms
    · cases ht
  refine ⟨fun b hb => ?_, fun f hf => (hplain f hf).2⟩
  by_cases h26 : b = 0x26
  · rw [h26]
    decide
  · obtain ⟨f, hf, hbf⟩ := (mem_iff_splitOn h26).1 hb
    exact (hplain f hf).1 b hbf

/-! ### The theorem -/

/-- A rejected body is one that may be, exactly when no field has an `=` too many. -/
theorem oneOrNone_iff (body : Bytes) :
    OneOrNone body ↔ ((∀ f ∈ body.splitOn 0x26, 0x3D ∈ f) →
      ¬ ∃ f ∈ body.splitOn 0x26, 1 < f.count 0x3D) := by
  constructor
  · rintro (⟨f, hf, hno⟩ | hone) hall ⟨g, hg, hmore⟩
    · exact hno (hall f hf)
    · rw [hone g hg] at hmore
      exact absurd hmore (by decide)
  · intro h
    by_cases hall : ∀ f ∈ body.splitOn 0x26, 0x3D ∈ f
    · refine Or.inr fun f hf => ?_
      have hpos : 0 < f.count 0x3D := List.count_pos_iff.2 (hall f hf)
      have hle : ¬ 1 < f.count 0x3D := fun hlt => h hall ⟨f, hf, hlt⟩
      omega
    · simp only [not_forall, exists_prop] at hall
      exact Or.inl hall

/-- Where decoding keeps to the form when it succeeds, the claim on a rejected body is
left. -/
theorem kept_iff_of_rejected {body : Bytes} (h : decode (rewrite body) = none) :
    Kept body ↔ OneOrNone body := by
  rw [oneOrNone_iff]
  constructor
  · intro hkept hall hmore
    obtain ⟨t, ht⟩ := hkept.accepted hall hmore
    rw [h] at ht
    cases ht
  · intro hnot
    refine ⟨fun t ht => ?_, fun hall hmore => absurd hmore (hnot hall)⟩
    rw [h] at ht
    cases ht

/-- **Which bodies are decoded as the form says**: of the bodies without quotes and
backslashes those in which a field has no `=` or all have one; of the others, where
the keys are different, none that is decoded. -/
theorem body_kept_iff (body : Bytes) :
    (Unquoted body → (Kept body ↔ OneOrNone body)) ∧
    (¬ Unquoted body → ((fields body).map Prod.fst).Nodup →
      (Kept body ↔ OneOrNone body ∧ decode (rewrite body) = none)) := by
  constructor
  · intro hq
    cases hdec : decode (rewrite body) with
    | none => exact kept_iff_of_rejected hdec
    | some t =>
      have hplain := hq.plain_of_decoded hdec
      exact iff_of_true ⟨fun _ _ => hplain.decoded, fun _ _ => ⟨t, hdec⟩⟩ (Or.inr hplain.2)
  · intro hq hn
    constructor
    · intro hkept
      have hdec : decode (rewrite body) = none := by
        by_contra hsome
        obtain ⟨t, ht⟩ := Option.ne_none_iff_exists'.1 hsome
        obtain ⟨ms, hpost, hagrees⟩ := hkept.table t ht
        have hplain := (plain_of_agrees hn hpost hagrees).1
        exact hq fun b hb => ⟨(hplain b hb).1, (hplain b hb).2.1⟩
      exact ⟨(kept_iff_of_rejected hdec).1 hkept, hdec⟩
    · rintro ⟨hone, hdec⟩
      exact (kept_iff_of_rejected hdec).2 hone

/-- A quote brings in a key that is none of a field, a backslash changes a value,
and a second `=` in a field has the body rejected. -/
theorem bodies_misread :
    (fields (ascii "x=1\",\"id\":\"2") = [(ascii "x", ascii "1\",\"id\":\"2")] ∧
      (post? (ascii "x=1\",\"id\":\"2")).map (List.map fun m => (m.1, m.2.str?)) =
        some [(ascii "x", some (ascii "1")), (ascii "id", some (ascii "2"))]) ∧
    (fields (ascii "x=a\\u0062") = [(ascii "x", ascii "a\\u0062")] ∧
      (post? (ascii "x=a\\u0062")).map (List.map fun m => (m.1, m.2.str?)) =
        some [(ascii "x", some (ascii "ab"))]) ∧
    (fields (ascii "x=1=2") = [(ascii "x", ascii "1=2")] ∧ (post? (ascii "x=1=2")).isNone) := by
  decide +kernel

theorem body_kept_two :
    Kept (ascii "id=1&cmd=PowerON") ∧ Kept (ascii "id=1&x") ∧ ¬ Kept (ascii "x=a\\u0062") := by
  refine ⟨((body_kept_iff _).1 (by decide +kernel)).2 (by decide +kernel),
    ((body_kept_iff _).1 (by decide +kernel)).2 (by decide +kernel), fun hkept => ?_⟩
  have hnone := (((body_kept_iff _).2 (by decide +kernel) (by decide +kernel)).1 hkept).2
  have hsome : (decode (rewrite (ascii "x=a\\u0062"))).isNone = false := by decide +kernel
  rw [hnone] at hsome
  cases hsome

end NsBoot.Body
