import NsBoot.Lib.Json

/-!
# NsBoot.Lib.Rewrite — rewriting the entries of a table

`v.rewrite g` replaces every entry `t[k] = x` of a table by `g k x`. When `g` is
`Faithful` (it does not remove or add entries, and does not tell a number key from the text
it has in a JSON object), rewriting commutes with reading, assigning, saving and loading.
Rewritings of nested tables are composed of these.
-/

namespace NsBoot.Lua

variable {g : Key → Value → Value}

/-- Every entry `x` of the table, with its key `k`, becomes `g k x`. -/
def rewriteKvs (g : Key → Value → Value) (kvs : List (Key × Value)) : List (Key × Value) :=
  kvs.map fun e => (e.1, g e.1 e.2)

/-- `rewriteKvs` of a table; what is no table stays as it is. -/
def Value.rewrite (g : Key → Value → Value) : Value → Value
  | .table kvs => .table (rewriteKvs g kvs)
  | v => v

/-- No entry is removed or added, a number key is treated like its text, and the entries can be
saved and loaded before or after. -/
structure Faithful (g : Key → Value → Value) : Prop where
  nil_iff : ∀ k v, g k v = .nil ↔ v = .nil
  text : ∀ k, g (.str k.text) = g k
  reload : ∀ k v, (g k v).reload = g k v.reload

@[simp] theorem keys_rewriteKvs (kvs : List (Key × Value)) :
    keys (rewriteKvs g kvs) = keys kvs := by
  simp [rewriteKvs, keys, Function.comp_def]

@[simp] theorem length_rewriteKvs (kvs : List (Key × Value)) :
    (rewriteKvs g kvs).length = kvs.length := by
  simp [rewriteKvs]

@[simp] theorem isSeq_rewriteKvs (kvs : List (Key × Value)) :
    isSeq (rewriteKvs g kvs) = isSeq kvs := by
  simp [isSeq]

theorem rewrite_eq_nil {v : Value} : v.rewrite g = .nil ↔ v = .nil := by
  cases v <;> simp [Value.rewrite]

theorem rewrite_eq_bool {v : Value} {b : Bool} : v.rewrite g = .bool b ↔ v = .bool b := by
  cases v <;> simp [Value.rewrite]

theorem lookup_rewriteKvs {k : Key} (hnil : g k .nil = .nil) (kvs : List (Key × Value)) :
    lookup k (rewriteKvs g kvs) = g k (lookup k kvs) := by
  induction kvs with
  | nil => simp [rewriteKvs, lookup, hnil]
  | cons e kvs ih =>
    obtain ⟨l, v⟩ := e
    by_cases hl : l = k
    · subst hl
      simp [rewriteKvs, lookup]
    · simpa [rewriteKvs, lookup, hl] using ih

/-- Rewriting twice is rewriting once, if it is so for every entry. -/
theorem rewrite_rewrite (h : ∀ k v, g k (g k v) = g k v) (v : Value) :
    (v.rewrite g).rewrite g = v.rewrite g := by
  cases v with
  | table kvs => simp [Value.rewrite, rewriteKvs, h]
  | nil | bool | num | str => rfl

/-- A path is followed part by part. -/
theorem Value.at?_append (v : Value) (p q : List Key) :
    v.at? (p ++ q) = (v.at? p).bind (Value.at? q) := by
  induction p generalizing v with
  | nil => rfl
  | cons k p ih =>
    cases v with
    | table kvs => exact ih _
    | str => exact ih _
    | nil | bool | num => rfl

namespace Faithful

variable (h : Faithful g)

include h

theorem nil (k : Key) : g k .nil = .nil := (h.nil_iff k .nil).2 rfl

/-! ## Reading -/

/-- A field of the rewritten table is the rewritten field. -/
theorem get (v : Value) (k : Key) : (v.rewrite g).get k = g k (v.get k) := by
  cases v with
  | table kvs => exact lookup_rewriteKvs (h.nil k) kvs
  | nil | bool | num | str => simp [Value.rewrite, Value.get, h.nil]

/-- Following a path: the first field is rewritten, the rest is read in it. -/
theorem at?_cons (v : Value) (k : Key) (ks : List Key) :
    (v.rewrite g).at? (k :: ks) = (v.at? [k]).bind fun x => (g k x).at? ks := by
  cases v with
  | table kvs => simp [Value.rewrite, Value.at?, lookup_rewriteKvs (h.nil k)]
  | str => simp [Value.rewrite, Value.at?, h.nil]
  | nil | bool | num => simp [Value.rewrite, Value.at?]

theorem at?_one (v : Value) (k : Key) : (v.rewrite g).at? [k] = (v.at? [k]).map (g k) := by
  rw [h.at?_cons, Option.map_eq_bind]
  rfl

/-- Fields that `g` leaves alone, and everything in them, read the same. -/
theorem at?_same {k : Key} (hk : ∀ x, g k x = x) (v : Value) (ks : List Key) :
    (v.rewrite g).at? (k :: ks) = v.at? (k :: ks) := by
  have hparts : v.at? (k :: ks) = (v.at? [k]).bind (Value.at? ks) := v.at?_append [k] ks
  rw [h.at?_cons, hparts]
  simp only [hk]

theorem visit (kvs : List (Key × Value)) (n : Nat) (i : Int) :
    ipairs.visit (rewriteKvs g kvs) n i =
      (ipairs.visit kvs n i).map fun e => (e.1, g (.num e.1) e.2) := by
  induction n generalizing i with
  | zero => rfl
  | succ n ih =>
    have hnil : g (.num i) (lookup (.num i) kvs) = .nil ↔ lookup (.num i) kvs = .nil :=
      h.nil_iff _ _
    simp only [ipairs.visit, lookup_rewriteKvs (h.nil _)]
    split
    · next heq => simp [hnil.1 heq]
    · next hne =>
      split
      · next heq => exact absurd (hnil.2 heq) hne
      · simp [ih]

/-- The loop over a rewritten array sees the rewritten entries. -/
theorem ipairs (kvs : List (Key × Value)) :
    ipairs (rewriteKvs g kvs) = (Lua.ipairs kvs).map fun e => (e.1, g (.num e.1) e.2) := by
  rw [Lua.ipairs, Lua.ipairs, length_rewriteKvs, h.visit]

/-! ## Assigning -/

omit h in
theorem insert (k : Key) (v : Value) (kvs : List (Key × Value)) :
    insert k (g k v) (rewriteKvs g kvs) = rewriteKvs g (Lua.insert k v kvs) := by
  induction kvs with
  | nil => rfl
  | cons e kvs ih =>
    obtain ⟨l, x⟩ := e
    by_cases hl : l = k
    · simp [rewriteKvs, Lua.insert, hl]
    · simpa [rewriteKvs, Lua.insert, hl] using ih

/-- Rewriting and storing an entry commute. -/
theorem store (k : Key) (v : Value) (kvs : List (Key × Value)) :
    store k (g k v) (rewriteKvs g kvs) = rewriteKvs g (Lua.store k v kvs) := by
  unfold Lua.store
  by_cases hv : v = .nil
  · rw [if_pos hv, if_pos ((h.nil_iff k v).2 hv), rewriteKvs, rewriteKvs, List.filter_map]
    rfl
  · rw [if_neg hv, if_neg (mt (h.nil_iff k v).1 hv), Faithful.insert]

/-- Rewriting and assigning commute, if they do in the field the path begins with. -/
theorem assign?_cons {k : Key} {ks : List Key} {t v v' : Value}
    (hsub : (g k (t.get k)).assign? ks v' = ((t.get k).assign? ks v).map (g k)) :
    (t.rewrite g).assign? (k :: ks) v' = (t.assign? (k :: ks) v).map (Value.rewrite g) := by
  cases t with
  | table kvs =>
    simp only [Value.get_table] at hsub
    simp only [Value.rewrite, Value.assign?, lookup_rewriteKvs (h.nil k), hsub, Option.map_map]
    congr 1
    funext x
    simp [Value.rewrite, h.store]
  | nil | bool | num | str => simp [Value.rewrite, Value.assign?]

/-! ## Saving and loading -/

theorem foldl_insert (kvs acc : List (Key × Value)) :
    (rewriteKvs g kvs).foldl (fun acc e => Lua.insert (.str e.1.text) e.2 acc) (rewriteKvs g acc) =
      rewriteKvs g (kvs.foldl (fun acc e => Lua.insert (.str e.1.text) e.2 acc) acc) := by
  induction kvs generalizing acc with
  | nil => rfl
  | cons e kvs ih =>
    have hinsert : Lua.insert (.str e.1.text) (g e.1 e.2) (rewriteKvs g acc) =
        rewriteKvs g (Lua.insert (.str e.1.text) e.2 acc) := by
      rw [← Faithful.insert, h.text]
    rw [List.foldl_cons, ← ih, ← hinsert]
    rfl

/-- Rewriting does not change what the keys become in a JSON text. -/
theorem renumber (kvs : List (Key × Value)) :
    renumber (rewriteKvs g kvs) = rewriteKvs g (Lua.renumber kvs) := by
  unfold Lua.renumber
  rw [isSeq_rewriteKvs]
  split
  · rw [length_rewriteKvs]
    simp [rewriteKvs, ← lookup_rewriteKvs (h.nil _)]
  · exact h.foldl_insert kvs []

theorem reloadKvs (kvs : List (Key × Value)) :
    reloadKvs (rewriteKvs g kvs) = rewriteKvs g (Lua.reloadKvs kvs) := by
  rw [reloadKvs_eq_map, reloadKvs_eq_map, rewriteKvs, rewriteKvs, List.map_map, List.map_map]
  refine List.map_congr_left fun e _ => ?_
  simp [h.reload]

/-- What is saved and loaded can be rewritten before or after. -/
theorem reload_rewrite (v : Value) : (v.rewrite g).reload = v.reload.rewrite g := by
  cases v with
  | table kvs => simp only [Value.rewrite, Value.reload, h.reloadKvs, h.renumber]
  | nil | bool | num | str => simp [Value.rewrite, Value.reload]

end Faithful

/-- A table whose entries are all rewritten alike. -/
theorem Faithful.each {f : Value → Value} (hnil : ∀ v, f v = .nil ↔ v = .nil)
    (hreload : ∀ v, (f v).reload = f v.reload) : Faithful fun _ => f :=
  ⟨fun _ => hnil, fun _ => rfl, fun _ => hreload⟩

/-- An array whose entries are read through `f`. -/
theorem readArray?_rewrite {α β : Type} {u : Value → Value} (hu : u .nil = .nil)
    {f : Value → Option α} {p : α → β} {f' : Value → Option β}
    (hf : ∀ x, f' (u x) = (f x).map p) (v : Value) :
    readArray? f' (v.rewrite fun _ => u) = (readArray? f v).map (List.map p) := by
  cases v with
  | table kvs =>
    have hlookup : ∀ k, lookup k (rewriteKvs (fun _ => u) kvs) = u (lookup k kvs) :=
      fun k => lookup_rewriteKvs hu kvs
    simp only [Value.rewrite, readArray?, isSeq_rewriteKvs, length_rewriteKvs, hlookup, hf]
    split
    · generalize seqKeys kvs.length = ks
      induction ks with
      | nil => rfl
      | cons k ks ih =>
        simp only [List.mapM_cons, ih]
        cases f (lookup k kvs) with
        | none => rfl
        | some a =>
          cases ks.mapM fun k => f (lookup k kvs) with
          | none => rfl
          | some as => rfl
    · rfl
  | nil | bool | num | str => rfl

/-- A loop whose steps can be made before or after `p`. -/
theorem foldlM_map_comm {α γ : Type} {step : α → γ → Option α} {p : α → α}
    (h : ∀ a x, step (p a) x = (step a x).map p) (xs : List γ) (a : α) :
    xs.foldlM step (p a) = (xs.foldlM step a).map p := by
  induction xs generalizing a with
  | nil => rfl
  | cons x xs ih =>
    rw [List.foldlM_cons, List.foldlM_cons, h]
    cases step a x with
    | none => rfl
    | some b => exact ih b

/-! ## Numbers as texts -/

/-- A number becomes its decimal text. -/
def Value.textual : Value → Value
  | .num n => .str (toString n)
  | v => v

/-- A digit is no blank. -/
theorem isSpace_of_isDigit {c : Char} (h : c.isDigit) : isSpace c = false := by
  simp only [Char.isDigit, isSpace, Bool.and_eq_true, decide_eq_true_eq, Bool.or_eq_false_iff,
    decide_eq_false_iff_not, Bool.and_eq_false_iff] at h ⊢
  refine ⟨?_, Or.inr ?_⟩
  · rintro rfl
    exact absurd h.1 (by decide)
  · intro hle
    exact absurd (Char.le_trans (a := '0') h.1 hle) (by decide)

/-- `tonumber(tostring(n)) = n` for a negative number. -/
theorem numberOf_negative (m : Nat) : numberOf ("-" ++ toString m) = some (-(m : Int)) := by
  have hd : ∀ c ∈ Nat.toDigits 10 m, c.isDigit :=
    fun c hc => Nat.isDigit_of_mem_toDigits (by decide) (by decide) hc
  have hlist : ("-" ++ toString m).toList = '-' :: Nat.toDigits 10 m := by simp
  have htrim : ('-' :: Nat.toDigits 10 m).reverse.dropWhile isSpace =
      ('-' :: Nat.toDigits 10 m).reverse := by
    refine List.dropWhile_eq_self_iff.2 fun hlen => ?_
    rw [Bool.not_eq_true]
    have hlast := List.getElem_mem hlen
    rw [List.mem_reverse] at hlast
    rcases List.mem_cons.1 hlast with hminus | hdigit
    · rw [hminus]
      decide
    · exact isSpace_of_isDigit (hd _ hdigit)
  have hhead : ('-' :: Nat.toDigits 10 m).dropWhile isSpace = '-' :: Nat.toDigits 10 m := rfl
  unfold numberOf
  simp only [hlist, hhead, htrim, List.reverse_reverse, signed,
    numeral_digits Nat.toDigits_ne_nil hd, Nat.ofDigitChars_ten_toDigits, Option.map_some]

/-- `tonumber(tostring(n)) = n`. -/
theorem numberOf_toString_int (n : Int) : numberOf (toString n) = some n := by
  cases n with
  | ofNat m => exact numberOf_toString m
  | negSucc m => exact numberOf_negative (m + 1)

@[simp] theorem tostring_textual (v : Value) : v.textual.tostring = v.tostring := by
  cases v <;> rfl

@[simp] theorem concat?_textual (v : Value) : v.textual.concat? = v.concat? := by
  cases v <;> rfl

@[simp] theorem tonumber_textual (v : Value) : v.textual.tonumber = v.tonumber := by
  cases v with
  | num n => exact numberOf_toString_int n
  | nil | bool | str | table => rfl

theorem textual_eq_nil {v : Value} : v.textual = .nil ↔ v = .nil := by
  cases v <;> simp [Value.textual]

theorem textual_textual (v : Value) : v.textual.textual = v.textual := by
  cases v <;> rfl

theorem reload_textual (v : Value) : v.textual.reload = v.reload.textual := by
  cases v <;> simp [Value.textual, Value.reload]

end NsBoot.Lua
