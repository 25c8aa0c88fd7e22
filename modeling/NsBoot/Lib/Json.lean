import NsBoot.Lib.Lua

/-!
# NsBoot.Lib.Json — what a Lua value becomes when it is saved and loaded

A table whose keys are exactly `1..n` is written as a JSON array and comes back
in order; any other table is written as an object, and every key comes back as
a string.

* `reload v`: the value `v` after a save and a load.
* `Normal v`: `v` has the shape a decoder builds. Loaded values are normal
  (`reload_normal`) and saving them again changes nothing (`Normal.reload_eq`).
  `Json` is the type of such values.
* `Distinct v`: no table in `v` has a key twice. Normal values are distinct, and
  assignments keep that (`assign?_distinct`). In a distinct value, fields
  (`reload_get_field`) and array entries (`reload_get_index`) are found again.
-/

namespace NsBoot.Lua

/-- The entries of an array come back in order, those of an object under the
texts of their keys. -/
def renumber (kvs : List (Key × Value)) : List (Key × Value) :=
  if isSeq kvs then (seqKeys kvs.length).map fun k => (k, lookup k kvs)
  else kvs.foldl (fun acc e => insert (.str e.1.text) e.2 acc) []

mutual

/-- A value after a save and a load. -/
def Value.reload : Value → Value
  | .table kvs => .table (renumber (reloadKvs kvs))
  | .nil => .nil
  | .bool b => .bool b
  | .num n => .num n
  | .str s => .str s

def reloadKvs : List (Key × Value) → List (Key × Value)
  | [] => []
  | (k, v) :: kvs => (k, v.reload) :: reloadKvs kvs

end

theorem reloadKvs_eq_map (kvs : List (Key × Value)) :
    reloadKvs kvs = kvs.map fun e => (e.1, e.2.reload) := by
  induction kvs with
  | nil => simp [reloadKvs]
  | cons e kvs ih => simp [reloadKvs, ih]

@[simp] theorem keys_reloadKvs (kvs : List (Key × Value)) : keys (reloadKvs kvs) = keys kvs := by
  simp [reloadKvs_eq_map]

@[simp] theorem length_reloadKvs (kvs : List (Key × Value)) :
    (reloadKvs kvs).length = kvs.length := by
  simp [reloadKvs_eq_map]

theorem lookup_reloadKvs (k : Key) (kvs : List (Key × Value)) :
    lookup k (reloadKvs kvs) = (lookup k kvs).reload := by
  induction kvs with
  | nil => simp [reloadKvs, lookup, Value.reload]
  | cons e kvs ih =>
    obtain ⟨l, v⟩ := e
    by_cases hl : l = k <;> simp [reloadKvs, lookup, hl, ih]

@[simp] theorem isSeq_reloadKvs (kvs : List (Key × Value)) : isSeq (reloadKvs kvs) = isSeq kvs := by
  simp [isSeq]

theorem reload_eq_nil {v : Value} : v.reload = .nil ↔ v = .nil := by
  cases v <;> simp [Value.reload]

/-! ## Properties of every table in a value -/

mutual

/-- Every table in the value has the property `P`. -/
def Value.All (P : List (Key × Value) → Prop) : Value → Prop
  | .table kvs => P kvs ∧ AllKvs P kvs
  | _ => True

def AllKvs (P : List (Key × Value) → Prop) : List (Key × Value) → Prop
  | [] => True
  | (_, v) :: kvs => v.All P ∧ AllKvs P kvs

end

section All

variable {P Q : List (Key × Value) → Prop}

theorem allKvs_iff {kvs : List (Key × Value)} : AllKvs P kvs ↔ ∀ e ∈ kvs, e.2.All P := by
  induction kvs with
  | nil => simp [AllKvs]
  | cons e kvs ih => simp [AllKvs, ih]

theorem AllKvs.lookup {kvs : List (Key × Value)} (h : AllKvs P kvs) (k : Key) :
    (lookup k kvs).All P := by
  by_cases hk : Lua.lookup k kvs = .nil
  · rw [hk]
    simp [Value.All]
  · exact allKvs_iff.1 h _ (mem_of_lookup_ne_nil hk)

theorem Value.All.get {v : Value} (h : v.All P) (k : Key) : (v.get k).All P := by
  cases v with
  | table kvs =>
    simp only [Value.All] at h
    exact h.2.lookup k
  | nil | bool | num | str => simp [Value.get, Value.All]

mutual

theorem Value.All.mono (hPQ : ∀ kvs, P kvs → Q kvs) : ∀ {v : Value}, v.All P → v.All Q
  | .table kvs, h => by
    simp only [Value.All] at h ⊢
    exact ⟨hPQ kvs h.1, AllKvs.mono hPQ h.2⟩
  | .nil, _ | .bool _, _ | .num _, _ | .str _, _ => by simp [Value.All]

theorem AllKvs.mono (hPQ : ∀ kvs, P kvs → Q kvs) :
    ∀ {kvs : List (Key × Value)}, AllKvs P kvs → AllKvs Q kvs
  | [], _ => by simp [AllKvs]
  | (_, v) :: kvs, h => by
    simp only [AllKvs] at h ⊢
    exact ⟨h.1.mono hPQ, h.2.mono hPQ⟩

end

theorem mem_insert {k : Key} {v : Value} {kvs : List (Key × Value)} {e : Key × Value}
    (h : e ∈ insert k v kvs) : e = (k, v) ∨ e ∈ kvs := by
  induction kvs with
  | nil => simpa [insert] using h
  | cons e' kvs ih =>
    obtain ⟨k', v'⟩ := e'
    by_cases hk : k' = k
    · simp only [insert, if_pos hk, List.mem_cons] at h ⊢
      tauto
    · simp only [insert, if_neg hk, List.mem_cons] at h ⊢
      rcases h with h | h
      · exact Or.inr (Or.inl h)
      · exact (ih h).imp_right Or.inr

theorem mem_store {k : Key} {v : Value} {kvs : List (Key × Value)} {e : Key × Value}
    (h : e ∈ store k v kvs) : e = (k, v) ∨ e ∈ kvs := by
  unfold store at h
  split at h
  · exact Or.inr (List.mem_of_mem_filter h)
  · exact mem_insert h

theorem AllKvs.store {k : Key} {v : Value} {kvs : List (Key × Value)} (h : AllKvs P kvs)
    (hv : v.All P) : AllKvs P (store k v kvs) := by
  rw [allKvs_iff] at h ⊢
  intro e he
  rcases mem_store he with rfl | he
  · exact hv
  · exact h e he

end All

/-! ## Values a decoder builds -/

/-- A table as a decoder builds it: an array in order, or string keys without
repetition. -/
def Shape (kvs : List (Key × Value)) : Prop :=
  keys kvs = seqKeys kvs.length ∨ ((∀ k ∈ keys kvs, ∃ s, k = .str s) ∧ (keys kvs).Nodup)

/-- Every table in the value has a decoder's shape. -/
def Value.Normal (v : Value) : Prop := v.All Shape

theorem Shape.nodup {kvs : List (Key × Value)} (h : Shape kvs) : (keys kvs).Nodup := by
  rcases h with h | h
  · rw [h]
    exact seqKeys_nodup _
  · exact h.2

/-- A decoder's table with the keys `1..n` has them in order. -/
theorem Shape.keys_of_isSeq {kvs : List (Key × Value)} (h : Shape kvs) (hseq : isSeq kvs) :
    keys kvs = seqKeys kvs.length := by
  rcases h with h | h
  · exact h
  · -- string keys are a permutation of `1..n` only when there are none
    cases kvs with
    | nil => rfl
    | cons e kvs =>
      obtain ⟨s, hk⟩ := h.1 e.1 (by simp)
      have hmem : e.1 ∈ seqKeys (e :: kvs).length := (List.isPerm_iff.1 hseq).subset (by simp)
      obtain ⟨i, hi, -⟩ := mem_seqKeys.1 hmem
      rw [hk] at hi
      cases hi

theorem map_lookup_keys {kvs : List (Key × Value)} (hn : (keys kvs).Nodup) :
    (keys kvs).map (fun k => (k, lookup k kvs)) = kvs := by
  rw [List.map_map]
  conv_rhs => rw [← List.map_id kvs]
  refine List.map_congr_left ?_
  rintro ⟨k, v⟩ h
  simp [lookup_of_mem hn h]

theorem foldl_insert_append {acc kvs : List (Key × Value)}
    (hs : ∀ k ∈ keys kvs, ∃ s, k = .str s) (hn : (keys (acc ++ kvs)).Nodup) :
    kvs.foldl (fun acc e => insert (.str e.1.text) e.2 acc) acc = acc ++ kvs := by
  induction kvs generalizing acc with
  | nil => simp
  | cons e kvs ih =>
    obtain ⟨k, v⟩ := e
    obtain ⟨s, rfl⟩ := hs k (by simp)
    have hnew : Key.str s ∉ keys acc := by
      intro hmem
      simp only [keys, List.map_append, List.map_cons, List.nodup_append] at hn
      exact hn.2.2 _ hmem _ (by simp) rfl
    have htext : (Key.str s).text = s := rfl
    simp only [List.foldl_cons, htext, insert_of_notMem hnew]
    rw [ih (fun k hk => hs k (by simp at hk ⊢; tauto)) (by simpa using hn)]
    simp

/-- A table of a decoder's shape is renumbered to itself. -/
theorem renumber_of_shape {kvs : List (Key × Value)} (h : Shape kvs) : renumber kvs = kvs := by
  have hn := h.nodup
  unfold renumber
  split
  · next hseq =>
    rw [← h.keys_of_isSeq hseq]
    exact map_lookup_keys hn
  · next hseq =>
    rcases h with h | h
    · exact absurd (List.isPerm_iff.2 (h ▸ List.Perm.refl _)) hseq
    · exact foldl_insert_append h.1 (by simpa using h.2)

/-- A table of a decoder's shape keeps its keys; only its values are reloaded. -/
theorem reload_table {kvs : List (Key × Value)} (h : Shape kvs) :
    (Value.table kvs).reload = .table (reloadKvs kvs) := by
  have hshape : Shape (reloadKvs kvs) := by simpa [Shape] using h
  simp [Value.reload, renumber_of_shape hshape]

theorem reload_get {kvs : List (Key × Value)} (h : Shape kvs) (k : Key) :
    (Value.table kvs).reload.get k = (lookup k kvs).reload := by
  rw [reload_table h, Value.get_table, lookup_reloadKvs]

mutual

theorem Value.Normal.reload_eq : ∀ {v : Value}, v.Normal → v.reload = v
  | .table kvs, h => by
    simp only [Value.Normal, Value.All] at h
    rw [reload_table h.1, reloadKvs_of_normal h.2]
  | .nil, _ | .bool _, _ | .num _, _ | .str _, _ => by simp [Value.reload]

theorem reloadKvs_of_normal :
    ∀ {kvs : List (Key × Value)}, AllKvs Shape kvs → reloadKvs kvs = kvs
  | [], _ => by simp [reloadKvs]
  | (k, v) :: kvs, h => by
    simp only [AllKvs] at h
    have hv : v.reload = v := Value.Normal.reload_eq h.1
    simp [reloadKvs, hv, reloadKvs_of_normal h.2]

end

/-! ## Loaded values are normal -/

theorem keys_foldl_insert (kvs acc : List (Key × Value))
    (hacc : (∀ k ∈ keys acc, ∃ s, k = .str s) ∧ (keys acc).Nodup) :
    (∀ k ∈ keys (kvs.foldl (fun acc e => insert (.str e.1.text) e.2 acc) acc), ∃ s, k = .str s) ∧
    (keys (kvs.foldl (fun acc e => insert (.str e.1.text) e.2 acc) acc)).Nodup := by
  induction kvs generalizing acc with
  | nil => exact hacc
  | cons e kvs ih =>
    refine ih _ ?_
    rw [keys_insert]
    split
    · exact hacc
    · next hnew =>
      refine ⟨fun k hk => ?_, List.nodup_append.2 ⟨hacc.2, by simp, ?_⟩⟩
      · rcases List.mem_append.1 hk with hk | hk
        · exact hacc.1 k hk
        · exact ⟨_, by simpa using hk⟩
      · rintro a ha b hb rfl
        exact hnew (by rwa [List.mem_singleton.1 hb] at ha)

theorem shape_renumber (kvs : List (Key × Value)) : Shape (renumber kvs) := by
  unfold renumber
  split
  · left
    simp [Function.comp_def]
  · exact Or.inr (keys_foldl_insert kvs [] (by simp))

theorem mem_foldl_insert {kvs acc : List (Key × Value)} {e : Key × Value}
    (h : e ∈ kvs.foldl (fun acc e => insert (.str e.1.text) e.2 acc) acc) :
    e ∈ acc ∨ ∃ e' ∈ kvs, e = (.str e'.1.text, e'.2) := by
  induction kvs generalizing acc with
  | nil => exact Or.inl h
  | cons e' kvs ih =>
    rcases ih h with h | ⟨e'', he, heq⟩
    · rcases mem_insert h with rfl | h
      · exact Or.inr ⟨e', by simp, rfl⟩
      · exact Or.inl h
    · exact Or.inr ⟨e'', by simp [he], heq⟩

/-- The entries of a renumbered table are entries of the table, up to their keys. -/
theorem mem_renumber {kvs : List (Key × Value)} {e : Key × Value} (h : e ∈ renumber kvs) :
    ∃ e' ∈ kvs, e.2 = e'.2 := by
  unfold renumber at h
  split at h
  · next hseq =>
    obtain ⟨k, hk, rfl⟩ := List.mem_map.1 h
    have hkeys : k ∈ keys kvs := (List.isPerm_iff.1 hseq).mem_iff.2 hk
    exact ⟨_, mem_of_mem_keys hkeys, rfl⟩
  · rcases mem_foldl_insert h with h | ⟨e', he', rfl⟩
    · simp at h
    · exact ⟨e', he', rfl⟩

theorem allKvs_renumber {P : List (Key × Value) → Prop} {kvs : List (Key × Value)}
    (h : AllKvs P kvs) : AllKvs P (renumber kvs) := by
  rw [allKvs_iff]
  intro e he
  obtain ⟨e', he', heq⟩ := mem_renumber he
  rw [heq]
  exact allKvs_iff.1 h e' he'

mutual

theorem reload_normal : ∀ v : Value, v.reload.Normal
  | .table kvs => by
    simp only [Value.reload, Value.Normal, Value.All]
    exact ⟨shape_renumber _, allKvs_renumber (reloadKvs_normal kvs)⟩
  | .nil | .bool _ | .num _ | .str _ => by simp [Value.reload, Value.Normal, Value.All]

theorem reloadKvs_normal : ∀ kvs : List (Key × Value), AllKvs Shape (reloadKvs kvs)
  | [] => by simp [reloadKvs, AllKvs]
  | (_, v) :: kvs => by
    simp only [reloadKvs, AllKvs]
    exact ⟨reload_normal v, reloadKvs_normal kvs⟩

end

/-- What a decoder can return. -/
def Json := { v : Value // v.Normal }

/-- A value, saved and loaded. -/
def encode (v : Value) : Json := ⟨v.reload, reload_normal v⟩

/-! ## Values without repeated keys -/

/-- No table in the value has a key twice. -/
def Value.Distinct (v : Value) : Prop := v.All fun kvs => (keys kvs).Nodup

theorem Value.Normal.distinct {v : Value} (h : v.Normal) : v.Distinct :=
  Value.All.mono (fun _ => Shape.nodup) h

theorem nodup_store {k : Key} {v : Value} {kvs : List (Key × Value)} (h : (keys kvs).Nodup) :
    (keys (store k v kvs)).Nodup := by
  unfold store
  split
  · exact h.sublist (List.filter_sublist.map _)
  · rw [keys_insert]
    split
    · exact h
    · next hnew =>
      refine List.nodup_append.2 ⟨h, by simp, ?_⟩
      rintro a ha b hb rfl
      exact hnew (by rwa [List.mem_singleton.1 hb] at ha)

theorem Value.assign?_distinct {p : List Key} {t t' v : Value} (ht : t.Distinct) (hv : v.Distinct)
    (h : t.assign? p v = some t') : t'.Distinct := by
  induction p generalizing t t' with
  | nil =>
    cases h
    exact hv
  | cons k ks ih =>
    obtain ⟨kvs, c, rfl, hc, rfl⟩ := Value.assign?_cons h
    simp only [Value.Distinct, Value.All] at ht ⊢
    exact ⟨nodup_store ht.1, ht.2.store (ih (ht.2.lookup k) hc)⟩

/-- A text that is no integer's: a field name, as opposed to an index. -/
def isField (f : String) : Bool := f.toList.any fun c => !c.isDigit && c ≠ '-'

theorem toString_ne_of_isField {f : String} (hf : isField f) (n : Int) : toString n ≠ f := by
  rintro rfl
  obtain ⟨c, hc, hbad⟩ := List.any_eq_true.1 hf
  simp only [Bool.and_eq_true, Bool.not_eq_true', decide_eq_true_eq] at hbad
  have hnat : ∀ m : Nat, c ∈ (toString m).toList → c.isDigit := by
    intro m hm
    rw [Nat.toString_eq_ofList_toDigits, String.toList_ofList] at hm
    exact Nat.isDigit_of_mem_toDigits (by decide) (by decide) hm
  cases n with
  | ofNat m => simp [hnat m hc] at hbad
  | negSucc m =>
    have hc' : c ∈ ("-" ++ toString (m + 1)).toList := hc
    rw [String.toList_append, List.mem_append] at hc'
    rcases hc' with h | h
    · exact hbad.2 (by simpa using h)
    · simp [hnat _ h] at hbad

theorem lookup_foldl_insert {f : String} (hf : isField f) {kvs : List (Key × Value)}
    (hn : (keys kvs).Nodup) (acc : List (Key × Value)) :
    lookup (.str f) (kvs.foldl (fun acc e => insert (.str e.1.text) e.2 acc) acc) =
      if .str f ∈ keys kvs then lookup (.str f) kvs else lookup (.str f) acc := by
  induction kvs generalizing acc with
  | nil => simp
  | cons e kvs ih =>
    obtain ⟨k, v⟩ := e
    simp only [keys, List.map_cons, List.nodup_cons] at hn
    rw [List.foldl_cons, ih hn.2]
    by_cases hk : k = .str f
    · subst hk
      have htext : (Key.str f).text = f := rfl
      rw [if_neg hn.1]
      simp [lookup, htext]
    · have htext : Key.str f ≠ .str k.text := by
        intro h
        cases k with
        | num n => exact toString_ne_of_isField hf n (Key.str.inj h).symm
        | str s => exact hk h.symm
      have hmem : Key.str f ∈ keys ((k, v) :: kvs) ↔ Key.str f ∈ keys kvs := by
        simp [keys, Ne.symm hk]
      rw [lookup_insert_ne htext, if_congr hmem rfl rfl]
      simp [lookup, hk]

theorem lookup_renumber_field {f : String} (hf : isField f) {kvs : List (Key × Value)}
    (hn : (keys kvs).Nodup) : lookup (.str f) (renumber kvs) = lookup (.str f) kvs := by
  unfold renumber
  split
  · next hseq =>
    have hperm : (keys kvs).Perm (seqKeys kvs.length) := List.isPerm_iff.1 hseq
    have hnot : Key.str f ∉ seqKeys kvs.length := by
      intro h
      obtain ⟨i, hi, -⟩ := mem_seqKeys.1 h
      cases hi
    rw [lookup_eq_nil_of_notMem (fun h => hnot (hperm.subset h)),
      lookup_eq_nil_of_notMem (by simpa [Function.comp_def] using hnot)]
  · rw [lookup_foldl_insert hf hn]
    split
    · rfl
    · next hnot => rw [lookup_eq_nil_of_notMem hnot, lookup]

/-- A field is found again. -/
theorem reload_get_field {f : String} (hf : isField f) {v : Value} (hv : v.Distinct) :
    v.reload.get f = (v.get f).reload := by
  cases v with
  | table kvs =>
    simp only [Value.Distinct, Value.All] at hv
    have hn : (keys (reloadKvs kvs)).Nodup := by simpa using hv.1
    simp only [Value.reload, Value.get_table]
    rw [lookup_renumber_field hf hn, lookup_reloadKvs]
  | nil | bool | num | str => simp [Value.get, Value.reload]

/-- An array comes back as an array of the same length, in order. -/
theorem reload_array {kvs : List (Key × Value)} (h : isSeq kvs) :
    (Value.table kvs).reload =
      .table ((seqKeys kvs.length).map fun k => (k, (lookup k kvs).reload)) := by
  simp [Value.reload, renumber, h, lookup_reloadKvs]

theorem lookup_map_self {ks : List Key} {k : Key} (hk : k ∈ ks) (g : Key → Value) :
    lookup k (ks.map fun k => (k, g k)) = g k := by
  induction ks with
  | nil => simp at hk
  | cons l ks ih =>
    by_cases hl : l = k
    · simp [lookup, hl]
    · simpa [lookup, hl] using ih ((List.mem_cons.1 hk).resolve_left (Ne.symm hl))

/-- Every entry of a reloaded table is one of the table's, under a key computed
from the old one; so distinct entries come from distinct entries. -/
theorem reload_source {kvs : List (Key × Value)} (hn : (keys kvs).Nodup) :
    ∃ f : Key → Key, ∀ k, (Value.table kvs).reload.get k ≠ .nil →
      ∃ l, k = f l ∧ (Value.table kvs).reload.get k = (lookup l kvs).reload := by
  by_cases hs : isSeq kvs
  · refine ⟨id, fun k hk => ⟨k, rfl, ?_⟩⟩
    rw [reload_array hs] at hk ⊢
    have hmem : k ∈ seqKeys kvs.length := by
      have := List.mem_map_of_mem (f := Prod.fst) (mem_of_lookup_ne_nil hk)
      simpa [Function.comp_def] using this
    exact lookup_map_self hmem fun k => (lookup k kvs).reload
  · refine ⟨fun k => .str k.text, fun k hk => ?_⟩
    simp only [Value.reload, renumber, isSeq_reloadKvs, if_neg hs, Value.get_table] at hk ⊢
    have hmem := mem_of_lookup_ne_nil hk
    generalize lookup k _ = v at hmem ⊢
    rcases mem_foldl_insert hmem with hmem | ⟨⟨l, u⟩, hl, heq⟩
    · simp at hmem
    · cases heq
      refine ⟨l, rfl, ?_⟩
      rw [← lookup_reloadKvs]
      exact (lookup_of_mem (by simpa using hn) hl).symm

theorem foldl_insert_ne_nil {kvs acc : List (Key × Value)} (h : kvs ≠ [] ∨ acc ≠ []) :
    kvs.foldl (fun acc e => insert (.str e.1.text) e.2 acc) acc ≠ [] := by
  induction kvs generalizing acc with
  | nil => simpa using h
  | cons e kvs ih =>
    exact ih (Or.inr (insert_ne_nil _ _ _))

/-- A table that is no array does not come back as one. -/
theorem not_isSeq_renumber {kvs : List (Key × Value)} (h : isSeq kvs = false) :
    isSeq (renumber kvs) = false := by
  have hne : kvs ≠ [] := by
    rintro rfl
    exact absurd h (by decide)
  have hkeys := (keys_foldl_insert kvs [] (by simp)).1
  have hnil : kvs.foldl (fun acc e => insert (.str e.1.text) e.2 acc) [] ≠ [] :=
    foldl_insert_ne_nil (Or.inl hne)
  rw [renumber, if_neg (by simp [h])]
  generalize kvs.foldl (fun acc e => insert (.str e.1.text) e.2 acc) [] = l at hkeys hnil
  cases l with
  | nil => exact absurd rfl hnil
  | cons e l =>
    obtain ⟨s, hs⟩ := hkeys e.1 (by simp)
    rw [← Bool.not_eq_true]
    intro hseq
    have hmem : e.1 ∈ seqKeys (e :: l).length := (List.isPerm_iff.1 hseq).subset (by simp)
    obtain ⟨i, hi, -⟩ := mem_seqKeys.1 hmem
    rw [hs] at hi
    cases hi

/-- An array whose entries read the same after a save and a load does so as a
whole. -/
theorem readArray?_reload {α : Type} {f : Value → Option α} {v : Value}
    (hf : ∀ k, f (v.get k).reload = f (v.get k)) : readArray? f v.reload = readArray? f v := by
  cases v with
  | table kvs =>
    by_cases hs : isSeq kvs
    · have hkeys : keys ((seqKeys kvs.length).map fun k => (k, (lookup k kvs).reload)) =
          seqKeys kvs.length := by simp [Function.comp_def]
      have hseq : isSeq ((seqKeys kvs.length).map fun k => (k, (lookup k kvs).reload)) := by
        rw [isSeq, hkeys, List.length_map, length_seqKeys]
        exact List.isPerm_iff.2 (List.Perm.refl _)
      rw [reload_array hs, readArray?, readArray?, if_pos hseq, if_pos hs, List.length_map,
        length_seqKeys]
      refine mapM_congr_left fun k hk => ?_
      rw [lookup_map_self hk fun k => (lookup k kvs).reload]
      exact hf k
    · have hs : isSeq kvs = false := by simpa using hs
      have hs' : isSeq (renumber (reloadKvs kvs)) = false := not_isSeq_renumber (by simpa using hs)
      simp [Value.reload, readArray?, hs, hs']
  | nil | bool | num | str => simp [Value.reload]

end NsBoot.Lua
