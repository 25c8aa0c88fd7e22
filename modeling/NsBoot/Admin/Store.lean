import NsBoot.Admin.Edits

/-!
# NsBoot.Admin.Store — the configuration from one request to the next

A request loads the configuration, edits it in memory and saves it; the next one
loads what the decoder makes of the saved text. This file follows settings and
records through both.

* `InMemory`: what edits keep, and enough for settings and records to read the
  same after a save and a load.
* `InMemory.record_source`: every record of the reloaded table is one of the
  saved table, whatever became of the keys.
* `HasKeys n`: the keys are `1..n`, in which case they are found again.
-/

namespace NsBoot

open Lua Prog Relation

/-- A configuration in the memory of a request: loaded, then edited. -/
structure InMemory (c : Value) : Prop where
  top : ∃ top, c = .table top ∧ Shape top
  wks : ∃ kvs, wksOf c = .table kvs ∧ (keys kvs).Nodup
  settings : ∀ f, f ≠ .str "wks" → (c.get f).Normal
  records : ∀ k, Tame ((wksOf c).get k)

theorem InMemory.of_json {d : Json} {kvs : List (Key × Value)} (h : wksOf d.val = .table kvs) :
    InMemory d.val := by
  obtain ⟨c, hc⟩ := d
  have hwks : (wksOf c).Normal := Value.All.get hc "wks"
  cases c with
  | table top =>
    simp only at h
    have hkvs := hwks
    rw [h] at hkvs
    simp only [Value.Normal, Value.All] at hc hkvs
    refine ⟨⟨top, rfl, hc.1⟩, ⟨kvs, h, hkvs.1.nodup⟩, fun f _ => hc.2.lookup f, fun k => ?_⟩
    exact .of_normal (Value.All.get hwks k)
  | nil | bool | num | str => simp [wksOf, Value.get] at h

/-! ## Edits -/

theorem shape_of_keys {kvs kvs' : List (Key × Value)} (hk : keys kvs' = keys kvs) (h : Shape kvs) :
    Shape kvs' := by
  have hlen : kvs'.length = kvs.length := by simpa using congrArg List.length hk
  unfold Shape at h ⊢
  rwa [hk, hlen]

theorem InMemory.put {k : Key} {v c c' : Value} (h : InMemory c) (hput : Put k v c c')
    (hv : Tame v) : InMemory c' := by
  obtain ⟨top, kvs, rfl, hkvs, rfl⟩ := hput.tables
  obtain ⟨_, ⟨rfl⟩, hshape⟩ := h.top
  obtain ⟨kvs', hkvs', hnodup⟩ := h.wks
  rw [hkvs, Value.table.injEq] at hkvs'
  subst hkvs'
  have hmem : Key.str "wks" ∈ keys top := by
    have hne : lookup "wks" top ≠ .nil := by
      have : lookup "wks" top = .table kvs := hkvs
      simp [this]
    exact List.mem_map_of_mem (f := Prod.fst) (mem_of_lookup_ne_nil hne)
  refine ⟨⟨_, rfl, shape_of_keys (keys_store_of_mem hmem (by simp)) hshape⟩,
    ⟨store k v kvs, by simp [wksOf], nodup_store hnodup⟩, fun f hf => ?_, fun l => ?_⟩
  · have := h.settings f hf
    simpa [hf] using this
  · by_cases hl : l = k
    · subst hl
      rwa [hput.get_self]
    · rw [hput.get_ne hl]
      exact h.records l

theorem tame_of_steps {S : Value → Value → Prop} (hS : ∀ v v', S v v' → Tame v → Tame v')
    {v v' : Value} (h : ReflTransGen S v v') (hv : Tame v) : Tame v' := by
  induction h with
  | refl => exact hv
  | tail _ hstep ih => exact hS _ _ hstep ih

theorem Puts.inMemory {S : Value → Value → Prop} (hS : ∀ v v', S v v' → Tame v → Tame v') {k : Key}
    {c c' : Value} (h : Puts S k c c') (hc : InMemory c) : InMemory c' := by
  obtain ⟨v, hv, -, hput⟩ := h
  exact hc.put hput (tame_of_steps hS hv (hc.records _))

theorem SuperEdit.inMemory {p : Post} {c c' : Value} (h : SuperEdit p c c') (hc : InMemory c) :
    InMemory c' := by
  cases h with
  | flags _ _ _ h => exact h.inMemory (fun _ _ => FlagStep.tame) hc
  | nbd _ _ _ _ _ h => exact h.inMemory (fun _ _ => NbdStep.tame) hc

theorem SuperEdits.inMemory {p : Post} {c c' : Value} (h : SuperEdits p c c') (hc : InMemory c) :
    InMemory c' := by
  induction h with
  | refl => exact hc
  | tail _ hstep ih => exact hstep.inMemory ih

theorem tombstone_normal : tombstone.Normal := by
  simp [tombstone, Value.Normal, Value.All, AllKvs, Shape]

theorem RecordEdit.inMemory {p : Post} {c c' : Value} (h : RecordEdit p c c') (hc : InMemory c) :
    InMemory c' := by
  cases h with
  | @apply _ d _ _ _ _ _ _ hput => exact hc.put hput (.of_normal (Value.All.get d.property "WKS"))
  | delete _ _ _ _ _ _ _ hput => exact hc.put hput (.of_normal tombstone_normal)

theorem Edited.inMemory {p : Post} {c c' : Value} (h : Edited p c c') (hc : InMemory c) :
    InMemory c' := by
  obtain ⟨c₁, hsuper, rfl | hrec⟩ := h
  · exact SuperEdits.inMemory hsuper hc
  · exact hrec.inMemory (SuperEdits.inMemory hsuper hc)

/-! ## Saved and loaded -/

section Reload

variable {c : Value} (h : InMemory c)

include h

theorem InMemory.wksOf_reload : wksOf c.reload = (wksOf c).reload := by
  obtain ⟨top, rfl, hshape⟩ := h.top
  exact reload_get hshape "wks"

theorem InMemory.sameSettings_reload : SameSettings c c.reload := by
  obtain ⟨kvs, hkvs, -⟩ := h.wks
  have hwks := h.wksOf_reload
  obtain ⟨top, rfl, hshape⟩ := h.top
  refine ⟨⟨top, rfl⟩, ⟨_, reload_table hshape⟩, fun f hf => ?_, by simp [hkvs], ?_⟩
  · rw [reload_get hshape]
    exact (h.settings f hf).reload_eq
  · rw [hwks, hkvs]
    simp [Value.reload]

/-- The records of the reloaded table are records of the saved one; `f` says
under which key a record comes back. -/
theorem InMemory.record_source : ∃ f : Key → Key, ∀ k, (wksOf c.reload).get k ≠ .nil →
    ∃ l, k = f l ∧ (wksOf c.reload).get k = ((wksOf c).get l).reload := by
  obtain ⟨kvs, hkvs, hnodup⟩ := h.wks
  rw [h.wksOf_reload, hkvs]
  exact reload_source hnodup

end Reload

/-! ## Whole requests -/

/-- A request, run alone. -/
def handle (w : World) (p : Post) : World := (exec (post p) w).final

/-- The file after a request is the one before it, or the image of what the request
made of that in memory. -/
theorem post_file {p : Post} {w : World} (h : InMemory w.file.val) :
    (exec (post p) w).final.file = w.file ∨ ∃ c, Edited p w.file.val c ∧ InMemory c ∧
      (exec (post p) w).final.file.val = c.reload := by
  rcases post_saved p w with hsame | ⟨c, hedit, -, hfile⟩
  · exact Or.inl hsame
  · exact Or.inr ⟨c, hedit, hedit.inMemory h, congrArg Subtype.val hfile⟩

theorem InMemory.post {p : Post} {w : World} (h : InMemory w.file.val) :
    InMemory (exec (post p) w).final.file.val := by
  rcases post_file (p := p) h with hsame | ⟨c, -, hc, hfile⟩
  · rwa [hsame]
  · obtain ⟨kvs, hkvs, -⟩ := hc.wks
    have htable : wksOf (exec (NsBoot.post p) w).final.file.val =
        .table (renumber (reloadKvs kvs)) := by
      rw [hfile, hc.wksOf_reload, hkvs, Value.reload]
    exact .of_json htable

/-! ## Arrays of records -/

/-- A live record: there is one, and it is no tombstone. -/
def Live (c : Value) (k : Key) : Prop :=
  (wksOf c).get k ≠ .nil ∧ ((wksOf c).get k).get "empty" ≠ .str "true"

instance (c : Value) (k : Key) : Decidable (Live c k) := inferInstanceAs (Decidable (_ ∧ _))

/-- The keys of the table of workstations are `1..n`. -/
def HasKeys (n : Nat) (c : Value) : Prop := ∃ kvs, wksOf c = .table kvs ∧ keys kvs = seqKeys n

namespace HasKeys

variable {n : Nat} {c c' v : Value} {k : Key}

theorem inMemory {d : Json} (h : HasKeys n d.val) : InMemory d.val := by
  obtain ⟨kvs, hkvs, -⟩ := h
  exact .of_json hkvs

theorem unique {m : Nat} (h : HasKeys n c) (h' : HasKeys m c) : n = m := by
  obtain ⟨kvs, hkvs, hkeys⟩ := h
  obtain ⟨kvs', hkvs', hkeys'⟩ := h'
  rw [hkvs, Value.table.injEq] at hkvs'
  subst hkvs'
  rw [hkeys] at hkeys'
  simpa using congrArg List.length hkeys'

theorem get_eq_nil (h : HasKeys n c) (hk : k ∉ seqKeys n) : (wksOf c).get k = .nil := by
  obtain ⟨kvs, hkvs, hkeys⟩ := h
  rw [hkvs, Value.get_table]
  exact lookup_eq_nil_of_notMem (by rwa [hkeys])

theorem mem_of_get (h : HasKeys n c) (hk : (wksOf c).get k ≠ .nil) : k ∈ seqKeys n := by
  by_contra hn
  exact hk (h.get_eq_nil hn)

theorem put_mem (h : HasKeys n c) (hput : Put k v c c') (hv : v ≠ .nil) (hk : k ∈ seqKeys n) :
    HasKeys n c' := by
  obtain ⟨kvs, hkvs, hkeys⟩ := h
  obtain ⟨kvs', hkvs', hw⟩ := hput.wks
  rw [hkvs, Value.table.injEq] at hkvs'
  subst hkvs'
  exact ⟨_, hw, by rw [keys_store_of_mem (by rwa [hkeys]) hv, hkeys]⟩

theorem put_next (h : HasKeys n c) (hput : Put (.num ((n : Int) + 1)) v c c') (hv : v ≠ .nil) :
    HasKeys (n + 1) c' := by
  obtain ⟨kvs, hkvs, hkeys⟩ := h
  obtain ⟨kvs', hkvs', hw⟩ := hput.wks
  rw [hkvs, Value.table.injEq] at hkvs'
  subst hkvs'
  refine ⟨_, hw, ?_⟩
  have hnot : Key.num ((n : Int) + 1) ∉ seqKeys n := by
    intro hmem
    obtain ⟨i, hi, -, hle⟩ := mem_seqKeys.1 hmem
    cases hi
    omega
  rw [store, if_neg hv, keys_insert, hkeys, if_neg hnot, seqKeys_succ]

/-- Saved and loaded, every record is found under its key. -/
theorem get_reload (h : HasKeys n c) (hc : InMemory c) (k : Key) :
    (wksOf c.reload).get k = ((wksOf c).get k).reload := by
  obtain ⟨kvs, hkvs, hkeys⟩ := h
  have hlen : kvs.length = n := by simpa using congrArg List.length hkeys
  rw [hc.wksOf_reload, hkvs]
  exact reload_get (Or.inl (by rw [hkeys, hlen])) k

theorem reload (h : HasKeys n c) (hc : InMemory c) : HasKeys n c.reload := by
  obtain ⟨kvs, hkvs, hkeys⟩ := h
  have hlen : kvs.length = n := by simpa using congrArg List.length hkeys
  refine ⟨reloadKvs kvs, ?_, by rw [keys_reloadKvs, hkeys]⟩
  rw [hc.wksOf_reload, hkvs, reload_table (Or.inl (by rw [hkeys, hlen]))]

end HasKeys

end NsBoot
