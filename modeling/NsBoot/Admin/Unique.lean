import NsBoot.Admin.Pages

/-!
# NsBoot.Admin.Unique — addresses and MACs of live workstations

A boot request is answered for the workstation with the sender's address, and
every resource of a workstation is named by its `vid`, the letters and digits of
its MAC. Nothing in `ApplyMy` looks at either: a posted record may repeat both
(`post_repeats`).

As long as the posted records do not repeat what another live record has, live
records stay distinct in both (`live_records_separated`), so that an address
names one workstation and no two workstations share a resource (`Separated`).
-/

namespace NsBoot

open Lua Prog Relation Run

/-- The `vid` of a record. -/
def vidOf (v : Value) : Option String := (v.get "mac").str?.map alnum

/-- The two records share an address or a `vid`. -/
def Clash (u v : Value) : Prop :=
  (∃ a, u.get "ipv4" = .str a ∧ v.get "ipv4" = .str a) ∨ ∃ x, vidOf u = some x ∧ vidOf v = some x

/-- No two live records clash. -/
def LiveDistinct (c : Value) : Prop :=
  ∀ k l, Live c k → Live c l → Clash ((wksOf c).get k) ((wksOf c).get l) → k = l

/-- The posted record, if there is one, clashes with no live record but the one
it replaces. -/
def PostsNew (w : World) (p : Post) : Prop :=
  p.wksCmd = some "ApplyMy" → ∀ d tid m, p.jsondata = some (some d) → p.tid? = some tid →
    tid.tonumber = some m → ∀ k, k ≠ .num m → Live w.file.val k →
      ¬ Clash (d.val.get "WKS") ((wksOf w.file.val).get k)

/-! ## One request -/

/-- The fields this is about. -/
def identity (v : Value) : Value × Value × Value := (v.get "empty", v.get "mac", v.get "ipv4")

theorem Clash.congr {u v u' v' : Value} (hu : identity u' = identity u)
    (hv : identity v' = identity v) (h : Clash u' v') : Clash u v := by
  simp only [identity, Prod.mk.injEq] at hu hv
  unfold Clash vidOf at h ⊢
  rwa [hu.2.1, hu.2.2, hv.2.1, hv.2.2] at h

theorem Clash.symm {u v : Value} (h : Clash u v) : Clash v u := by
  rcases h with ⟨a, hu, hv⟩ | ⟨x, hu, hv⟩
  · exact Or.inl ⟨a, hv, hu⟩
  · exact Or.inr ⟨x, hv, hu⟩

theorem FlagStep.identity {x : String} {v v' : Value} (h : FlagStep x v v') :
    identity v' = identity v := by
  simp only [NsBoot.identity, h.get_ne (show Key.str "empty" ≠ _ by decide) (by decide),
    h.get_ne (show Key.str "mac" ≠ _ by decide) (by decide),
    h.get_ne (show Key.str "ipv4" ≠ _ by decide) (by decide)]

theorem NbdStep.identity {v v' : Value} (h : NbdStep v v') : identity v' = identity v := by
  simp only [NsBoot.identity, h.get_ne (show Key.str "empty" ≠ _ by decide),
    h.get_ne (show Key.str "mac" ≠ _ by decide), h.get_ne (show Key.str "ipv4" ≠ _ by decide)]

/-- The super-mode handlers leave the identity of every record alone. -/
theorem SuperEdits.identity {p : Post} {c c' : Value} (h : SuperEdits p c c') (k : Key) :
    identity ((wksOf c').get k) = identity ((wksOf c).get k) ∧
      ((wksOf c').get k = .nil ↔ (wksOf c).get k = .nil) :=
  ⟨h.same (fun _ _ _ => FlagStep.identity) (fun _ _ => NbdStep.identity) k, h.eq_nil_iff k⟩

/-- Two configurations whose records have the same identities. -/
def SameIdentity (c c' : Value) : Prop :=
  ∀ k, identity ((wksOf c').get k) = identity ((wksOf c).get k) ∧
    ((wksOf c').get k = .nil ↔ (wksOf c).get k = .nil)

theorem SameIdentity.live {c c' : Value} (h : SameIdentity c c') {k : Key} (hk : Live c' k) :
    Live c k := by
  obtain ⟨hid, hnil⟩ := h k
  have hempty : ((wksOf c').get k).get "empty" = ((wksOf c).get k).get "empty" :=
    congrArg Prod.fst hid
  exact ⟨fun hc => hk.1 (hnil.2 hc), hempty ▸ hk.2⟩

theorem LiveDistinct.congr {c c' : Value} (h : LiveDistinct c) (hs : SameIdentity c c') :
    LiveDistinct c' :=
  fun k l hk hl hclash => h k l (hs.live hk) (hs.live hl) (hclash.congr (hs k).1 (hs l).1)

theorem Put.live_ne {k l : Key} {v c c' : Value} (h : Put k v c c') (hl : l ≠ k)
    (hlive : Live c' l) : Live c l := by
  unfold Live at hlive ⊢
  rwa [← h.get_ne hl]

/-- Replacing a record by one that clashes with no other. -/
theorem LiveDistinct.put {k : Key} {v c c' : Value} (h : LiveDistinct c) (hput : Put k v c c')
    (hv : v.get "empty" ≠ .str "true" → ∀ l, l ≠ k → Live c l → ¬ Clash v ((wksOf c).get l)) :
    LiveDistinct c' := by
  -- the new record against another one
  have hnew {l : Key} (hl : l ≠ k) (hk : Live c' k) (hlive : Live c' l)
      (hclash : Clash ((wksOf c').get k) ((wksOf c').get l)) : False := by
    obtain ⟨-, hempty⟩ := hk
    rw [hput.get_self] at hclash hempty
    rw [hput.get_ne hl] at hclash
    exact hv hempty l hl (hput.live_ne hl hlive) hclash
  intro a b ha hb hclash
  by_cases hak : a = k
  · by_cases hbk : b = k
    · rw [hak, hbk]
    · subst hak
      exact absurd hclash (hnew hbk ha hb)
  · by_cases hbk : b = k
    · subst hbk
      exact absurd hclash.symm (hnew hak hb ha)
    · rw [hput.get_ne hak, hput.get_ne hbk] at hclash
      exact h a b (hput.live_ne hak ha) (hput.live_ne hbk hb) hclash

theorem Tame.identity_reload {v : Value} (h : Tame v) : identity v.reload = identity v := by
  simp only [identity, h.get_reload (f := "empty") rfl (by decide),
    h.get_reload (f := "mac") rfl (by decide), h.get_reload (f := "ipv4") rfl (by decide)]

/-- Saved and loaded, records do not clash either, whatever their keys became. -/
theorem LiveDistinct.reload {c : Value} (h : LiveDistinct c) (hc : InMemory c) :
    LiveDistinct c.reload := by
  obtain ⟨f, hf⟩ := hc.record_source
  have hlive {k l : Key} (hk : Live c.reload k)
      (heq : (wksOf c.reload).get k = ((wksOf c).get l).reload) : Live c l := by
    obtain ⟨hne, hempty⟩ := hk
    rw [heq] at hne hempty
    rw [(hc.records l).get_reload rfl (by decide)] at hempty
    exact ⟨fun hnil => hne (reload_eq_nil.2 hnil), hempty⟩
  intro k₁ k₂ hk₁ hk₂ hclash
  obtain ⟨l₁, rfl, h₁⟩ := hf k₁ hk₁.1
  obtain ⟨l₂, rfl, h₂⟩ := hf k₂ hk₂.1
  rw [h₁, h₂] at hclash
  rw [h l₁ l₂ (hlive hk₁ h₁) (hlive hk₂ h₂)
    (hclash.congr (hc.records l₁).identity_reload (hc.records l₂).identity_reload)]

theorem LiveDistinct.post {p : Post} {w : World} (hw : InMemory w.file.val)
    (h : LiveDistinct w.file.val) (hp : PostsNew w p) :
    LiveDistinct (exec (post p) w).final.file.val := by
  rcases post_file hw with heq | ⟨c, hedit, hmem, heq⟩
  · rwa [heq]
  rw [heq]
  refine LiveDistinct.reload ?_ hmem
  obtain ⟨c₁, hsuper, hrec⟩ := hedit
  have hsame : SameIdentity w.file.val c₁ := SuperEdits.identity hsuper
  have h₁ := h.congr hsame
  rcases hrec with rfl | hrec
  · exact h₁
  cases hrec with
  | @apply tid d m hcmd hdata htid _ hm hput =>
    refine h₁.put hput fun _ l hl hlive hclash => ?_
    exact hp hcmd d tid m hdata (Post.tid?_eq hdata htid) hm l hl (hsame.live hlive)
      (hclash.congr rfl (hsame l).1)
  | delete _ _ _ _ _ _ _ hput => exact h₁.put hput fun hempty => absurd rfl hempty

/-! ## What distinct records have apart -/

/-- A name that ends in a `vid`, after a character no `vid` has. -/
theorem append_vid_inj {a b u v : List Char} {x y : Char} (hx : x.isAlphanum = false)
    (hy : y.isAlphanum = false) (hu : ∀ z ∈ u, z.isAlphanum) (hv : ∀ z ∈ v, z.isAlphanum)
    (h : a ++ x :: u = b ++ y :: v) : u = v := by
  -- the longest end of such a name that has letters and digits only is the `vid`
  have hend {c t : List Char} {z : Char} (hz : z.isAlphanum = false) (ht : ∀ i ∈ t, i.isAlphanum) :
      (c ++ z :: t).reverse.takeWhile Char.isAlphanum = t.reverse := by
    rw [List.reverse_append, List.reverse_cons, List.append_assoc,
      List.takeWhile_append_of_pos (by simpa using ht)]
    simp [hz]
  have hrev := congrArg (fun l => l.reverse.takeWhile Char.isAlphanum) h
  simp only [hend hx hu, hend hy hv] at hrev
  exact List.reverse_injective hrev

theorem vid_isAlphanum (r : Wks) : ∀ z ∈ r.vid.toList, z.isAlphanum := by
  simp [Wks.vid, alnum]

/-- The text ends in a character no `vid` has. -/
def EndsOutside (t : String) : Prop := ∃ cs x, t.toList = cs ++ [x] ∧ x.isAlphanum = false

theorem vid_eq_of_append {r r' : Wks} {a b t u : String} (ht : EndsOutside t) (hu : EndsOutside u)
    (h : a ++ t ++ r.vid = b ++ u ++ r'.vid) : r.vid = r'.vid := by
  obtain ⟨cs, x, hcs, hx⟩ := ht
  obtain ⟨ds, y, hds, hy⟩ := hu
  have hlist := congrArg String.toList h
  simp only [String.toList_append, hcs, hds] at hlist
  refine String.toList_injective
    (append_vid_inj (a := a.toList ++ cs) (b := b.toList ++ ds) hx hy (vid_isAlphanum r)
      (vid_isAlphanum r') ?_)
  simpa using hlist

/-- No target, snapshot or mount point of the two is the same, and with a prefix that
ends outside the `vid` no child either. -/
structure Apart (s : Server) (r r' : Wks) : Prop where
  target : targetName s r.vid ≠ targetName s r'.vid
  mount : zpoint s r.vid ≠ zpoint s r'.vid
  dataset : s.dpoint ++ r.vid ≠ s.dpoint ++ r'.vid
  volume : ∀ p q, snapZvol s r.vid p ≠ snapZvol s r'.vid q
  child : EndsOutside s.imagePrefix → ∀ p q, childName s p r.vid ≠ childName s q r'.vid

theorem apart_of_vid_ne {s : Server} {r r' : Wks} (h : r.vid ≠ r'.vid) : Apart s r r' where
  target heq := h (by simpa [targetName] using heq)
  mount heq := h (by simpa [zpoint] using heq)
  dataset heq := h (by simpa using heq)
  volume p q heq :=
    h (vid_eq_of_append (t := "_") (u := "_") ⟨[], '_', rfl, rfl⟩ ⟨[], '_', rfl, rfl⟩ heq)
  child hs p q heq := h (vid_eq_of_append hs hs heq)

theorem vidOf_of? {v : Value} {r : Wks} (h : Wks.of? v = some r) : vidOf v = some r.vid := by
  simp only [Wks.of?, Option.bind_eq_bind, Option.bind_eq_some_iff, Option.pure_def,
    Option.some.injEq] at h
  obtain ⟨x, hx, mac, hmac, _, -, rfl⟩ := h
  rw [vidOf, at?_one hx, hmac]
  rfl

/-- What distinct records are for: an address names one workstation, and no two
workstations share a resource. -/
structure Separated (c : Value) : Prop where
  distinct : LiveDistinct c
  address : ∀ ip k l, getIDFromIPv4 c (.str ip) = some (some k) → Live c k → Live c l →
    ((wksOf c).get l).get "ipv4" = .str ip → l = k
  apart : ∀ s k l r r', Server.of? c = some s → Live c k → Live c l → k ≠ l →
    Wks.of? ((wksOf c).get k) = some r → Wks.of? ((wksOf c).get l) = some r' → Apart s r r'

theorem LiveDistinct.separated {c : Value} (hc : InMemory c) (h : LiveDistinct c) :
    Separated c where
  distinct := h
  address ip k l hfind hk hl hip :=
    h l k hl hk (Or.inl ⟨ip, hip, getIDFromIPv4_get hc hfind⟩)
  apart s k l r r' _ hk hl hne hr hr' := by
    refine apart_of_vid_ne fun heq => hne (h k l hk hl (Or.inr ⟨r.vid, vidOf_of? hr, ?_⟩))
    rw [vidOf_of? hr', heq]

/-! ## Runs -/

/-- **Live workstations stay separated** in every run in which no posted record
repeats the address or the `vid` of another live one. -/
theorem live_records_separated {w : World} (hw : ∃ kvs, wksOf w.file.val = .table kvs)
    (h : LiveDistinct w.file.val) {ps : List Post} (hps : Along handle PostsNew w ps) :
    Separated (run handle w ps).file.val := by
  obtain ⟨kvs, hkvs⟩ := hw
  have hI := hps.invariant (I := fun w => InMemory w.file.val ∧ LiveDistinct w.file.val)
    (fun w p hI hp => ⟨hI.1.post, hI.2.post hI.1 hp⟩) ⟨.of_json hkvs, h⟩
  exact hI.2.separated hI.1

/-! ## Repeating a record -/

/-- A new machine with the address of the first one, and its MAC written with
other separators. -/
def repeated : Post := savedAs "3" "b4-2e-99-2c-dd-df" "192.168.0.4"

theorem liveDistinct_of_keys {n : Nat} {c : Value} (h : HasKeys n c)
    (hd : ∀ k ∈ seqKeys n, ∀ l ∈ seqKeys n, k ≠ l →
      ((wksOf c).get k).get "ipv4" ≠ ((wksOf c).get l).get "ipv4" ∧
      vidOf ((wksOf c).get k) ≠ vidOf ((wksOf c).get l)) : LiveDistinct c := by
  intro k l hk hl hclash
  by_contra hne
  obtain ⟨hip, hvid⟩ := hd k (h.mem_of_get hk.1) l (h.mem_of_get hl.1) hne
  rcases hclash with ⟨a, ha, hb⟩ | ⟨x, hx, hy⟩
  · exact hip (ha.trans hb.symm)
  · exact hvid (hx.trans hy.symm)

theorem office_distinct : LiveDistinct office.file.val :=
  liveDistinct_of_keys office_wellFormed.keys (by decide +kernel)

/-- After it two live workstations have one address and one `vid`. -/
theorem post_repeats : LiveDistinct office.file.val ∧
    (exec (post repeated) office).isOk ∧ Live (handle office repeated).file.val (.num 1) ∧
    Live (handle office repeated).file.val (.num 3) ∧
    ((wksOf (handle office repeated).file.val).get (.num 1)).get "ipv4" =
      ((wksOf (handle office repeated).file.val).get (.num 3)).get "ipv4" ∧
    vidOf ((wksOf (handle office repeated).file.val).get (.num 1)) = some "b42e992cdddf" ∧
    vidOf ((wksOf (handle office repeated).file.val).get (.num 3)) = some "b42e992cdddf" :=
  ⟨office_distinct, by decide +kernel, by decide +kernel, by decide +kernel, by decide +kernel,
    by decide +kernel, by decide +kernel⟩

theorem PostsNew.of_keys {n : Nat} {w : World} {p : Post} {d : Json} (h : HasKeys n w.file.val)
    (hdata : p.jsondata = some (some d))
    (hd : ∀ k ∈ seqKeys n, (d.val.get "WKS").get "ipv4" ≠ ((wksOf w.file.val).get k).get "ipv4" ∧
      vidOf (d.val.get "WKS") ≠ vidOf ((wksOf w.file.val).get k)) : PostsNew w p := by
  intro _ d' _ _ hdata' _ _ k _ hk hclash
  rw [hdata] at hdata'
  cases hdata'
  obtain ⟨hip, hvid⟩ := hd k (h.mem_of_get hk.1)
  rcases hclash with ⟨a, ha, hb⟩ | ⟨x, hx, hy⟩
  · exact hip (ha.trans hb.symm)
  · exact hvid (hx.trans hy.symm)

/-- A machine with an address and a MAC of its own is added, another is deleted. -/
theorem office_separated : Separated (run handle office
    [savedAs "3" "b4:2e:99:2c:dd:01" "192.168.0.5", deletePost "1"]).file.val := by
  refine live_records_separated ⟨_, rfl⟩ office_distinct ⟨?_, ?_, trivial⟩
  · exact .of_keys office_wellFormed.keys rfl (by decide +kernel)
  · exact fun hcmd => absurd hcmd (by decide)

end NsBoot
