import Mathlib.Data.List.Basic

/-!
# NsBoot.Lib.Conf — texts made of statements and blocks

The format many servers are configured in: a statement is a line of words that
ends in a semicolon, a block is a line of words with statements between braces.
Words are separated by white space; a quoted word may contain white space; `#`
starts a comment that ends with its line.

* `Reader`: reading such a text, character by character. It fails at a closing
  brace that closes nothing.
* `read?`: the statements of a whole text. A text that ends inside a statement or
  a block has none, so what is read has its braces in pairs.
* `Plain`: a text without the characters that end a statement, a block, a quoted
  word or a line; `Bare` and `Literal` are what else is asked of it where it stands
  bare and where it stands between quotes.
* `Reader.Leads`: what a reader can still come to; what it has read stays
  (`Reader.Leads.keeps`), so a quoted text with a backslash is never read as it is
  (`literal_of_leads`), and a bare word never has a `#` (`clear_of_read?`).
* `words`: the words of such a text, with `Reader.value` and `Reader.value_quoted`:
  how it is read.
-/

namespace NsBoot.Conf

inductive Word where
  | plain (s : String)
  | quoted (s : String)
deriving DecidableEq, Repr

inductive Stmt where
  | line (ws : List Word)
  | block (head : List Word) (body : List Stmt)

/-- What the reader is inside of: a word (of which there may be nothing yet), a
quoted word, a quoted word after a backslash, or a comment. -/
inductive Mode where
  | word (cs : List Char)
  | quote (cs : List Char)
  | escape (cs : List Char)
  | comment
deriving DecidableEq, Repr

/-- The words of the open statement, the statements before it in its block, and
the blocks around that, each with its head and what was before it. -/
structure Reader where
  mode : Mode
  head : List Word
  done : List Stmt
  outer : List (List Word × List Stmt)

/-- A word is finished, if there is one. -/
def push (ws : List Word) (cs : List Char) : List Word :=
  if cs = [] then ws else ws ++ [.plain (String.ofList cs)]

theorem push_append (us ws : List Word) (cs : List Char) :
    push (us ++ ws) cs = us ++ push ws cs := by
  unfold push
  split
  · rfl
  · rw [List.append_assoc]

namespace Reader

/-- Between two statements. -/
def between (done : List Stmt) (outer : List (List Word × List Stmt)) : Reader :=
  ⟨.word [], [], done, outer⟩

def close (r : Reader) : Option Reader :=
  match r.head, r.outer with
  | [], (head, done) :: outer => some (between (done ++ [.block head r.done]) outer)
  | _, _ => none

/-- A character that is not inside quotes or a comment, after the words before it. -/
def special (r : Reader) (c : Char) : Option Reader :=
  match c with
  | ';' => some (between (r.done ++ [.line r.head]) r.outer)
  | '\x7b' => some (between [] ((r.head, r.done) :: r.outer))
  | '\x7d' => r.close
  | '"' => some { r with mode := .quote [] }
  | '#' => some { r with mode := .comment }
  | _ => some { r with mode := .word [] }

end Reader

/-- The characters that end a word. -/
def ends (c : Char) : Bool := c.isWhitespace || c ∈ [';', '\x7b', '\x7d', '"', '#']

def Reader.feed (r : Reader) (c : Char) : Option Reader :=
  match r.mode with
  | .word cs =>
    if ends c then { r with head := push r.head cs }.special c
    else some { r with mode := .word (cs ++ [c]) }
  | .quote cs =>
    if c = '"' then some { r with mode := .word [], head := r.head ++ [.quoted (String.ofList cs)] }
    else if c = '\\' then some { r with mode := .escape cs }
    else some { r with mode := .quote (cs ++ [c]) }
  | .escape cs => some { r with mode := .quote (cs ++ [c]) }
  | .comment => if c = '\n' then some { r with mode := .word [] } else some r

def Reader.feeds (r : Reader) (cs : List Char) : Option Reader := cs.foldlM Reader.feed r

/-- The statements of a text. -/
def read? (t : String) : Option (List Stmt) := do
  let r ← (Reader.between [] []).feeds t.toList
  if r.mode = .word [] ∧ r.head = [] ∧ r.outer.isEmpty then some r.done else none

theorem Reader.feeds_append (r : Reader) (cs ds : List Char) :
    r.feeds (cs ++ ds) = (r.feeds cs).bind fun r' => r'.feeds ds := by
  simp [feeds, List.foldlM_append, Option.bind_eq_bind]

/-! ## One text after another -/

/-- The outermost block starts with `ds`. -/
def startOuter (ds : List Stmt) : List (List Word × List Stmt) → List (List Word × List Stmt)
  | [] => []
  | [(head, done)] => [(head, ds ++ done)]
  | x :: y :: outer => x :: startOuter ds (y :: outer)

/-- The reader that had read the statements `ds` before the rest. -/
def Reader.after (ds : List Stmt) (r : Reader) : Reader :=
  match r.outer with
  | [] => { r with done := ds ++ r.done }
  | x :: outer => { r with outer := startOuter ds (x :: outer) }

section After

variable (ds : List Stmt) (r : Reader)

theorem Reader.after_close : (r.after ds).close = r.close.map (Reader.after ds) := by
  rcases r with ⟨mode, head, done, outer⟩
  cases head with
  | cons => cases outer <;> rfl
  | nil =>
    -- the block that is closed may be the outermost one
    rcases outer with _ | ⟨⟨h, d⟩, _ | ⟨y, outer⟩⟩
    · rfl
    · simp [after, startOuter, close, between]
    · simp [after, startOuter, close, between]

theorem Reader.after_special (c : Char) :
    (r.after ds).special c = (r.special c).map (Reader.after ds) := by
  unfold special
  split
  · rcases r with ⟨mode, head, done, _ | ⟨x, outer⟩⟩ <;> simp [after, between]
  · rcases r with ⟨mode, head, done, _ | ⟨x, outer⟩⟩ <;> simp [after, between, startOuter]
  · exact after_close ds r
  · rcases r with ⟨mode, head, done, _ | ⟨x, outer⟩⟩ <;> rfl
  · rcases r with ⟨mode, head, done, _ | ⟨x, outer⟩⟩ <;> rfl
  · rcases r with ⟨mode, head, done, _ | ⟨x, outer⟩⟩ <;> rfl

theorem Reader.after_feed (c : Char) : (r.after ds).feed c = (r.feed c).map (Reader.after ds) := by
  rcases r with ⟨mode, head, done, outer⟩
  cases mode with
  | word cs =>
    have hspecial := after_special ds ⟨.word cs, push head cs, done, outer⟩ c
    cases outer with
    | nil | cons =>
      simp only [feed, after] at hspecial ⊢
      split
      · exact hspecial
      · rfl
  | quote cs =>
    cases outer with
    | nil | cons =>
      simp only [feed, after]
      split
      · rfl
      · split <;> rfl
  | escape cs => cases outer <;> rfl
  | comment =>
    cases outer with
    | nil | cons =>
      simp only [feed, after]
      split <;> rfl

theorem Reader.after_feeds (cs : List Char) :
    (r.after ds).feeds cs = (r.feeds cs).map (Reader.after ds) := by
  induction cs generalizing r with
  | nil => rfl
  | cons c cs ih =>
    simp only [feeds, List.foldlM_cons, Option.bind_eq_bind, after_feed]
    cases r.feed c with
    | none => rfl
    | some r' => exact ih r'

end After

/-- A text that reads by itself, read after others. -/
theorem feeds_of_read? {t : String} {ss : List Stmt} (h : read? t = some ss) (done : List Stmt) :
    (Reader.between done []).feeds t.toList = some (.between (done ++ ss) []) := by
  have hstart := Reader.after_feeds done (.between [] []) t.toList
  rw [read?, Option.bind_eq_bind, Option.bind_eq_some_iff] at h
  rcases h with ⟨⟨mode, head, ss', outer⟩, hread, hend⟩
  split at hend
  · next hclosed =>
    rcases hclosed with ⟨rfl, rfl, hout⟩
    cases hend
    rw [List.isEmpty_iff] at hout
    subst hout
    rw [hread] at hstart
    simpa [Reader.after, Reader.between] using hstart
  · cases hend

theorem read?_of_feeds {t : String} {ss : List Stmt}
    (h : (Reader.between [] []).feeds t.toList = some (.between ss [])) : read? t = some ss := by
  rw [read?, h]
  rfl

/-! ## Texts without special characters -/

/-- The text has no character that ends a statement, a block, a quoted word or a line. -/
def Plain (t : String) : Prop := ∀ c ∈ t.toList, c ∉ [';', '\x7b', '\x7d', '"', '\n']

instance (t : String) : Decidable (Plain t) := List.decidableBAll _ _

/-- No comment starts in the text when it stands bare. -/
def Bare (t : String) : Prop := '#' ∉ t.toList

instance (t : String) : Decidable (Bare t) := inferInstanceAs (Decidable (¬ _))

/-- No escape starts in the text when it stands between quotes. -/
def Literal (t : String) : Prop := '\\' ∉ t.toList

instance (t : String) : Decidable (Literal t) := inferInstanceAs (Decidable (¬ _))

/-- The words of a plain text after `ws`, and the letters of the last one. -/
def scan : List Word → List Char → List Char → List Word × List Char
  | ws, cs, [] => (ws, cs)
  | ws, cs, c :: rest =>
    if c.isWhitespace then scan (push ws cs) [] rest else scan ws (cs ++ [c]) rest

/-- The words of a plain text. -/
def words (t : String) : List Word := push (scan [] [] t.toList).1 (scan [] [] t.toList).2

theorem scan_append (us ws : List Word) (cs rest : List Char) :
    scan (us ++ ws) cs rest = (us ++ (scan ws cs rest).1, (scan ws cs rest).2) := by
  induction rest generalizing ws cs with
  | nil => rfl
  | cons c rest ih =>
    simp only [scan]
    split
    · rw [push_append, ih]
    · rw [ih]

/-- After a plain text, before its last word is finished. -/
def Reader.pending (head : List Word) (t : String) (done : List Stmt)
    (outer : List (List Word × List Stmt)) : Reader :=
  ⟨.word (scan head [] t.toList).2, (scan head [] t.toList).1, done, outer⟩

theorem Plain.ends {t : String} (h : Plain t) (hbare : Bare t) {c : Char} (hc : c ∈ t.toList) :
    ends c = c.isWhitespace := by
  have hhash : c ≠ '#' := by
    rintro rfl
    exact hbare hc
  have hc := h c hc
  simp only [List.mem_cons, List.not_mem_nil, or_false, not_or] at hc
  simp [Conf.ends, hc, hhash]

theorem special_of_whitespace (r : Reader) {c : Char} (hc : c.isWhitespace) :
    r.special c = some { r with mode := .word [] } := by
  unfold Reader.special
  split
  · simp at hc
  · simp at hc
  · simp at hc
  · simp at hc
  · simp at hc
  · rfl

section Reading

variable {t : String} (ht : Plain t) (head : List Word) (done : List Stmt)
  (outer : List (List Word × List Stmt))

include ht

theorem Reader.value (hbare : Bare t) :
    (⟨.word [], head, done, outer⟩ : Reader).feeds t.toList = some (pending head t done outer) := by
  have hends : ∀ c ∈ t.toList, Conf.ends c = c.isWhitespace := fun c hc => ht.ends hbare hc
  unfold pending
  generalize t.toList = rest at hends
  -- the reader goes through the text as `scan` does
  have hscan : ∀ (rest cs : List Char) (head : List Word),
      (∀ c ∈ rest, Conf.ends c = c.isWhitespace) →
      (⟨.word cs, head, done, outer⟩ : Reader).feeds rest =
        some ⟨.word (scan head cs rest).2, (scan head cs rest).1, done, outer⟩ := by
    intro rest
    induction rest with
    | nil => exact fun _ _ _ => rfl
    | cons c rest ih =>
      intro cs head hends
      have hrest := fun c hc => hends c (List.mem_cons_of_mem _ hc)
      have hc := hends c List.mem_cons_self
      simp only [feeds, List.foldlM_cons, feed, hc, scan]
      split
      · next hw =>
        rw [special_of_whitespace _ hw]
        exact ih [] (push head cs) hrest
      · exact ih (cs ++ [c]) head hrest
  exact hscan rest [] head hends

theorem Reader.value_quoted (hlit : Literal t) (cs : List Char) :
    (⟨.quote cs, head, done, outer⟩ : Reader).feeds t.toList =
      some ⟨.quote (cs ++ t.toList), head, done, outer⟩ := by
  have hplain : ∀ c ∈ t.toList, c ≠ '"' ∧ c ≠ '\\' := by
    intro c hc
    refine ⟨?_, ?_⟩
    · rintro rfl
      exact absurd (ht _ hc) (by decide)
    · rintro rfl
      exact hlit hc
  generalize t.toList = rest at hplain
  induction rest generalizing cs with
  | nil => simp [feeds]
  | cons c rest ih =>
    have hc := hplain c List.mem_cons_self
    simp only [feeds, List.foldlM_cons, feed, if_neg hc.1, if_neg hc.2]
    have hrest := ih (cs ++ [c]) fun c hc => hplain c (List.mem_cons_of_mem _ hc)
    rw [List.append_assoc] at hrest
    exact hrest

theorem Reader.comment :
    (⟨.comment, head, done, outer⟩ : Reader).feeds t.toList =
      some ⟨.comment, head, done, outer⟩ := by
  have hplain : ∀ c ∈ t.toList, c ≠ '\n' := by
    intro c hc hn
    subst hn
    exact absurd (ht '\n' hc) (by decide)
  generalize t.toList = rest at hplain
  induction rest with
  | nil => rfl
  | cons c rest ih =>
    simp only [feeds, List.foldlM_cons, feed, if_neg (hplain c List.mem_cons_self)]
    exact ih fun c hc => hplain c (List.mem_cons_of_mem _ hc)

end Reading

/-- What ends a word finishes the last word of a plain text. -/
theorem Reader.pending_ends (head : List Word) (t : String) (done : List Stmt)
    (outer : List (List Word × List Stmt)) {c : Char} (hc : ends c) (cs : List Char) :
    (pending head t done outer).feeds (c :: cs) =
      (⟨.word [], head ++ words t, done, outer⟩ : Reader).feeds (c :: cs) := by
  have hscan := scan_append head [] [] t.toList
  rw [List.append_nil] at hscan
  have hwords : push (scan head [] t.toList).1 (scan head [] t.toList).2 = head ++ words t := by
    rw [hscan, words, push_append]
  simp only [feeds, List.foldlM_cons, feed, pending, if_pos hc, hwords]
  rfl

/-! ## What a reader can still come to -/

/-- The words a statement begins with. -/
def Stmt.head : Stmt → List Word
  | .line ws => ws
  | .block ws _ => ws

/-- Some text takes the reader to the end of `ss`. -/
def Reader.Leads (r : Reader) (ss : List Stmt) : Prop :=
  ∃ cs, r.feeds cs = some (.between ss [])

/-- The whole text has the statements `ss`, and the block that is open those of `body`. -/
def Inside : List (List Word × List Stmt) → List Stmt → List Stmt → Prop
  | [], body, ss => body = ss
  | (head, done) :: outer, body, ss =>
    ∃ rest, Inside outer (done ++ .block head body :: rest) ss

/-- After `done` comes a statement that begins with `ws`. -/
def Begins (done : List Stmt) (ws : List Word) (body : List Stmt) : Prop :=
  ∃ s rest, body = done ++ s :: rest ∧ ws <+: s.head

theorem Begins.mono {done body : List Stmt} {ws ws' : List Word} (h : Begins done ws' body)
    (hws : ws <+: ws') : Begins done ws body := by
  rcases h with ⟨s, rest, hbody, hhead⟩
  exact ⟨s, rest, hbody, hws.trans hhead⟩

/-- What has been read stays: the statements of the open block, the words of the open
statement, and the letters of a quoted word. -/
structure Reader.Keeps (r : Reader) (body : List Stmt) : Prop where
  done : r.done <+: body
  head : r.head ≠ [] → Begins r.done r.head body
  quote : ∀ cs, r.mode = .quote cs ∨ r.mode = .escape cs →
    ∃ t : String, cs <+: t.toList ∧ Begins r.done (r.head ++ [.quoted t]) body

theorem prefix_push (ws : List Word) (cs : List Char) : ws <+: push ws cs := by
  unfold push
  split
  · exact List.prefix_rfl
  · exact List.prefix_append _ _

theorem prefix_ne_nil {α : Type} {l l' : List α} (h : l <+: l') (hl : l ≠ []) : l' ≠ [] := by
  rintro rfl
  exact hl (List.prefix_nil.1 h)

section Keeps

variable {ss : List Stmt}

theorem Reader.keeps_special {mode : Mode} {head : List Word} {done : List Stmt}
    {outer : List (List Word × List Stmt)} {c : Char} {r' : Reader} {body' : List Stmt}
    (h : (⟨mode, head, done, outer⟩ : Reader).special c = some r')
    (hin : Inside r'.outer body' ss) (hkeeps : r'.Keeps body') :
    ∃ body, Inside outer body ss ∧ done <+: body ∧ (head ≠ [] → Begins done head body) := by
  unfold special at h
  split at h
  · -- the end of a statement
    cases h
    obtain ⟨rest, hrest⟩ := hkeeps.done
    have hbody : body' = done ++ .line head :: rest := by simpa [between] using hrest.symm
    refine ⟨body', hin, ?_, fun _ => ⟨.line head, rest, hbody, List.prefix_rfl⟩⟩
    rw [hbody]
    exact List.prefix_append _ _
  · -- the beginning of a block
    cases h
    obtain ⟨rest, hrest⟩ := hin
    exact ⟨_, hrest, List.prefix_append _ _, fun _ => ⟨_, rest, rfl, List.prefix_rfl⟩⟩
  · -- the end of one: what was open is the block that is done
    unfold close at h
    split at h
    · next hnil hout =>
      cases h
      simp only at hnil hout
      subst hnil hout
      obtain ⟨rest, hrest⟩ := hkeeps.done
      simp only [between, List.append_assoc, List.singleton_append] at hrest
      subst hrest
      exact ⟨done, ⟨rest, hin⟩, List.prefix_rfl, fun hne => absurd rfl hne⟩
    · cases h
  · cases h
    refine ⟨body', hin, hkeeps.done, fun _ => ?_⟩
    obtain ⟨t, -, ht⟩ := hkeeps.quote [] (Or.inl rfl)
    exact ht.mono (List.prefix_append _ _)
  · cases h
    exact ⟨body', hin, hkeeps.done, hkeeps.head⟩
  · cases h
    exact ⟨body', hin, hkeeps.done, hkeeps.head⟩

theorem Reader.keeps_feed {r r' : Reader} {c : Char} (h : r.feed c = some r')
    (hr' : ∃ body, Inside r'.outer body ss ∧ r'.Keeps body) :
    ∃ body, Inside r.outer body ss ∧ r.Keeps body := by
  rcases r with ⟨mode, head, done, outer⟩
  obtain ⟨body, hin, hkeeps⟩ := hr'
  cases mode with
  | word cs =>
    simp only [feed] at h
    split at h
    · obtain ⟨body, hin, hdone, hhead⟩ := keeps_special h hin hkeeps
      have hpush := prefix_push head cs
      refine ⟨body, hin, hdone, fun hne => ?_, fun _ hcs => ?_⟩
      · exact (hhead (prefix_ne_nil hpush hne)).mono hpush
      · rcases hcs with hcs | hcs <;> cases hcs
    · cases h
      exact ⟨body, hin, hkeeps.done, hkeeps.head,
        fun _ hcs => by rcases hcs with hcs | hcs <;> cases hcs⟩
  | quote cs =>
    simp only [feed] at h
    have hword {t : String} (ht : cs <+: t.toList)
        (hbegins : Begins done (head ++ [.quoted t]) body) (hdone : done <+: body) :
        (⟨.quote cs, head, done, outer⟩ : Reader).Keeps body := by
      refine ⟨hdone, fun _ => hbegins.mono (List.prefix_append _ _), fun cs' hcs => ?_⟩
      rcases hcs with hcs | hcs <;> cases hcs
      exact ⟨t, ht, hbegins⟩
    split at h
    · cases h
      exact ⟨body, hin, hword (by simp) (hkeeps.head (by simp)) hkeeps.done⟩
    · split at h
      · cases h
        obtain ⟨t, ht, hbegins⟩ := hkeeps.quote cs (Or.inr rfl)
        exact ⟨body, hin, hword ht hbegins hkeeps.done⟩
      · cases h
        obtain ⟨t, ht, hbegins⟩ := hkeeps.quote (cs ++ [c]) (Or.inl rfl)
        exact ⟨body, hin, hword ((List.prefix_append _ _).trans ht) hbegins hkeeps.done⟩
  | escape cs =>
    cases h
    obtain ⟨t, ht, hbegins⟩ := hkeeps.quote (cs ++ [c]) (Or.inl rfl)
    refine ⟨body, hin, hkeeps.done, fun _ => hbegins.mono (List.prefix_append _ _),
      fun cs' hcs => ?_⟩
    rcases hcs with hcs | hcs <;> cases hcs
    exact ⟨t, (List.prefix_append _ _).trans ht, hbegins⟩
  | comment =>
    simp only [feed] at h
    split at h <;> cases h <;>
      exact ⟨body, hin, hkeeps.done, hkeeps.head,
        fun _ hcs => by rcases hcs with hcs | hcs <;> cases hcs⟩

/-- **What has been read stays**, whatever follows. -/
theorem Reader.Leads.keeps {r : Reader} (h : r.Leads ss) :
    ∃ body, Inside r.outer body ss ∧ r.Keeps body := by
  obtain ⟨cs, hcs⟩ := h
  induction cs generalizing r with
  | nil =>
    cases hcs
    exact ⟨ss, rfl, List.prefix_rfl, fun hne => absurd rfl hne,
      fun _ hcs => by rcases hcs with hcs | hcs <;> cases hcs⟩
  | cons c cs ih =>
    simp only [feeds, List.foldlM_cons, Option.bind_eq_bind, Option.bind_eq_some_iff] at hcs
    obtain ⟨r', hr', hcs⟩ := hcs
    exact keeps_feed hr' (ih hcs)

theorem Reader.Leads.of_feeds {r r' : Reader} {cs : List Char} (h : r.feeds cs = some r')
    (hr' : r'.Leads ss) : r.Leads ss := by
  obtain ⟨ds, hds⟩ := hr'
  refine ⟨cs ++ ds, ?_⟩
  rw [feeds_append, h]
  exact hds

end Keeps

/-! ## The statement that is expected -/

/-- In the block that is open, `s` comes after `done`. -/
def Awaits (outer : List (List Word × List Stmt)) (done : List Stmt) (ss : List Stmt)
    (s : Stmt) : Prop :=
  ∀ body, Inside outer body ss → ∃ rest, body = done ++ s :: rest

theorem awaits_top (done rest : List Stmt) (s : Stmt) : Awaits [] done (done ++ s :: rest) s := by
  rintro body rfl
  exact ⟨rest, rfl⟩

/-- What is expected of a block is expected inside it. -/
theorem Awaits.block {outer : List (List Word × List Stmt)} {done ss pre post : List Stmt}
    {head : List Word} {s : Stmt} (h : Awaits outer done ss (.block head (pre ++ s :: post))) :
    Awaits ((head, done) :: outer) pre ss s := by
  rintro body ⟨rest, hin⟩
  obtain ⟨rest', heq⟩ := h _ hin
  have hblock := (List.cons.inj (List.append_cancel_left heq)).1
  injection hblock with _ hbody
  exact ⟨post, hbody⟩

theorem Begins.of_awaits {outer : List (List Word × List Stmt)} {done ss body : List Stmt}
    {ws : List Word} {s : Stmt} (h : Awaits outer done ss s) (hin : Inside outer body ss)
    (hb : Begins done ws body) : ws <+: s.head := by
  obtain ⟨rest, hbody⟩ := h body hin
  obtain ⟨s', rest', hbody', hhead⟩ := hb
  rw [hbody] at hbody'
  have heq := (List.cons.inj (List.append_cancel_left hbody')).1
  rw [heq]
  exact hhead

/-! ## Between quotes -/

section Quoted

variable {head : List Word} {done : List Stmt} {outer : List (List Word × List Stmt)}

/-- A text without quotes stays between its quotes, or ends after a backslash; nothing is
lost only if it has none. -/
theorem Reader.feeds_unquoted {us : List Char} (hus : '"' ∉ us) (cs : List Char) :
    ∃ vs, ((⟨.quote cs, head, done, outer⟩ : Reader).feeds us =
        some ⟨.quote (cs ++ vs), head, done, outer⟩ ∧
        vs.length ≤ us.length ∧ ('\\' ∈ us → vs.length < us.length)) ∨
      (⟨.quote cs, head, done, outer⟩ : Reader).feeds us =
        some ⟨.escape (cs ++ vs), head, done, outer⟩ := by
  -- together with the same after a backslash, where the next letter is taken as it is
  suffices hboth : (∃ vs, ((⟨.quote cs, head, done, outer⟩ : Reader).feeds us =
        some ⟨.quote (cs ++ vs), head, done, outer⟩ ∧
        vs.length ≤ us.length ∧ ('\\' ∈ us → vs.length < us.length)) ∨
      (⟨.quote cs, head, done, outer⟩ : Reader).feeds us =
        some ⟨.escape (cs ++ vs), head, done, outer⟩) ∧
    ∃ vs, ((⟨.escape cs, head, done, outer⟩ : Reader).feeds us =
        some ⟨.quote (cs ++ vs), head, done, outer⟩ ∧ vs.length ≤ us.length) ∨
      (⟨.escape cs, head, done, outer⟩ : Reader).feeds us =
        some ⟨.escape (cs ++ vs), head, done, outer⟩ from hboth.1
  induction us generalizing cs with
  | nil =>
    refine ⟨⟨[], Or.inl ⟨?_, Nat.le_refl _, fun h => absurd h List.not_mem_nil⟩⟩, [], Or.inr ?_⟩
    · rw [List.append_nil]
      rfl
    · rw [List.append_nil]
      rfl
  | cons c us ih =>
    have hc : c ≠ '"' := fun heq => hus (heq ▸ List.mem_cons_self)
    have ih := fun cs => ih (fun hmem => hus (List.mem_cons_of_mem _ hmem)) cs
    constructor
    · by_cases hslash : c = '\\'
      · obtain ⟨vs, hvs⟩ := (ih cs).2
        have hstep : (⟨.quote cs, head, done, outer⟩ : Reader).feeds (c :: us) =
            (⟨.escape cs, head, done, outer⟩ : Reader).feeds us := by
          simp [feeds, List.foldlM_cons, feed, hslash]
        rw [hstep]
        refine ⟨vs, hvs.imp_left fun ⟨hread, hlen⟩ => ⟨hread, ?_, fun _ => ?_⟩⟩
        · rw [List.length_cons]
          omega
        · rw [List.length_cons]
          omega
      · obtain ⟨vs, hvs⟩ := (ih (cs ++ [c])).1
        have hstep : (⟨.quote cs, head, done, outer⟩ : Reader).feeds (c :: us) =
            (⟨.quote (cs ++ [c]), head, done, outer⟩ : Reader).feeds us := by
          simp [feeds, List.foldlM_cons, feed, hslash, hc]
        rw [hstep]
        rw [List.append_assoc, List.singleton_append] at hvs
        refine ⟨c :: vs, hvs.imp_left fun ⟨hread, hlen, hlt⟩ => ⟨hread, ?_, fun hmem => ?_⟩⟩
        · rw [List.length_cons, List.length_cons]
          omega
        · have hmem : '\\' ∈ us := (List.mem_cons.1 hmem).resolve_left (Ne.symm hslash)
          have := hlt hmem
          rw [List.length_cons, List.length_cons]
          omega
    · obtain ⟨vs, hvs⟩ := (ih (cs ++ [c])).1
      have hstep : (⟨.escape cs, head, done, outer⟩ : Reader).feeds (c :: us) =
          (⟨.quote (cs ++ [c]), head, done, outer⟩ : Reader).feeds us := rfl
      rw [hstep]
      rw [List.append_assoc, List.singleton_append] at hvs
      refine ⟨c :: vs, hvs.imp_left fun ⟨hread, hlen, _⟩ => ⟨hread, ?_⟩⟩
      rw [List.length_cons, List.length_cons]
      omega

/-- **A quoted text is read as expected only if it has no backslash.** -/
theorem literal_of_leads {t : String} (ht : Plain t) {ss : List Stmt} {ws : List Word} {s : Stmt}
    (hawaits : Awaits outer done ss s) (hhead : s.head = head ++ .quoted t :: ws) {r : Reader}
    (hread : (⟨.quote [], head, done, outer⟩ : Reader).feeds (t.toList ++ ['"']) = some r)
    (hleads : r.Leads ss) : Literal t := by
  have hquote : '"' ∉ t.toList := fun hmem => absurd (ht _ hmem) (by decide)
  -- the word that is read here is the one that is expected
  have hword {t' : String} {body : List Stmt} (hin : Inside outer body ss)
      (hb : Begins done (head ++ [.quoted t']) body) : t' = t := by
    have hprefix := hb.of_awaits hawaits hin
    rw [hhead, List.prefix_append_right_inj] at hprefix
    have := (List.cons_prefix_cons.1 hprefix).1
    injection this
  obtain ⟨vs, ⟨hvs, -, hlt⟩ | hvs⟩ :=
    @Reader.feeds_unquoted head done outer t.toList hquote []
  · rw [Reader.feeds_append, hvs] at hread
    cases hread
    obtain ⟨body, hin, hkeeps⟩ := hleads.keeps
    have heq := hword hin (hkeeps.head (by simp))
    intro hslash
    have hlt := hlt hslash
    rw [← heq, String.toList_ofList] at hlt
    exact absurd hlt (Nat.lt_irrefl _)
  · -- the closing quote has become a letter
    rw [Reader.feeds_append, hvs] at hread
    cases hread
    obtain ⟨body, hin, hkeeps⟩ := hleads.keeps
    obtain ⟨t', hletters, hb⟩ := hkeeps.quote _ (Or.inl rfl)
    rw [hword hin hb] at hletters
    exact absurd (hletters.subset (by simp)) hquote

end Quoted

/-! ## Bare words -/

/-- No bare word has a `#` in it. -/
def Word.Clear : Word → Prop
  | .plain s => '#' ∉ s.toList
  | .quoted _ => True

inductive Stmt.Clear : Stmt → Prop
  | line {ws : List Word} (h : ∀ w ∈ ws, w.Clear) : Stmt.Clear (.line ws)
  | block {ws : List Word} {body : List Stmt} (h : ∀ w ∈ ws, w.Clear)
      (hbody : ∀ s ∈ body, Stmt.Clear s) : Stmt.Clear (.block ws body)

structure Reader.Clear (r : Reader) : Prop where
  mode : ∀ cs, r.mode = .word cs → '#' ∉ cs
  head : ∀ w ∈ r.head, w.Clear
  done : ∀ s ∈ r.done, s.Clear
  outer : ∀ x ∈ r.outer, (∀ w ∈ x.1, w.Clear) ∧ ∀ s ∈ x.2, s.Clear

theorem clear_push {ws : List Word} {cs : List Char} (hws : ∀ w ∈ ws, w.Clear) (hcs : '#' ∉ cs) :
    ∀ w ∈ push ws cs, w.Clear := by
  unfold push
  split
  · exact hws
  · intro w hw
    rcases List.mem_append.1 hw with hw | hw
    · exact hws w hw
    · rw [List.mem_singleton.1 hw]
      simpa [Word.Clear] using hcs

/-- Between two statements. -/
theorem Reader.clear_between {done : List Stmt} {outer : List (List Word × List Stmt)}
    (hdone : ∀ s ∈ done, s.Clear)
    (houter : ∀ x ∈ outer, (∀ w ∈ x.1, w.Clear) ∧ ∀ s ∈ x.2, s.Clear) :
    (Reader.between done outer).Clear := by
  refine ⟨?_, fun w hw => absurd hw List.not_mem_nil, hdone, houter⟩
  rintro cs ⟨rfl⟩
  exact List.not_mem_nil

theorem clear_concat {ss : List Stmt} {s : Stmt} (hss : ∀ s ∈ ss, s.Clear) (hs : s.Clear) :
    ∀ x ∈ ss ++ [s], x.Clear := by
  intro x hx
  rcases List.mem_append.1 hx with hx | hx
  · exact hss x hx
  · rw [List.mem_singleton.1 hx]
    exact hs

theorem Reader.Clear.special {r r' : Reader} {c : Char} (h : r.Clear)
    (hr' : r.special c = some r') : r'.Clear := by
  have hmode {mode : Mode} (hmode : ∀ cs, mode = .word cs → cs = []) :
      ({ r with mode := mode } : Reader).Clear := by
    refine ⟨fun cs hcs => ?_, h.head, h.done, h.outer⟩
    rw [hmode cs hcs]
    exact List.not_mem_nil
  unfold Reader.special at hr'
  split at hr'
  · cases hr'
    exact clear_between (clear_concat h.done (.line h.head)) h.outer
  · cases hr'
    refine clear_between (fun s hs => absurd hs List.not_mem_nil) ?_
    exact List.forall_mem_cons.2 ⟨⟨h.head, h.done⟩, h.outer⟩
  · unfold close at hr'
    split at hr'
    · next hout =>
      cases hr'
      have houter := h.outer
      rw [hout] at houter
      obtain ⟨⟨hhead, hdone⟩, houter⟩ := List.forall_mem_cons.1 houter
      exact clear_between (clear_concat hdone (.block hhead h.done)) houter
    · cases hr'
  · cases hr'
    exact hmode fun cs hcs => by cases hcs
  · cases hr'
    exact hmode fun cs hcs => by cases hcs
  · cases hr'
    exact hmode fun cs hcs => by cases hcs; rfl

theorem Reader.Clear.feed {r r' : Reader} {c : Char} (h : r.Clear) (hr' : r.feed c = some r') :
    r'.Clear := by
  rcases r with ⟨mode, head, done, outer⟩
  have hother {mode : Mode} (hmode : ∀ cs, mode = .word cs → cs = []) {ws : List Word}
      (hws : ∀ w ∈ ws, w.Clear) : (⟨mode, ws, done, outer⟩ : Reader).Clear := by
    refine ⟨fun cs hcs => ?_, hws, h.done, h.outer⟩
    rw [hmode cs hcs]
    exact List.not_mem_nil
  cases mode with
  | word cs =>
    have hcs := h.mode cs rfl
    simp only [Reader.feed] at hr'
    split at hr'
    · refine Reader.Clear.special ?_ hr'
      refine ⟨?_, clear_push h.head hcs, h.done, h.outer⟩
      rintro _ ⟨rfl⟩
      exact hcs
    · next hends =>
      cases hr'
      refine ⟨?_, h.head, h.done, h.outer⟩
      rintro _ ⟨rfl⟩
      have hc : c ≠ '#' := by
        rintro rfl
        exact hends (by decide)
      simp [hcs, Ne.symm hc]
  | quote cs =>
    simp only [Reader.feed] at hr'
    split at hr'
    · cases hr'
      refine hother (fun cs hcs => by cases hcs; rfl) fun w hw => ?_
      rcases List.mem_append.1 hw with hw | hw
      · exact h.head w hw
      · rw [List.mem_singleton.1 hw]
        trivial
    · split at hr' <;> cases hr' <;> exact hother (fun cs hcs => by cases hcs) h.head
  | escape cs =>
    cases hr'
    exact hother (fun cs hcs => by cases hcs) h.head
  | comment =>
    simp only [Reader.feed] at hr'
    split at hr' <;> cases hr'
    · exact hother (fun cs hcs => by cases hcs; rfl) h.head
    · exact hother (fun cs hcs => by cases hcs) h.head

theorem Reader.Clear.feeds {r r' : Reader} {cs : List Char} (h : r.Clear)
    (hr' : r.feeds cs = some r') : r'.Clear := by
  induction cs generalizing r with
  | nil =>
    cases hr'
    exact h
  | cons c cs ih =>
    simp only [Reader.feeds, List.foldlM_cons, Option.bind_eq_bind, Option.bind_eq_some_iff] at hr'
    obtain ⟨r₁, hr₁, hr'⟩ := hr'
    exact ih (h.feed hr₁) hr'

/-- **A `#` is never part of a bare word.** -/
theorem clear_of_read? {t : String} {ss : List Stmt} (h : read? t = some ss) :
    ∀ s ∈ ss, s.Clear := by
  rw [read?, Option.bind_eq_bind, Option.bind_eq_some_iff] at h
  obtain ⟨r, hr, h⟩ := h
  have hstart : (Reader.between [] []).Clear :=
    Reader.clear_between (fun s hs => absurd hs List.not_mem_nil)
      fun x hx => absurd hx List.not_mem_nil
  have hclear := hstart.feeds hr
  split at h
  · cases h
    exact hclear.done
  · cases h

theorem notMem_of_push {ws : List Word} {cs : List Char} (h : ∀ w ∈ push ws cs, w.Clear) :
    '#' ∉ cs := by
  unfold push at h
  split at h
  · next hnil =>
    rw [hnil]
    exact List.not_mem_nil
  · simpa [Word.Clear] using h (.plain (String.ofList cs)) (by simp)

/-- What is not white space is part of a word. -/
theorem bare_of_words {t : String} (h : ∀ w ∈ words t, w.Clear) : Bare t := by
  have hscan : ∀ (rest cs : List Char) (ws : List Word),
      (∀ w ∈ push (scan ws cs rest).1 (scan ws cs rest).2, w.Clear) → '#' ∉ cs ∧ '#' ∉ rest := by
    intro rest
    induction rest with
    | nil => exact fun cs ws hws => ⟨notMem_of_push hws, List.not_mem_nil⟩
    | cons c rest ih =>
      intro cs ws hws
      simp only [scan] at hws
      split at hws
      · next hwhite =>
        have hne : c ≠ '#' := by
          rintro rfl
          exact absurd hwhite (by decide)
        refine ⟨@notMem_of_push ws cs fun w hw => hws w ?_, ?_⟩
        · -- the finished words stay in front
          have happend := scan_append (push ws cs) [] [] rest
          rw [List.append_nil] at happend
          rw [happend]
          exact (prefix_push _ _).subset (List.mem_append_left _ hw)
        · simp [Ne.symm hne, (ih [] _ hws).2]
      · obtain ⟨hcs, hrest⟩ := ih _ _ hws
        simp only [List.mem_append, List.mem_singleton, not_or] at hcs
        simp [hcs.1, hcs.2, hrest]
  exact (hscan t.toList [] [] h).2

/-! ## Texts without braces and quotes -/

/-- Neither between quotes nor after a backslash. -/
def Mode.Flat : Mode → Prop
  | .word _ | .comment => True
  | .quote _ | .escape _ => False

/-- Such a text opens and closes nothing. -/
theorem Reader.feeds_flat {us : List Char} (hus : ∀ c ∈ us, c ∉ ['\x7b', '\x7d', '"']) {r : Reader}
    (hr : r.mode.Flat) : ∃ r', r.feeds us = some r' ∧ r'.mode.Flat ∧ r'.outer = r.outer := by
  induction us generalizing r with
  | nil => exact ⟨r, rfl, hr, rfl⟩
  | cons c us ih =>
    have hc := hus c List.mem_cons_self
    simp only [List.mem_cons, List.not_mem_nil, or_false, not_or] at hc
    -- one letter, by the mode
    have hstep : ∃ r₁, r.feed c = some r₁ ∧ r₁.mode.Flat ∧ r₁.outer = r.outer := by
      rcases r with ⟨mode, head, done, outer⟩
      cases mode with
      | word cs =>
        simp only [feed]
        split
        · unfold special
          split
          · exact ⟨_, rfl, trivial, rfl⟩
          · exact absurd rfl hc.1
          · exact absurd rfl hc.2.1
          · exact absurd rfl hc.2.2
          · exact ⟨_, rfl, trivial, rfl⟩
          · exact ⟨_, rfl, trivial, rfl⟩
        · exact ⟨_, rfl, trivial, rfl⟩
      | quote cs | escape cs => exact absurd hr id
      | comment =>
        simp only [feed]
        split
        · exact ⟨_, rfl, trivial, rfl⟩
        · exact ⟨_, rfl, trivial, rfl⟩
    obtain ⟨r₁, hfeed, hflat, houter⟩ := hstep
    obtain ⟨r', hread, hflat', houter'⟩ := ih (fun c hc => hus c (List.mem_cons_of_mem _ hc)) hflat
    refine ⟨r', ?_, hflat', houter'.trans houter⟩
    simp only [feeds, List.foldlM_cons, hfeed]
    exact hread

/-- At the end of a line no word is open and no comment. -/
theorem Reader.feed_newline {r : Reader} (hr : r.mode.Flat) :
    ∃ head done, r.feed '\n' = some ⟨.word [], head, done, r.outer⟩ := by
  rcases r with ⟨mode, head, done, outer⟩
  cases mode with
  | word cs => exact ⟨_, _, rfl⟩
  | quote cs | escape cs => exact absurd hr id
  | comment => exact ⟨_, _, rfl⟩

end NsBoot.Conf
