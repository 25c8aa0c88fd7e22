import Mathlib.Logic.Function.Basic
import NsBoot.Lib.Run

/-!
# NsBoot.Daemon — nsbootd and its clients

`nsbootd` runs the command lines that `client.lua` sends it over a Unix socket. For
every command it binds a new socket, listens, accepts one connection and reads from it
until it has got a line.

* `State.daemon`: the daemon, step by step; `none` where it waits. `Copy` tells the two
  copies of it apart.
* `State.step`: the daemon and any number of clients, in any order. Clients connect,
  send any text in any pieces, and close whenever they like.
* `returns_iff_line`: `StartServerSocket` returns for exactly those clients that have
  sent a complete line before they closed.
* `delivered_in_turn`: commands are executed exactly once if every client connects while
  the daemon waits for one.
-/

namespace NsBoot.Daemon

open Run Function

/-! ## Connections -/

/-- What a client has sent on its connection, how much of it the daemon has read, and
whether the client has closed. -/
structure Stream where
  sent : List Char
  read : Nat
  closed : Bool
deriving DecidableEq

def Stream.unread (x : Stream) : List Char := x.sent.drop x.read

/-- The line `conn:receive()` returns: everything up to a newline, without carriage
returns. -/
def Stream.line? (x : Stream) : Option (List Char) :=
  if '\n' ∈ x.unread then some ((x.unread.takeWhile (· ≠ '\n')).filter (· ≠ '\r')) else none

/-- The line has been read. -/
def Stream.skipLine (x : Stream) : Stream :=
  { x with read := x.read + (x.unread.takeWhile (· ≠ '\n')).length + 1 }

/-! ## The daemon -/

/-- `bin/server.lua`, and the installed `nsbootd`, which closes the connection before it
leaves the loop. -/
inductive Copy where
  | source
  | installed
deriving DecidableEq

/-- What the daemon does next. -/
inductive Pc where
  | main
  | bind
  | listen
  | accept
  | receive
  | execute (line : List Char)
  | answer (line : List Char)
deriving DecidableEq

structure State where
  pc : Pc
  /-- the socket behind the path -/
  path : Option Nat
  /-- how many sockets were bound; the last one is the daemon's -/
  sockets : Nat
  /-- the clients that wait at a socket -/
  backlog : Nat → List Nat
  /-- the connection, unless the daemon has closed it -/
  conn : Option Nat
  /-- the clients that have connected -/
  stream : Nat → Option Stream
  executed : List (Nat × List Char)
  answers : List (Nat × List Char)
  /-- how often `StartServerSocket` has returned -/
  returns : Nat

def State.start : State where
  pc := .main
  path := none
  sockets := 0
  backlog _ := []
  conn := none
  stream _ := none
  executed := []
  answers := []
  returns := 0

namespace State

variable (copy : Copy) (result : List Char → Bool)

/-- `receive` has returned nil: the connection is closed, the path removed, and the loop
goes on. -/
def hangUp (st : State) : State := { st with conn := none, path := none }

/-- The next step of the daemon, `none` while it waits. `result` says which commands
succeed. -/
def daemon (st : State) : Option State :=
  match st.pc with
  | .main => some { st with pc := .bind, path := none }
  | .bind =>
    some { st with pc := .listen, path := some (st.sockets + 1), sockets := st.sockets + 1 }
  | .listen => some { st with pc := .accept }
  | .accept =>
    match st.backlog st.sockets with
    | [] => none
    | c :: cs =>
      some { st with pc := .receive, conn := some c, backlog := update st.backlog st.sockets cs }
  | .receive =>
    match st.conn with
    -- nothing comes from a connection that is closed
    | none => some st.hangUp
    | some c =>
      match st.stream c with
      | none => some st.hangUp
      | some x =>
        match x.line? with
        | some line =>
          some { st with pc := .execute line, stream := update st.stream c (some x.skipLine) }
        | none => if x.closed then some st.hangUp else none
  | .execute line =>
    some { st with pc := .answer line, executed := st.executed ++ (st.conn.toList.map (·, line)) }
  | .answer line =>
    let text := if result line then "echo: ".toList ++ line ++ ['\n'] else "FALSE".toList
    some { st with
      pc := .main, answers := st.answers ++ (st.conn.toList.map (·, text)),
      conn := if copy = .installed then none else st.conn, returns := st.returns + 1 }

end State

/-! ## The daemon and its clients -/

inductive Event where
  | daemon
  | connect (c : Nat)
  | send (c : Nat) (text : List Char)
  | close (c : Nat)
deriving DecidableEq

/-- What a client does to its connection. -/
def State.onStream (st : State) (c : Nat) (f : Stream → Stream) : State :=
  match st.stream c with
  | some x => if x.closed then st else { st with stream := update st.stream c (some (f x)) }
  | none => st

/-- One step of anyone; one that is not possible changes nothing. To connect, a client
needs a path that leads to a socket on which the daemon listens. -/
def State.step (copy : Copy) (result : List Char → Bool) (st : State) : Event → State
  | .daemon => (st.daemon copy result).getD st
  | .connect c =>
    match st.path with
    | some g =>
      if st.stream c = none ∧ st.pc ≠ .listen then
        { st with
          stream := update st.stream c (some ⟨[], 0, false⟩)
          backlog := update st.backlog g (st.backlog g ++ [c]) }
      else st
    | none => st
  | .send c text => st.onStream c fun x => { x with sent := x.sent ++ text }
  | .close c => st.onStream c fun x => { x with closed := true }

/-! ## What a step can do -/

/-- The steps of the daemon, one by one. -/
inductive DaemonStep (copy : Copy) (result : List Char → Bool) (st : State) : State → Prop where
  | main (h : st.pc = .main) : DaemonStep copy result st { st with pc := .bind, path := none }
  | bind (h : st.pc = .bind) : DaemonStep copy result st
      { st with pc := .listen, path := some (st.sockets + 1), sockets := st.sockets + 1 }
  | listen (h : st.pc = .listen) : DaemonStep copy result st { st with pc := .accept }
  | accept {c cs} (h : st.pc = .accept) (hlog : st.backlog st.sockets = c :: cs) :
      DaemonStep copy result st
        { st with pc := .receive, conn := some c, backlog := update st.backlog st.sockets cs }
  | line {c x line} (h : st.pc = .receive) (hconn : st.conn = some c) (hx : st.stream c = some x)
      (hline : x.line? = some line) : DaemonStep copy result st
        { st with pc := .execute line, stream := update st.stream c (some x.skipLine) }
  | hangUp (h : st.pc = .receive)
      (hend : ∀ c x, st.conn = some c → st.stream c = some x → x.line? = none ∧ x.closed) :
      DaemonStep copy result st st.hangUp
  | execute {line} (h : st.pc = .execute line) : DaemonStep copy result st
      { st with pc := .answer line, executed := st.executed ++ (st.conn.toList.map (·, line)) }
  | answer {line text conn} (h : st.pc = .answer line) : DaemonStep copy result st
      { st with pc := .main, answers := st.answers ++ text, conn, returns := st.returns + 1 }

theorem daemonStep_of {copy : Copy} {result : List Char → Bool} {st st' : State}
    (h : st.daemon copy result = some st') : DaemonStep copy result st st' := by
  unfold State.daemon at h
  split at h
  · next hpc => exact Option.some.inj h ▸ .main hpc
  · next hpc => exact Option.some.inj h ▸ .bind hpc
  · next hpc => exact Option.some.inj h ▸ .listen hpc
  · next hpc =>
    split at h
    · cases h
    · next hlog => exact Option.some.inj h ▸ .accept hpc hlog
  · next hpc =>
    split at h
    · next hconn =>
      refine Option.some.inj h ▸ .hangUp hpc ?_
      intro c x hc
      rw [hconn] at hc
      cases hc
    · next c hconn =>
      split at h
      · next hx =>
        refine Option.some.inj h ▸ .hangUp hpc ?_
        intro c' x hc hx'
        rw [hconn, Option.some.injEq] at hc
        rw [← hc, hx] at hx'
        cases hx'
      · next x hx =>
        split at h
        · next line hline => exact Option.some.inj h ▸ .line hpc hconn hx hline
        · next hline =>
          rw [Option.ite_none_right_eq_some] at h
          refine Option.some.inj h.2 ▸ .hangUp hpc ?_
          intro c' x' hc hx'
          rw [hconn, Option.some.injEq] at hc
          rw [← hc, hx, Option.some.injEq] at hx'
          rw [← hx']
          exact ⟨hline, h.1⟩
  · next hpc => exact Option.some.inj h ▸ .execute hpc
  · next hpc => exact Option.some.inj h ▸ .answer hpc

/-- What a client does to its own connection leaves everything else as it is. -/
theorem onStream_cases (st : State) (c : Nat) (f : Stream → Stream) :
    st.onStream c f = st ∨ ∃ x, st.stream c = some x ∧ x.closed = false ∧
      st.onStream c f = { st with stream := update st.stream c (some (f x)) } := by
  unfold State.onStream
  split
  · next x hx =>
    by_cases hclosed : x.closed
    · exact .inl (if_pos hclosed)
    · exact .inr ⟨x, hx, by simpa using hclosed, if_neg hclosed⟩
  · exact .inl rfl

theorem connect_cases (copy : Copy) (result : List Char → Bool) (st : State) (c : Nat) :
    st.step copy result (.connect c) = st ∨ ∃ g, st.path = some g ∧ st.stream c = none ∧
      st.step copy result (.connect c) =
        { st with
          stream := update st.stream c (some ⟨[], 0, false⟩)
          backlog := update st.backlog g (st.backlog g ++ [c]) } := by
  simp only [State.step]
  split
  · next g hpath =>
    split
    · next hnew => exact .inr ⟨g, hpath, hnew.1, rfl⟩
    · exact .inl rfl
  · exact .inl rfl

/-! ## One connection -/

/-- What can have become of the connection that was accepted when `StartServerSocket` had
returned `k` times. -/
inductive Phase (k : Nat) (c : Nat) (st : State) : Prop where
  | reading {x} (hx : st.stream c = some x) (hpc : st.pc = .receive) (hconn : st.conn = some c)
      (hread : x.read = 0) (hk : st.returns = k)
  | running {x line} (hx : st.stream c = some x)
      (hpc : st.pc = .execute line ∨ st.pc = .answer line)
      (hline : '\n' ∈ x.sent) (hk : st.returns = k)
  | returned {x} (hx : st.stream c = some x) (hline : '\n' ∈ x.sent) (hk : k < st.returns)
  | stuck {x} (hx : st.stream c = some x) (hpc : st.pc = .receive) (hconn : st.conn = none)
      (hline : '\n' ∉ x.sent) (hclosed : x.closed) (hk : st.returns = k)

section Connection

variable {copy : Copy} {result : List Char → Bool} {st st' : State} {c : Nat} {k : Nat} {x : Stream}

/-- The daemon has just accepted the client's connection. -/
structure Accepted (st : State) (c : Nat) : Prop where
  pc : st.pc = .receive
  conn : st.conn = some c
  stream : ∃ x, st.stream c = some x ∧ x.read = 0

theorem line?_isSome (hread : x.read = 0) : x.line?.isSome ↔ '\n' ∈ x.sent := by
  simp only [Stream.line?, Stream.unread, hread, List.drop_zero]
  split
  · next h => simp [h]
  · next h => simp [h]

/-- The daemon adds nothing to what a client has sent, and closes nothing for it. -/
theorem DaemonStep.stream (h : DaemonStep copy result st st') (hx : st.stream c = some x) :
    ∃ y, st'.stream c = some y ∧ y.sent = x.sent ∧ y.closed = x.closed := by
  cases h with
  | @line c' x' line _ _ hx' _ =>
    by_cases hc : c = c'
    · rw [hc, hx', Option.some.injEq] at hx
      rw [← hx, hc]
      exact ⟨_, update_self .., rfl, rfl⟩
    · exact ⟨x, (update_of_ne hc ..).trans hx, rfl, rfl⟩
  | _ => exact ⟨x, hx, rfl, rfl⟩

theorem DaemonStep.returns_le (h : DaemonStep copy result st st') : st.returns ≤ st'.returns := by
  cases h with
  | answer => exact Nat.le_succ _
  | _ => exact Nat.le_refl _

theorem Phase.daemon (h : Phase k c st) (hstep : DaemonStep copy result st st') :
    Phase k c st' := by
  cases h with
  | returned hx hline hk =>
    rcases hstep.stream hx with ⟨y, hy, hsent, -⟩
    exact .returned hy (hsent ▸ hline) (Nat.lt_of_lt_of_le hk hstep.returns_le)
  | @reading x hx hpc hconn hread hk =>
    cases hstep with
    | @line c' x' line _ hconn' hx' hline =>
      rw [hconn, Option.some.injEq] at hconn'
      subst hconn'
      rw [hx, Option.some.injEq] at hx'
      subst hx'
      refine .running (update_self ..) (.inl rfl) ?_ hk
      exact (line?_isSome hread).1 (Option.isSome_of_eq_some hline)
    | hangUp _ hend =>
      rcases hend c x hconn hx with ⟨hline, hclosed⟩
      refine .stuck hx hpc rfl ?_ hclosed hk
      rw [← line?_isSome hread, hline]
      exact Bool.false_ne_true
    | main h | bind h | listen h | accept h | execute h | answer h =>
      rw [hpc] at h
      cases h
  | @running x line hx hpc hline hk =>
    rcases hpc with hpc | hpc
    · cases hstep with
      | execute h => exact .running hx (.inr rfl) hline hk
      | main h | bind h | listen h | accept h | line h | hangUp h | answer h =>
        rw [hpc] at h
        cases h
    · cases hstep with
      | answer h => exact .returned hx hline (hk ▸ Nat.lt_succ_self _)
      | main h | bind h | listen h | accept h | line h | hangUp h | execute h =>
        rw [hpc] at h
        cases h
  | stuck hx hpc hconn hline hclosed hk =>
    cases hstep with
    | hangUp => exact .stuck hx hpc rfl hline hclosed hk
    | line _ hconn' =>
      rw [hconn] at hconn'
      cases hconn'
    | main h | bind h | listen h | accept h | execute h | answer h =>
      rw [hpc] at h
      cases h

/-- Nothing but the stream of the client is looked at, besides the daemon's own state. -/
theorem Phase.congr (h : Phase k c st) (hpc : st'.pc = st.pc) (hconn : st'.conn = st.conn)
    (hk : st'.returns = st.returns)
    (hstream : ∀ x, st.stream c = some x → ∃ y, st'.stream c = some y ∧ y.read = x.read ∧
      (x.closed → y = x) ∧ ('\n' ∈ x.sent → '\n' ∈ y.sent)) : Phase k c st' := by
  cases h with
  | reading hx hpc₀ hconn₀ hread hk₀ =>
    rcases hstream _ hx with ⟨y, hy, hyread, -, -⟩
    exact .reading hy (hpc.trans hpc₀) (hconn.trans hconn₀) (hyread.trans hread) (hk.trans hk₀)
  | running hx hpc₀ hline hk₀ =>
    rcases hstream _ hx with ⟨y, hy, -, -, hyline⟩
    exact .running hy (hpc.symm ▸ hpc₀) (hyline hline) (hk.trans hk₀)
  | returned hx hline hk₀ =>
    rcases hstream _ hx with ⟨y, hy, -, -, hyline⟩
    exact .returned hy (hyline hline) (hk.symm ▸ hk₀)
  | stuck hx hpc₀ hconn₀ hline hclosed hk₀ =>
    rcases hstream _ hx with ⟨y, hy, -, hsame, -⟩
    rw [hsame hclosed] at hy
    exact .stuck hy (hpc.trans hpc₀) (hconn.trans hconn₀) hline hclosed (hk.trans hk₀)

theorem Phase.onStream (h : Phase k c st) (c' : Nat) {f : Stream → Stream}
    (hread : ∀ x, (f x).read = x.read) (hsent : ∀ x, x.sent <+: (f x).sent) :
    Phase k c (st.onStream c' f) := by
  rcases onStream_cases st c' f with heq | ⟨x', hx', hopen, heq⟩
  · rwa [heq]
  · rw [heq]
    refine h.congr rfl rfl rfl ?_
    intro x hx
    by_cases hc : c = c'
    · subst hc
      rw [hx', Option.some.injEq] at hx
      subst hx
      refine ⟨f x', update_self .., hread x', ?_, fun hline => (hsent x').subset hline⟩
      intro hclosed
      rw [hopen] at hclosed
      cases hclosed
    · exact ⟨x, (update_of_ne hc ..).trans hx, rfl, fun _ => rfl, id⟩

theorem Phase.step (h : Phase k c st) (e : Event) : Phase k c (st.step copy result e) := by
  cases e with
  | daemon =>
    simp only [State.step]
    cases hstep : st.daemon copy result with
    | none => exact h
    | some st' => exact h.daemon (daemonStep_of hstep)
  | connect c' =>
    rcases connect_cases copy result st c' with heq | ⟨g, -, hnew, heq⟩
    · rwa [heq]
    · rw [heq]
      refine h.congr rfl rfl rfl ?_
      intro x hx
      -- a client connects once
      have hc : c ≠ c' := by
        rintro rfl
        rw [hnew] at hx
        cases hx
      exact ⟨x, (update_of_ne hc ..).trans hx, rfl, fun _ => rfl, id⟩
  | send c' text => exact h.onStream c' (fun _ => rfl) fun _ => List.prefix_append ..
  | close c' => exact h.onStream c' (fun _ => rfl) fun _ => List.prefix_rfl

theorem Phase.run (h : Phase k c st) (es : List Event) :
    Phase k c (run (State.step copy result) st es) := by
  induction es generalizing st with
  | nil => exact h
  | cons e es ih => exact ih (h.step e)

theorem Accepted.phase (h : Accepted st c) : Phase st.returns c st := by
  rcases h.stream with ⟨x, hx, hread⟩
  exact .reading hx h.pc h.conn hread rfl

variable (copy result) in
/-- The daemon goes on alone for `n` steps. -/
def alone (n : Nat) (st : State) : State :=
  run (State.step copy result) st (List.replicate n .daemon)

theorem alone_zero : alone copy result 0 st = st := rfl

theorem alone_succ (n : Nat) : alone copy result (n + 1) st =
    alone copy result n ((st.daemon copy result).getD st) := rfl

theorem alone_stream (n : Nat) (hx : st.stream c = some x) :
    ∃ y, (alone copy result n st).stream c = some y ∧ y.sent = x.sent := by
  induction n generalizing st x with
  | zero => exact ⟨x, hx, rfl⟩
  | succ n ih =>
    rw [alone_succ]
    cases hstep : st.daemon copy result with
    | none => exact ih hx
    | some st' =>
      rcases (daemonStep_of hstep).stream hx with ⟨y, hy, hsent, -⟩
      rcases ih hy with ⟨z, hz, hsent'⟩
      exact ⟨z, hz, hsent'.trans hsent⟩

theorem alone_answer {line : List Char} (hpc : st.pc = .answer line) :
    (alone copy result 1 st).returns = st.returns + 1 := by
  simp only [alone_succ, alone_zero, State.daemon, hpc, Option.getD_some]

theorem alone_execute {line : List Char} (hpc : st.pc = .execute line) :
    (alone copy result 2 st).returns = st.returns + 1 := by
  rw [alone_succ]
  simp only [State.daemon, hpc, Option.getD_some]
  exact alone_answer rfl

theorem alone_receive (hpc : st.pc = .receive) (hconn : st.conn = some c)
    (hx : st.stream c = some x)
    (hread : x.read = 0) (hline : '\n' ∈ x.sent) :
    (alone copy result 3 st).returns = st.returns + 1 := by
  rcases Option.isSome_iff_exists.1 ((line?_isSome hread).2 hline) with ⟨line, hline⟩
  rw [alone_succ]
  simp only [State.daemon, hpc, hconn, hx, hline, Option.getD_some]
  exact alone_execute rfl

/-- From its main loop the daemon gets back to waiting at a new socket, and the path leads
there. -/
theorem alone_main (hpc : st.pc = .main) :
    (alone copy result 3 st).pc = .accept ∧
      (alone copy result 3 st).path = some (alone copy result 3 st).sockets := by
  simp only [alone_succ, alone_zero, State.daemon, hpc, Option.getD_some, and_self]

theorem Phase.not_returns (h : Phase k c st) (hx : st.stream c = some x) (hline : '\n' ∉ x.sent) :
    ¬ ∃ n, k < (alone copy result n st).returns := by
  rintro ⟨n, hn⟩
  have hstream : ∃ y, (alone copy result n st).stream c = some y ∧ y.sent = x.sent :=
    alone_stream n hx
  rcases hstream with ⟨y, hy, hsent⟩
  have hafter : Phase k c (alone copy result n st) := h.run _
  cases hafter with
  | returned hx' hline' =>
    rw [hy, Option.some.injEq] at hx'
    rw [← hx', hsent] at hline'
    exact hline hline'
  | reading _ _ _ _ hk | running _ _ _ hk | stuck _ _ _ _ _ hk => omega

/-- **Whatever a client does, and whoever comes in between: `StartServerSocket` has returned,
or the daemon will make it return, if and only if the client has sent a newline by then. And
when it has returned, the daemon accepts again.** (Of a client that has closed, `x.sent` is all
it will ever send.) -/
theorem returns_iff_line (copy : Copy) (result : List Char → Bool) {st : State} {c : Nat}
    (h : Accepted st c) (es : List Event) {x : Stream}
    (hx : (run (State.step copy result) st es).stream c = some x) :
    ((∃ n, st.returns < (alone copy result n (run (State.step copy result) st es)).returns) ↔
      '\n' ∈ x.sent) ∧
    ∀ st', st'.pc = .main → (alone copy result 3 st').pc = .accept ∧
      (alone copy result 3 st').path = some (alone copy result 3 st').sockets := by
  have hphase : Phase st.returns c (run (State.step copy result) st es) := h.phase.run es
  constructor
  · constructor
    · intro hreturns
      by_contra hline
      exact hphase.not_returns hx hline hreturns
    · intro hline
      cases hphase with
      | reading hx' hpc hconn hread hk =>
        rw [hx, Option.some.injEq] at hx'
        subst hx'
        exact ⟨3, by rw [alone_receive hpc hconn hx hread hline, hk]; exact Nat.lt_succ_self _⟩
      | running _ hpc _ hk =>
        rcases hpc with hpc | hpc
        · exact ⟨2, by rw [alone_execute hpc, hk]; exact Nat.lt_succ_self _⟩
        · exact ⟨1, by rw [alone_answer hpc, hk]; exact Nat.lt_succ_self _⟩
      | returned _ _ hk => exact ⟨0, hk⟩
      | stuck hx' _ _ hnot =>
        rw [hx, Option.some.injEq] at hx'
        subst hx'
        exact absurd hline hnot
  · intro st' hpc
    exact alone_main hpc

/-- The daemon listens, the first client connects, and is accepted. -/
def accepting : List Event := [.daemon, .daemon, .daemon, .connect 0, .daemon]

theorem accepting_accepted (copy : Copy) (result : List Char → Bool) :
    Accepted (run (State.step copy result) .start accepting) 0 :=
  ⟨rfl, rfl, _, rfl, rfl⟩

theorem silent_stuck (copy : Copy) (result : List Char → Bool) :
    ¬ ∃ n, 0 < (alone copy result n
      (run (State.step copy result) .start (accepting ++ [.close 0]))).returns := by
  rw [run_append]
  have hphase : Phase _ 0 (run (State.step copy result) _ [.close 0]) :=
    (accepting_accepted copy result).phase.run _
  exact hphase.not_returns (x := ⟨[], 0, true⟩) rfl (by simp)

/-- A client connects and closes. Neither copy of the daemon returns from its loop. -/
theorem silent_client :
    (¬ ∃ n, 0 < (alone .source (fun _ => true) n
      (run (State.step .source fun _ => true) .start (accepting ++ [.close 0]))).returns) ∧
    ¬ ∃ n, 0 < (alone .installed (fun _ => true) n
      (run (State.step .installed fun _ => true) .start (accepting ++ [.close 0]))).returns :=
  ⟨silent_stuck _ _, silent_stuck _ _⟩

/-- A client sends a line and closes. -/
theorem returns_for_line :
    ∃ n, 0 < (alone .source (fun _ => true) n (run (State.step .source fun _ => true)
      (run (State.step .source fun _ => true) .start accepting)
      [.send 0 "true\n".toList, .close 0])).returns :=
  (returns_iff_line .source (fun _ => true) (accepting_accepted .source fun _ => true)
    [.send 0 "true\n".toList, .close 0] (x := ⟨"true\n".toList, 0, true⟩) rfl).1.2 (by decide)

end Connection

/-! ## Delivery -/

/-- What `client.lua` does: it connects, sends one line, and closes. -/
def ByClient (st : State) : Event → Prop
  | .daemon | .connect _ => True
  | .send c text => (∃ x, st.stream c = some x ∧ x.sent = [] ∧ x.closed = false) ∧
      ∃ line, text = line ++ ['\n'] ∧ '\n' ∉ line ∧ '\r' ∉ line
  | .close c => ∃ x, st.stream c = some x ∧ x.sent ≠ []

/-- A client connects only while the daemon waits for one and no other has come. -/
def InTurn (st : State) : Event → Prop
  | .connect _ => st.pc = .accept ∧ st.backlog st.sockets = []
  | _ => True

/-- The commands of a client that were executed. -/
def State.executedFor (st : State) (c : Nat) : List (Nat × List Char) :=
  st.executed.filter (·.1 = c)

/-- No command is executed twice, and one that was sent is executed, if not yet then by
the daemon's next steps. -/
structure Delivered (copy : Copy) (result : List Char → Bool) (st : State) : Prop where
  once : ∀ c, (st.executedFor c).length ≤ 1
  sent : ∀ c x line, st.stream c = some x → x.sent = line ++ ['\n'] →
    ∃ n, (alone copy result n st).executedFor c = [(c, line)]

/-- A client that has not come, or whose command was executed. -/
def Through (st : State) (c : Nat) : Prop :=
  st.stream c = none ∧ st.executedFor c = [] ∨
    ∃ x line, st.stream c = some x ∧ x.sent = line ++ ['\n'] ∧ st.executedFor c = [(c, line)]

/-- The client whose turn it is. -/
structure Current (st : State) (c : Nat) : Prop where
  stream : ∃ x, st.stream c = some x ∧ x.read = 0 ∧
    (x.sent = [] ∧ x.closed = false ∨ ∃ line, x.sent = line ++ ['\n'] ∧ '\n' ∉ line ∧ '\r' ∉ line)
  none : st.executedFor c = []

/-- One client at a time, from its connection to its command. -/
inductive Turn (st : State) : Prop where
  | idle (hpc : st.pc = .main ∨ st.pc = .bind ∨ st.pc = .listen ∨ st.pc = .accept ∨
        ∃ line, st.pc = .answer line)
      (hpath : st.pc = .listen ∨ st.pc = .accept → st.path = some st.sockets)
      (hlog : ∀ g, st.backlog g = []) (hall : ∀ c, Through st c)
  | waiting {c} (hpc : st.pc = .accept) (hlog : st.backlog = update (fun _ => []) st.sockets [c])
      (hc : Current st c) (hall : ∀ c', c' ≠ c → Through st c')
  | serving {c} (hpc : st.pc = .receive) (hconn : st.conn = some c) (hlog : ∀ g, st.backlog g = [])
      (hc : Current st c) (hall : ∀ c', c' ≠ c → Through st c')
  | executing {c line x} (hpc : st.pc = .execute line) (hconn : st.conn = some c)
      (hlog : ∀ g, st.backlog g = []) (hx : st.stream c = some x) (hsent : x.sent = line ++ ['\n'])
      (hnone : st.executedFor c = []) (hall : ∀ c', c' ≠ c → Through st c')

section Delivery

variable {copy : Copy} {result : List Char → Bool} {st st' : State} {c c' : Nat} {x : Stream}
  {line : List Char}

theorem line?_of_sent (hread : x.read = 0) (hsent : x.sent = line ++ ['\n']) (hn : '\n' ∉ line)
    (hr : '\r' ∉ line) : x.line? = some line := by
  have htake : (line ++ ['\n']).takeWhile (· ≠ '\n') = line := by
    rw [List.takeWhile_append_of_pos]
    · simp
    · intro d hd
      simp only [ne_eq, decide_eq_true_eq]
      rintro rfl
      exact hn hd
  have hfilter : line.filter (· ≠ '\r') = line := by
    rw [List.filter_eq_self]
    intro d hd
    simp only [ne_eq, decide_eq_true_eq]
    rintro rfl
    exact hr hd
  rw [Stream.line?, Stream.unread, hread, List.drop_zero, hsent, if_pos (by simp), htake, hfilter]

/-- Being through depends on what the client has sent and what was executed for it. -/
theorem Through.congr (h : Through st c) (hexec : st'.executedFor c = st.executedFor c)
    (hstream : (st.stream c = none → st'.stream c = none) ∧
      ∀ x, st.stream c = some x → ∃ y, st'.stream c = some y ∧ y.sent = x.sent) :
      Through st' c := by
  rcases h with ⟨hnone, hnot⟩ | ⟨x, line, hx, hsent, hdone⟩
  · exact .inl ⟨hstream.1 hnone, hexec.trans hnot⟩
  · rcases hstream.2 x hx with ⟨y, hy, hysent⟩
    exact .inr ⟨y, line, hy, hysent.trans hsent, hexec.trans hdone⟩

/-- The streams and what was executed are as before. -/
theorem Through.of_eq (h : Through st c) (hstream : st'.stream = st.stream)
    (hexec : st'.executed = st.executed) : Through st' c := by
  refine h.congr (by rw [State.executedFor, hexec, State.executedFor]) ⟨?_, ?_⟩
  · intro hnone
    rw [hstream, hnone]
  · intro x hx
    exact ⟨x, by rw [hstream, hx], rfl⟩

theorem Current.of_eq (h : Current st c) (hstream : st'.stream = st.stream)
    (hexec : st'.executed = st.executed) : Current st' c := by
  constructor
  · rw [hstream]
    exact h.stream
  · rw [State.executedFor, hexec]
    exact h.none

/-- The daemon's step, when it is someone's turn. -/
theorem Turn.daemon (h : Turn st) (hstep : DaemonStep copy result st st') : Turn st' := by
  cases h with
  | idle hpc hpath hlog hall =>
    cases hstep with
    | main h => exact .idle (.inr (.inl rfl)) (by simp) hlog fun c => (hall c).of_eq rfl rfl
    | bind h =>
      exact .idle (.inr (.inr (.inl rfl))) (fun _ => rfl) hlog fun c => (hall c).of_eq rfl rfl
    | listen h =>
      exact .idle (.inr (.inr (.inr (.inl rfl)))) (fun _ => hpath (.inl h)) hlog
        fun c => (hall c).of_eq rfl rfl
    | accept h hlog' =>
      rw [hlog] at hlog'
      cases hlog'
    | answer h => exact .idle (.inl rfl) (by simp) hlog fun c => (hall c).of_eq rfl rfl
    | line h | hangUp h | execute h => simp [h] at hpc
  | @waiting c hpc hlog hc hall =>
    cases hstep with
    | @accept c' cs h hlog' =>
      rw [hlog, update_self, List.cons.injEq] at hlog'
      rcases hlog' with ⟨rfl, rfl⟩
      refine .serving rfl rfl ?_ (hc.of_eq rfl rfl) fun c' hc' => (hall c' hc').of_eq rfl rfl
      intro g
      by_cases hg : g = st.sockets
      · simp [hg]
      · simp [hg, hlog]
    | main h | bind h | listen h | line h | hangUp h | execute h | answer h => simp [h] at hpc
  | @serving c hpc hconn hlog hc hall =>
    rcases hc.stream with ⟨x, hx, hread, hsent⟩
    cases hstep with
    | @line c' x' line h hconn' hx' hline =>
      rw [hconn, Option.some.injEq] at hconn'
      subst hconn'
      rw [hx, Option.some.injEq] at hx'
      subst hx'
      rcases hsent with ⟨hempty, -⟩ | ⟨line', hsent, hn, hr⟩
      · simp [Stream.line?, Stream.unread, hempty] at hline
      · rw [line?_of_sent hread hsent hn hr, Option.some.injEq] at hline
        subst hline
        refine .executing (x := x.skipLine) rfl hconn hlog (update_self ..) hsent hc.none ?_
        intro c' hc'
        refine (hall c' hc').congr rfl ⟨?_, ?_⟩
        · intro hnone
          exact (update_of_ne hc' ..).trans hnone
        · intro y hy
          exact ⟨y, (update_of_ne hc' ..).trans hy, rfl⟩
    | hangUp h hend =>
      -- the client has neither closed without a line nor sent a line that is not read
      rcases hend c x hconn hx with ⟨hline, hclosed⟩
      rcases hsent with ⟨-, hopen⟩ | ⟨line', hsent, hn, hr⟩
      · rw [hopen] at hclosed
        cases hclosed
      · rw [line?_of_sent hread hsent hn hr] at hline
        cases hline
    | main h | bind h | listen h | accept h | execute h | answer h => simp [h] at hpc
  | @executing c line x hpc hconn hlog hx hsent hnone hall =>
    cases hstep with
    | @execute line' h =>
      rw [hpc, Pc.execute.injEq] at h
      subst h
      have hexec (c' : Nat) : (st.executed ++ (st.conn.toList.map (·, line))).filter (·.1 = c') =
          st.executedFor c' ++ if c' = c then [(c, line)] else [] := by
        rw [hconn, List.filter_append]
        by_cases hc : c' = c
        · simp [State.executedFor, hc]
        · simp [State.executedFor, hc, Ne.symm hc]
      refine .idle (.inr (.inr (.inr (.inr ⟨line, rfl⟩)))) (by simp) hlog ?_
      intro c'
      by_cases hc : c' = c
      · subst hc
        refine .inr ⟨x, line, hx, hsent, ?_⟩
        rw [State.executedFor, hexec, hnone, if_pos rfl, List.nil_append]
      · refine (hall c' hc).congr ?_ ⟨id, fun y hy => ⟨y, hy, rfl⟩⟩
        rw [State.executedFor, hexec, if_neg hc, List.append_nil]
    | main h | bind h | listen h | accept h | line h | hangUp h | answer h => simp [h] at hpc

/-- Another state of a client's connection. -/
def State.setStream (st : State) (c : Nat) (y : Stream) : State :=
  { st with stream := update st.stream c (some y) }

theorem Through.setStream (h : Through st c') (hx : st.stream c = some x) {y : Stream}
    (hy : c' = c → y.sent = x.sent) : Through (st.setStream c y) c' := by
  refine h.congr rfl ⟨?_, ?_⟩
  · intro hnone
    have hc : c' ≠ c := by
      rintro rfl
      rw [hx] at hnone
      cases hnone
    exact (update_of_ne hc ..).trans hnone
  · intro z hz
    by_cases hc : c' = c
    · subst hc
      rw [hx, Option.some.injEq] at hz
      exact ⟨y, update_self .., hz ▸ hy rfl⟩
    · exact ⟨z, (update_of_ne hc ..).trans hz, rfl⟩

theorem Current.setStream (h : Current st c') (hx : st.stream c = some x) {y : Stream}
    (hread : y.read = x.read)
    (hy : ∃ line, y.sent = line ++ ['\n'] ∧ '\n' ∉ line ∧ '\r' ∉ line) :
    Current (st.setStream c y) c' := by
  rcases h.stream with ⟨z, hz, hzread, hzsent⟩
  refine ⟨?_, h.none⟩
  by_cases hc : c' = c
  · subst hc
    rw [hx, Option.some.injEq] at hz
    exact ⟨y, update_self .., hread.trans (hz ▸ hzread), .inr hy⟩
  · exact ⟨z, (update_of_ne hc ..).trans hz, hzread, hzsent⟩

theorem not_through_of_empty (hx : st.stream c = some x) (hempty : x.sent = []) :
    ¬ Through st c := by
  rintro (⟨hnone, -⟩ | ⟨y, line, hy, hsent, -⟩)
  · rw [hx] at hnone
    cases hnone
  · rw [hx, Option.some.injEq] at hy
    rw [← hy, hempty] at hsent
    simp at hsent

/-- A client sends its line: it is the one whose turn it is. -/
theorem Turn.send (h : Turn st) (hx : st.stream c = some x) (hempty : x.sent = []) {y : Stream}
    (hread : y.read = x.read)
    (hy : ∃ line, y.sent = line ++ ['\n'] ∧ '\n' ∉ line ∧ '\r' ∉ line) :
    Turn (st.setStream c y) := by
  have hturn {c₀ : Nat} (hall : ∀ c', c' ≠ c₀ → Through st c') : c = c₀ := by
    by_contra hc
    exact not_through_of_empty hx hempty (hall c hc)
  cases h with
  | idle _ _ _ hall => exact absurd (hall c) (not_through_of_empty hx hempty)
  | waiting hpc hlog hc hall =>
    refine .waiting hpc hlog (hc.setStream hx hread hy) fun c' hc' => (hall c' hc').setStream hx ?_
    intro heq
    exact absurd (heq.trans (hturn hall)) hc'
  | serving hpc hconn hlog hc hall =>
    refine .serving hpc hconn hlog (hc.setStream hx hread hy) fun c' hc' =>
      (hall c' hc').setStream hx ?_
    intro heq
    exact absurd (heq.trans (hturn hall)) hc'
  | executing _ _ _ hx' hsent _ hall =>
    rw [← hturn hall, hx, Option.some.injEq] at hx'
    rw [← hx', hempty] at hsent
    simp at hsent

/-- A client that has sent its line closes. -/
theorem Turn.close (h : Turn st) (hx : st.stream c = some x) (hne : x.sent ≠ []) {y : Stream}
    (hread : y.read = x.read) (hy : y.sent = x.sent) : Turn (st.setStream c y) := by
  have hcurrent {c₀ : Nat} (hc : Current st c₀) : Current (st.setStream c y) c₀ := by
    by_cases heq : c₀ = c
    · subst heq
      rcases hc.stream with ⟨z, hz, -, hsent⟩
      rw [hx, Option.some.injEq] at hz
      subst hz
      rcases hsent with ⟨hempty, -⟩ | hline
      · exact absurd hempty hne
      · exact hc.setStream hx hread (hy ▸ hline)
    · rcases hc.stream with ⟨z, hz, hrest⟩
      exact ⟨⟨z, (update_of_ne heq ..).trans hz, hrest⟩, hc.none⟩
  cases h with
  | idle hpc hpath hlog hall =>
    exact .idle hpc hpath hlog fun c' => (hall c').setStream hx fun _ => hy
  | waiting hpc hlog hc hall =>
    exact .waiting hpc hlog (hcurrent hc) fun c' hc' => (hall c' hc').setStream hx fun _ => hy
  | serving hpc hconn hlog hc hall =>
    exact .serving hpc hconn hlog (hcurrent hc) fun c' hc' => (hall c' hc').setStream hx fun _ => hy
  | @executing c₀ line x₀ hpc hconn hlog hx₀ hsent hnone hall =>
    by_cases heq : c₀ = c
    · subst heq
      rw [hx, Option.some.injEq] at hx₀
      exact .executing hpc hconn hlog (update_self ..) (hy.trans (hx₀ ▸ hsent)) hnone
        fun c' hc' => (hall c' hc').setStream hx fun _ => hy
    · exact .executing hpc hconn hlog ((update_of_ne heq ..).trans hx₀) hsent hnone
        fun c' hc' => (hall c' hc').setStream hx fun _ => hy

/-- A client connects while the daemon waits. -/
theorem Turn.connect (h : Turn st) (hpc : st.pc = .accept) (hlog : st.backlog st.sockets = [])
    (c : Nat) : Turn (st.step copy result (.connect c)) := by
  rcases connect_cases copy result st c with heq | ⟨g, hpath, hnew, heq⟩
  · rwa [heq]
  · rw [heq]
    cases h with
    | idle _ hpath' hlog' hall =>
      rw [hpath' (.inr hpc), Option.some.injEq] at hpath
      subst hpath
      have hnone : st.executedFor c = [] := by
        rcases hall c with ⟨-, hnone⟩ | ⟨x, _, hx, -⟩
        · exact hnone
        · rw [hnew] at hx
          cases hx
      refine .waiting hpc ?_ ⟨⟨_, update_self .., rfl, .inl ⟨rfl, rfl⟩⟩, hnone⟩ ?_
      · rw [hlog, List.nil_append]
        funext g
        by_cases hg : g = st.sockets
        · simp [hg]
        · simp [hg, hlog']
      · intro c' hc'
        refine (hall c').congr rfl ⟨?_, ?_⟩
        · intro hnone
          exact (update_of_ne hc' ..).trans hnone
        · intro y hy
          exact ⟨y, (update_of_ne hc' ..).trans hy, rfl⟩
    | waiting _ hlog' =>
      rw [hlog', update_self] at hlog
      cases hlog
    | serving hpc' | executing hpc' =>
      rw [hpc] at hpc'
      cases hpc'

theorem Turn.step (h : Turn st) {e : Event} (hclient : ByClient st e) (hturn : InTurn st e) :
    Turn (st.step copy result e) := by
  cases e with
  | daemon =>
    simp only [State.step]
    cases hstep : st.daemon copy result with
    | none => exact h
    | some st' => exact h.daemon (daemonStep_of hstep)
  | connect c => exact h.connect hturn.1 hturn.2 c
  | send c text =>
    rcases hclient with ⟨⟨x, hx, hempty, -⟩, line, rfl, hline⟩
    rcases onStream_cases st c fun x => { x with sent := x.sent ++ (line ++ ['\n']) } with
      heq | ⟨x', hx', -, heq⟩
    · rwa [State.step, heq]
    · rw [hx, Option.some.injEq] at hx'
      subst hx'
      rw [State.step, heq]
      exact h.send hx hempty rfl ⟨line, by rw [hempty, List.nil_append], hline⟩
  | close c =>
    rcases hclient with ⟨x, hx, hne⟩
    rcases onStream_cases st c fun x => { x with closed := true } with heq | ⟨x', hx', -, heq⟩
    · rwa [State.step, heq]
    · rw [hx, Option.some.injEq] at hx'
      subst hx'
      rw [State.step, heq]
      exact h.close hx hne rfl rfl

theorem turn_start : Turn .start :=
  .idle (.inl rfl) (by simp [State.start]) (fun _ => rfl) fun _ => .inl ⟨rfl, rfl⟩

/-! ### What has been sent is executed -/

theorem alone_executing (hpc : st.pc = .execute line) (hconn : st.conn = some c)
    (hnone : st.executedFor c = []) :
    (alone copy result 1 st).executedFor c = [(c, line)] := by
  simp only [alone_succ, alone_zero, State.daemon, hpc, Option.getD_some, State.executedFor,
    List.filter_append]
  rw [State.executedFor] at hnone
  simp [hnone, hconn]

theorem alone_serving (hpc : st.pc = .receive) (hconn : st.conn = some c) (hc : Current st c)
    (hx : st.stream c = some x) (hsent : x.sent = line ++ ['\n']) :
    (alone copy result 2 st).executedFor c = [(c, line)] := by
  rcases hc.stream with ⟨y, hy, hread, hysent⟩
  rw [hx, Option.some.injEq] at hy
  subst hy
  rcases hysent with ⟨hempty, -⟩ | ⟨line', hline', hn, hr⟩
  · simp [hempty] at hsent
  · rw [hline'] at hsent
    have hsame := List.append_cancel_right hsent
    rw [alone_succ]
    simp only [State.daemon, hpc, hconn, hx, line?_of_sent hread hline' hn hr, Option.getD_some]
    rw [hsame]
    exact alone_executing rfl rfl hc.none

theorem alone_waiting (hpc : st.pc = .accept) (hlog : st.backlog st.sockets = [c])
    (hc : Current st c) (hx : st.stream c = some x) (hsent : x.sent = line ++ ['\n']) :
    (alone copy result 3 st).executedFor c = [(c, line)] := by
  rw [alone_succ]
  simp only [State.daemon, hpc, hlog, Option.getD_some]
  exact alone_serving rfl rfl (hc.of_eq rfl rfl) hx hsent

theorem Through.length_le (h : Through st c) : (st.executedFor c).length ≤ 1 := by
  rcases h with ⟨-, hnone⟩ | ⟨_, _, -, -, hone⟩
  · rw [hnone]
    exact Nat.zero_le _
  · rw [hone]
    exact Nat.le_refl _

theorem Through.sent (h : Through st c) (hx : st.stream c = some x)
    (hsent : x.sent = line ++ ['\n']) : (alone copy result 0 st).executedFor c = [(c, line)] := by
  rcases h with ⟨hnone, -⟩ | ⟨y, line', hy, hsent', hone⟩
  · rw [hx] at hnone
    cases hnone
  · rw [hx, Option.some.injEq] at hy
    subst hy
    rw [hsent] at hsent'
    rw [List.append_cancel_right hsent']
    exact hone

theorem Turn.delivered (h : Turn st) : Delivered copy result st := by
  constructor
  · intro c
    cases h with
    | idle _ _ _ hall => exact (hall c).length_le
    | @waiting c₀ _ _ hc hall | @serving c₀ _ _ _ hc hall =>
      by_cases heq : c = c₀
      · rw [heq, hc.none]
        exact Nat.zero_le _
      · exact (hall c heq).length_le
    | @executing c₀ _ _ _ _ _ _ _ hnone hall =>
      by_cases heq : c = c₀
      · rw [heq, hnone]
        exact Nat.zero_le _
      · exact (hall c heq).length_le
  · intro c x line hx hsent
    cases h with
    | idle _ _ _ hall => exact ⟨0, (hall c).sent hx hsent⟩
    | @waiting c₀ hpc hlog hc hall =>
      by_cases heq : c = c₀
      · subst heq
        exact ⟨3, alone_waiting hpc (by rw [hlog, update_self]) hc hx hsent⟩
      · exact ⟨0, (hall c heq).sent hx hsent⟩
    | @serving c₀ hpc hconn _ hc hall =>
      by_cases heq : c = c₀
      · subst heq
        exact ⟨2, alone_serving hpc hconn hc hx hsent⟩
      · exact ⟨0, (hall c heq).sent hx hsent⟩
    | @executing c₀ line₀ x₀ hpc hconn _ hx₀ hsent₀ hnone hall =>
      by_cases heq : c = c₀
      · subst heq
        rw [hx, Option.some.injEq] at hx₀
        rw [← hx₀, hsent] at hsent₀
        rw [List.append_cancel_right hsent₀]
        exact ⟨1, alone_executing hpc hconn hnone⟩
      · exact ⟨0, (hall c heq).sent hx hsent⟩

/-- **Every command that was sent is executed exactly once, in every run of any number of
clients in which each of them connects while the daemon waits for one.** -/
theorem delivered_in_turn (copy : Copy) (result : List Char → Bool) {es : List Event}
    (h : Along (State.step copy result) (fun st e => ByClient st e ∧ InTurn st e) .start es) :
    Delivered copy result (run (State.step copy result) .start es) :=
  Turn.delivered (Along.invariant (fun _ _ hturn hC => hturn.step hC.1 hC.2) turn_start h)

/-! ### Two clients -/

theorem alone_of_waiting (h : st.daemon copy result = none) (n : Nat) :
    alone copy result n st = st := by
  induction n with
  | zero => rfl
  | succ n ih => rw [alone_succ, h, Option.getD_none, ih]

def sendLine (c : Nat) (line : String) : Event := .send c (line.toList ++ ['\n'])

/-- The second client connects while the first one is served. -/
def overlapping : List Event :=
  accepting ++ [.connect 1, sendLine 0 "first", sendLine 1 "second", .close 0, .close 1] ++
    List.replicate 6 .daemon

/-- Its command waits at a socket that nobody serves any more, and the daemon waits at
another one. -/
theorem lost_command :
    Along (State.step .source fun _ => true) ByClient .start overlapping ∧
    (run (State.step .source fun _ => true) .start overlapping).stream 1 =
      some ⟨"second\n".toList, 0, true⟩ ∧
    ¬ ∃ n, (alone .source (fun _ => true) n
      (run (State.step .source fun _ => true) .start overlapping)).executedFor 1 =
        [(1, "second".toList)] := by
  refine ⟨?_, rfl, ?_⟩
  · refine ⟨trivial, trivial, trivial, trivial, trivial, trivial,
      ⟨⟨_, rfl, rfl, rfl⟩, "first".toList, rfl, by decide, by decide⟩,
      ⟨⟨_, rfl, rfl, rfl⟩, "second".toList, rfl, by decide, by decide⟩,
      ⟨_, rfl, by decide⟩, ⟨_, rfl, by decide⟩, trivial, trivial, trivial, trivial, trivial,
      trivial,
      trivial⟩
  · rintro ⟨n, hn⟩
    rw [alone_of_waiting (by rfl)] at hn
    exact absurd hn (by decide)

/-- The second client comes when the daemon waits again. -/
def oneByOne : List Event :=
  [.daemon, .daemon, .daemon, .connect 0, sendLine 0 "first", .close 0] ++
    List.replicate 7 .daemon ++ [.connect 1, sendLine 1 "second", .close 1]

theorem delivered_oneByOne : Delivered .installed (fun _ => false)
    (run (State.step .installed fun _ => false) .start oneByOne) := by
  apply delivered_in_turn
  refine ⟨⟨trivial, trivial⟩, ⟨trivial, trivial⟩, ⟨trivial, trivial⟩, ⟨trivial, rfl, rfl⟩,
    ⟨⟨⟨_, rfl, rfl, rfl⟩, "first".toList, rfl, by decide, by decide⟩, trivial⟩,
    ⟨⟨_, rfl, by decide⟩, trivial⟩, ⟨trivial, trivial⟩, ⟨trivial, trivial⟩, ⟨trivial, trivial⟩,
    ⟨trivial, trivial⟩, ⟨trivial, trivial⟩, ⟨trivial, trivial⟩, ⟨trivial, trivial⟩,
    ⟨trivial, rfl, rfl⟩,
    ⟨⟨⟨_, rfl, rfl, rfl⟩, "second".toList, rfl, by decide, by decide⟩, trivial⟩,
    ⟨⟨_, rfl, by decide⟩, trivial⟩, trivial⟩

end Delivery

end NsBoot.Daemon
