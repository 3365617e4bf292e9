import CustomRedis.Proof.EventLoop

/-!
# Connections along a run of the event loop

The first half is about connections that are to be closed: `want_close` is looked at only where `poll` has reported
an error too, so a connection that the handlers have given up stays unless every call that gives one up comes with
such a report. The second half is about the flags and buffers of all connections: they fit together whenever a
handler has returned.
-/

namespace CustomRedis

open Run (run ok_of_bind Along check exists_ok_of_check)

variable {δ : Type}

/-! ### Connections to be closed -/

/-- No registered connection is waiting to be closed. -/
def NoneClosing (s : Loop δ) : Prop :=
  ∀ (fd : Nat) (c : Ptr) (conn : ConnRec),
    s.fdToConn[fd]? = some (some c) → s.conns.read c = some conn → conn.wantClose = false

/-- `handle_write` gives the connection up. -/
def WriteFails (s : Loop δ) (c : Ptr) : WriteResult → Prop
  | .again => False
  | .closed => True
  | .wrote _ => ∀ conn ∈ s.conns.read c, conn.outgoing = []

instance decidableWriteFails (s : Loop δ) (c : Ptr) : (res : WriteResult) → Decidable (WriteFails s c res)
  | .again => instDecidableFalse
  | .closed => instDecidableTrue
  | .wrote _ => inferInstanceAs (Decidable (∀ conn ∈ s.conns.read c, conn.outgoing = []))

/-- Where a handler gives a connection up, `poll` has reported an error for it. -/
def ReportedAt (s : Loop δ) (ans : Answer) : Phase → Prop
  | .read _ ready _ => ready &&& pollIn ≠ 0 → ans.read = .closed → ready &&& pollErr ≠ 0
  | .write c ready _ => ready &&& pollOut ≠ 0 → WriteFails s c ans.write → ready &&& pollErr ≠ 0
  | _ => True

instance decidableReportedAt (s : Loop δ) (ans : Answer) : (phase : Phase) → Decidable (ReportedAt s ans phase)
  | .poll => instDecidableTrue
  | .sockets _ => instDecidableTrue
  | .read _ ready _ =>
    inferInstanceAs (Decidable (ready &&& pollIn ≠ 0 → ans.read = .closed → ready &&& pollErr ≠ 0))
  | .write c ready _ =>
    inferInstanceAs (Decidable (ready &&& pollOut ≠ 0 → WriteFails s c ans.write → ready &&& pollErr ≠ 0))
  | .close _ _ _ => instDecidableTrue
  | .timers _ _ => instDecidableTrue

def ErrorReported (s : Loop δ) (ans : Answer) : Prop := ReportedAt s ans s.phase

instance (s : Loop δ) (ans : Answer) : Decidable (ErrorReported s ans) := decidableReportedAt s ans s.phase

/-- A connection to be closed is the one that is being handled, and it will be closed. -/
def ClosingNow (s : Loop δ) : Prop :=
  ∀ c conn, s.conns.read c = some conn → conn.wantClose = true →
    ∃ ready args, (s.phase = .write c ready args ∨ s.phase = .close c ready args) ∧ ready &&& pollErr ≠ 0

section Closing

variable {srv : Service δ} {clock : Nat → Nat} {s s' : Loop δ} {ans : Answer}

/-- Where no handler has run yet, nothing is to be closed. -/
theorem ClosingNow.none (h : ClosingNow s) (hwrite : ∀ c ready args, s.phase ≠ .write c ready args)
    (hclose : ∀ c ready args, s.phase ≠ .close c ready args) {c : Ptr} {conn : ConnRec}
    (hconn : s.conns.read c = some conn) : conn.wantClose = false := by
  apply Bool.eq_false_of_not_eq_true
  intro hwant
  obtain ⟨ready, args, hphase | hphase, -⟩ := h c conn hconn hwant
  · exact hwrite c ready args hphase
  · exact hclose c ready args hphase

theorem closingNow_of_none (h : ∀ c conn, s.conns.read c = some conn → conn.wantClose = false) : ClosingNow s := by
  intro c conn hconn hwant
  rw [h c conn hconn] at hwant
  cases hwant

/-- The connection that is being handled is the only one to be closed. -/
theorem ClosingNow.other {c q : Ptr} {ready : UInt8} {args : List (Nat × UInt8)} {conn : ConnRec} (h : ClosingNow s)
    (hphase : s.phase = .write c ready args ∨ s.phase = .close c ready args) (hne : q ≠ c)
    (hconn : s.conns.read q = some conn) : conn.wantClose = false := by
  apply Bool.eq_false_of_not_eq_true
  intro hwant
  obtain ⟨ready', args', hq, -⟩ := h q conn hconn hwant
  rcases hphase with hphase | hphase <;> rw [hphase] at hq <;> rcases hq with hq | hq <;> cases hq <;> exact hne rfl

theorem ClosingNow.reported {c : Ptr} {ready : UInt8} {args : List (Nat × UInt8)} {conn : ConnRec} (h : ClosingNow s)
    (hphase : s.phase = .write c ready args ∨ s.phase = .close c ready args) (hconn : s.conns.read c = some conn)
    (hwant : conn.wantClose = true) : ready &&& pollErr ≠ 0 := by
  obtain ⟨ready', args', hq, herr⟩ := h c conn hconn hwant
  rcases hphase with hphase | hphase <;> rw [hphase] at hq <;> rcases hq with hq | hq <;> cases hq <;> exact herr

theorem closed_none {c : Ptr} (h : ∀ q conn, q ≠ c → s.conns.read q = some conn → conn.wantClose = false)
    (hclosed : Closed s c s') : ∀ q conn, s'.conns.read q = some conn → conn.wantClose = false := by
  cases hclosed with
  | mk hconn hm => exact Mem.forall_read_free h

theorem readOutcome_closingNow {c : Ptr} {ready : UInt8} {args : List (Nat × UInt8)}
    (h : ∀ q conn, s.conns.read q = some conn → conn.wantClose = false)
    (hreport : ans.read = .closed → ready &&& pollErr ≠ 0) (ho : ReadOutcome srv clock s c ans.read s') :
    ClosingNow { s' with phase := .write c ready args } := by
  cases hres : ans.read with
  | again =>
    rw [hres] at ho
    cases ho with
    | again => exact closingNow_of_none h
  | closed =>
    rw [hres] at ho
    cases ho with
    | closed hconn hm =>
      refine Mem.forall_read_set hconn ?_ ?_
      · intro _
        exact ⟨ready, args, .inl rfl, hreport hres⟩
      · intro q conn hne hq hwant
        rw [h q conn hq] at hwant
        cases hwant
  | data first rest =>
    rw [hres] at ho
    cases ho with
    | quiet hconn hread hempty =>
      have hnone := h c _ hconn
      exact closingNow_of_none (Mem.forall_read_set hconn hnone fun q conn _ => h q conn)
    | replied hconn hread hreply hm hm' =>
      have hnone := h c _ hconn
      exact closingNow_of_none (Mem.forall_read_set hconn hnone fun q conn _ => h q conn)

theorem writeOutcome_closingNow {c : Ptr} {ready : UInt8} {args : List (Nat × UInt8)} (h : ClosingNow s)
    (hphase : s.phase = .write c ready args) (hreport : WriteFails s c ans.write → ready &&& pollErr ≠ 0)
    (ho : WriteOutcome clock s c ans.write s') : ClosingNow { s' with phase := .close c ready args } := by
  have hother : ∀ q conn, q ≠ c → s.conns.read q = some conn → conn.wantClose = true →
      ∃ ready' args', (Phase.close c ready args = .write q ready' args' ∨
        Phase.close c ready args = .close q ready' args') ∧ ready' &&& pollErr ≠ 0 := by
    intro q conn hne hq hwant
    rw [h.other (.inl hphase) hne hq] at hwant
    cases hwant
  generalize hres : ans.write = res at ho hreport
  cases ho with
  | again =>
    intro q conn hq hwant
    by_cases hqc : q = c
    · subst hqc
      exact ⟨ready, args, .inr rfl, h.reported (.inl hphase) hq hwant⟩
    · exact hother q conn hqc hq hwant
  | closed hconn hfail hm =>
    refine Mem.forall_read_set hconn ?_ ?_
    · intro _
      refine ⟨ready, args, .inr rfl, hreport ?_⟩
      rcases hfail with rfl | ⟨⟨more, rfl⟩, hempty⟩
      · trivial
      · intro conn' hconn'
        cases hconn.symm.trans hconn'
        exact hempty
    · exact hother
  | some hconn hless =>
    refine Mem.forall_read_set hconn ?_ ?_
    · intro hwant
      exact ⟨ready, args, .inr rfl, h.reported (.inl hphase) hconn hwant⟩
    · exact hother
  | all hconn hnonempty hless hm hm' =>
    refine Mem.forall_read_set hconn ?_ ?_
    · intro hwant
      exact ⟨ready, args, .inr rfl, h.reported (.inl hphase) hconn hwant⟩
    · exact hother

theorem transition_closingNow (h : ClosingNow s) (hok : ErrorReported s ans) (ht : Transition srv clock s ans s') :
    ClosingNow s' := by
  have hnone : ∀ {phase : Phase}, s.phase = phase → (∀ c ready args, phase ≠ .write c ready args) →
      (∀ c ready args, phase ≠ .close c ready args) → ∀ c conn, s.conns.read c = some conn → conn.wantClose = false := by
    intro phase hphase hwrite hclose c conn hconn
    exact h.none (hphase ▸ hwrite) (hphase ▸ hclose) hconn
  cases ht with
  | stays hphase => exact h
  | polled hphase hargs => exact closingNow_of_none (hnone hphase nofun nofun)
  | accepted hphase hargs hans hm =>
    exact closingNow_of_none (Mem.forall_read_alloc rfl (hnone hphase nofun nofun))
  | skipped hphase => exact closingNow_of_none (hnone hphase nofun nofun)
  | ready hphase hready hfd hconn hm hm' =>
    have hall := hnone hphase nofun nofun
    have hthis := hall _ _ hconn
    exact closingNow_of_none (Mem.forall_read_set hconn hthis fun q conn _ => hall q conn)
  | read hphase hin ho =>
    rw [ErrorReported, hphase] at hok
    exact readOutcome_closingNow (hnone hphase nofun nofun) (hok hin) ho
  | noRead hphase => exact closingNow_of_none (hnone hphase nofun nofun)
  | write hphase hout ho =>
    rw [ErrorReported, hphase] at hok
    exact writeOutcome_closingNow h hphase (hok hout) ho
  | noWrite hphase =>
    intro q conn hq hwant
    obtain ⟨ready', args', hq | hq, herr⟩ := h q conn hq hwant
    · rw [hphase] at hq
      cases hq
      exact ⟨_, _, .inr rfl, herr⟩
    · rw [hphase] at hq
      cases hq
  | close hphase hconn hclose hclosed =>
    have hfree := closed_none (fun q conn hne hq => h.other (.inr hphase) hne hq) hclosed
    exact closingNow_of_none hfree
  | @keep c _ _ _ hphase hconn hkeep =>
    refine closingNow_of_none fun q conn hq => ?_
    by_cases hqc : q = c
    · subst hqc
      cases hconn.symm.trans hq
      apply Bool.eq_false_of_not_eq_true
      intro hwant
      exact hkeep ⟨h.reported (.inr hphase) hq hwant, hwant⟩
    · exact h.other (.inr hphase) hqc hq
  | timers hphase => exact closingNow_of_none (hnone hphase nofun nofun)
  | expired hphase hhead hfirst hne hconn hlate hclosed =>
    exact closingNow_of_none (closed_none (fun q conn _ hq => hnone hphase nofun nofun q conn hq) hclosed)
  | idleDone hphase hfront => exact closingNow_of_none (hnone hphase nofun nofun)
  | readDone hphase hfront => exact closingNow_of_none (hnone hphase nofun nofun)
  | writeDone hphase hfront hdata => exact closingNow_of_none (hnone hphase nofun nofun)

/-- If every handler that gives a connection up does so while `poll` reports an error for it, no registered connection
is waiting to be closed when the next iteration begins. -/
theorem none_closing_of_reported (srv : Service δ) (clock : Nat → Nat) (data : δ) (answers : List Answer) (s : Loop δ)
    (hreported : Along (loopStep srv clock) ErrorReported (Loop.init data) answers)
    (hrun : run (loopStep srv clock) (Loop.init data) answers = .ok s) (hpoll : s.phase = .poll) : NoneClosing s := by
  have hinit : ClosingNow (Loop.init data) := by
    refine closingNow_of_none fun c conn hconn => ?_
    have hlt := Mem.lt_next_of_read hconn
    obtain rfl : c = 0 := Nat.lt_one_iff.mp hlt
    cases hconn
  have hall : ClosingNow s :=
    Run.invariant_along (fun s ans s' h hok hstep => transition_closingNow h hok (loopStep_transition hstep)) hinit
      hreported hrun
  intro fd c conn _ hconn
  apply hall.none _ _ hconn
  · intro c ready args hphase
    rw [hpoll] at hphase
    cases hphase
  · intro c ready args hphase
    rw [hpoll] at hphase
    cases hphase

end Closing

/-- The answers for one iteration in which nothing happens but on the given socket, for the only connection. -/
def iteration (ready : UInt8) (read : ReadResult) (write : WriteResult) : List Answer :=
  [{}, { revents := ready }, { read := read }, { write := write }, {}, {}, {}, {}, {}]

/-- The answers for an iteration in which a client connects to an idle server. -/
def connecting (connfd : Nat) : List Answer := [{ accepted := some (some connfd) }, {}, {}, {}, {}]

/-- A peer that is gone after an error is closed at once. -/
theorem none_closing_after_error :
    ∃ s, run (loopStep (redisService fun _ => {}) id) (Loop.init ({}, 0))
        (connecting 4 ++ iteration (pollIn ||| pollErr) .closed .again) = .ok s ∧ s.phase = .poll ∧ NoneClosing s := by
  have hcheck : check (run (loopStep (redisService fun _ => {}) id) (Loop.init ({}, 0))
      (connecting 4 ++ iteration (pollIn ||| pollErr) .closed .again)) (fun s => s.phase = .poll) = true := by
    decide +kernel
  obtain ⟨s, hrun, hpoll⟩ := exists_ok_of_check hcheck
  have hpoll : s.phase = .poll := of_decide_eq_true hpoll
  exact ⟨s, hrun, hpoll, none_closing_of_reported _ _ _ _ s (by decide +kernel) hrun hpoll⟩

/-- A client connects and disconnects. `poll` reports input, `read` the end of the file, and the connection stays. -/
theorem disconnect_keeps_connection :
    ∃ s, run (loopStep (redisService fun _ => {}) id) (Loop.init ({}, 0))
        (connecting 4 ++ iteration pollIn .closed .again) = .ok s ∧ s.phase = .poll ∧ ¬NoneClosing s := by
  have hcheck : check (run (loopStep (redisService fun _ => {}) id) (Loop.init ({}, 0))
      (connecting 4 ++ iteration pollIn .closed .again)) (fun s => s.phase = .poll ∧ s.fdToConn[4]? = some (some 1) ∧
        (s.conns.read 1).map ConnRec.wantClose = some true) = true := by
    decide +kernel
  obtain ⟨s, hrun, hend⟩ := exists_ok_of_check hcheck
  obtain ⟨hpoll, hfd, hwant⟩ := of_decide_eq_true hend
  obtain ⟨conn, hconn, hwant⟩ := Option.map_eq_some_iff.mp hwant
  refine ⟨s, hrun, hpoll, fun hnone => ?_⟩
  rw [hnone 4 1 conn hfd hconn] at hwant
  cases hwant

/-! ### Flags and buffers -/

/-- A reply waits exactly if writing is asked for, reading is asked for otherwise, and no request waits. -/
structure Settled (conn : ConnRec) : Prop where
  write : conn.wantWrite = true ↔ conn.outgoing ≠ []
  read : conn.wantRead = true ↔ conn.wantWrite = false
  incoming : completeFrame conn.incoming = none

/-- What `accept` promises: the new descriptor is not in use. -/
def FreshFd (s : Loop δ) (ans : Answer) : Prop :=
  ∀ connfd, ans.accepted = some (some connfd) → ∀ c, s.fdToConn[connfd]? ≠ some (some c)

/-- The sockets that are still to be looked at are distinct, and those asked for output have some. -/
structure PendingArgs (table : List (Option Ptr)) (conns : Mem ConnRec) (args : List (Nat × UInt8)) : Prop where
  nodup : (args.map Prod.fst).Nodup
  conn : ∀ fd events, (fd, events) ∈ args → ∃ c conn, table[fd]? = some (some c) ∧ conns.read c = some conn ∧
    (events &&& pollOut ≠ 0 → conn.outgoing ≠ [])

/-- The connection that is being handled. -/
structure Handling (table : List (Option Ptr)) (conns : Mem ConnRec) (c : Ptr) (ready : UInt8)
    (args : List (Nat × UInt8)) : Prop where
  conn : ∃ conn, conns.read c = some conn ∧ (ready &&& pollOut ≠ 0 → conn.outgoing ≠ []) ∧
    conn.fd ∉ args.map Prod.fst
  pending : PendingArgs table conns args

def PhaseServed (table : List (Option Ptr)) (conns : Mem ConnRec) : Phase → Prop
  | .poll => True
  | .sockets args => PendingArgs table conns args
  | .read c ready args => Handling table conns c ready args
  | .write c ready args => Handling table conns c ready args
  | .close c _ args => Handling table conns c 0 args
  | .timers _ _ => True

/-- The entries of the table are the live connections. -/
def Registered (table : List (Option Ptr)) (conns : Mem ConnRec) : Prop :=
  ∀ fd c, table[fd]? = some (some c) ↔ ∃ conn, conns.read c = some conn ∧ conn.fd = fd

structure Served (s : Loop δ) : Prop where
  settled : ∀ c conn, s.conns.read c = some conn → Settled conn
  table : Registered s.fdToConn s.conns
  phase : PhaseServed s.fdToConn s.conns s.phase

section Serving

variable {srv : Service δ} {clock : Nat → Nat} {s s' : Loop δ} {ans : Answer}

theorem entry_cons_iff {entry : Option Ptr} {table : List (Option Ptr)} {base fd : Nat} {c : Ptr} :
    base ≤ fd ∧ (entry :: table)[fd - base]? = some (some c) ↔
      (fd = base ∧ entry = some c) ∨ (base + 1 ≤ fd ∧ table[fd - (base + 1)]? = some (some c)) := by
  rcases Nat.lt_trichotomy fd base with hlt | rfl | hgt
  · have hle : ¬base ≤ fd := by omega
    have hne : fd ≠ base := by omega
    have hle' : ¬base + 1 ≤ fd := by omega
    simp only [hle, hne, hle', false_and, or_self]
  · have hle : ¬fd + 1 ≤ fd := by omega
    simp only [le_refl, true_and, Nat.sub_self, List.getElem?_cons_zero, Option.some.injEq, hle, false_and, or_false]
  · have hle : base ≤ fd := by omega
    have hne : fd ≠ base := by omega
    have hle' : base + 1 ≤ fd := by omega
    rw [show fd - base = fd - (base + 1) + 1 by omega, List.getElem?_cons_succ]
    simp only [hle, hne, hle', false_and, true_and, false_or]

/-- The `events` of a connection. -/
def pollEvents (conn : ConnRec) : UInt8 := if conn.wantWrite then pollIn ||| pollOut else pollIn

/-- `poll_args` for a part of the table that starts at the descriptor `base`. -/
theorem pollArgs_part (table : List (Option Ptr)) (base : Nat) {args : List (Nat × UInt8)}
    (htable : ∀ i c, table[i]? = some (some c) → ∃ conn, s.conns.read c = some conn ∧ conn.fd = base + i)
    (hrun : ((table.filterMap id).mapM fun c => do
      let conn ← s.conn c
      .ok (conn.fd, pollEvents conn)) = .ok args) :
    (args.map Prod.fst).Pairwise (· < ·) ∧
      ∀ fd events, (fd, events) ∈ args ↔ ∃ c conn, (base ≤ fd ∧ table[fd - base]? = some (some c)) ∧
        s.conns.read c = some conn ∧ events = pollEvents conn := by
  induction table generalizing base args with
  | nil =>
    cases hrun
    refine ⟨List.Pairwise.nil, fun fd events => ⟨nofun, ?_⟩⟩
    rintro ⟨c, conn, ⟨-, hc⟩, -⟩
    cases hc
  | cons entry table ih =>
    have htable' : ∀ i c, table[i]? = some (some c) → ∃ conn, s.conns.read c = some conn ∧ conn.fd = base + 1 + i := by
      intro i c hc
      obtain ⟨conn, hconn, hfd⟩ := htable (i + 1) c (by rw [List.getElem?_cons_succ]; exact hc)
      exact ⟨conn, hconn, by omega⟩
    cases entry with
    | none =>
      obtain ⟨hsorted, hmem⟩ := ih (base + 1) htable' hrun
      refine ⟨hsorted, fun fd events => ?_⟩
      rw [hmem]
      simp only [entry_cons_iff, reduceCtorEq, and_false, false_or]
    | some c =>
      obtain ⟨conn, hconn, hfd⟩ := htable 0 c rfl
      have hread : s.conn c = .ok conn := by
        unfold Loop.conn
        rw [hconn]
      rw [List.filterMap_cons_some (by rfl), List.mapM_cons, hread] at hrun
      obtain ⟨first, hfirst, hlast⟩ := ok_of_bind hrun
      obtain ⟨rest, hrest, hlast⟩ := ok_of_bind hlast
      cases hfirst
      cases hlast
      obtain ⟨hsorted, hmem⟩ := ih (base + 1) htable' hrest
      refine ⟨List.Pairwise.cons ?_ hsorted, fun fd events => ?_⟩
      · intro fd hin
        obtain ⟨⟨fd, events⟩, harg, rfl⟩ := List.mem_map.mp hin
        obtain ⟨c', conn', ⟨hle, -⟩, -⟩ := (hmem fd events).mp harg
        show conn.fd < fd
        omega
      · rw [List.mem_cons, hmem]
        simp only [entry_cons_iff]
        constructor
        · rintro (heq | ⟨c', conn', hentry, hrest⟩)
          · cases heq
            exact ⟨c, conn, .inl ⟨by omega, rfl⟩, hconn, rfl⟩
          · exact ⟨c', conn', .inr hentry, hrest⟩
        · rintro ⟨c', conn', ⟨rfl, hc⟩ | hentry, hconn', rfl⟩
          · cases hc
            cases hconn.symm.trans hconn'
            rw [show fd = conn.fd by omega]
            exact .inl rfl
          · exact .inr ⟨c', conn', hentry, hconn', rfl⟩

theorem pollArgs_spec {args : List (Nat × UInt8)} (htable : Registered s.fdToConn s.conns)
    (hargs : pollArgs s = .ok args) :
    (args.map Prod.fst).Nodup ∧ ∀ fd events, (fd, events) ∈ args ↔ ∃ c conn, s.fdToConn[fd]? = some (some c) ∧
      s.conns.read c = some conn ∧ events = pollEvents conn := by
  obtain ⟨hsorted, hmem⟩ := pollArgs_part s.fdToConn 0 (fun i c hc => by
    obtain ⟨conn, hconn, hfd⟩ := (htable i c).mp hc
    exact ⟨conn, hconn, by omega⟩) hargs
  refine ⟨hsorted.imp fun h => Nat.ne_of_lt h, fun fd events => ?_⟩
  rw [hmem]
  simp only [Nat.zero_le, true_and, Nat.sub_zero]

section Frame

variable {table table' : List (Option Ptr)} {conns conns' : Mem ConnRec} {args : List (Nat × UInt8)}

/-- What is pending does not depend on the other connections. -/
theorem PendingArgs.frame (h : PendingArgs table conns args)
    (hkeep : ∀ fd c conn, fd ∈ args.map Prod.fst → table[fd]? = some (some c) → conns.read c = some conn →
      table'[fd]? = some (some c) ∧ conns'.read c = some conn) : PendingArgs table' conns' args := by
  refine ⟨h.nodup, fun fd events harg => ?_⟩
  obtain ⟨c, conn, hfd, hconn, hout⟩ := h.conn fd events harg
  obtain ⟨hfd', hconn'⟩ := hkeep fd c conn (List.mem_map_of_mem harg) hfd hconn
  exact ⟨c, conn, hfd', hconn', hout⟩

theorem PendingArgs.tail {arg : Nat × UInt8} (h : PendingArgs table conns (arg :: args)) : PendingArgs table conns args :=
  ⟨(List.nodup_cons.mp h.nodup).2, fun fd events harg => h.conn fd events (List.mem_cons_of_mem _ harg)⟩

variable {c : Ptr} {conn conn' : ConnRec}

theorem Registered.set (h : Registered table conns) (hconn : conns.read c = some conn) (hfd : conn'.fd = conn.fd) :
    Registered table (conns.set c conn') := by
  intro fd q
  rw [h]
  by_cases hq : q = c
  · rw [hq, Mem.read_set_self (Mem.lt_next_of_read hconn), hconn]
    simp only [Option.some.injEq, exists_eq_left', hfd]
  · rw [Mem.read_set_ne hq]

/-- An entry of another socket belongs to another connection. -/
theorem Registered.ne (h : Registered table conns) (hconn : conns.read c = some conn) {fd : Nat} {q : Ptr}
    (hfd : fd ≠ conn.fd) (hentry : table[fd]? = some (some q)) : q ≠ c := by
  rintro rfl
  obtain ⟨conn', hconn', hfd'⟩ := (h fd q).mp hentry
  cases hconn.symm.trans hconn'
  exact hfd hfd'.symm

theorem PendingArgs.set (h : PendingArgs table conns args) (ht : Registered table conns)
    (hconn : conns.read c = some conn) (hnot : conn.fd ∉ args.map Prod.fst) :
    PendingArgs table (conns.set c conn') args := by
  refine h.frame fun fd q conn₁ hin hentry hq => ⟨hentry, ?_⟩
  have hne : fd ≠ conn.fd := fun heq => hnot (heq ▸ hin)
  rw [Mem.read_set_ne (ht.ne hconn hne hentry)]
  exact hq

/-- The record of the connection that is being handled is rewritten. -/
theorem Handling.set {ready : UInt8} (h : Handling table conns c ready args) (ht : Registered table conns)
    (hconn : conns.read c = some conn) (hfd : conn'.fd = conn.fd) {ready' : UInt8}
    (hout : ready' &&& pollOut ≠ 0 → conn'.outgoing ≠ []) : Handling table (conns.set c conn') c ready' args := by
  obtain ⟨⟨conn₁, hconn₁, -, hnot⟩, hpending⟩ := h
  cases hconn.symm.trans hconn₁
  refine ⟨⟨conn', Mem.read_set_self (Mem.lt_next_of_read hconn) _, hout, ?_⟩, hpending.set ht hconn hnot⟩
  rw [hfd]
  exact hnot

/-- The entry of a closed connection is cleared. -/
theorem Registered.free (h : Registered table conns) (hconn : conns.read c = some conn) :
    Registered (table.set conn.fd none) (conns.free c) := by
  intro fd q
  by_cases hfd : fd = conn.fd
  · have hentry : table[fd]? = some (some c) := (h fd c).mpr ⟨conn, hconn, hfd.symm⟩
    have hlt := (List.getElem?_eq_some_iff.mp hentry).1
    rw [← hfd, List.getElem?_set_self hlt]
    refine iff_of_false nofun ?_
    rintro ⟨conn', hconn', hfd'⟩
    by_cases hq : q = c
    · rw [hq, Mem.read_free_self] at hconn'
      cases hconn'
    · rw [Mem.read_free_ne hq] at hconn'
      have hentry' := (h fd q).mpr ⟨conn', hconn', hfd'⟩
      cases hentry.symm.trans hentry'
      exact hq rfl
  · rw [List.getElem?_set_ne (Ne.symm hfd), h]
    by_cases hq : q = c
    · rw [hq, Mem.read_free_self, hconn]
      refine iff_of_false ?_ nofun
      rintro ⟨conn', hconn', hfd'⟩
      cases hconn'
      exact hfd hfd'.symm
    · rw [Mem.read_free_ne hq]

theorem PendingArgs.free (h : PendingArgs table conns args) (ht : Registered table conns)
    (hconn : conns.read c = some conn) (hnot : conn.fd ∉ args.map Prod.fst) :
    PendingArgs (table.set conn.fd none) (conns.free c) args := by
  refine h.frame fun fd q conn₁ hin hentry hq => ?_
  have hne : fd ≠ conn.fd := fun heq => hnot (heq ▸ hin)
  rw [List.getElem?_set_ne (Ne.symm hne), Mem.read_free_ne (ht.ne hconn hne hentry)]
  exact ⟨hentry, hq⟩

theorem getElem?_registered (table : List (Option Ptr)) (connfd : Nat) (c : Ptr) (fd : Nat) (q : Ptr) :
    (registered table connfd c)[fd]? = some (some q) ↔
      if fd = connfd then q = c else table[fd]? = some (some q) := by
  unfold registered
  have hlen : connfd < (table ++ List.replicate (connfd + 1 - table.length) none).length := by
    rw [List.length_append, List.length_replicate]
    omega
  split
  · next hfd =>
    rw [hfd, List.getElem?_set_self hlen]
    simp only [Option.some.injEq, eq_comm]
  · next hfd =>
    rw [List.getElem?_set_ne (Ne.symm hfd)]
    by_cases hlt : fd < table.length
    · rw [List.getElem?_append_left hlt]
    · rw [List.getElem?_append_right (by omega), List.getElem?_eq_none (Nat.le_of_not_lt hlt), List.getElem?_replicate]
      split <;> simp

theorem Registered.alloc (h : Registered table conns) {connfd : Nat} (hfd : conn.fd = connfd)
    (hfresh : ∀ c, table[connfd]? ≠ some (some c)) :
    Registered (registered table connfd conns.next) (conns.alloc conn) := by
  intro fd q
  rw [getElem?_registered]
  by_cases hq : q = conns.next
  · rw [hq, Mem.read_alloc_self]
    split
    · next heq => exact iff_of_true rfl ⟨conn, rfl, hfd.trans heq.symm⟩
    · next hne =>
      refine iff_of_false ?_ ?_
      · rw [h]
        rintro ⟨conn', hconn', -⟩
        exact Nat.lt_irrefl _ (Mem.lt_next_of_read hconn')
      · rintro ⟨conn', hconn', hfd'⟩
        cases hconn'
        exact hne (hfd'.symm.trans hfd)
  · have hread : (conns.alloc conn).read q = conns.read q := by
      rcases Nat.lt_or_ge q conns.next with hlt | hge
      · exact Mem.read_alloc_of_lt hlt _
      · have hgt : conns.next + 1 ≤ q := Nat.lt_of_le_of_ne hge (Ne.symm hq)
        rw [Mem.read_eq_none_of_le (by rw [Mem.next_alloc]; exact hgt), Mem.read_eq_none_of_le hge]
    rw [hread]
    split
    · next heq =>
      refine iff_of_false hq ?_
      rintro hlive
      exact hfresh q (heq ▸ (h fd q).mpr hlive)
    · exact h fd q

end Frame

theorem readOutcome_served {I : δ → Prop} (hsound : srv.Sound I) (hI : I s.data) (h : Served s) {c : Ptr} {ready : UInt8}
    {args : List (Nat × UInt8)} (hh : Handling s.fdToConn s.conns c ready args) {res : ReadResult}
    (ho : ReadOutcome srv clock s c res s') : Served { s' with phase := .write c ready args } ∧ I s'.data := by
  cases ho with
  | again => exact ⟨⟨h.settled, h.table, hh⟩, hI⟩
  | @closed conn m hconn hm =>
    have hset := h.settled c conn hconn
    have hout : ready &&& pollOut ≠ 0 → conn.outgoing ≠ [] := by
      obtain ⟨⟨conn', hconn', hout, -⟩, -⟩ := hh
      cases hconn.symm.trans hconn'
      exact hout
    refine ⟨⟨?_, h.table.set hconn (by rfl), hh.set h.table hconn (by rfl) (by exact hout)⟩, hI⟩
    exact Mem.forall_read_set hconn ⟨hset.write, hset.read, hset.incoming⟩ fun q w _ => h.settled q w
  | @quiet conn first rest r hconn hread hempty =>
    have hset := h.settled c conn hconn
    obtain ⟨hI', hnone, hgrow, -⟩ := tryAllReqs_ok hsound (by exact hI) hread
    have hnil : conn.outgoing = [] := by
      rw [hempty] at hgrow
      exact List.eq_nil_of_length_eq_zero (Nat.le_zero.mp hgrow)
    have hno : ready &&& pollOut ≠ 0 → r.outgoing ≠ [] := by
      obtain ⟨⟨conn', hconn', hout, -⟩, -⟩ := hh
      cases hconn.symm.trans hconn'
      intro hpoll
      exact absurd hnil (hout hpoll)
    refine ⟨⟨?_, h.table.set hconn (by rfl), hh.set h.table hconn (by rfl) (by exact hno)⟩, hI'⟩
    refine Mem.forall_read_set hconn ⟨?_, hset.read, hnone⟩ fun q w _ => h.settled q w
    show conn.wantWrite = true ↔ r.outgoing ≠ []
    have hwrite := hset.write
    rw [hnil] at hwrite
    rw [hempty]
    exact hwrite
  | @replied conn first rest r m m' hconn hread hreply hm hm' =>
    obtain ⟨hI', hnone, -⟩ := tryAllReqs_ok hsound (by exact hI) hread
    refine ⟨⟨?_, h.table.set hconn (by rfl), hh.set h.table hconn (by rfl) (by exact fun _ => hreply)⟩, hI'⟩
    refine Mem.forall_read_set hconn ⟨?_, ?_, hnone⟩ fun q w _ => h.settled q w
    · exact iff_of_true rfl hreply
    · exact iff_of_false Bool.false_ne_true Bool.noConfusion

theorem writeOutcome_served (h : Served s) {c : Ptr} {ready : UInt8} {args : List (Nat × UInt8)}
    (hh : Handling s.fdToConn s.conns c ready args) {res : WriteResult} (ho : WriteOutcome clock s c res s') :
    Served { s' with phase := .close c ready args } ∧ s'.data = s.data := by
  have hzero : ∀ {out : Bytes}, (0 : UInt8) &&& pollOut ≠ 0 → out ≠ [] := fun hne => absurd rfl hne
  have hthis : Handling s.fdToConn s.conns c 0 args := by
    obtain ⟨⟨conn, hconn, -, hnot⟩, hpending⟩ := hh
    exact ⟨⟨conn, hconn, hzero, hnot⟩, hpending⟩
  cases ho with
  | again => exact ⟨⟨h.settled, h.table, hthis⟩, rfl⟩
  | @closed conn m res hconn hres hm =>
    have hset := h.settled c conn hconn
    refine ⟨⟨?_, h.table.set hconn (by rfl), hh.set h.table hconn (by rfl) (by exact hzero)⟩, rfl⟩
    exact Mem.forall_read_set hconn ⟨hset.write, hset.read, hset.incoming⟩ fun q w _ => h.settled q w
  | @some conn more hconn hless =>
    have hset := h.settled c conn hconn
    have hleft : conn.outgoing.drop (more + 1) ≠ [] := by
      rw [ne_eq, List.drop_eq_nil_iff]
      omega
    have hbefore : conn.outgoing ≠ [] := List.ne_nil_of_length_pos (by omega)
    refine ⟨⟨?_, h.table.set hconn (by rfl), hh.set h.table hconn (by rfl) (by exact hzero)⟩, rfl⟩
    refine Mem.forall_read_set hconn ⟨?_, hset.read, hset.incoming⟩ fun q w _ => h.settled q w
    exact iff_of_true (hset.write.mpr hbefore) hleft
  | @all conn more m m' hconn hnonempty hless hm hm' =>
    have hset := h.settled c conn hconn
    refine ⟨⟨?_, h.table.set hconn (by rfl), hh.set h.table hconn (by rfl) (by exact hzero)⟩, rfl⟩
    refine Mem.forall_read_set hconn ⟨?_, ?_, hset.incoming⟩ fun q w _ => h.settled q w
    · exact iff_of_false Bool.false_ne_true (fun hne => hne rfl)
    · exact iff_of_true rfl rfl

theorem closed_served (h : Served s) {c : Ptr} (hclosed : Closed s c s') :
    (∀ q conn, s'.conns.read q = some conn → Settled conn) ∧ Registered s'.fdToConn s'.conns ∧ s'.phase = s.phase ∧
      s'.data = s.data := by
  cases hclosed with
  | mk hconn hm => exact ⟨Mem.forall_read_free fun q w _ => h.settled q w, h.table.free hconn, rfl, rfl⟩

theorem pollArgs_pending (h : Served s) {args : List (Nat × UInt8)} (hargs : pollArgs s = .ok args) :
    PendingArgs s.fdToConn s.conns args := by
  obtain ⟨hnodup, hmem⟩ := pollArgs_spec h.table hargs
  refine ⟨hnodup, fun fd events harg => ?_⟩
  obtain ⟨c, conn, hfd, hconn, rfl⟩ := (hmem fd events).mp harg
  refine ⟨c, conn, hfd, hconn, fun hout => (h.settled c conn hconn).write.mp ?_⟩
  unfold pollEvents at hout
  split at hout
  · next hwant => exact hwant
  · exact absurd rfl hout

/-- Only what was asked for, or what is never asked for, is reported. -/
theorem pollOut_of_ready {revents events : UInt8} (h : (revents &&& (events ||| pollUnasked)) &&& pollOut ≠ 0) :
    events &&& pollOut ≠ 0 := by
  intro hzero
  apply h
  have hall : ∀ i : Fin 256, (UInt8.ofFin i ||| pollUnasked) &&& pollOut = UInt8.ofFin i &&& pollOut := by
    decide +kernel
  have hmask : (events ||| pollUnasked) &&& pollOut = events &&& pollOut := hall events.toFin
  rw [UInt8.and_assoc, hmask, hzero, UInt8.and_zero]

theorem ready_served (h : Served s) {fd : Nat} {events ready : UInt8} {args : List (Nat × UInt8)} {c : Ptr}
    {conn : ConnRec} (hpending : PendingArgs s.fdToConn s.conns ((fd, events) :: args))
    (hready : ready = ans.revents &&& (events ||| pollUnasked)) (hfd : s.fdToConn[fd]? = some (some c))
    (hconn : s.conns.read c = some conn) (hphase : s'.phase = .read c ready args)
    (hconns : s'.conns = s.conns.set c { conn with lastActiveMs := clock s.ticks }) (htable : s'.fdToConn = s.fdToConn) :
    Served s' := by
  have hset := h.settled c conn hconn
  obtain ⟨conn₁, hconn₁, hfd₁⟩ := (h.table fd c).mp hfd
  cases hconn.symm.trans hconn₁
  have hnot : conn.fd ∉ args.map Prod.fst := by
    rw [hfd₁]
    exact (List.nodup_cons.mp hpending.nodup).1
  have hout : ready &&& pollOut ≠ 0 → conn.outgoing ≠ [] := by
    obtain ⟨c', conn', hfd', hconn', hout⟩ := hpending.conn fd events List.mem_cons_self
    cases hfd.symm.trans hfd'
    cases hconn.symm.trans hconn'
    intro hpoll
    rw [hready] at hpoll
    exact hout (pollOut_of_ready hpoll)
  have hhandling : Handling s.fdToConn s.conns c ready args := ⟨⟨conn, hconn, hout, hnot⟩, hpending.tail⟩
  refine ⟨?_, ?_, ?_⟩
  · rw [hconns]
    exact Mem.forall_read_set hconn ⟨hset.write, hset.read, hset.incoming⟩ fun q w _ => h.settled q w
  · rw [hconns, htable]
    exact h.table.set hconn (by rfl)
  · rw [hconns, htable, hphase]
    exact hhandling.set h.table hconn (by rfl) (by exact hout)

theorem transition_served {I : δ → Prop} (hsound : srv.Sound I) (h : Served s) (hI : I s.data) (hfresh : FreshFd s ans)
    (ht : Transition srv clock s ans s') : Served s' ∧ I s'.data := by
  have hphaseAt : ∀ {phase : Phase}, s.phase = phase → PhaseServed s.fdToConn s.conns phase := by
    rintro phase rfl
    exact h.phase
  cases ht with
  | stays hphase => exact ⟨h, hI⟩
  | polled hphase hargs => exact ⟨⟨h.settled, h.table, pollArgs_pending h hargs⟩, hI⟩
  | @accepted args connfd _ hphase hargs hans hm =>
    have hpending := pollArgs_pending h hargs
    have hnew : Settled (newConn clock s.ticks connfd) := by
      refine ⟨iff_of_false Bool.false_ne_true (fun hne => hne rfl), iff_of_true rfl rfl, rfl⟩
    refine ⟨⟨Mem.forall_read_alloc hnew h.settled, h.table.alloc rfl (hfresh _ hans), ?_⟩, hI⟩
    refine hpending.frame fun fd c conn _ hentry hconn => ⟨?_, ?_⟩
    · rw [getElem?_registered, if_neg]
      · exact hentry
      · rintro rfl
        exact hfresh _ hans c hentry
    · rw [Mem.read_alloc_of_lt (Mem.lt_next_of_read hconn)]
      exact hconn
  | skipped hphase => exact ⟨⟨h.settled, h.table, (hphaseAt hphase).tail⟩, hI⟩
  | ready hphase hready hfd hconn hm hm' => exact ⟨ready_served h (hphaseAt hphase) hready hfd hconn rfl rfl rfl, hI⟩
  | read hphase hin ho => exact readOutcome_served hsound hI h (hphaseAt hphase) ho
  | noRead hphase =>
    have hhandling := hphaseAt hphase
    exact ⟨⟨h.settled, h.table, hhandling⟩, hI⟩
  | write hphase hout ho =>
    obtain ⟨hs, hdata⟩ := writeOutcome_served h (hphaseAt hphase) ho
    exact ⟨hs, hdata ▸ hI⟩
  | noWrite hphase =>
    obtain ⟨⟨conn, hconn, -, hnot⟩, hpending⟩ := hphaseAt hphase
    exact ⟨⟨h.settled, h.table, ⟨conn, hconn, fun hne => absurd rfl hne, hnot⟩, hpending⟩, hI⟩
  | close hphase hconn hclose hclosed =>
    obtain ⟨⟨conn, hconn', -, hnot⟩, hpending⟩ := hphaseAt hphase
    cases hconn.symm.trans hconn'
    obtain ⟨hsettled, htable, -, hdata⟩ := closed_served h hclosed
    refine ⟨⟨hsettled, htable, ?_⟩, hdata ▸ hI⟩
    cases hclosed with
    | mk hconn' hm =>
      cases hconn.symm.trans hconn'
      exact hpending.free h.table hconn hnot
  | keep hphase hconn hkeep => exact ⟨⟨h.settled, h.table, (hphaseAt hphase).pending⟩, hI⟩
  | timers hphase => exact ⟨⟨h.settled, h.table, trivial⟩, hI⟩
  | expired hphase hhead hfirst hne hconn hlate hclosed =>
    obtain ⟨hsettled, htable, hsame, hdata⟩ := closed_served h hclosed
    refine ⟨⟨hsettled, htable, ?_⟩, hdata ▸ hI⟩
    rw [hsame, hphase]
    trivial
  | idleDone hphase hfront => exact ⟨⟨h.settled, h.table, trivial⟩, hI⟩
  | readDone hphase hfront => exact ⟨⟨h.settled, h.table, trivial⟩, hI⟩
  | writeDone hphase hfront hdata => exact ⟨⟨h.settled, h.table, trivial⟩, hsound.expire hI hdata⟩

theorem run_served {I : δ → Prop} (hsound : srv.Sound I) {data : δ} (hI : I data) {answers : List Answer}
    (hfresh : Along (loopStep srv clock) FreshFd (Loop.init data) answers)
    (hrun : run (loopStep srv clock) (Loop.init data) answers = .ok s) : Served s := by
  have hempty : ∀ c conn, (Loop.init data).conns.read c ≠ some conn := by
    intro c conn hconn
    obtain rfl : c = 0 := Nat.lt_one_iff.mp (Mem.lt_next_of_read hconn)
    cases hconn
  have hinit : Served (Loop.init data) := by
    refine ⟨fun c conn hconn => absurd hconn (hempty c conn), fun fd c => iff_of_false nofun ?_, trivial⟩
    rintro ⟨conn, hconn, -⟩
    exact hempty c conn hconn
  have hall : Served s ∧ I s.data := by
    refine Run.invariant_along (I := fun s => Served s ∧ I s.data) (fun s ans s' h hok hstep => ?_) ⟨hinit, hI⟩ hfresh hrun
    exact transition_served hsound h.1 h.2 hok (loopStep_transition hstep)
  exact hall.1

end Serving

/-- At the top of every iteration, the flags of every live connection fit its buffers and no request waits. So
`poll` is asked for output wherever a reply waits, and nothing is written from an empty buffer. -/
theorem connections_settled (envs : Nat → Env) (clock : Nat → Nat) (answers : List Answer) (s : Loop (GlobalData × Nat))
    (hfresh : Along (loopStep (redisService envs) clock) FreshFd (Loop.init ({}, 0)) answers)
    (hrun : run (loopStep (redisService envs) clock) (Loop.init ({}, 0)) answers = .ok s) :
    (s.phase = .poll → ∀ c conn, s.conns.read c = some conn → (conn.wantWrite = true ↔ conn.outgoing ≠ []) ∧
      (conn.wantRead = true ↔ conn.wantWrite = false) ∧ completeFrame conn.incoming = none) ∧
    (∀ args, s.phase = .poll → pollArgs s = .ok args → ∀ c conn, s.conns.read c = some conn → conn.outgoing ≠ [] →
      (conn.fd, pollIn ||| pollOut) ∈ args) ∧
    (∀ c ready args conn, s.phase = .write c ready args → ready &&& pollOut ≠ 0 → s.conns.read c = some conn →
      conn.outgoing ≠ []) := by
  have hempty : ({} : GlobalData).WF ∧ ({} : GlobalData).Shaped := ⟨GlobalData.WF.empty, nofun⟩
  have hserved := run_served (redisService_sound envs) hempty hfresh hrun
  refine ⟨fun _ c conn hconn => ?_, fun args _ hargs c conn hconn hout => ?_, fun c ready args conn hphase hpoll hconn => ?_⟩
  · have hset := hserved.settled c conn hconn
    exact ⟨hset.write, hset.read, hset.incoming⟩
  · refine ((pollArgs_spec hserved.table hargs).2 _ _).mpr ⟨c, conn, (hserved.table _ c).mpr ⟨conn, hconn, rfl⟩, hconn, ?_⟩
    rw [pollEvents, if_pos ((hserved.settled c conn hconn).write.mpr hout)]
  · have hp := hserved.phase
    rw [hphase] at hp
    obtain ⟨⟨conn', hconn', hout, -⟩, -⟩ := hp
    cases hconn.symm.trans hconn'
    exact hout hpoll

/-- The result of reading the given bytes. -/
def received : Bytes → ReadResult
  | [] => .closed
  | first :: rest => .data first rest

instance (s : Loop δ) (ans : Answer) : Decidable (FreshFd s ans) :=
  match h : ans.accepted with
  | none => isTrue fun _ hacc => by rw [h] at hacc; cases hacc
  | some none => isTrue fun _ hacc => by rw [h] at hacc; cases hacc
  | some (some connfd) =>
    match hfd : s.fdToConn[connfd]? with
    | some (some c) => isFalse fun hfresh => hfresh connfd h c hfd
    | some none => isTrue fun _ hacc c => by rw [h] at hacc; cases hacc; rw [hfd]; exact nofun
    | none => isTrue fun _ hacc c => by rw [h] at hacc; cases hacc; rw [hfd]; exact nofun

/-- After a request in two pieces the reply waits, and the connection is in order. -/
theorem connections_settled_request :
    ∃ s, run (loopStep (redisService fun _ => {}) id) (Loop.init ({}, 0))
        (connecting 4 ++ iteration pollIn (received ((frame [text "keys"]).take 6)) .again ++
          iteration pollIn (received ((frame [text "keys"]).drop 6)) .again) = .ok s ∧ s.phase = .poll ∧
      ∃ conn, s.conns.read 1 = some conn ∧ conn.wantWrite = true ∧ conn.outgoing ≠ [] ∧ conn.wantRead = false := by
  have hcheck : check (run (loopStep (redisService fun _ => {}) id) (Loop.init ({}, 0))
      (connecting 4 ++ iteration pollIn (received ((frame [text "keys"]).take 6)) .again ++
        iteration pollIn (received ((frame [text "keys"]).drop 6)) .again))
      (fun s => s.phase = .poll ∧ (s.conns.read 1).map ConnRec.wantWrite = some true) = true := by
    decide +kernel
  obtain ⟨s, hrun, hend⟩ := exists_ok_of_check hcheck
  obtain ⟨hpoll, hwant⟩ := of_decide_eq_true hend
  obtain ⟨conn, hconn, hwant⟩ := Option.map_eq_some_iff.mp hwant
  obtain ⟨hwrite, hread, -⟩ := (connections_settled _ _ _ s (by decide +kernel) hrun).1 hpoll 1 conn hconn
  refine ⟨s, hrun, hpoll, conn, hconn, hwant, hwrite.mp hwant, ?_⟩
  apply Bool.eq_false_of_not_eq_true
  intro htrue
  rw [hread.mp htrue] at hwant
  cases hwant

end CustomRedis
