import CustomRedis.Model.EventLoop
import CustomRedis.Proof.Frames
import CustomRedis.Proof.Errors

/-!
# The steps of the event loop

What one step of the loop does, once for all invariants: one constructor for each way through the body of the loop.
Of the commands it is only used that they append their reply, which is what a sound service does.
-/

namespace CustomRedis

open Run (run ok_of_bind Along Avoids)

variable {δ : Type}

/-! ### Services -/

/-- The commands keep an invariant of their state and append to the beginning of a reply that they are given. -/
structure Service.Sound (srv : Service δ) (I : δ → Prop) : Prop where
  dispatch : ∀ {d d' : δ} {out out' : Bytes} (r : Request), I d →
    srv.dispatch d (beforeResBuild out).1 r.tokens = .ok (d', out') → I d' ∧ out ++ replyHead <+: out'
  expire : ∀ {d d' : δ} {currMs : Nat}, I d → srv.expire d currMs = .ok d' → I d'

theorem head_of_prefix {out out' : Bytes} (h : (beforeResBuild out).1 <+: out') : out ++ replyHead <+: out' := by
  rw [beforeResBuild_eq, ← List.append_assoc] at h
  exact (List.prefix_append _ _).trans h

theorem head_outErr (out : Bytes) (mes : String) : out ++ replyHead <+: outErr (beforeResBuild out).1 mes := by
  simp only [outErr, bufAppendU32, bufAppendU8, bufAppend, bufRemLastResCode_eq, List.append_assoc]
  exact ⟨_, List.append_assoc _ _ _⟩

theorem head_outNotFound (out : Bytes) : out ++ replyHead <+: outNotFound (beforeResBuild out).1 := by
  simp only [outNotFound, bufAppendU32, bufAppendU8, bufAppend, bufRemLastResCode_eq, List.append_assoc]
  exact ⟨_, List.append_assoc _ _ _⟩

theorem Outcome.head {env : Env} {g g' : GlobalData} {out out' : Bytes} {cmd : List Bytes} {c : Command}
    (ho : Outcome env g (beforeResBuild out).1 cmd c g' out') : out ++ replyHead <+: out' := by
  cases ho with
  | missing => exact head_outNotFound out
  | refused _ mes => exact head_outErr out mes
  | halfway mes _ _ _ => exact head_outErr out mes
  | replied _ hout => exact head_of_prefix hout
  | written hout _ _ _ _ => exact head_of_prefix hout
  | created _ hout _ _ => exact head_of_prefix hout
  | filled _ hout _ _ _ _ _ => exact head_of_prefix hout
  | deleted hout _ _ => exact head_of_prefix hout
  | emptied hout _ _ _ _ _ _ _ => exact head_of_prefix hout
  | expires hout _ _ => exact head_of_prefix hout
  | persists hout _ _ => exact head_of_prefix hout

theorem redisService_sound (envs : Nat → Env) : (redisService envs).Sound fun d => d.1.WF ∧ d.1.Shaped where
  dispatch := by
    rintro ⟨g, n⟩ d' out out' r hI hrun
    obtain ⟨⟨g', out₁⟩, hrun, hret⟩ := ok_of_bind hrun
    cases hret
    obtain ⟨_, -, hrun⟩ := ok_of_bind hrun
    obtain ⟨res, hres, hrun⟩ := ok_of_bind hrun
    cases hrun
    have ho := runCommand_outcome hI.1 r.short_key (r.short_token 2) hres
    exact ⟨⟨ho.wf hI.1, ho.shaped hI.1 hI.2⟩, ho.head⟩
  expire := by
    rintro ⟨g, n⟩ d' currMs hI hrun
    obtain ⟨g', hexpire, hret⟩ := ok_of_bind hrun
    cases hret
    exact expireEntries_invariant hI.1 hI.2 hexpire

/-! ### Requests -/

theorem length_patchU32 {buf : Bytes} {pos x : Nat} (h : pos + 4 ≤ buf.length) :
    (patchU32 buf pos x).length = buf.length := by
  rw [patchU32, List.length_append, List.length_append, List.length_take, List.length_drop, length_leBytes]
  omega

theorem length_afterResBuild {out : Bytes} {header : Nat} (h : header + 4 ≤ out.length) :
    (afterResBuild out header).length = out.length := by
  unfold afterResBuild
  dsimp only
  split
  · rfl
  · exact length_patchU32 h

section Requests

variable {srv : Service δ} {I : δ → Prop}

/-- One call of `try_one_req`: there is no whole frame, or one is taken off the buffer and answered. -/
theorem tryOneReq_cases (hsound : srv.Sound I) {conn conn' : Conn δ} {again : Bool} (hI : I conn.data)
    (hrun : tryOneReq srv.dispatch conn = .ok (conn', again)) :
    (again = false ∧ conn' = conn ∧ completeFrame conn.incoming = none) ∨
    (again = true ∧ I conn'.data ∧ conn'.incoming.length < conn.incoming.length ∧
      ∃ totalLen out, completeFrame conn.incoming = some totalLen ∧
        conn'.incoming = conn.incoming.drop (4 + totalLen) ∧ conn.outgoing ++ replyHead <+: out ∧
        conn'.outgoing = afterResBuild out (conn.outgoing.length % 2 ^ 32)) := by
  unfold tryOneReq at hrun
  split at hrun
  · next hnone =>
    cases hrun
    exact .inl ⟨rfl, rfl, hnone⟩
  · next totalLen hsome =>
    obtain ⟨cmd, hparse, hrun⟩ := ok_of_bind hrun
    obtain ⟨r, rfl⟩ := parseCmd_request hparse
    obtain ⟨⟨data, out⟩, hdispatch, hrun⟩ := ok_of_bind hrun
    cases hrun
    obtain ⟨hI', hhead⟩ := hsound.dispatch r hI hdispatch
    have hfour : 4 ≤ conn.incoming.length := by
      by_contra hlt
      rw [completeFrame, if_pos (by omega)] at hsome
      cases hsome
    refine .inr ⟨rfl, hI', ?_, totalLen, out, hsome, rfl, hhead, rfl⟩
    show (bufConsume conn.incoming (4 + totalLen)).length < _
    rw [bufConsume, List.length_drop]
    omega

theorem outgoing_grows {out out' : Bytes} (hhead : out ++ replyHead <+: out') :
    out.length + 10 ≤ (afterResBuild out' (out.length % 2 ^ 32)).length := by
  have hlen := hhead.length_le
  have hmod := Nat.mod_le out.length (2 ^ 32)
  rw [List.length_append] at hlen
  have hten : replyHead.length = 10 := rfl
  rw [length_afterResBuild (by omega)]
  omega

/-- The loop over the frames leaves no whole frame, and what is to be written does not get less. -/
theorem tryAllReqs_ok (hsound : srv.Sound I) {fuel : Nat} {conn conn' : Conn δ} (hI : I conn.data)
    (hrun : tryAllReqs srv.dispatch fuel conn = .ok conn') :
    I conn'.data ∧ completeFrame conn'.incoming = none ∧ conn.outgoing.length ≤ conn'.outgoing.length ∧
      (completeFrame conn.incoming = none → conn' = conn) ∧
      (completeFrame conn.incoming ≠ none → 0 < conn'.outgoing.length) := by
  induction fuel generalizing conn with
  | zero => cases hrun
  | succ fuel ih =>
    obtain ⟨⟨conn₁, again⟩, hone, hlast⟩ := ok_of_bind hrun
    rcases tryOneReq_cases hsound hI hone with ⟨rfl, rfl, hnone⟩ | ⟨rfl, hI₁, -, totalLen, out, hsome, -, hhead, hout⟩
    · cases hlast
      exact ⟨hI, hnone, Nat.le_refl _, fun _ => rfl, fun h => absurd hnone h⟩
    · obtain ⟨hI', hnone, hgrow, -⟩ := ih hI₁ hlast
      have hmore := outgoing_grows hhead
      rw [← hout] at hmore
      refine ⟨hI', hnone, by omega, fun h => ?_, fun _ => by omega⟩
      rw [hsome] at h
      cases h

end Requests

/-! ### What a handler does -/

section Outcomes

variable (srv : Service δ) (clock : Nat → Nat) (s : Loop δ) (c : Ptr)

/-- `close_conn` detaches the node of the connection in every list and frees it. -/
inductive Closed : Loop δ → Prop
  | mk {conn : ConnRec} {m : Timeout → DListMem Unit} (hconn : s.conns.read c = some conn)
      (hm : ∀ list, dlistDeatach (s.lists list) c = .ok (m list)) : Closed
      { s with conns := s.conns.free c, lists := fun list => (m list).free c, fdToConn := s.fdToConn.set conn.fd none }

inductive ReadOutcome : ReadResult → Loop δ → Prop
  | again : ReadOutcome .again s
  | closed {conn : ConnRec} {m : DListMem Unit} (hconn : s.conns.read c = some conn)
      (hm : dlistDeatach (s.lists .read) c = .ok m) : ReadOutcome .closed
      { s with conns := s.conns.set c { conn with wantClose := true }, lists := Function.update s.lists .read m }
  /-- no whole request, and no reply that waits -/
  | quiet {conn : ConnRec} {first : UInt8} {rest : Bytes} {r : Conn δ} (hconn : s.conns.read c = some conn)
      (hread : handleRead srv.dispatch ⟨conn.incoming, conn.outgoing, s.data⟩ (first :: rest) = .ok r)
      (hempty : r.outgoing = []) : ReadOutcome (.data first rest)
      { s with
        conns := s.conns.set c
          { conn with incoming := r.incoming, outgoing := r.outgoing, lastReadMs := clock s.ticks }
        ticks := s.ticks + 1
        data := r.data }
  | replied {conn : ConnRec} {first : UInt8} {rest : Bytes} {r : Conn δ} {m m' : DListMem Unit}
      (hconn : s.conns.read c = some conn)
      (hread : handleRead srv.dispatch ⟨conn.incoming, conn.outgoing, s.data⟩ (first :: rest) = .ok r)
      (hreply : r.outgoing ≠ []) (hm : dlistDeatach (s.lists .read) c = .ok m)
      (hm' : dlistInsertBefore (s.lists .write) sentinel c = .ok m') : ReadOutcome (.data first rest)
      { s with
        conns := s.conns.set c
          { conn with
            incoming := r.incoming
            outgoing := r.outgoing
            lastReadMs := clock s.ticks
            wantRead := false
            wantWrite := true
            lastWriteMs := clock (s.ticks + 1) }
        lists := Function.update (Function.update s.lists .read m) .write m'
        ticks := s.ticks + 2
        data := r.data }

inductive WriteOutcome : WriteResult → Loop δ → Prop
  | again : WriteOutcome .again s
  | closed {conn : ConnRec} {m : DListMem Unit} {res : WriteResult} (hconn : s.conns.read c = some conn)
      (hres : res = .closed ∨ ((∃ more, res = .wrote more) ∧ conn.outgoing = []))
      (hm : dlistDeatach (s.lists .write) c = .ok m) : WriteOutcome res
      { s with conns := s.conns.set c { conn with wantClose := true }, lists := Function.update s.lists .write m }
  /-- a part of what waits is written -/
  | some {conn : ConnRec} {more : Nat} (hconn : s.conns.read c = some conn)
      (hless : more + 1 < conn.outgoing.length) : WriteOutcome (.wrote more)
      { s with
        conns := s.conns.set c
          { conn with outgoing := conn.outgoing.drop (more + 1), lastWriteMs := clock s.ticks }
        ticks := s.ticks + 1 }
  | all {conn : ConnRec} {more : Nat} {m m' : DListMem Unit} (hconn : s.conns.read c = some conn)
      (hnonempty : conn.outgoing ≠ []) (hless : conn.outgoing.length ≤ more + 1)
      (hm : dlistDeatach (s.lists .write) c = .ok m)
      (hm' : dlistInsertBefore (s.lists .read) sentinel c = .ok m') : WriteOutcome (.wrote more)
      { s with
        conns := s.conns.set c
          { conn with
            outgoing := []
            lastWriteMs := clock s.ticks
            wantRead := true
            wantWrite := false
            lastReadMs := clock (s.ticks + 1) }
        lists := Function.update (Function.update s.lists .write m) .read m'
        ticks := s.ticks + 2 }

end Outcomes

section Inversion

variable {srv : Service δ} {clock : Nat → Nat} {s s' : Loop δ} {c : Ptr}

theorem conn_ok {conn : ConnRec} (h : s.conn c = .ok conn) : s.conns.read c = some conn := by
  unfold Loop.conn at h
  split at h
  · next heq =>
    cases h
    exact heq
  · cases h

theorem detach_ok {list : Timeout} (h : s.detach list c = .ok s') :
    ∃ m, dlistDeatach (s.lists list) c = .ok m ∧ s' = { s with lists := Function.update s.lists list m } := by
  obtain ⟨m, hm, h⟩ := ok_of_bind h
  cases h
  exact ⟨m, hm, rfl⟩

theorem insert_ok {list : Timeout} (h : s.insert list c = .ok s') :
    ∃ m, dlistInsertBefore (s.lists list) sentinel c = .ok m ∧
      s' = { s with lists := Function.update s.lists list m } := by
  obtain ⟨m, hm, h⟩ := ok_of_bind h
  cases h
  exact ⟨m, hm, rfl⟩

theorem closeConn_closed (h : closeConn s c = .ok s') : Closed s c s' := by
  obtain ⟨conn, hconn, h⟩ := ok_of_bind h
  split at h
  · obtain ⟨s₁, h₁, h⟩ := ok_of_bind h
    obtain ⟨s₂, h₂, h⟩ := ok_of_bind h
    obtain ⟨s₃, h₃, h⟩ := ok_of_bind h
    obtain ⟨idle, hidle, rfl⟩ := detach_ok h₁
    obtain ⟨read, hread, rfl⟩ := detach_ok h₂
    obtain ⟨write, hwrite, rfl⟩ := detach_ok h₃
    cases h
    refine .mk (conn_ok hconn) fun list => ?_
    cases list with
    | idle => exact hidle
    | read => exact hread
    | write => exact hwrite
  · cases h

theorem readConn_outcome {res : ReadResult} (h : readConn srv clock s c res = .ok s') :
    ReadOutcome srv clock s c res s' := by
  obtain ⟨conn, hconn, h⟩ := ok_of_bind h
  have hconn := conn_ok hconn
  cases res with
  | again =>
    cases h
    exact .again
  | closed =>
    obtain ⟨m, hm, rfl⟩ := detach_ok h
    exact .closed hconn hm
  | data first rest =>
    obtain ⟨r, hread, h⟩ := ok_of_bind h
    dsimp only at h
    split at h
    · next hpos =>
      obtain ⟨s₁, h₁, h⟩ := ok_of_bind h
      obtain ⟨s₂, h₂, h⟩ := ok_of_bind h
      obtain ⟨m, hm, rfl⟩ := detach_ok h₁
      obtain ⟨m', hm', rfl⟩ := insert_ok h₂
      cases h
      exact .replied hconn hread (List.ne_nil_of_length_pos hpos) hm hm'
    · next hzero =>
      cases h
      exact .quiet hconn hread (List.eq_nil_of_length_eq_zero (by omega))

theorem writeConn_outcome {res : WriteResult} (h : writeConn clock s c res = .ok s') :
    WriteOutcome clock s c res s' := by
  obtain ⟨conn, hconn, h⟩ := ok_of_bind h
  have hconn := conn_ok hconn
  cases res with
  | again =>
    cases h
    exact .again
  | closed =>
    obtain ⟨m, hm, rfl⟩ := detach_ok h
    exact .closed hconn (.inl rfl) hm
  | wrote more =>
    dsimp only at h
    split at h
    · next hzero =>
      obtain ⟨m, hm, rfl⟩ := detach_ok h
      refine .closed hconn (.inr ⟨⟨more, rfl⟩, ?_⟩) hm
      exact List.eq_nil_of_length_eq_zero (by omega)
    · next hpos =>
      split at h
      · next hall =>
        obtain ⟨s₁, h₁, h⟩ := ok_of_bind h
        obtain ⟨s₂, h₂, h⟩ := ok_of_bind h
        obtain ⟨m, hm, rfl⟩ := detach_ok h₁
        obtain ⟨m', hm', rfl⟩ := insert_ok h₂
        cases h
        rw [bufConsume, List.length_drop] at hall
        have hempty : bufConsume conn.outgoing (min (more + 1) conn.outgoing.length) = [] := by
          apply List.eq_nil_of_length_eq_zero
          rw [bufConsume, List.length_drop]
          exact hall
        have hnonempty : conn.outgoing ≠ [] := by
          apply List.ne_nil_of_length_pos
          omega
        rw [hempty]
        exact .all hconn hnonempty (by omega) hm hm'
      · next hless =>
        cases h
        rw [bufConsume, List.length_drop] at hless
        have hlt : more + 1 < conn.outgoing.length := by omega
        rw [Nat.min_eq_left hlt.le]
        exact .some hconn hlt

end Inversion

/-! ### What a step does -/

/-- The list has no first node, or one that is in time. -/
def Unexpired (s : Loop δ) (currMs : Nat) (list : Timeout) : Prop :=
  ∃ head, (s.lists list).read sentinel = some head ∧
    (head.next = some sentinel ∨ ∃ c conn, head.next = some c ∧ s.conns.read c = some conn ∧
      currMs ≤ (conn.stamp list + list.limitMs) % 2 ^ 64)

/-- The record of a connection that was just accepted. -/
def newConn (clock : Nat → Nat) (ticks connfd : Nat) : ConnRec :=
  { fd := connfd
    wantRead := true
    lastActiveMs := clock ticks
    lastReadMs := clock (ticks + 1)
    lastWriteMs := clock (ticks + 2) }

/-- `fd_to_conn`, resized for a new entry. -/
def registered (fdToConn : List (Option Ptr)) (connfd : Nat) (c : Ptr) : List (Option Ptr) :=
  (fdToConn ++ List.replicate (connfd + 1 - fdToConn.length) none).set connfd (some c)

inductive Transition (srv : Service δ) (clock : Nat → Nat) (s : Loop δ) (ans : Answer) : Loop δ → Prop
  /-- `poll` is interrupted, or `accept` fails -/
  | stays (hphase : s.phase = .poll) : Transition srv clock s ans s
  | polled {args : List (Nat × UInt8)} (hphase : s.phase = .poll) (hargs : pollArgs s = .ok args) :
      Transition srv clock s ans { s with phase := .sockets args }
  | accepted {args : List (Nat × UInt8)} {connfd : Nat} {m : DListMem Unit} (hphase : s.phase = .poll)
      (hargs : pollArgs s = .ok args) (hans : ans.accepted = some (some connfd))
      (hm : dlistInsertBefore ((s.lists .idle).alloc { val := () }) sentinel s.conns.next = .ok m) :
      Transition srv clock s ans
        { s with
          phase := .sockets args
          conns := s.conns.alloc (newConn clock s.ticks connfd)
          lists := Function.update (fun list => (s.lists list).alloc { val := () }) .idle m
          fdToConn := registered s.fdToConn connfd s.conns.next
          ticks := s.ticks + 3 }
  | skipped {fd : Nat} {events : UInt8} {args : List (Nat × UInt8)} (hphase : s.phase = .sockets ((fd, events) :: args)) :
      Transition srv clock s ans { s with phase := .sockets args }
  | ready {fd : Nat} {events ready : UInt8} {args : List (Nat × UInt8)} {c : Ptr} {conn : ConnRec} {m m' : DListMem Unit}
      (hphase : s.phase = .sockets ((fd, events) :: args)) (hready : ready = ans.revents &&& (events ||| pollUnasked))
      (hfd : s.fdToConn[fd]? = some (some c)) (hconn : s.conns.read c = some conn)
      (hm : dlistDeatach (s.lists .idle) c = .ok m) (hm' : dlistInsertBefore m sentinel c = .ok m') :
      Transition srv clock s ans
        { s with
          phase := .read c ready args
          conns := s.conns.set c { conn with lastActiveMs := clock s.ticks }
          lists := Function.update s.lists .idle m'
          ticks := s.ticks + 1 }
  | read {c : Ptr} {ready : UInt8} {args : List (Nat × UInt8)} {s₁ : Loop δ} (hphase : s.phase = .read c ready args)
      (hin : ready &&& pollIn ≠ 0) (ho : ReadOutcome srv clock s c ans.read s₁) :
      Transition srv clock s ans { s₁ with phase := .write c ready args }
  | noRead {c : Ptr} {ready : UInt8} {args : List (Nat × UInt8)} (hphase : s.phase = .read c ready args) :
      Transition srv clock s ans { s with phase := .write c ready args }
  | write {c : Ptr} {ready : UInt8} {args : List (Nat × UInt8)} {s₁ : Loop δ} (hphase : s.phase = .write c ready args)
      (hout : ready &&& pollOut ≠ 0) (ho : WriteOutcome clock s c ans.write s₁) :
      Transition srv clock s ans { s₁ with phase := .close c ready args }
  | noWrite {c : Ptr} {ready : UInt8} {args : List (Nat × UInt8)} (hphase : s.phase = .write c ready args) :
      Transition srv clock s ans { s with phase := .close c ready args }
  | close {c : Ptr} {ready : UInt8} {args : List (Nat × UInt8)} {conn : ConnRec} {s₁ : Loop δ}
      (hphase : s.phase = .close c ready args) (hconn : s.conns.read c = some conn)
      (hclose : ready &&& pollErr ≠ 0 ∧ conn.wantClose) (hclosed : Closed s c s₁) :
      Transition srv clock s ans { s₁ with phase := .sockets args }
  | keep {c : Ptr} {ready : UInt8} {args : List (Nat × UInt8)} {conn : ConnRec} (hphase : s.phase = .close c ready args)
      (hconn : s.conns.read c = some conn) (hkeep : ¬(ready &&& pollErr ≠ 0 ∧ conn.wantClose)) :
      Transition srv clock s ans { s with phase := .sockets args }
  | timers (hphase : s.phase = .sockets []) :
      Transition srv clock s ans { s with phase := .timers (clock s.ticks) .idle, ticks := s.ticks + 1 }
  /-- the first connection of the list is late -/
  | expired {currMs : Nat} {list : Timeout} {head : DListNode Unit} {c : Ptr} {conn : ConnRec} {s₁ : Loop δ}
      (hphase : s.phase = .timers currMs list) (hhead : (s.lists list).read sentinel = some head)
      (hfirst : head.next = some c) (hne : c ≠ sentinel) (hconn : s.conns.read c = some conn)
      (hlate : (conn.stamp list + list.limitMs) % 2 ^ 64 < currMs) (hclosed : Closed s c s₁) :
      Transition srv clock s ans s₁
  | idleDone {currMs : Nat} (hphase : s.phase = .timers currMs .idle) (hfront : Unexpired s currMs .idle) :
      Transition srv clock s ans { s with phase := .timers currMs .read }
  | readDone {currMs : Nat} (hphase : s.phase = .timers currMs .read) (hfront : Unexpired s currMs .read) :
      Transition srv clock s ans { s with phase := .timers currMs .write }
  | writeDone {currMs : Nat} {data : δ} (hphase : s.phase = .timers currMs .write) (hfront : Unexpired s currMs .write)
      (hdata : srv.expire s.data currMs = .ok data) : Transition srv clock s ans { s with phase := .poll, data := data }

section Step

variable {srv : Service δ} {clock : Nat → Nat} {s s' : Loop δ} {ans : Answer}

theorem handleAccept_ok {connfd : Nat} (h : handleAccept clock s connfd = .ok s') :
    ∃ m, dlistInsertBefore ((s.lists .idle).alloc { val := () }) sentinel s.conns.next = .ok m ∧
      s' = { s with
        conns := s.conns.alloc (newConn clock s.ticks connfd)
        lists := Function.update (fun list => (s.lists list).alloc { val := () }) .idle m
        fdToConn := registered s.fdToConn connfd s.conns.next
        ticks := s.ticks + 3 } := by
  obtain ⟨s₁, h₁, h⟩ := ok_of_bind h
  obtain ⟨m, hm, rfl⟩ := insert_ok h₁
  cases h
  exact ⟨m, hm, rfl⟩

theorem nextTimers_transition {currMs : Nat} {list : Timeout} (hphase : s.phase = .timers currMs list)
    (hfront : Unexpired s currMs list) (h : nextTimers srv s currMs list = .ok s') : Transition srv clock s ans s' := by
  cases list with
  | idle =>
    cases h
    exact .idleDone hphase hfront
  | read =>
    cases h
    exact .readDone hphase hfront
  | write =>
    obtain ⟨data, hdata, h⟩ := ok_of_bind h
    cases h
    exact .writeDone hphase hfront hdata

theorem timerRound_transition {currMs : Nat} {list : Timeout} (hphase : s.phase = .timers currMs list)
    (h : timerRound srv s currMs list = .ok s') : Transition srv clock s ans s' := by
  obtain ⟨empty, hempty, h⟩ := ok_of_bind h
  obtain ⟨head, hhead, hempty⟩ := ok_of_bind hempty
  have hread : (s.lists list).read sentinel = some head := by
    unfold DListMem.node at hhead
    split at hhead
    · next heq =>
      cases hhead
      exact heq
    · cases hhead
  cases hempty
  split at h
  · next hself => exact nextTimers_transition hphase ⟨head, hread, .inl (by simpa using hself)⟩ h
  · next hother =>
    rw [hhead, Run.ok_bind] at h
    cases hnext : head.next with
    | none =>
      simp only [hnext] at h
      cases h
    | some c =>
      simp only [hnext] at h
      obtain ⟨conn, hconn, h⟩ := ok_of_bind h
      have hconn := conn_ok hconn
      split at h
      · next hge => exact nextTimers_transition hphase ⟨head, hread, .inr ⟨c, conn, hnext, hconn, hge⟩⟩ h
      · next hlt =>
        refine .expired hphase hread hnext ?_ hconn (by omega) (closeConn_closed h)
        rintro rfl
        exact hother (by simp [hnext])

theorem socketReady_transition {fd : Nat} {events ready : UInt8} {args : List (Nat × UInt8)}
    (hphase : s.phase = .sockets ((fd, events) :: args)) (hready : ready = ans.revents &&& (events ||| pollUnasked))
    (h : socketReady clock s fd ready args = .ok s') : Transition srv clock s ans s' := by
  unfold socketReady at h
  split at h
  · cases h
  · cases h
  · next c hfd =>
    obtain ⟨conn, hconn, h⟩ := ok_of_bind h
    obtain ⟨s₁, h₁, h⟩ := ok_of_bind h
    obtain ⟨s₂, h₂, h⟩ := ok_of_bind h
    obtain ⟨m, hm, rfl⟩ := detach_ok h₁
    obtain ⟨m', hm', rfl⟩ := insert_ok h₂
    cases h
    dsimp only [Loop.setConn, Loop.tick] at hm' ⊢
    rw [Function.update_self] at hm'
    rw [Function.update_idem]
    exact .ready hphase hready hfd (conn_ok hconn) hm hm'

theorem loopStep_transition (h : loopStep srv clock s ans = .ok s') : Transition srv clock s ans s' := by
  unfold loopStep at h
  split at h
  · next hphase =>
    split at h
    · cases h
      exact .stays hphase
    · obtain ⟨args, hargs, h⟩ := ok_of_bind h
      split at h
      · cases h
        exact .polled hphase hargs
      · cases h
        exact .stays hphase
      · next connfd hans =>
        obtain ⟨s₁, h₁, h⟩ := ok_of_bind h
        cases h
        obtain ⟨m, hm, rfl⟩ := handleAccept_ok h₁
        exact .accepted hphase hargs hans hm
  · next hphase =>
    cases h
    exact .timers hphase
  · next fd events args hphase =>
    dsimp only at h
    split at h
    · cases h
      exact .skipped hphase
    · exact socketReady_transition hphase rfl h
  · next c ready args hphase =>
    split at h
    · next hin =>
      obtain ⟨s₁, h₁, h⟩ := ok_of_bind h
      cases h
      exact .read hphase hin (readConn_outcome h₁)
    · cases h
      exact .noRead hphase
  · next c ready args hphase =>
    split at h
    · next hout =>
      obtain ⟨s₁, h₁, h⟩ := ok_of_bind h
      cases h
      exact .write hphase hout (writeConn_outcome h₁)
    · cases h
      exact .noWrite hphase
  · next c ready args hphase =>
    obtain ⟨conn, hconn, h⟩ := ok_of_bind h
    split at h
    · next hclose =>
      obtain ⟨s₁, h₁, h⟩ := ok_of_bind h
      cases h
      exact .close hphase (conn_ok hconn) hclose (closeConn_closed h₁)
    · next hkeep =>
      cases h
      exact .keep hphase (conn_ok hconn) hkeep
  · next currMs list hphase => exact timerRound_transition hphase h

end Step

end CustomRedis
