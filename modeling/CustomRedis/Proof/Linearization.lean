import CustomRedis.Proof.Backlog
import CustomRedis.Proof.Connections

/-!
# The event loop serves requests one at a time

What the peers of the connections see is what they send and what they get. Along any run of the loop there is one order
of all requests and all rounds of the entry timeouts such that a server without connections, which answers each request
into an empty buffer, goes through the same states and gives the same replies. The bytes that came in on a connection
are the frames of its requests in this order and a rest without a whole frame, and the bytes that went out are the
beginning of its replies.
-/

namespace CustomRedis

open Run (run ok_bind ok_of_bind Along Ensures)

variable {δ : Type}

/-! ### The order of the requests -/

/-- A request of a connection: its bytes, the tokens read from them, and the reply. -/
structure Exchange where
  conn : Ptr
  frame : Bytes
  tokens : List Bytes
  reply : Bytes
  deriving DecidableEq

/-- One use of the service. -/
inductive Use
  | exchange (x : Exchange)
  | expire (currMs : Nat)
  deriving DecidableEq

def Use.exchange? : Use → Option Exchange
  | .exchange x => some x
  | .expire _ => none

/-- The replies in the order of the requests. -/
def replies (log : List Use) : List Bytes := (log.filterMap Use.exchange?).map Exchange.reply

/-- The requests of one connection. -/
def exchangesOf (log : List Use) (c : Ptr) : List Exchange := (log.filterMap Use.exchange?).filter fun x => x.conn = c

/-- A server without connections: every reply goes to an empty buffer, and the replies are collected. -/
def serveAlone (srv : Service δ) (s : δ × List Bytes) : Use → M (δ × List Bytes)
  | .exchange x => do
    let (data, reply) ← answer srv.dispatch (s.1, []) x.tokens
    .ok (data, s.2 ++ [reply])
  | .expire currMs => do
    let data ← srv.expire s.1 currMs
    .ok (data, s.2)

/-! ### What the peers see -/

def ReadResult.bytes : ReadResult → Bytes
  | .data first rest => first :: rest
  | _ => []

/-- The bytes that `write` takes of what waits. -/
def WriteResult.bytes (out : Bytes) : WriteResult → Bytes
  | .wrote more => out.take (more + 1)
  | _ => []

/-- What a step reads from a connection. -/
def heardIn (s : Loop δ) (ans : Answer) (c : Ptr) : Bytes :=
  match s.phase with
  | .read q ready _ => if q = c ∧ ready &&& pollIn ≠ 0 then ans.read.bytes else []
  | _ => []

/-- What a step writes to a connection. -/
def toldIn (s : Loop δ) (ans : Answer) (c : Ptr) : Bytes :=
  match s.phase, s.conns.read c with
  | .write q ready _, some conn => if q = c ∧ ready &&& pollOut ≠ 0 then ans.write.bytes conn.outgoing else []
  | _, _ => []

/-- The loop with all that was read from and written to each connection so far. -/
structure Traced (δ : Type) where
  loop : Loop δ
  heard : Ptr → Bytes := fun _ => []
  told : Ptr → Bytes := fun _ => []

def tracedStep (srv : Service δ) (clock : Nat → Nat) (t : Traced δ) (ans : Answer) : M (Traced δ) := do
  let s ← loopStep srv clock t.loop ans
  .ok ⟨s, fun c => t.heard c ++ heardIn t.loop ans c, fun c => t.told c ++ toldIn t.loop ans c⟩

/-- On no connection do 4 GiB of replies wait. -/
def ShortBacklogs (t : Traced δ) : Prop :=
  ∀ c < t.loop.conns.next, ∀ conn ∈ t.loop.conns.read c, conn.outgoing.length < 2 ^ 32

instance (t : Traced δ) : Decidable (ShortBacklogs t) :=
  inferInstanceAs (Decidable (∀ c < t.loop.conns.next, ∀ conn ∈ t.loop.conns.read c, conn.outgoing.length < 2 ^ 32))

/-- What was read are the frames of the requests and a rest without a whole frame, which waits if the connection is
still there. -/
def HeardAs (xs : List Exchange) (heard : Bytes) (conn : Option ConnRec) : Prop :=
  ∃ rest, heard = (xs.map Exchange.frame).flatten ++ rest ∧ completeFrame rest = none ∧
    ∀ r ∈ conn, r.incoming = rest

/-- What was written is the beginning of the replies, and the others wait if the connection is still there. -/
def ToldAs (xs : List Exchange) (told : Bytes) (conn : Option ConnRec) : Prop :=
  ∃ rest, (xs.map Exchange.reply).flatten = told ++ rest ∧ ∀ r ∈ conn, r.outgoing = rest

/-- The bytes of a request are one frame, and its tokens were read from them and what had come in behind them. -/
def Exchange.Parsed (x : Exchange) : Prop :=
  ∃ totalLen, completeFrame x.frame = some totalLen ∧ x.frame.length = 4 + totalLen ∧
    ∃ behind, (parseCmd (x.frame ++ behind) 4).2 = .ok x.tokens

/-- The order of requests and rounds explains the state and what all peers have seen. -/
structure Explains (srv : Service δ) (data : δ) (log : List Use) (t : Traced δ) : Prop where
  alone : run (serveAlone srv) (data, []) log = .ok (t.loop.data, replies log)
  parsed : ∀ x ∈ log.filterMap Use.exchange?, x.Parsed
  heard : ∀ c, HeardAs (exchangesOf log c) (t.heard c) (t.loop.conns.read c)
  told : ∀ c, ToldAs (exchangesOf log c) (t.told c) (t.loop.conns.read c)
  fresh : ∀ c, t.loop.conns.next ≤ c → exchangesOf log c = [] ∧ t.heard c = [] ∧ t.told c = []

/-! ### Requests -/

section Requests

variable {srv : Service δ} {I : δ → Prop}

theorem replies_append (log log' : List Use) : replies (log ++ log') = replies log ++ replies log' := by
  rw [replies, List.filterMap_append, List.map_append]
  rfl

theorem exchangesOf_append (log log' : List Use) (c : Ptr) :
    exchangesOf (log ++ log') c = exchangesOf log c ++ exchangesOf log' c := by
  rw [exchangesOf, List.filterMap_append, List.filter_append]
  rfl

theorem filterMap_exchange (xs : List Exchange) : (xs.map Use.exchange).filterMap Use.exchange? = xs := by
  rw [List.filterMap_map]
  exact List.filterMap_some

theorem replies_exchange (xs : List Exchange) : replies (xs.map .exchange) = xs.map Exchange.reply := by
  rw [replies, filterMap_exchange]

theorem exchangesOf_exchange {xs : List Exchange} {c : Ptr} (h : ∀ x ∈ xs, x.conn = c) (q : Ptr) :
    exchangesOf (xs.map .exchange) q = if q = c then xs else [] := by
  rw [exchangesOf, filterMap_exchange]
  by_cases hq : q = c
  · rw [if_pos hq]
    exact List.filter_eq_self.mpr fun x hx => decide_eq_true ((h x hx).trans hq.symm)
  · rw [if_neg hq]
    refine List.filter_eq_nil_iff.mpr fun x hx hxq => hq ?_
    exact (of_decide_eq_true hxq).symm.trans (h x hx)

/-- Behind a backlog a request is answered as it is without one. -/
theorem answer_behind (hsame : srv.Oblivious) {d d' : δ} {back out : Bytes} {cmd : List Bytes}
    (hback : back.length < 2 ^ 32) (hrun : answer srv.dispatch (d, back) cmd = .ok (d', out)) :
    ∃ reply, answer srv.dispatch (d, []) cmd = .ok (d', reply) ∧ out = back ++ reply := by
  obtain ⟨⟨d₁, out₁⟩, hdispatch, hret⟩ := ok_of_bind hrun
  cases hret
  replace hdispatch : srv.dispatch d (beforeResBuild back).1 cmd = .ok (d', out₁) := hdispatch
  rw [hsame d back cmd] at hdispatch
  cases halone : srv.dispatch d (beforeResBuild []).1 cmd with
  | error e =>
    rw [halone] at hdispatch
    cases hdispatch
  | ok r =>
    rw [halone] at hdispatch
    cases hdispatch
    refine ⟨afterResBuild r.2 0, ?_, ?_⟩
    · show (srv.dispatch d (beforeResBuild []).1 cmd >>= _) = _
      rw [halone]
      rfl
    · exact afterResBuild_append hback

/-- One call of `try_one_req` that takes a request off the buffer is one exchange. -/
theorem tryOneReq_exchange (hsame : srv.Oblivious) {conn conn' : Conn δ} (c : Ptr)
    (hback : conn.outgoing.length < 2 ^ 32) (hrun : tryOneReq srv.dispatch conn = .ok (conn', true)) :
    ∃ x : Exchange, x.conn = c ∧ x.Parsed ∧ answer srv.dispatch (conn.data, []) x.tokens = .ok (conn'.data, x.reply) ∧
      conn.incoming = x.frame ++ conn'.incoming ∧ conn'.outgoing = conn.outgoing ++ x.reply := by
  unfold tryOneReq at hrun
  split at hrun
  · cases hrun
  · next totalLen hsome =>
    obtain ⟨cmd, hparse, hrun⟩ := ok_of_bind hrun
    obtain ⟨⟨data, out⟩, hdispatch, hrun⟩ := ok_of_bind hrun
    cases hrun
    replace hdispatch : srv.dispatch conn.data (beforeResBuild conn.outgoing).1 cmd = .ok (data, out) := hdispatch
    have hanswer : answer srv.dispatch (conn.data, conn.outgoing) cmd =
        .ok (data, afterResBuild out (beforeResBuild conn.outgoing).2) := by
      show (srv.dispatch conn.data (beforeResBuild conn.outgoing).1 cmd >>= _) = _
      rw [hdispatch]
      rfl
    obtain ⟨reply, halone, hout⟩ := answer_behind hsame hback hanswer
    have hsplit : conn.incoming.take (4 + totalLen) ++ conn.incoming.drop (4 + totalLen) = conn.incoming :=
      List.take_append_drop _ _
    refine ⟨⟨c, conn.incoming.take (4 + totalLen), cmd, reply⟩, rfl, ?_, halone, hsplit.symm, hout⟩
    have hlen : 4 + totalLen ≤ conn.incoming.length := by
      unfold completeFrame at hsome
      dsimp only at hsome
      split at hsome
      · cases hsome
      · split at hsome
        · cases hsome
        · cases hsome
          omega
    have htake : (conn.incoming.take (4 + totalLen)).length = 4 + totalLen := by
      rw [List.length_take, Nat.min_eq_left hlen]
    refine ⟨totalLen, ?_, htake, conn.incoming.drop (4 + totalLen), by rwa [hsplit]⟩
    have hhead : leNat 4 (conn.incoming.take (4 + totalLen)) = leNat 4 conn.incoming := by
      rw [← leNat_take 4 (conn.incoming.take _), List.take_take, Nat.min_eq_left (by omega), leNat_take]
    unfold completeFrame at hsome ⊢
    dsimp only at hsome ⊢
    rw [if_neg (by omega)] at hsome
    rw [hhead, htake, if_neg (by omega)]
    split at hsome
    · cases hsome
    · cases hsome
      rw [if_neg (by omega)]

/-- The loop over the frames is a list of exchanges. -/
theorem tryAllReqs_exchanges (hsound : srv.Sound I) (hsame : srv.Oblivious) (c : Ptr) {fuel : Nat} {conn conn' : Conn δ}
    (hI : I conn.data) (hback : conn'.outgoing.length < 2 ^ 32) (hrun : tryAllReqs srv.dispatch fuel conn = .ok conn') :
    ∃ xs : List Exchange, (∀ x ∈ xs, x.conn = c ∧ x.Parsed) ∧
      (∀ rs, run (serveAlone srv) (conn.data, rs) (xs.map .exchange) = .ok (conn'.data, rs ++ xs.map Exchange.reply)) ∧
      conn.incoming = (xs.map Exchange.frame).flatten ++ conn'.incoming ∧
      conn'.outgoing = conn.outgoing ++ (xs.map Exchange.reply).flatten := by
  induction fuel generalizing conn with
  | zero => cases hrun
  | succ fuel ih =>
    have hgrow := (tryAllReqs_ok hsound hI hrun).2.2.1
    obtain ⟨⟨conn₁, again⟩, hone, hlast⟩ := ok_of_bind hrun
    rcases tryOneReq_cases hsound hI hone with ⟨rfl, rfl, -⟩ | ⟨rfl, hI₁, -⟩
    · cases hlast
      refine ⟨[], nofun, fun rs => ?_, rfl, ?_⟩
      · rw [List.map_nil, List.map_nil, List.append_nil]
        rfl
      · rw [List.map_nil, List.flatten_nil, List.append_nil]
    · obtain ⟨x, hconn, hparsed, halone, hin, hout⟩ := tryOneReq_exchange hsame c (hgrow.trans_lt hback) hone
      obtain ⟨xs, hxs, hall, hin', hout'⟩ := ih hI₁ hlast
      refine ⟨x :: xs, List.forall_mem_cons.mpr ⟨⟨hconn, hparsed⟩, hxs⟩, fun rs => ?_, ?_, ?_⟩
      · have hstep : serveAlone srv (conn.data, rs) (.exchange x) = .ok (conn₁.data, rs ++ [x.reply]) := by
          show (answer srv.dispatch (conn.data, []) x.tokens >>= _) = _
          rw [halone]
          rfl
        rw [List.map_cons, Run.run_cons_ok hstep, hall, List.append_assoc]
        rfl
      · rw [hin, hin', List.map_cons, List.flatten_cons, List.append_assoc]
      · rw [hout', hout, List.map_cons, List.flatten_cons, List.append_assoc]

end Requests

/-! ### Steps of the loop -/

section Steps

variable {srv : Service δ} {clock : Nat → Nat} {data : δ} {log : List Use} {t : Traced δ} {ans : Answer}

/-- The buffers of the connections stay as they are, up to connections that are gone or new. -/
structure Keeps (s s' : Loop δ) : Prop where
  next : s.conns.next ≤ s'.conns.next
  buffers : ∀ c conn', s'.conns.read c = some conn' →
    (∃ conn, s.conns.read c = some conn ∧ conn'.incoming = conn.incoming ∧ conn'.outgoing = conn.outgoing) ∨
      (s.conns.next ≤ c ∧ conn'.incoming = [] ∧ conn'.outgoing = [])

theorem Keeps.of_conns {s s' : Loop δ} (h : s'.conns = s.conns) : Keeps s s' := by
  refine ⟨(congrArg Mem.next h).ge, fun c conn' hconn => .inl ⟨conn', ?_, rfl, rfl⟩⟩
  rwa [h] at hconn

theorem Keeps.of_set {s s' : Loop δ} {c : Ptr} {conn conn' : ConnRec} (hconn : s.conns.read c = some conn)
    (h : s'.conns = s.conns.set c conn') (hin : conn'.incoming = conn.incoming) (hout : conn'.outgoing = conn.outgoing) :
    Keeps s s' := by
  refine ⟨?_, ?_⟩
  · rw [h, Mem.next_set]
  · rw [h]
    refine Mem.forall_read_set hconn (.inl ⟨conn, hconn, hin, hout⟩) fun q w _ hq => ?_
    exact .inl ⟨w, hq, rfl, rfl⟩

theorem Keeps.of_closed {s s' : Loop δ} {c : Ptr} (h : Closed s c s') : Keeps s s' := by
  cases h with
  | mk hconn hm =>
    refine ⟨(Mem.next_free _ _).ge, ?_⟩
    exact Mem.forall_read_free fun q w _ hq => .inl ⟨w, hq, rfl, rfl⟩

/-- A step that moves no bytes and does not use the service needs no new entry. -/
theorem Explains.keeps (h : Explains srv data log t) {s' : Loop δ} (hdata : s'.data = t.loop.data)
    (hkeeps : Keeps t.loop s') : Explains srv data log { t with loop := s' } where
  alone := by
    rw [hdata]
    exact h.alone
  parsed := h.parsed
  heard := by
    intro c
    cases hconn : s'.conns.read c with
    | none =>
      obtain ⟨rest, hheard, hshort, -⟩ := h.heard c
      exact ⟨rest, hheard, hshort, nofun⟩
    | some conn' =>
      rcases hkeeps.buffers c conn' hconn with ⟨conn, hold, hin, -⟩ | ⟨hnew, hin, -⟩
      · obtain ⟨rest, hheard, hshort, hrest⟩ := h.heard c
        refine ⟨rest, hheard, hshort, ?_⟩
        rintro r ⟨⟩
        exact hin.trans (hrest conn hold)
      · obtain ⟨hnone, hheard, -⟩ := h.fresh c hnew
        refine ⟨[], ?_, rfl, ?_⟩
        · show t.heard c = _
          rw [hnone, hheard]
          rfl
        · rintro r ⟨⟩
          exact hin
  told := by
    intro c
    cases hconn : s'.conns.read c with
    | none =>
      obtain ⟨rest, htold, -⟩ := h.told c
      exact ⟨rest, htold, nofun⟩
    | some conn' =>
      rcases hkeeps.buffers c conn' hconn with ⟨conn, hold, -, hout⟩ | ⟨hnew, -, hout⟩
      · obtain ⟨rest, htold, hrest⟩ := h.told c
        refine ⟨rest, htold, ?_⟩
        rintro r ⟨⟩
        exact hout.trans (hrest conn hold)
      · obtain ⟨hnone, -, htold⟩ := h.fresh c hnew
        refine ⟨[], ?_, ?_⟩
        · show _ = t.told c ++ []
          rw [hnone, htold]
          rfl
        · rintro r ⟨⟩
          exact hout
  fresh c hc := h.fresh c (hkeeps.next.trans hc)

/-- A round of the entry timeouts is the next entry. -/
theorem Explains.expired (h : Explains srv data log t) {d : δ} {currMs : Nat} (hexpire : srv.expire t.loop.data currMs = .ok d)
    (phase : Phase) : Explains srv data (log ++ [.expire currMs]) { t with loop := { t.loop with phase := phase, data := d } } := by
  have hreplies : replies (log ++ [.expire currMs]) = replies log := by
    rw [replies_append]
    exact List.append_nil _
  have hsame : ∀ c, exchangesOf (log ++ [.expire currMs]) c = exchangesOf log c := by
    intro c
    rw [exchangesOf_append]
    exact List.append_nil _
  refine ⟨?_, ?_, ?_, ?_, ?_⟩
  · rw [Run.run_append h.alone, hreplies]
    refine Run.run_cons_ok ?_ []
    show (srv.expire t.loop.data currMs >>= _) = _
    rw [hexpire]
    rfl
  · intro x hx
    rw [List.filterMap_append] at hx
    exact h.parsed x ((List.mem_append.mp hx).resolve_right List.not_mem_nil)
  · intro c
    rw [hsame]
    exact h.heard c
  · intro c
    rw [hsame]
    exact h.told c
  · intro c hc
    rw [hsame]
    exact h.fresh c hc

/-- The requests of one call of `handle_read` are the next entries. -/
theorem Explains.received (h : Explains srv data log t) {c : Ptr} {conn conn' : ConnRec} {s' : Loop δ}
    {bytes : Bytes} {xs : List Exchange} (hconn : t.loop.conns.read c = some conn)
    (hconns : s'.conns = t.loop.conns.set c conn') (hxs : ∀ x ∈ xs, x.conn = c ∧ x.Parsed)
    (halone : ∀ rs, run (serveAlone srv) (t.loop.data, rs) (xs.map .exchange) =
      .ok (s'.data, rs ++ xs.map Exchange.reply))
    (hin : conn.incoming ++ bytes = (xs.map Exchange.frame).flatten ++ conn'.incoming)
    (hshort : completeFrame conn'.incoming = none)
    (hout : conn'.outgoing = conn.outgoing ++ (xs.map Exchange.reply).flatten) {heard : Ptr → Bytes}
    (hheard : ∀ q, heard q = t.heard q ++ if q = c then bytes else []) :
    Explains srv data (log ++ xs.map .exchange) { t with loop := s', heard := heard } := by
  have hof : ∀ q, exchangesOf (log ++ xs.map .exchange) q = exchangesOf log q ++ if q = c then xs else [] := by
    intro q
    rw [exchangesOf_append, exchangesOf_exchange fun x hx => (hxs x hx).1]
  have hself : s'.conns.read c = some conn' := by
    rw [hconns]
    exact Mem.read_set_self (Mem.lt_next_of_read hconn) _
  have hother : ∀ q, q ≠ c → s'.conns.read q = t.loop.conns.read q := by
    intro q hq
    rw [hconns]
    exact Mem.read_set_ne hq _
  refine ⟨?_, ?_, ?_, ?_, ?_⟩
  · rw [Run.run_append h.alone, halone, replies_append, replies_exchange]
  · intro x hx
    rw [List.filterMap_append, filterMap_exchange] at hx
    rcases List.mem_append.mp hx with hx | hx
    · exact h.parsed x hx
    · exact (hxs x hx).2
  · intro q
    show HeardAs _ (heard q) _
    rw [hof, hheard]
    by_cases hq : q = c
    · subst hq
      obtain ⟨rest, hbefore, -, hrest⟩ := h.heard q
      obtain rfl := hrest conn hconn
      rw [if_pos rfl, if_pos rfl, hself]
      refine ⟨conn'.incoming, ?_, hshort, ?_⟩
      · rw [hbefore, List.append_assoc, hin, List.map_append, List.flatten_append, List.append_assoc]
      · rintro r ⟨⟩
        rfl
    · rw [if_neg hq, if_neg hq, List.append_nil, List.append_nil, hother q hq]
      exact h.heard q
  · intro q
    show ToldAs _ (t.told q) _
    rw [hof]
    by_cases hq : q = c
    · subst hq
      obtain ⟨rest, hbefore, hrest⟩ := h.told q
      obtain rfl := hrest conn hconn
      rw [if_pos rfl, hself]
      refine ⟨conn'.outgoing, ?_, ?_⟩
      · rw [List.map_append, List.flatten_append, hbefore, hout, List.append_assoc]
      · rintro r ⟨⟩
        rfl
    · rw [if_neg hq, List.append_nil, hother q hq]
      exact h.told q
  · intro q hq
    have hge : t.loop.conns.next ≤ q := by
      have hnext : s'.conns.next = t.loop.conns.next := by rw [hconns, Mem.next_set]
      exact hnext ▸ hq
    have hne : q ≠ c := by
      rintro rfl
      exact absurd (Mem.lt_next_of_read hconn) (Nat.not_lt.mpr hge)
    obtain ⟨hnone, hheard', htold⟩ := h.fresh q hge
    refine ⟨?_, ?_, htold⟩
    · rw [hof, hnone, if_neg hne]
      rfl
    · show heard q = []
      rw [hheard, hheard', if_neg hne]
      rfl

/-- What `handle_write` takes off the front of what waits goes to the peer. -/
theorem Explains.written (h : Explains srv data log t) {c : Ptr} {conn conn' : ConnRec} {s' : Loop δ} {n : Nat}
    (hconn : t.loop.conns.read c = some conn) (hconns : s'.conns = t.loop.conns.set c conn') (hdata : s'.data = t.loop.data)
    (hin : conn'.incoming = conn.incoming) (hout : conn'.outgoing = conn.outgoing.drop n) {told : Ptr → Bytes}
    (htold : ∀ q, told q = t.told q ++ if q = c then conn.outgoing.take n else []) :
    Explains srv data log { t with loop := s', told := told } := by
  have hself : s'.conns.read c = some conn' := by
    rw [hconns]
    exact Mem.read_set_self (Mem.lt_next_of_read hconn) _
  have hother : ∀ q, q ≠ c → s'.conns.read q = t.loop.conns.read q := by
    intro q hq
    rw [hconns]
    exact Mem.read_set_ne hq _
  refine ⟨?_, h.parsed, ?_, ?_, ?_⟩
  · rw [hdata]
    exact h.alone
  · intro q
    show HeardAs _ (t.heard q) _
    by_cases hq : q = c
    · subst hq
      obtain ⟨rest, hheard, hshort, hrest⟩ := h.heard q
      rw [hself]
      refine ⟨rest, hheard, hshort, ?_⟩
      rintro r ⟨⟩
      exact hin.trans (hrest conn hconn)
    · rw [hother q hq]
      exact h.heard q
  · intro q
    show ToldAs _ (told q) _
    rw [htold]
    by_cases hq : q = c
    · subst hq
      obtain ⟨rest, hbefore, hrest⟩ := h.told q
      obtain rfl := hrest conn hconn
      rw [if_pos rfl, hself]
      refine ⟨conn'.outgoing, ?_, ?_⟩
      · rw [hbefore, hout, List.append_assoc, List.take_append_drop]
      · rintro r ⟨⟩
        rfl
    · rw [if_neg hq, List.append_nil, hother q hq]
      exact h.told q
  · intro q hq
    have hge : t.loop.conns.next ≤ q := by
      have hnext : s'.conns.next = t.loop.conns.next := by rw [hconns, Mem.next_set]
      exact hnext ▸ hq
    have hne : q ≠ c := by
      rintro rfl
      exact absurd (Mem.lt_next_of_read hconn) (Nat.not_lt.mpr hge)
    obtain ⟨hnone, hheard, htold'⟩ := h.fresh q hge
    refine ⟨hnone, hheard, ?_⟩
    show told q = []
    rw [htold, htold', if_neg hne]
    rfl

theorem heardIn_read {s : Loop δ} {c : Ptr} {ready : UInt8} {args : List (Nat × UInt8)} (hphase : s.phase = .read c ready args)
    (ans : Answer) (q : Ptr) : heardIn s ans q = if c = q ∧ ready &&& pollIn ≠ 0 then ans.read.bytes else [] := by
  rw [heardIn, hphase]

theorem heardIn_nil {s : Loop δ} (h : ∀ c ready args, s.phase ≠ .read c ready args) (ans : Answer) (q : Ptr) :
    heardIn s ans q = [] := by
  unfold heardIn
  split
  · next c ready args hphase => exact absurd hphase (h c ready args)
  · rfl

theorem toldIn_nil {s : Loop δ} (h : ∀ c ready args, s.phase ≠ .write c ready args) (ans : Answer) (q : Ptr) :
    toldIn s ans q = [] := by
  unfold toldIn
  split
  · next c ready args conn hphase _ => exact absurd hphase (h c ready args)
  · rfl

theorem toldIn_write {s : Loop δ} {c : Ptr} {ready : UInt8} {args : List (Nat × UInt8)} {conn : ConnRec}
    (hphase : s.phase = .write c ready args) (hconn : s.conns.read c = some conn) (ans : Answer) (q : Ptr) :
    toldIn s ans q = if q = c then (if ready &&& pollOut ≠ 0 then ans.write.bytes conn.outgoing else []) else [] := by
  unfold toldIn
  rw [hphase]
  by_cases hq : q = c
  · subst hq
    rw [hconn, if_pos rfl]
    dsimp only
    by_cases hout : ready &&& pollOut ≠ 0
    · rw [if_pos ⟨rfl, hout⟩, if_pos hout]
    · rw [if_neg (fun h => hout h.2), if_neg hout]
  · rw [if_neg hq]
    split
    · next hphase' _ =>
      cases hphase'
      exact if_neg fun h => hq h.1.symm
    · rfl

/-- What has been read and written after a step that does neither. -/
theorem traced_eq {s' : Loop δ} (hheard : ∀ q, heardIn t.loop ans q = []) (htold : ∀ q, toldIn t.loop ans q = []) :
    (⟨s', fun c => t.heard c ++ heardIn t.loop ans c, fun c => t.told c ++ toldIn t.loop ans c⟩ : Traced δ) =
      { t with loop := s' } := by
  have hh : (fun c => t.heard c ++ heardIn t.loop ans c) = t.heard := by
    funext c
    rw [hheard, List.append_nil]
  have ht : (fun c => t.told c ++ toldIn t.loop ans c) = t.told := by
    funext c
    rw [htold, List.append_nil]
  rw [hh, ht]

/-- A step outside of the handlers keeps the buffers, or it is a round of the entry timeouts. -/
theorem Transition.quiet {s s' : Loop δ} (h : Transition srv clock s ans s') (hread : ∀ c ready args, s.phase ≠ .read c ready args)
    (hwrite : ∀ c ready args, s.phase ≠ .write c ready args) :
    (s'.data = s.data ∧ Keeps s s') ∨
      ∃ currMs d, srv.expire s.data currMs = .ok d ∧ s' = { s with phase := .poll, data := d } := by
  cases h with
  | read hphase hin ho => exact absurd hphase (hread _ _ _)
  | noRead hphase => exact absurd hphase (hread _ _ _)
  | write hphase hout ho => exact absurd hphase (hwrite _ _ _)
  | noWrite hphase => exact absurd hphase (hwrite _ _ _)
  | accepted hphase hargs hans hm =>
    refine .inl ⟨rfl, ?_, ?_⟩
    · rw [Mem.next_alloc]
      exact Nat.le_succ _
    · exact Mem.forall_read_alloc (.inr ⟨Nat.le_refl _, rfl, rfl⟩) fun q w hq => .inl ⟨w, hq, rfl, rfl⟩
  | ready hphase hready hfd hconn hm hm' => exact .inl ⟨rfl, .of_set hconn rfl rfl rfl⟩
  | close hphase hconn hclose hclosed =>
    have hkeeps := Keeps.of_closed hclosed
    refine .inl ⟨?_, hkeeps.next, hkeeps.buffers⟩
    cases hclosed
    rfl
  | expired hphase hhead hfirst hne hconn hlate hclosed =>
    refine .inl ⟨?_, .of_closed hclosed⟩
    cases hclosed
    rfl
  | @writeDone currMs d hphase hfront hdata => exact .inr ⟨currMs, d, hdata, rfl⟩
  | _ => exact .inl ⟨rfl, .of_conns rfl⟩

variable {I : δ → Prop}

theorem explains_read (hsound : srv.Sound I) (hsame : srv.Oblivious) (hI : I t.loop.data) (h : Explains srv data log t)
    {c : Ptr} {s₁ : Loop δ} (ho : ReadOutcome srv clock t.loop c ans.read s₁) (phase : Phase)
    (hshort : ∀ conn, s₁.conns.read c = some conn → conn.outgoing.length < 2 ^ 32) {heard : Ptr → Bytes}
    (hheard : ∀ q, heard q = t.heard q ++ if q = c then ans.read.bytes else []) :
    I s₁.data ∧ ∃ log', Explains srv data log' { t with loop := { s₁ with phase := phase }, heard := heard } := by
  generalize ans.read = res at ho hheard
  have hnothing : res.bytes = [] → heard = t.heard := by
    intro hnil
    funext q
    rw [hheard, hnil, ite_self, List.append_nil]
  cases ho with
  | again =>
    rw [hnothing rfl]
    exact ⟨hI, log, h.keeps rfl (.of_conns rfl)⟩
  | closed hconn hm =>
    rw [hnothing rfl]
    refine ⟨hI, log, ?_⟩
    apply h.keeps
    · rfl
    · exact .of_set hconn rfl rfl rfl
  | @quiet conn first rest r hconn hread hempty =>
    obtain ⟨hI', hnone, -⟩ := tryAllReqs_ok hsound (by exact hI) hread
    have hlt : r.outgoing.length < 2 ^ 32 := by
      rw [hempty]
      decide
    obtain ⟨xs, hxs, halone, hin, hout⟩ := tryAllReqs_exchanges hsound hsame c (by exact hI) hlt hread
    refine ⟨hI', log ++ xs.map .exchange, ?_⟩
    exact h.received hconn rfl hxs halone hin hnone hout hheard
  | @replied conn first rest r m m' hconn hread hreply hm hm' =>
    obtain ⟨hI', hnone, -⟩ := tryAllReqs_ok hsound (by exact hI) hread
    have hlt : r.outgoing.length < 2 ^ 32 := hshort _ (Mem.read_set_self (Mem.lt_next_of_read hconn) _)
    obtain ⟨xs, hxs, halone, hin, hout⟩ := tryAllReqs_exchanges hsound hsame c (by exact hI) hlt hread
    refine ⟨hI', log ++ xs.map .exchange, ?_⟩
    exact h.received hconn rfl hxs halone hin hnone hout hheard

theorem explains_write (h : Explains srv data log t) {c : Ptr} {s₁ : Loop δ}
    (ho : WriteOutcome clock t.loop c ans.write s₁) (phase : Phase) {told : Ptr → Bytes}
    (htold : ∀ conn, t.loop.conns.read c = some conn →
      ∀ q, told q = t.told q ++ if q = c then ans.write.bytes conn.outgoing else [])
    (hnone : t.loop.conns.read c = none → told = t.told) :
    s₁.data = t.loop.data ∧ Explains srv data log { t with loop := { s₁ with phase := phase }, told := told } := by
  generalize ans.write = res at ho htold
  have hnothing : ∀ conn, t.loop.conns.read c = some conn → res.bytes conn.outgoing = [] → told = t.told := by
    intro conn hconn hnil
    funext q
    rw [htold conn hconn, hnil, ite_self, List.append_nil]
  cases ho with
  | again =>
    have hsame : told = t.told := by
      cases hconn : t.loop.conns.read c with
      | none => exact hnone hconn
      | some conn => exact hnothing conn hconn rfl
    rw [hsame]
    exact ⟨rfl, h.keeps rfl (.of_conns rfl)⟩
  | @closed conn m res hconn hres hm =>
    have hnil : res.bytes conn.outgoing = [] := by
      rcases hres with rfl | ⟨⟨more, rfl⟩, hempty⟩
      · rfl
      · rw [hempty]
        rfl
    rw [hnothing conn hconn hnil]
    exact ⟨rfl, h.keeps rfl (.of_set hconn rfl rfl rfl)⟩
  | @some conn more hconn hless =>
    exact ⟨rfl, h.written hconn (by exact rfl) (by rfl) (by rfl) (by rfl) (htold conn hconn)⟩
  | @all conn more m m' hconn hnonempty hless hm hm' =>
    have hrest : conn.outgoing.drop (more + 1) = [] := List.drop_eq_nil_of_le hless
    exact ⟨rfl, h.written hconn (by exact rfl) (by rfl) (by rfl) (by exact hrest.symm) (htold conn hconn)⟩

/-- Every step of the loop adds to the order what it has used of the service. -/
theorem tracedStep_explains (hsound : srv.Sound I) (hsame : srv.Oblivious) (hI : I t.loop.data)
    (h : Explains srv data log t) {t' : Traced δ} (hshort : ShortBacklogs t')
    (hstep : tracedStep srv clock t ans = .ok t') : I t'.loop.data ∧ ∃ log', Explains srv data log' t' := by
  obtain ⟨s', hloop, hret⟩ := ok_of_bind hstep
  cases hret
  have hquiet : (∀ c ready args, t.loop.phase ≠ .read c ready args) → (∀ c ready args, t.loop.phase ≠ .write c ready args) →
      I s'.data ∧ ∃ log', Explains srv data log'
        ⟨s', fun c => t.heard c ++ heardIn t.loop ans c, fun c => t.told c ++ toldIn t.loop ans c⟩ := by
    intro hread hwrite
    rw [traced_eq (heardIn_nil hread ans) (toldIn_nil hwrite ans)]
    rcases (loopStep_transition hloop).quiet hread hwrite with ⟨hdata, hkeeps⟩ | ⟨currMs, d, hexpire, rfl⟩
    · exact ⟨hdata ▸ hI, log, h.keeps hdata hkeeps⟩
    · exact ⟨hsound.expire hI hexpire, _, h.expired hexpire .poll⟩
  cases hphase : t.loop.phase with
  | read c ready args =>
    have htold : ∀ q, toldIn t.loop ans q = [] := by
      apply toldIn_nil
      intro q ready' args' hq
      cases hphase.symm.trans hq
    have hheard := heardIn_read hphase ans
    simp only [loopStep, hphase] at hloop
    by_cases hin : ready &&& pollIn ≠ 0
    · rw [if_pos hin] at hloop
      obtain ⟨s₁, h₁, hret⟩ := ok_of_bind hloop
      cases hret
      have hlt : ∀ conn, s₁.conns.read c = some conn → conn.outgoing.length < 2 ^ 32 := fun conn hconn =>
        hshort c (Mem.lt_next_of_read hconn) conn hconn
      have hbytes : ∀ q, t.heard q ++ heardIn t.loop ans q = t.heard q ++ if q = c then ans.read.bytes else [] := by
        intro q
        rw [hheard]
        by_cases hq : c = q
        · rw [if_pos ⟨hq, hin⟩, if_pos hq.symm]
        · rw [if_neg (fun h => hq h.1), if_neg (Ne.symm hq)]
      obtain ⟨hI', log', hexplains⟩ := explains_read hsound hsame hI h (readConn_outcome h₁) (.write c ready args) hlt
        hbytes
      refine ⟨hI', log', ?_⟩
      simp only [htold, List.append_nil]
      exact hexplains
    · rw [if_neg hin] at hloop
      cases hloop
      have hnothing : ∀ q, heardIn t.loop ans q = [] := by
        intro q
        rw [hheard]
        exact if_neg fun h => hin h.2
      rw [traced_eq hnothing htold]
      exact ⟨hI, log, h.keeps rfl (.of_conns rfl)⟩
  | write c ready args =>
    have hheard : ∀ q, heardIn t.loop ans q = [] := by
      apply heardIn_nil
      intro q ready' args' hq
      cases hphase.symm.trans hq
    have htold : ∀ conn, t.loop.conns.read c = some conn → ∀ q, toldIn t.loop ans q =
        if q = c then (if ready &&& pollOut ≠ 0 then ans.write.bytes conn.outgoing else []) else [] :=
      fun conn hconn q => toldIn_write hphase hconn ans q
    simp only [loopStep, hphase] at hloop
    by_cases hout : ready &&& pollOut ≠ 0
    · rw [if_pos hout] at hloop
      obtain ⟨s₁, h₁, hret⟩ := ok_of_bind hloop
      cases hret
      obtain ⟨conn, hconn, -⟩ := ok_of_bind h₁
      have hconn := conn_ok hconn
      have hbytes : ∀ conn', t.loop.conns.read c = some conn' → ∀ q, t.told q ++ toldIn t.loop ans q =
          t.told q ++ if q = c then ans.write.bytes conn'.outgoing else [] := by
        intro conn' hconn' q
        rw [htold conn' hconn', if_pos hout]
      obtain ⟨hdata, hexplains⟩ := explains_write h (writeConn_outcome h₁) (.close c ready args)
        hbytes (fun hnone => nomatch hconn.symm.trans hnone)
      refine ⟨?_, log, ?_⟩
      · show I s₁.data
        rw [hdata]
        exact hI
      · simp only [hheard, List.append_nil]
        exact hexplains
    · rw [if_neg hout] at hloop
      cases hloop
      have hnothing : ∀ q, toldIn t.loop ans q = [] := by
        intro q
        unfold toldIn
        rw [hphase]
        split
        · next hphase' _ =>
          cases hphase'
          exact if_neg fun h => hout h.2
        · rfl
      rw [traced_eq hheard hnothing]
      exact ⟨hI, log, h.keeps rfl (.of_conns rfl)⟩
  | poll => exact hquiet (by rw [hphase]; exact nofun) (by rw [hphase]; exact nofun)
  | sockets args => exact hquiet (by rw [hphase]; exact nofun) (by rw [hphase]; exact nofun)
  | close c ready args => exact hquiet (by rw [hphase]; exact nofun) (by rw [hphase]; exact nofun)
  | timers currMs list => exact hquiet (by rw [hphase]; exact nofun) (by rw [hphase]; exact nofun)

end Steps

/-! ### Runs -/

section Runs

variable {srv : Service δ} {I : δ → Prop} {clock : Nat → Nat} {data : δ} {answers : List Answer} {t : Traced δ}

/-- At every step less than 4 GiB wait on each connection. -/
def BacklogsFit (srv : Service δ) (clock : Nat → Nat) (data : δ) (answers : List Answer) : Prop :=
  Along (tracedStep srv clock) (fun t ans => Ensures (tracedStep srv clock t ans) ShortBacklogs) { loop := Loop.init data } answers

instance (srv : Service δ) (clock : Nat → Nat) (data : δ) (answers : List Answer) :
    Decidable (BacklogsFit srv clock data answers) :=
  inferInstanceAs (Decidable (Along (tracedStep srv clock) _ _ answers))

theorem Explains.start (srv : Service δ) (data : δ) : Explains srv data [] { loop := Loop.init data } where
  alone := rfl
  parsed := nofun
  heard c := by
    refine ⟨[], rfl, rfl, fun r hr => ?_⟩
    obtain rfl : c = 0 := Nat.lt_one_iff.mp (Mem.lt_next_of_read hr)
    cases hr
  told c := by
    refine ⟨[], rfl, fun r hr => ?_⟩
    obtain rfl : c = 0 := Nat.lt_one_iff.mp (Mem.lt_next_of_read hr)
    cases hr
  fresh c _ := ⟨rfl, rfl, rfl⟩

theorem run_explains (hsound : srv.Sound I) (hsame : srv.Oblivious) (hI : I data) (hfit : BacklogsFit srv clock data answers)
    (hrun : run (tracedStep srv clock) { loop := Loop.init data } answers = .ok t) :
    I t.loop.data ∧ ∃ log, Explains srv data log t := by
  refine Run.invariant_along (I := fun t => I t.loop.data ∧ ∃ log, Explains srv data log t) (fun t ans t' h hok hstep => ?_)
    ⟨hI, [], .start srv data⟩ hfit hrun
  obtain ⟨hI, log, hlog⟩ := h
  exact tracedStep_explains hsound hsame hI hlog (hok t' hstep) hstep

/-- Every run of the loop has its trace. -/
theorem exists_traced {s s' : Loop δ} (hrun : run (loopStep srv clock) s answers = .ok s') (t : Traced δ) (ht : t.loop = s) :
    ∃ t', run (tracedStep srv clock) t answers = .ok t' ∧ t'.loop = s' := by
  induction answers generalizing s t with
  | nil =>
    cases hrun
    exact ⟨t, rfl, ht⟩
  | cons ans answers ih =>
    rw [run] at hrun
    cases hstep : loopStep srv clock s ans with
    | error e =>
      rw [hstep] at hrun
      cases hrun
    | ok s₁ =>
      rw [hstep] at hrun
      have htraced : tracedStep srv clock t ans =
          .ok ⟨s₁, fun c => t.heard c ++ heardIn t.loop ans c, fun c => t.told c ++ toldIn t.loop ans c⟩ := by
        show (loopStep srv clock t.loop ans >>= _) = _
        rw [ht, hstep]
        rfl
      obtain ⟨t', hrun', ht'⟩ := ih hrun ⟨s₁, _, _⟩ rfl
      exact ⟨t', (Run.run_cons_ok htraced answers).trans hrun', ht'⟩

end Runs

/-- Whatever the peers send in whatever pieces, and however `poll`, `read` and `write` answer, the database and all that
the peers have seen are those of one server that takes the requests one after the other, in an order in which the
requests of each connection stand as they came in. -/
theorem loop_serves_alone (envs : Nat → Env) (clock : Nat → Nat) (answers : List Answer) (s : Loop (GlobalData × Nat))
    (hfit : BacklogsFit (redisService envs) clock ({}, 0) answers)
    (hrun : run (loopStep (redisService envs) clock) (Loop.init ({}, 0)) answers = .ok s) :
    ∃ t, run (tracedStep (redisService envs) clock) { loop := Loop.init ({}, 0) } answers = .ok t ∧ t.loop = s ∧
      ∃ log : List Use, run (serveAlone (redisService envs)) (({}, 0), []) log = .ok (s.data, replies log) ∧
        (∀ x ∈ log.filterMap Use.exchange?, x.Parsed) ∧
        ∀ c, HeardAs (exchangesOf log c) (t.heard c) (s.conns.read c) ∧ ToldAs (exchangesOf log c) (t.told c) (s.conns.read c) := by
  obtain ⟨t, htraced, rfl⟩ := exists_traced hrun { loop := Loop.init ({}, 0) } rfl
  have hempty : ({} : GlobalData).WF ∧ ({} : GlobalData).Shaped := ⟨GlobalData.WF.empty, nofun⟩
  obtain ⟨-, log, hlog⟩ := run_explains (redisService_sound envs) (redisService_oblivious envs) hempty hfit htraced
  exact ⟨t, htraced, rfl, log, hlog.alone, hlog.parsed, fun c => ⟨hlog.heard c, hlog.told c⟩⟩

/-- The answers for an iteration with two connections where something happens on the first one, or on the second. -/
def iterationOf (first second : Option (ReadResult × WriteResult)) : List Answer :=
  let socket : Option (ReadResult × WriteResult) → List Answer
    | none => [{}]
    | some (read, write) => [{ revents := pollIn ||| pollOut }, { read := read }, { write := write }, {}]
  ([[{}], socket first, socket second, [{}, {}, {}, {}]] : List (List Answer)).flatten

/-- Two peers whose requests come in pieces in between each other. -/
def twoPeers : List Answer :=
  List.flatten [
    connecting 4,
    [{ accepted := some (some 5) }, {}, {}, {}, {}, {}],
    iterationOf (some (received ((frame [text "set", text "k", text "v"]).take 9), .again)) none,
    iterationOf none (some (received (frame [text "get", text "k"] ++ (frame [text "keys"]).take 5), .again)),
    iterationOf (some (received ((frame [text "set", text "k", text "v"]).drop 9), .again)) (some (.again, .wrote 2)),
    iterationOf (some (.again, .wrote 99)) (some (received ((frame [text "keys"]).drop 5), .wrote 99))]

theorem loop_serves_alone_two_peers :
    ∃ s t, run (loopStep (redisService fun _ => {}) id) (Loop.init ({}, 0)) twoPeers = .ok s ∧
      run (tracedStep (redisService fun _ => {}) id) { loop := Loop.init ({}, 0) } twoPeers = .ok t ∧
      ∃ log : List Use, run (serveAlone (redisService fun _ => {})) (({}, 0), []) log = .ok (s.data, replies log) ∧
        ToldAs (exchangesOf log 1) (t.told 1) (s.conns.read 1) ∧ ToldAs (exchangesOf log 2) (t.told 2) (s.conns.read 2) := by
  have hcheck : Run.check (run (loopStep (redisService fun _ => {}) id) (Loop.init ({}, 0)) twoPeers)
      (fun s => s.phase = .poll) = true := by
    decide +kernel
  obtain ⟨s, hrun, -⟩ := Run.exists_ok_of_check hcheck
  obtain ⟨t, htraced, -, log, halone, -, hseen⟩ := loop_serves_alone _ _ _ s (by decide +kernel) hrun
  exact ⟨s, t, hrun, htraced, log, halone, (hseen 1).2, (hseen 2).2⟩

end CustomRedis
