import CustomRedis.Proof.Linearization
import CustomRedis.Proof.KeyValue

/-!
# The clients of the map

`SET`, `GET`, `DEL` and `KEYS` again, now from the other end of the connections. Each client sends its requests one behind
the other. Whatever the network and the loop make of the bytes, there is one history of the map that every client sees its
part of: its requests come in the order in which it has sent them, and what it gets is the beginning of the replies
in the history.
-/

namespace CustomRedis

open Run (run ok_bind ok_of_bind)

/-- One of the four commands, with a key without a zero byte, within the limit of the client. -/
structure KvQuery (query : List Bytes) : Prop where
  command : commandOf query ∈ [Command.get, .set, .del, .keys]
  key : 0 ∉ keyOf query
  sendable : Sendable query

theorem KvQuery.no_expire {query : List Bytes} (h : KvQuery query) : commandOf query ≠ .expire := by
  intro hexpire
  have hmem := h.command
  rw [hexpire] at hmem
  exact absurd hmem (by decide)

def KvQuery.request {query : List Bytes} (h : KvQuery query) : Request := ⟨query, h.sendable.short⟩

theorem KvQuery.kvRequest {query : List Bytes} (h : KvQuery query) : KvRequest h.request := ⟨h.command, h.key, h.sendable⟩

instance (query : List Bytes) : Decidable (KvQuery query) :=
  decidable_of_iff (commandOf query ∈ [Command.get, .set, .del, .keys] ∧ 0 ∉ keyOf query ∧
      messageSize query ≤ clientMaxMessageLen)
    ⟨fun h => ⟨h.1, h.2.1, h.2.2⟩, fun h => ⟨h.command, h.key, h.sendable⟩⟩

/-- Every reply is one that the map allows, where the requests have changed it one by one. -/
def KvHistory : KvMap → List Exchange → Prop
  | _, [] => True
  | m, x :: xs => (∃ body, KvReply m (beforeResBuild []).1 x.tokens body ∧ x.reply = afterResBuild body 0) ∧
      KvHistory (kvStep m x.tokens) xs

/-! ### The requests in a stream of frames -/

theorem completeFrame_append {buf : Bytes} {len : Nat} (h : completeFrame buf = some len) (rest : Bytes) :
    completeFrame (buf ++ rest) = some len := by
  unfold completeFrame at h ⊢
  dsimp only at h ⊢
  split at h
  · cases h
  · next hfour =>
    have hhead : leNat 4 (buf ++ rest) = leNat 4 buf := by
      rw [← leNat_take 4 (buf ++ rest), List.take_append_of_le_length (by omega), leNat_take]
    split at h
    · cases h
    · cases h
      rw [hhead, List.length_append, if_neg (by omega), if_neg (by omega)]

/-- A request at the beginning of a frame of the client is the one the client has sent. -/
theorem query_of_parsed {x : Exchange} (h : x.Parsed) {query : List Bytes} (hsend : Sendable query)
    {more more' : Bytes} (hsame : x.frame ++ more = frame query ++ more') :
    x.tokens = query ∧ x.frame = frame query ∧ more = more' := by
  obtain ⟨totalLen, hcomplete, hlen, behind, hparse⟩ := h
  have htotal : totalLen = (message query).length := by
    have hboth := (completeFrame_append hcomplete more).symm.trans
      ((congrArg completeFrame hsame).trans (completeFrame_frame hsend more'))
    exact Option.some.inj hboth
  have hsize : x.frame.length = (frame query).length := by
    rw [hlen, length_frame, htotal]
  obtain ⟨hframe, hmore⟩ := List.append_inj hsame hsize
  have hcount : query.length < 2 ^ 32 := by
    have hle := length_le_message query
    have hlt := hsend.length_message_lt
    omega
  refine ⟨?_, hframe, hmore⟩
  rw [hframe, parseCmd_frame hsend.short hcount] at hparse
  exact (Except.ok.inj hparse).symm

/-- The requests taken off the stream of a client are its first ones. -/
theorem queries_of_frames {xs : List Exchange} (hxs : ∀ x ∈ xs, x.Parsed) {queries : List (List Bytes)}
    (hsend : ∀ q ∈ queries, Sendable q) {rest more : Bytes}
    (hstream : (xs.map Exchange.frame).flatten ++ rest ++ more = queries.flatMap frame) :
    ∃ left, queries = xs.map Exchange.tokens ++ left ∧ rest ++ more = left.flatMap frame := by
  induction xs generalizing queries with
  | nil => exact ⟨queries, rfl, hstream⟩
  | cons x xs ih =>
    obtain ⟨hx, hxs⟩ := List.forall_mem_cons.mp hxs
    rw [List.map_cons, List.flatten_cons, List.append_assoc, List.append_assoc] at hstream
    cases queries with
    | nil =>
      obtain ⟨totalLen, -, hlen, -⟩ := hx
      have hnil := congrArg List.length hstream
      rw [List.length_append, hlen] at hnil
      exact absurd hnil (by rw [List.flatMap_nil, List.length_nil]; omega)
    | cons query queries =>
      obtain ⟨hquery, hqueries⟩ := List.forall_mem_cons.mp hsend
      rw [List.flatMap_cons] at hstream
      obtain ⟨htokens, -, hmore⟩ := query_of_parsed hx hquery hstream
      obtain ⟨left, hleft, hrest⟩ := ih hxs hqueries (by rwa [List.append_assoc])
      refine ⟨left, ?_, hrest⟩
      rw [List.map_cons, htokens, hleft]
      rfl

/-! ### The history -/

theorem serveAlone_grows {δ : Type} {srv : Service δ} {s s' : δ × List Bytes} {log : List Use}
    (hrun : run (serveAlone srv) s log = .ok s') : s.2 <+: s'.2 := by
  refine Run.invariant (I := fun t : δ × List Bytes => s.2 <+: t.2) (fun t use t' h hstep => ?_) (List.prefix_refl _) hrun
  cases use with
  | exchange x =>
    obtain ⟨r, -, hret⟩ := ok_of_bind hstep
    cases hret
    exact h.trans (List.prefix_append _ _)
  | expire currMs =>
    obtain ⟨data, -, hret⟩ := ok_of_bind hstep
    cases hret
    exact h

/-- The reply in the order of the requests is the one the server alone gives. -/
theorem reply_of_alone {δ : Type} {srv : Service δ} {d d' : δ} {rs : List Bytes} {x : Exchange} {log : List Use}
    (hrun : run (serveAlone srv) (d, rs) (.exchange x :: log) = .ok (d', rs ++ replies (.exchange x :: log))) :
    ∃ d₁, answer srv.dispatch (d, []) x.tokens = .ok (d₁, x.reply) ∧
      run (serveAlone srv) (d₁, rs ++ [x.reply]) log = .ok (d', rs ++ [x.reply] ++ replies log) := by
  have hreplies : replies (.exchange x :: log) = x.reply :: replies log := rfl
  cases hans : answer srv.dispatch (d, []) x.tokens with
  | error e =>
    have hstep : serveAlone srv (d, rs) (.exchange x) = .error e := by
      show (answer srv.dispatch (d, []) x.tokens >>= _) = _
      rw [hans]
      rfl
    rw [run, hstep] at hrun
    cases hrun
  | ok r =>
    have hstep : serveAlone srv (d, rs) (.exchange x) = .ok (r.1, rs ++ [r.2]) := by
      show (answer srv.dispatch (d, []) x.tokens >>= _) = _
      rw [hans]
      rfl
    rw [Run.run_cons_ok hstep, hreplies] at hrun
    obtain ⟨more, hmore⟩ := serveAlone_grows hrun
    rw [List.append_assoc] at hmore
    have hsame : r.2 = x.reply := (List.cons.inj (List.append_cancel_left hmore)).1
    refine ⟨r.1, ?_, ?_⟩
    · rw [← hsame]
    · rw [← hsame, List.append_assoc]
      rw [← hsame] at hrun
      exact hrun

theorem remTtl_empty {heap heap' : Heap} {node : Ptr} (h : heap.entries = []) (hrun : remTtl heap node = .ok heap') :
    heap'.entries = [] := by
  unfold remTtl at hrun
  rw [h] at hrun
  split at hrun
  · cases hrun
  · cases hrun
    exact h

/-- Only `EXPIRE` sets a deadline. -/
theorem Outcome.no_deadlines {env : Env} {g g' : GlobalData} {out out' : Bytes} {cmd : List Bytes} {c : Command}
    (ho : Outcome env g out cmd c g' out') (hc : c ≠ .expire) (h : g.ttl.entries = []) : g'.ttl.entries = [] := by
  cases ho with
  | replied _ _ => exact h
  | missing => exact h
  | refused _ _ => exact h
  | written _ _ _ _ hw => rw [hw.ttl, h]
  | created _ _ _ hi => rw [hi.ttl, h]
  | filled _ _ _ hi _ _ hw => rw [hw.ttl, hi.ttl, h]
  | halfway _ _ _ hi => rw [hi.ttl, h]
  | deleted _ _ hd => rw [hd.ttl, h]
  | emptied _ _ _ _ _ hw _ hd => rw [hd.ttl, hw.ttl, h]
  | expires _ _ _ => exact absurd rfl hc
  | persists _ _ ht => exact remTtl_empty h ht

/-- Without deadlines a round of the timers does nothing. -/
theorem expire_alone {envs : Nat → Env} {g : GlobalData} {n : Nat} {rs : List Bytes} (httl : g.ttl.entries = [])
    (currMs : Nat) : serveAlone (redisService envs) ((g, n), rs) (.expire currMs) = .ok ((g, n), rs) := by
  have hnone : processTimers g currMs = .ok g := by
    rw [processTimers, expireEntries, httl]
  show ((processTimers g currMs >>= _) >>= _) = _
  rw [hnone]
  rfl

/-- A server alone that gets only the four commands goes through a history of the map. -/
theorem kvHistory_of_alone {envs : Nat → Env} {log : List Use} {g : GlobalData} {n : Nat} {m : KvMap} (h : Holds g m)
    (httl : g.ttl.entries = []) (hlog : ∀ x ∈ log.filterMap Use.exchange?, KvQuery x.tokens) {rs : List Bytes}
    {d' : GlobalData × Nat} (hrun : run (serveAlone (redisService envs)) ((g, n), rs) log = .ok (d', rs ++ replies log)) :
    KvHistory m (log.filterMap Use.exchange?) := by
  induction log generalizing g n m rs with
  | nil => trivial
  | cons use log ih =>
    cases use with
    | expire currMs =>
      rw [Run.run_cons_ok (expire_alone httl currMs)] at hrun
      exact ih h httl hlog hrun
    | exchange x =>
      obtain ⟨hx, hlog⟩ := List.forall_mem_cons.mp hlog
      obtain ⟨d₁, hans, hrest⟩ := reply_of_alone hrun
      obtain ⟨g', body, hrespond, hholds, hreply⟩ := respond_holds h (envs n) hx.kvRequest
      have ho := respond_outcome h.wf hrespond
      have halone : answer (redisService envs).dispatch ((g, n), []) x.tokens = .ok ((g', n + 1), afterResBuild body 0) := by
        show ((outBuffer (envs n) g (beforeResBuild []).1 x.tokens >>= _) >>= _) = _
        rw [show outBuffer (envs n) g (beforeResBuild []).1 x.tokens = .ok (g', body) from hrespond]
        rfl
      obtain ⟨rfl, hbody⟩ := Prod.ext_iff.mp (Except.ok.inj (hans.symm.trans halone))
      exact ⟨⟨body, hreply, hbody⟩, ih hholds (ho.no_deadlines hx.no_expire httl) hlog hrest⟩

/-! ### The clients -/

/-- The part of a history that one client sees. -/
structure Sees (xs : List Exchange) (queries : List (List Bytes)) (heard told : Bytes) (conn : Option ConnRec) : Prop where
  /-- the requests are the first ones the client has sent -/
  asked : xs.map Exchange.tokens <+: queries
  /-- a client whose bytes have all come in has all its requests in the history -/
  all : heard = queries.flatMap frame → xs.map Exchange.tokens = queries
  answered : told <+: (xs.map Exchange.reply).flatten
  /-- what is missing still waits -/
  waiting : ∀ r ∈ conn, told ++ r.outgoing = (xs.map Exchange.reply).flatten

theorem sees_of_explains {xs : List Exchange} (hxs : ∀ x ∈ xs, x.Parsed) {queries : List (List Bytes)}
    (hsend : ∀ q ∈ queries, Sendable q) {heard told : Bytes} {conn : Option ConnRec} (hheard : HeardAs xs heard conn)
    (htold : ToldAs xs told conn) (hsent : heard <+: queries.flatMap frame) : Sees xs queries heard told conn := by
  obtain ⟨rest, rfl, hshort, -⟩ := hheard
  obtain ⟨wait, hwait, hconn⟩ := htold
  obtain ⟨more, hmore⟩ := hsent
  obtain ⟨left, hleft, hrest⟩ := queries_of_frames hxs hsend hmore
  refine ⟨⟨left, hleft.symm⟩, fun hall => ?_, ⟨wait, hwait.symm⟩, fun r hr => ?_⟩
  · have hnomore : more = [] := by
      rw [hall] at hmore
      exact List.append_right_eq_self.mp hmore
    rw [hnomore, List.append_nil] at hrest
    cases left with
    | nil => rw [hleft, List.append_nil]
    | cons query left =>
      have hquery : Sendable query := hsend query (hleft ▸ List.mem_append_right _ List.mem_cons_self)
      rw [hrest, List.flatMap_cons, completeFrame_frame hquery] at hshort
      cases hshort
  · rw [hconn r hr, hwait]

/-- Clients that send any of the four commands see their parts of one history of the map, whatever pieces their bytes come
in and go out in, in whatever order the sockets are served, and whoever disconnects. -/
theorem clients_see_map (envs : Nat → Env) (clock : Nat → Nat) (answers : List Answer) (queries : Ptr → List (List Bytes))
    (t : Traced (GlobalData × Nat)) (hqueries : ∀ c, ∀ q ∈ queries c, KvQuery q)
    (hfit : BacklogsFit (redisService envs) clock ({}, 0) answers)
    (hrun : run (tracedStep (redisService envs) clock) { loop := Loop.init ({}, 0) } answers = .ok t)
    (hsent : ∀ c, t.heard c <+: (queries c).flatMap frame) :
    ∃ history : List Exchange, KvHistory (fun _ => none) history ∧
      ∀ c, Sees (history.filter fun x => x.conn = c) (queries c) (t.heard c) (t.told c) (t.loop.conns.read c) := by
  have hempty : ({} : GlobalData).WF ∧ ({} : GlobalData).Shaped := ⟨GlobalData.WF.empty, nofun⟩
  obtain ⟨-, log, hlog⟩ := run_explains (redisService_sound envs) (redisService_oblivious envs) hempty hfit hrun
  have hsees : ∀ c, Sees (exchangesOf log c) (queries c) (t.heard c) (t.told c) (t.loop.conns.read c) := by
    intro c
    apply sees_of_explains _ (fun q hq => (hqueries c q hq).sendable) (hlog.heard c) (hlog.told c) (hsent c)
    exact fun x hx => hlog.parsed x (List.mem_filter.mp hx).1
  refine ⟨log.filterMap Use.exchange?, ?_, hsees⟩
  refine kvHistory_of_alone Holds.start rfl (fun x hx => ?_) hlog.alone
  have hmine : x ∈ exchangesOf log x.conn := List.mem_filter.mpr ⟨hx, decide_eq_true rfl⟩
  exact hqueries x.conn _ ((hsees x.conn).asked.subset (List.mem_map_of_mem hmine))

/-- What the two peers send. -/
def twoPeersQueries : Ptr → List (List Bytes)
  | 1 => [[text "set", text "k", text "v"]]
  | 2 => [[text "get", text "k"], [text "keys"]]
  | _ => []

theorem clients_see_map_two_peers :
    ∃ t, run (tracedStep (redisService fun _ => {}) id) { loop := Loop.init ({}, 0) } twoPeers = .ok t ∧
      ∃ history : List Exchange, KvHistory (fun _ => none) history ∧
        (history.filter fun x => x.conn = 1).map Exchange.tokens = twoPeersQueries 1 ∧
        (history.filter fun x => x.conn = 2).map Exchange.tokens = twoPeersQueries 2 ∧
        t.told 2 <+: ((history.filter fun x => x.conn = 2).map Exchange.reply).flatten ∧ t.told 2 ≠ [] := by
  have hcheck : Run.check (run (tracedStep (redisService fun _ => {}) id) { loop := Loop.init ({}, 0) } twoPeers)
      (fun t => t.loop.conns.next = 3 ∧ (t.heard 0 = [] ∧ t.heard 1 = (twoPeersQueries 1).flatMap frame ∧
        t.heard 2 = (twoPeersQueries 2).flatMap frame) ∧ t.told 2 ≠ []) = true := by
    decide +kernel
  obtain ⟨t, hrun, hend⟩ := Run.exists_ok_of_check hcheck
  obtain ⟨hnext, ⟨hzero, hone, htwo⟩, htold⟩ := of_decide_eq_true hend
  have hfit : BacklogsFit (redisService fun _ => {}) id ({}, 0) twoPeers := by decide +kernel
  have hempty : ({} : GlobalData).WF ∧ ({} : GlobalData).Shaped := ⟨GlobalData.WF.empty, nofun⟩
  obtain ⟨-, log, hlog⟩ := run_explains (redisService_sound _) (redisService_oblivious _) hempty hfit hrun
  have hall : ∀ c, t.heard c = (twoPeersQueries c).flatMap frame := by
    intro c
    match c with
    | 0 => exact hzero
    | 1 => exact hone
    | 2 => exact htwo
    | c + 3 => exact (hlog.fresh (c + 3) (hnext ▸ Nat.le_add_left 3 c)).2.1
  have hqueries : ∀ c, ∀ q ∈ twoPeersQueries c, KvQuery q := by
    intro c
    match c with
    | 0 => exact nofun
    | 1 => decide +kernel
    | 2 => decide +kernel
    | _ + 3 => exact nofun
  obtain ⟨history, hmap, hsees⟩ := clients_see_map _ _ _ twoPeersQueries t hqueries hfit hrun
    fun c => (hall c).symm ▸ List.prefix_refl _
  exact ⟨t, hrun, history, hmap, (hsees 1).all (hall 1), (hsees 2).all (hall 2), (hsees 2).answered, htold⟩

end CustomRedis
