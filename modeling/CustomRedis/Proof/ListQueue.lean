import CustomRedis.Proof.Deque
import CustomRedis.Proof.Isolation
import CustomRedis.Proof.KvClients

/-!
# A list as a queue between clients

Some clients push to the right end of a list, others pop from its left end, and all of them may use any other key for
anything but deadlines. Whatever the loop makes of their bytes, the values that are handed out are the beginning of those that
were pushed, in the order of one history that every client sees its part of, and the others are in the list: none is lost
and none is handed out twice.
-/

namespace CustomRedis

open Run (run ok_bind ok_of_bind)

/-! ### Requests on the queue -/

/-- The operation of a request on the list of a key. -/
def opOn (key : Bytes) (query : List Bytes) : Option ListOp := if keyId (keyOf query) = keyId key then listOp query else none

def ListOp.isQueueOp : ListOp → Bool
  | .push .right _ => true
  | .pop .left _ => true
  | _ => false

/-- A request on other keys, a push to the right or a pop from the left. It sets no deadline. -/
structure QueueQuery (key : Bytes) (query : List Bytes) : Prop where
  sendable : Sendable query
  lasting : commandOf query ≠ .expire
  own : keyId (keyOf query) = keyId key → keyOf query = key ∧ (listOp query).any ListOp.isQueueOp

instance (key : Bytes) (query : List Bytes) : Decidable (QueueQuery key query) :=
  decidable_of_iff (messageSize query ≤ clientMaxMessageLen ∧ commandOf query ≠ .expire ∧
      (keyId (keyOf query) = keyId key → keyOf query = key ∧ (listOp query).any ListOp.isQueueOp))
    ⟨fun h => ⟨h.1, h.2.1, h.2.2⟩, fun h => ⟨h.sendable, h.lasting, h.own⟩⟩

def ListOp.pushed : ListOp → Option Bytes
  | .push _ value => some value
  | .pop _ _ => none

def ListOp.isPop : ListOp → Bool
  | .push _ _ => false
  | .pop _ _ => true

/-- The value that a request pushes. -/
def pushedTo (key : Bytes) (x : Exchange) : Option Bytes := (opOn key x.tokens).bind ListOp.pushed

def popsFrom (key : Bytes) (x : Exchange) : Bool := (opOn key x.tokens).any ListOp.isPop

/-- The reply to a pop hands out these values. -/
def Hands (x : Exchange) (values : List Bytes) : Prop :=
  if values = [] then ∃ mes, x.reply = afterResBuild (outErr (beforeResBuild []).1 mes) 0
  else x.reply = afterResBuild (outStrs (outArr (beforeResBuild []).1 values.length) values) 0

/-- From the values that wait at the beginning to those that are left: what the pops hand out, one after the other, and what
is left is what waited and what was pushed. -/
def Delivers (key : Bytes) (waiting : List Bytes) (xs : List Exchange) (left : List Bytes) : Prop :=
  ∃ handed : List (Exchange × List Bytes), handed.map Prod.fst = xs.filter (popsFrom key) ∧
    (∀ h ∈ handed, Hands h.1 h.2) ∧ (handed.map Prod.snd).flatten ++ left = waiting ++ xs.filterMap (pushedTo key)

section Delivers

variable {key : Bytes} {waiting left : List Bytes} {x : Exchange} {xs : List Exchange}

theorem Delivers.nil : Delivers key waiting [] waiting := ⟨[], rfl, nofun, (List.append_nil waiting).symm⟩

theorem Delivers.other (h : Delivers key waiting xs left) (hop : opOn key x.tokens = none) :
    Delivers key waiting (x :: xs) left := by
  obtain ⟨handed, hpops, hhands, hall⟩ := h
  have hpop : ¬popsFrom key x = true := by simp [popsFrom, hop]
  have hpushed : pushedTo key x = none := by simp [pushedTo, hop]
  refine ⟨handed, ?_, hhands, ?_⟩
  · rw [hpops, List.filter_cons_of_neg hpop]
  · rw [hall, List.filterMap_cons_none hpushed]

theorem Delivers.push {value : Bytes} (h : Delivers key (waiting ++ [value]) xs left)
    (hop : opOn key x.tokens = some (.push .right value)) : Delivers key waiting (x :: xs) left := by
  obtain ⟨handed, hpops, hhands, hall⟩ := h
  have hpop : ¬popsFrom key x = true := by simp [popsFrom, hop, ListOp.isPop]
  have hpushed : pushedTo key x = some value := by simp [pushedTo, hop, ListOp.pushed]
  refine ⟨handed, ?_, hhands, ?_⟩
  · rw [hpops, List.filter_cons_of_neg hpop]
  · rw [hall, List.filterMap_cons_some hpushed, List.append_assoc, List.singleton_append]

theorem Delivers.pop {count : Nat} (h : Delivers key (waiting.drop count) xs left)
    (hop : opOn key x.tokens = some (.pop .left count)) (hreply : Hands x (waiting.take count)) :
    Delivers key waiting (x :: xs) left := by
  obtain ⟨handed, hpops, hhands, hall⟩ := h
  have hpop : popsFrom key x = true := by simp [popsFrom, hop, ListOp.isPop]
  have hpushed : pushedTo key x = none := by simp [pushedTo, hop, ListOp.pushed]
  refine ⟨(x, waiting.take count) :: handed, ?_, List.forall_mem_cons.mpr ⟨hreply, hhands⟩, ?_⟩
  · rw [List.map_cons, hpops, List.filter_cons_of_pos hpop]
  · rw [List.map_cons, List.flatten_cons, List.append_assoc, hall, List.filterMap_cons_none hpushed, ← List.append_assoc,
      List.take_append_drop]

end Delivers

/-! ### One request -/

section Requests

variable {key : Bytes} {g g' : GlobalData} {d : List Bytes}

/-- The request behind an answer of the server alone. -/
theorem respond_of_answer {envs : Nat → Env} {n : Nat} {query : List Bytes} (hsend : Sendable query)
    {d' : GlobalData × Nat} {reply : Bytes}
    (hans : answer (redisService envs).dispatch ((g, n), []) query = .ok (d', reply)) :
    ∃ body, respond (envs n) g ⟨query, hsend.short⟩ = .ok (d'.1, body) ∧ reply = afterResBuild body 0 := by
  obtain ⟨⟨d₁, body⟩, hdispatch, hret⟩ := ok_of_bind hans
  cases hret
  obtain ⟨⟨g₁, body⟩, hrespond, hret⟩ := ok_of_bind hdispatch
  cases hret
  exact ⟨body, hrespond, rfl⟩

/-- A list has nothing to tear down, so a request on another key leaves it alone. -/
theorem HoldsList.other {env : Env} {r : Request} {body : Bytes} (h : HoldsList d (g.payloadOf key)) (hwf : g.WF)
    (hrun : respond env g r = .ok (g', body)) (hother : keyId (keyOf r.tokens) ≠ keyId key) :
    HoldsList d (g'.payloadOf key) := by
  have ho := respond_outcome hwf hrun
  have hbare : ∀ p ∈ g.payloadOf key, p.Bare := by
    intro p hp
    obtain ⟨l, hl, -⟩ := h.exists_list
    rw [Option.mem_def.mp hp, Option.getD_some] at hl
    rw [hl]
    exact bare_of_type (by rintro ⟨⟩) (by rintro ⟨⟩)
  rw [ho.payloadOf_of_inserted hother fun _ g₁ hi => hi.payloadOf_bare hother hbare]
  exact h

/-- A pop from a list without values is refused. -/
theorem doPop_empty {cmd : List Bytes} {out : Bytes} {side : Side} {r : Result} (hwf : g.WF) (hkey : Short (keyOf cmd))
    (hlen : 3 ≤ cmd.length) (h : HoldsList [] (g.payloadOf (keyOf cmd))) (hrun : doPop g out cmd side = .ok r) :
    ∃ mes, r.out = outErr out mes := by
  rw [doPop, arg_one (by omega), arg_eq_getD (by omega), ok_bind, ok_bind, findNode_bind hwf hkey] at hrun
  cases hn : g.nodeOf (keyOf cmd) with
  | none =>
    rw [hn] at hrun
    cases hrun
    exact ⟨_, rfl⟩
  | some n =>
    rw [hn] at hrun
    rw [payloadOf_of_nodeOf hn] at h
    obtain ⟨l, hl, es, hes, hempty⟩ := h.exists_list
    rw [Option.getD_some] at hl
    have hsize : l.size = 0 := by rw [hes.size, List.map_eq_nil_iff.mp hempty, List.length_nil]
    simp only [hl, hsize, Nat.min_zero] at hrun
    rw [if_pos (by simp [toI32])] at hrun
    cases hrun
    exact ⟨_, rfl⟩

theorem hands_pop {x : Exchange} {count : Nat} (hcount : 1 ≤ count) {body : Bytes} (hx : x.reply = afterResBuild body 0)
    (hempty : d = [] → ∃ mes, body = outErr (beforeResBuild []).1 mes)
    (hreply : (ListOp.pop .left count).Reply d (beforeResBuild []).1 body) : Hands x (d.take count) := by
  unfold Hands
  by_cases hd : d = []
  · obtain ⟨mes, rfl⟩ := hempty hd
    rw [if_pos (by rw [hd, List.take_nil])]
    exact ⟨mes, hx⟩
  · have hne : d.take count ≠ [] := by
      intro hnil
      rcases List.take_eq_nil_iff.mp hnil with hzero | hnil
      · omega
      · exact hd hnil
    have hbody : body = outStrs (outArr (beforeResBuild []).1 (min count d.length)) (d.take count) := hreply hd
    rw [if_neg hne, hx, hbody, List.length_take]

/-- One operation on the list, as a deque would do it. -/
theorem respond_op {env : Env} {r : Request} {op : ListOp} {body : Bytes} (hwf : g.WF) (h : HoldsList d (g.payloadOf key))
    (hroom : d.length + 1 < 2 ^ 32) (hkey : keyOf r.tokens = key) (hop : listOp r.tokens = some op)
    (hrun : respond env g r = .ok (g', body)) :
    HoldsList (op.apply d) (g'.payloadOf key) ∧ op.Reply d (beforeResBuild []).1 body ∧ (op.apply d).length ≤ d.length + 1 := by
  have hstep : dequeStep d r = op.apply d := by rw [dequeStep, hop, Option.map_some, Option.getD_some]
  have hlen : (op.apply d).length ≤ d.length + 1 := by
    cases op with
    | push side value => rw [ListOp.apply, Side.length_view, List.length_cons, Side.length_view]
    | pop side count =>
      rw [ListOp.apply, Side.length_view, List.length_drop, Side.length_view]
      omega
  have hr : ListRequest key d r := ⟨hkey, by rw [hop]; rfl, by rw [hstep]; omega⟩
  obtain ⟨g₁, out, hres, -, hholds, hreply⟩ := respond_deque env hwf h (by omega) hr
  obtain ⟨rfl, rfl⟩ := Prod.mk.inj (Except.ok.inj (hres.symm.trans hrun))
  exact ⟨hstep ▸ hholds, hreply op hop, hlen⟩

theorem pop_refused {env : Env} {r : Request} {count : Nat} {body : Bytes} (hwf : g.WF) (h : HoldsList [] (g.payloadOf key))
    (hkey : keyOf r.tokens = key) (hop : listOp r.tokens = some (.pop .left count))
    (hrun : respond env g r = .ok (g', body)) : ∃ mes, body = outErr (beforeResBuild []).1 mes := by
  subst hkey
  rcases listOp_cases hop with ⟨_, _, hno⟩ | ⟨side, hc, hlen, _, _, _⟩
  · cases hno
  · obtain ⟨_, -, hrest⟩ := ok_of_bind hrun
    obtain ⟨res, hcmd, hret⟩ := ok_of_bind hrest
    cases hret
    rw [hc] at hcmd
    have hpop : doPop g (beforeResBuild []).1 r.tokens side = .ok res := by
      cases side with
      | left => exact hcmd
      | right => exact hcmd
    exact doPop_empty hwf r.short_key hlen h hpop

end Requests

/-! ### Runs -/

section Runs

variable {key : Bytes} {envs : Nat → Env}

theorem pop_count_pos {query : List Bytes} {side : Side} {count : Nat} (hop : listOp query = some (.pop side count)) :
    1 ≤ count := by
  rcases listOp_cases hop with ⟨_, _, hno⟩ | ⟨_, _, _, hlow, _, heq⟩
  · cases hno
  · cases heq
    omega

/-- A server alone delivers what it is given to deliver. -/
theorem delivers_of_alone {log : List Use} {g : GlobalData} {n : Nat} {d : List Bytes} (hwf : g.WF)
    (hd : HoldsList d (g.payloadOf key)) (httl : g.ttl.entries = [])
    (hroom : d.length + (log.filterMap Use.exchange?).length < 2 ^ 32)
    (hlog : ∀ x ∈ log.filterMap Use.exchange?, QueueQuery key x.tokens) {rs : List Bytes} {d' : GlobalData × Nat}
    (hrun : run (serveAlone (redisService envs)) ((g, n), rs) log = .ok (d', rs ++ replies log)) :
    ∃ left, HoldsList left (d'.1.payloadOf key) ∧ Delivers key d (log.filterMap Use.exchange?) left := by
  induction log generalizing g n d rs with
  | nil =>
    obtain ⟨hsame, -⟩ := Prod.mk.inj (Except.ok.inj hrun)
    exact ⟨d, hsame ▸ hd, .nil⟩
  | cons use log ih =>
    cases use with
    | expire currMs =>
      rw [Run.run_cons_ok (expire_alone httl currMs)] at hrun
      exact ih hwf hd httl hroom hlog hrun
    | exchange x =>
      obtain ⟨hx, hlog⟩ := List.forall_mem_cons.mp hlog
      obtain ⟨⟨g₁, n₁⟩, hans, hrest⟩ := reply_of_alone hrun
      obtain ⟨body, hrespond, hreply⟩ := respond_of_answer hx.sendable hans
      have ho := respond_outcome hwf hrespond
      have httl₁ := ho.no_deadlines hx.lasting httl
      have hlen : (List.filterMap Use.exchange? (.exchange x :: log)).length = (log.filterMap Use.exchange?).length + 1 := rfl
      by_cases hown : keyId (keyOf x.tokens) = keyId key
      · obtain ⟨hkey, hany⟩ := hx.own hown
        obtain ⟨op, hop, hqueue⟩ := (Option.any_eq_true _ _).mp hany
        have hon : opOn key x.tokens = some op := by rw [opOn, if_pos hown, hop]
        obtain ⟨hholds, hanswer, hgrow⟩ := respond_op hwf hd (by omega) hkey hop hrespond
        obtain ⟨left, hleft, hdelivers⟩ := ih (ho.wf hwf) hholds httl₁ (by omega) hlog hrest
        refine ⟨left, hleft, ?_⟩
        cases op with
        | push side value =>
          cases side with
          | left => cases hqueue
          | right =>
            have happly : (ListOp.push .right value).apply d = d ++ [value] := by
              rw [ListOp.apply, Side.view, Side.view, List.reverse_cons, List.reverse_reverse]
            rw [happly] at hdelivers
            exact hdelivers.push hon
        | pop side count =>
          cases side with
          | left =>
            have hhands : Hands x (d.take count) := by
              apply hands_pop (pop_count_pos hop) hreply _ hanswer
              intro hempty
              rw [hempty] at hd
              exact pop_refused hwf hd hkey hop hrespond
            exact Delivers.pop hdelivers hon hhands
          | right => cases hqueue
      · have hon : opOn key x.tokens = none := by rw [opOn, if_neg hown]
        have hkeeps : HoldsList d (g₁.payloadOf key) := hd.other hwf hrespond hown
        obtain ⟨left, hleft, hdelivers⟩ := ih (ho.wf hwf) hkeeps httl₁ (by omega) hlog hrest
        exact ⟨left, hleft, hdelivers.other hon⟩

end Runs

/-- Clients that use a list as a queue get from it what was put into it. There is one history of all requests, of which every
client sees its part. The values that the pops in it hand out, with the values in the list behind them, are the values that
the pushes in it have put in, in the same order, as long as fewer than `2 ^ 32` requests were served. -/
theorem queue_delivers_in_order (envs : Nat → Env) (clock : Nat → Nat) (answers : List Answer) (key : Bytes)
    (queries : Ptr → List (List Bytes)) (t : Traced (GlobalData × Nat)) (hqueries : ∀ c, ∀ q ∈ queries c, QueueQuery key q)
    (hfit : BacklogsFit (redisService envs) clock ({}, 0) answers)
    (hrun : run (tracedStep (redisService envs) clock) { loop := Loop.init ({}, 0) } answers = .ok t)
    (hsent : ∀ c, t.heard c <+: (queries c).flatMap frame) :
    ∃ history : List Exchange,
      (∀ c, Sees (history.filter fun x => x.conn = c) (queries c) (t.heard c) (t.told c) (t.loop.conns.read c)) ∧
        (history.length < 2 ^ 32 → ∃ left, HoldsList left (t.loop.data.1.payloadOf key) ∧ Delivers key [] history left) := by
  have hempty : ({} : GlobalData).WF ∧ ({} : GlobalData).Shaped := ⟨GlobalData.WF.empty, nofun⟩
  obtain ⟨-, log, hlog⟩ := run_explains (redisService_sound envs) (redisService_oblivious envs) hempty hfit hrun
  have hsees : ∀ c, Sees (exchangesOf log c) (queries c) (t.heard c) (t.told c) (t.loop.conns.read c) := by
    intro c
    apply sees_of_explains _ (fun q hq => (hqueries c q hq).sendable) (hlog.heard c) (hlog.told c) (hsent c)
    exact fun x hx => hlog.parsed x (List.mem_filter.mp hx).1
  refine ⟨log.filterMap Use.exchange?, hsees, fun hroom => ?_⟩
  apply delivers_of_alone GlobalData.WF.empty rfl rfl _ _ hlog.alone
  · rwa [List.length_nil, Nat.zero_add]
  · intro x hx
    have hmine : x ∈ exchangesOf log x.conn := List.mem_filter.mpr ⟨hx, decide_eq_true rfl⟩
    exact hqueries x.conn _ ((hsees x.conn).asked.subset (List.mem_map_of_mem hmine))

/-- The first client pushes twice, the second one writes another key and pops between the two pushes. -/
def queueClients : List Answer :=
  List.flatten [
    connecting 4,
    [{ accepted := some (some 5) }, {}, {}, {}, {}, {}],
    iterationOf (some (received (frame [text "rpush", text "q", text "a"] ++ (frame [text "rpush", text "q", text "b"]).take 7),
      .again)) none,
    iterationOf none (some (received (frame [text "set", text "k", text "v"] ++ (frame [text "lpop", text "q", text "9"])),
      .again)),
    iterationOf (some (received ((frame [text "rpush", text "q", text "b"]).drop 7), .wrote 99)) (some (.again, .wrote 99))]

def queueClientsQueries : Ptr → List (List Bytes)
  | 1 => [[text "rpush", text "q", text "a"], [text "rpush", text "q", text "b"]]
  | 2 => [[text "set", text "k", text "v"], [text "lpop", text "q", text "9"]]
  | _ => []

theorem queue_delivers_in_order_two :
    ∃ t, run (tracedStep (redisService fun _ => {}) id) { loop := Loop.init ({}, 0) } queueClients = .ok t ∧
      ∃ history left, HoldsList left (t.loop.data.1.payloadOf (text "q")) ∧ Delivers (text "q") [] history left ∧
        (history.filter fun x => x.conn = 1).map Exchange.tokens = queueClientsQueries 1 ∧
        (history.filter fun x => x.conn = 2).map Exchange.tokens = queueClientsQueries 2 := by
  have hcheck : Run.check (run (tracedStep (redisService fun _ => {}) id) { loop := Loop.init ({}, 0) } queueClients)
      (fun t => t.loop.conns.next = 3 ∧ t.heard 0 = [] ∧ t.heard 1 = (queueClientsQueries 1).flatMap frame ∧
        t.heard 2 = (queueClientsQueries 2).flatMap frame) = true := by
    decide +kernel
  obtain ⟨t, hrun, hend⟩ := Run.exists_ok_of_check hcheck
  obtain ⟨hnext, hzero, hone, htwo⟩ := of_decide_eq_true hend
  have hfit : BacklogsFit (redisService fun _ => {}) id ({}, 0) queueClients := by decide +kernel
  have hempty : ({} : GlobalData).WF ∧ ({} : GlobalData).Shaped := ⟨GlobalData.WF.empty, nofun⟩
  obtain ⟨-, log, hlog⟩ := run_explains (redisService_sound _) (redisService_oblivious _) hempty hfit hrun
  have hall : ∀ c, t.heard c = (queueClientsQueries c).flatMap frame := by
    intro c
    match c with
    | 0 => exact hzero
    | 1 => exact hone
    | 2 => exact htwo
    | c + 3 => exact (hlog.fresh (c + 3) (hnext ▸ Nat.le_add_left 3 c)).2.1
  have hqueries : ∀ c, ∀ q ∈ queueClientsQueries c, QueueQuery (text "q") q := by
    intro c
    match c with
    | 0 => exact nofun
    | 1 => decide +kernel
    | 2 => decide +kernel
    | _ + 3 => exact nofun
  obtain ⟨history, hsees, hdelivers⟩ := queue_delivers_in_order _ _ _ (text "q") queueClientsQueries t hqueries hfit hrun
    fun c => (hall c).symm ▸ List.prefix_refl _
  have htokens : ∀ c, (history.filter fun x => x.conn = c).map Exchange.tokens = queueClientsQueries c :=
    fun c => (hsees c).all (hall c)
  have hconn : ∀ x ∈ history, x.conn = 1 ∨ x.conn = 2 := by
    intro x hx
    have hmine : x ∈ history.filter fun y => y.conn = x.conn := List.mem_filter.mpr ⟨hx, decide_eq_true rfl⟩
    have hquery := List.mem_map_of_mem (f := Exchange.tokens) hmine
    rw [htokens] at hquery
    match h : x.conn with
    | 0 =>
      rw [h] at hquery
      cases hquery
    | 1 => exact .inl rfl
    | 2 => exact .inr rfl
    | _ + 3 =>
      rw [h] at hquery
      cases hquery
  have hother : (history.filter fun x => !decide (x.conn = 1)) = history.filter fun x => x.conn = 2 := by
    apply List.filter_congr
    intro x hx
    rcases hconn x hx with h | h
    · simp [h]
    · simp [h]
  have hlength : history.length = 4 := by
    have htwo := congrArg List.length (htokens 2)
    have hone := congrArg List.length (htokens 1)
    rw [List.length_map] at hone htwo
    rw [List.length_eq_length_filter_add fun x : Exchange => decide (x.conn = 1), hother, hone, htwo]
    rfl
  obtain ⟨left, hleft, hdone⟩ := hdelivers (by omega)
  exact ⟨t, hrun, history, left, hleft, hdone, htokens 1, htokens 2⟩

end CustomRedis
