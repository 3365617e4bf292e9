import CustomRedis.Proof.TimeoutLists

/-!
# The order of the timeout lists

`process_timers` stops at the first connection that is in time, so it needs the lists in the order of the stamps it
compares. A connection that joins a list has the newest stamp, if the clock does not go back. But `handle_read` and
`handle_write` also refresh a stamp and leave the node where it is. The lists stay in order if that happens only to
a node with no older stamps behind it.
-/

namespace CustomRedis

open Run (run ok_of_bind Along check exists_ok_of_check)
open DListMem (nextOf nodes)

variable {δ : Type}

/-! ### Which steps keep the order -/

/-- Every connection behind the given one in the list has a stamp that is not older than the given time. -/
def NoneOlder (s : Loop δ) (k : Timeout) (c : Ptr) (now : Nat) : Prop :=
  ∀ d ∈ ((s.lists k).nodes sentinel).dropWhile (· ≠ c), d ≠ c → now ≤ stampIn s.conns k d

def OrderAt (clock : Nat → Nat) (s : Loop δ) (ans : Answer) : Phase → Prop
  | .read c ready _ => ready &&& pollIn ≠ 0 → ∀ conn ∈ s.conns.read c, QuietRead conn ans.read →
    NoneOlder s .read c (clock s.ticks)
  | .write c ready _ => ready &&& pollOut ≠ 0 → ∀ conn ∈ s.conns.read c, PartialWrite conn ans.write →
    NoneOlder s .write c (clock s.ticks)
  | _ => True

/-- The step keeps the lists, and it refreshes no stamp of a connection that has older ones behind it. -/
def OrderOk (clock : Nat → Nat) (s : Loop δ) (ans : Answer) : Prop := LinksOk s ans ∧ OrderAt clock s ans s.phase

instance (conn : ConnRec) : (res : ReadResult) → Decidable (QuietRead conn res)
  | .again => instDecidableFalse
  | .closed => instDecidableFalse
  | .data _ _ => inferInstanceAs (Decidable (_ ∧ _))

instance (conn : ConnRec) : (res : WriteResult) → Decidable (PartialWrite conn res)
  | .again => instDecidableFalse
  | .closed => instDecidableFalse
  | .wrote _ => inferInstanceAs (Decidable (_ < _))

instance (s : Loop δ) (k : Timeout) (c : Ptr) (now : Nat) : Decidable (NoneOlder s k c now) :=
  inferInstanceAs (Decidable (∀ d ∈ List.dropWhile _ _, _ → _))

instance (clock : Nat → Nat) (s : Loop δ) (ans : Answer) : (phase : Phase) → Decidable (OrderAt clock s ans phase)
  | .poll => instDecidableTrue
  | .sockets _ => instDecidableTrue
  | .read c _ _ => inferInstanceAs (Decidable (_ → ∀ conn ∈ s.conns.read c, _ → _))
  | .write c _ _ => inferInstanceAs (Decidable (_ → ∀ conn ∈ s.conns.read c, _ → _))
  | .close _ _ _ => instDecidableTrue
  | .timers _ _ => instDecidableTrue

instance (clock : Nat → Nat) (s : Loop δ) (ans : Answer) : Decidable (OrderOk clock s ans) :=
  inferInstanceAs (Decidable (_ ∧ OrderAt clock s ans s.phase))

/-! ### Queues in order -/

/-- The queue is in the order of the stamps, and none of them lies in the future. -/
structure Ordered (conns : Mem ConnRec) (now : Nat) (k : Timeout) (l : List Ptr) : Prop where
  sorted : l.Pairwise fun a b => stampIn conns k a ≤ stampIn conns k b
  past : ∀ c ∈ l, stampIn conns k c ≤ now

/-- Every connection of the queue is in time. -/
def InTime (conns : Mem ConnRec) (k : Timeout) (t : Nat) (l : List Ptr) : Prop :=
  ∀ c ∈ l, t ≤ stampIn conns k c + k.limitMs

section Order

variable {clock : Nat → Nat} {s : Loop δ} {ans : Answer} {conns : Mem ConnRec} {ticks : Nat} {k : Timeout}
  {l l' : List Ptr}

theorem Ordered.of_sublist {now now' : Nat} (h : Ordered s.conns now k l) (hsub : l'.Sublist l) (hnow : now ≤ now')
    (hstamp : ∀ d ∈ l', stampIn conns k d = stampIn s.conns k d) : Ordered conns now' k l' := by
  refine ⟨(h.sorted.sublist hsub).imp_of_mem fun ha hb hle => ?_, fun c hc => ?_⟩
  · rw [hstamp _ ha, hstamp _ hb]
    exact hle
  · rw [hstamp c hc]
    exact (h.past c (hsub.subset hc)).trans hnow

theorem Ordered.append {now : Nat} {c : Ptr} (h : Ordered conns now k l) {now' : Nat} (hnew : now ≤ stampIn conns k c)
    (hpast : stampIn conns k c ≤ now') : Ordered conns now' k (l ++ [c]) := by
  constructor
  · refine List.pairwise_append.mpr ⟨h.sorted, List.pairwise_singleton _ _, fun a ha b hb => ?_⟩
    obtain rfl := List.mem_singleton.mp hb
    exact (h.past a ha).trans hnew
  · intro d hd
    rcases List.mem_append.mp hd with hd | hd
    · exact ((h.past d hd).trans hnew).trans hpast
    · obtain rfl := List.mem_singleton.mp hd
      exact hpast

/-- A stamp is set to the present where no older one is behind it. -/
theorem Ordered.refresh {now : Nat} {c : Ptr} (h : Ordered s.conns now k l) (hnodup : l.Nodup)
    (hstamp : ∀ d, d ≠ c → stampIn conns k d = stampIn s.conns k d) (hnew : stampIn conns k c = now)
    (hbehind : ∀ d ∈ l.dropWhile (· ≠ c), d ≠ c → now ≤ stampIn s.conns k d) : Ordered conns now k l := by
  by_cases hc : c ∈ l
  · obtain ⟨A, B, rfl⟩ := List.append_of_mem hc
    obtain ⟨hA, hB, hcross⟩ := List.pairwise_append.mp h.sorted
    have hnotA : ∀ d ∈ A, d ≠ c := by
      rintro d hd rfl
      exact List.disjoint_of_nodup_append hnodup hd List.mem_cons_self
    have hnotB : ∀ d ∈ B, d ≠ c := by
      rintro d hd rfl
      exact (List.nodup_cons.mp (List.nodup_append.mp hnodup).2.1).1 hd
    have hdrop : (A ++ c :: B).dropWhile (· ≠ c) = c :: B := by
      rw [List.dropWhile_append_of_pos fun d hd => decide_eq_true (hnotA d hd)]
      exact List.dropWhile_cons_of_neg (by simp)
    rw [hdrop] at hbehind
    refine ⟨List.pairwise_append.mpr ⟨?_, List.pairwise_cons.mpr ⟨fun d hd => ?_, ?_⟩, fun a ha b hb => ?_⟩, fun d hd => ?_⟩
    · refine hA.imp_of_mem fun ha hb hle => ?_
      rw [hstamp _ (hnotA _ ha), hstamp _ (hnotA _ hb)]
      exact hle
    · rw [hnew, hstamp d (hnotB d hd)]
      exact hbehind d (List.mem_cons_of_mem _ hd) (hnotB d hd)
    · refine (List.pairwise_cons.mp hB).2.imp_of_mem fun ha hb hle => ?_
      rw [hstamp _ (hnotB _ ha), hstamp _ (hnotB _ hb)]
      exact hle
    · rw [hstamp a (hnotA a ha)]
      rcases List.mem_cons.mp hb with rfl | hb
      · rw [hnew]
        exact h.past a (List.mem_append_left _ ha)
      · rw [hstamp b (hnotB b hb)]
        exact hcross a ha b (List.mem_cons_of_mem _ hb)
    · by_cases hdc : d = c
      · rw [hdc, hnew]
      · rw [hstamp d hdc]
        exact h.past d hd
  · refine h.of_sublist (List.Sublist.refl l) (Nat.le_refl _) fun d hd => hstamp d ?_
    rintro rfl
    exact hc hd

theorem QueueStep.ordered (hmono : Monotone clock) (hstep : QueueStep clock s ans conns ticks k l l')
    (hticks : s.ticks ≤ ticks) (hnodup : l.Nodup) (h : Ordered s.conns (clock s.ticks) k l)
    (hrefresh : ∀ c, Refreshing s ans c k → ∀ d ∈ l.dropWhile (· ≠ c), d ≠ c → clock s.ticks ≤ stampIn s.conns k d) :
    Ordered conns (clock ticks) k l' := by
  cases hstep with
  | keeps hsub hstamp => exact h.of_sublist hsub (hmono hticks) hstamp
  | joins hsub hstamp hfrom hto hnew =>
    have hkeep : Ordered conns (clock s.ticks) k _ := h.of_sublist hsub (Nat.le_refl _) hstamp
    apply hkeep.append
    · rw [hnew]
      exact hmono hfrom
    · rw [hnew]
      exact hmono hto.le
  | @refreshes c hthis hstamp hnew htick =>
    have hkeep := h.refresh hnodup hstamp hnew (hrefresh c hthis)
    exact ⟨hkeep.sorted, fun d hd => (hkeep.past d hd).trans (hmono hticks)⟩

/-- Who is in time stays so, and a new stamp is in time. -/
theorem QueueStep.inTime (hmono : Monotone clock) (hstep : QueueStep clock s ans conns ticks k l l') {t : Nat}
    (ht : t ≤ clock s.ticks) (h : InTime s.conns k t l) : InTime conns k t l' := by
  cases hstep with
  | keeps hsub hstamp =>
    intro c hc
    rw [hstamp c hc]
    exact h c (hsub.subset hc)
  | joins hsub hstamp hfrom hto hnew =>
    intro c hc
    rcases List.mem_append.mp hc with hc | hc
    · rw [hstamp c hc]
      exact h c (hsub.subset hc)
    · obtain rfl := List.mem_singleton.mp hc
      rw [hnew]
      exact (ht.trans (hmono hfrom)).trans (Nat.le_add_right _ _)
  | @refreshes c hthis hstamp hnew htick =>
    intro d hd
    by_cases hdc : d = c
    · rw [hdc, hnew]
      exact ht.trans (Nat.le_add_right _ _)
    · rw [hstamp d hdc]
      exact h d hd

/-- If the first connection of a list in order is in time, all are. -/
theorem inTime_of_unexpired {q : Timeout → List Ptr} (hq : Queues s.conns s.lists q) {now t : Nat}
    (h : Ordered s.conns now k (q k)) (hfront : Unexpired s t k) : InTime s.conns k t (q k) := by
  obtain ⟨head, hhead, hfirst⟩ := hfront
  have hring := hq.ring k
  have hnext : (s.lists k).nextOf sentinel = head.next := by
    rw [nextOf, hhead]
    rfl
  cases hl : q k with
  | nil =>
    intro c hc
    cases hc
  | cons x rest =>
    rw [hl] at hring h
    have hx : head.next = some x := hnext.symm.trans hring.forward.1
    rcases hfirst with hself | ⟨c, conn, hc, hconn, hle⟩
    · rw [hx] at hself
      cases hself
      exact absurd List.mem_cons_self hring.start_notMem
    · rw [hx] at hc
      cases hc
      have hfirst : t ≤ stampIn s.conns k x + k.limitMs := by
        rw [stampIn_of_read hconn]
        exact hle.trans (Nat.mod_le _ _)
      intro d hd
      rcases List.mem_cons.mp hd with rfl | hd
      · exact hfirst
      · have hsorted := (List.pairwise_cons.mp h.sorted).1 d hd
        omega

end Order

/-! ### Runs -/

/-- What `process_timers` has found out so far. -/
def TimersDone (conns : Mem ConnRec) (q : Timeout → List Ptr) (now : Nat) : Phase → Prop
  | .timers t .idle => t ≤ now
  | .timers t .read => t ≤ now ∧ InTime conns .idle t (q .idle)
  | .timers t .write => t ≤ now ∧ InTime conns .idle t (q .idle) ∧ InTime conns .read t (q .read)
  | _ => True

/-- The lists are queues in order, and those that `process_timers` has gone through are in time. -/
structure Enforced (clock : Nat → Nat) (s : Loop δ) (q : Timeout → List Ptr) : Prop where
  queues : Queues s.conns s.lists q
  idle : AllIdle s.conns q
  ordered : ∀ k, Ordered s.conns (clock s.ticks) k (q k)
  timers : TimersDone s.conns q (clock s.ticks) s.phase

section Runs

variable {srv : Service δ} {I : δ → Prop} {clock : Nat → Nat} {s s' : Loop δ} {ans : Answer} {q q' : Timeout → List Ptr}

theorem transition_ordered (hmono : Monotone clock) (h : Enforced clock s q) (hok : OrderOk clock s ans)
    (hticks : s.ticks ≤ s'.ticks) (hstep : ∀ k, QueueStep clock s ans s'.conns s'.ticks k (q k) (q' k)) (k : Timeout) :
    Ordered s'.conns (clock s'.ticks) k (q' k) := by
  have hnodup := (List.nodup_cons.mp (h.queues.ring k).nodup).2
  refine (hstep k).ordered hmono hticks hnodup (h.ordered k) fun c hrefresh => ?_
  rw [← h.queues.nodes_eq k]
  have horder := hok.2
  cases k with
  | idle => exact hrefresh.elim
  | read =>
    obtain ⟨ready, args, conn, hphase, hin, hconn, hquiet⟩ := hrefresh
    rw [hphase] at horder
    exact horder hin conn hconn hquiet
  | write =>
    obtain ⟨ready, args, conn, hphase, hout, hconn, hpart⟩ := hrefresh
    rw [hphase] at horder
    exact horder hout conn hconn hpart

theorem transition_timers (hmono : Monotone clock) (h : Enforced clock s q) (hticks : s.ticks ≤ s'.ticks)
    (hstep : ∀ k, QueueStep clock s ans s'.conns s'.ticks k (q k) (q' k)) (ht : Transition srv clock s ans s') :
    TimersDone s'.conns q' (clock s'.ticks) s'.phase := by
  have hdone := h.timers
  have hlater := hmono hticks
  cases ht with
  | timers hphase => exact hmono (Nat.le_succ _)
  | @expired currMs list head c conn s₁ hphase hhead hfirst hne hconn hlate hclosed =>
    rw [hphase] at hdone
    have hsame : s'.phase = .timers currMs list := by
      cases hclosed with
      | mk hconn hm => exact hphase
    rw [hsame]
    cases list with
    | idle => exact hdone.trans hlater
    | read => exact ⟨hdone.1.trans hlater, (hstep .idle).inTime hmono hdone.1 hdone.2⟩
    | write =>
      exact ⟨hdone.1.trans hlater, (hstep .idle).inTime hmono hdone.1 hdone.2.1,
        (hstep .read).inTime hmono hdone.1 hdone.2.2⟩
  | idleDone hphase hfront =>
    rw [hphase] at hdone
    have hidle := inTime_of_unexpired h.queues (h.ordered .idle) hfront
    exact ⟨hdone, (hstep .idle).inTime hmono hdone hidle⟩
  | readDone hphase hfront =>
    rw [hphase] at hdone
    have hread := inTime_of_unexpired h.queues (h.ordered .read) hfront
    exact ⟨hdone.1, (hstep .idle).inTime hmono hdone.1 hdone.2, (hstep .read).inTime hmono hdone.1 hread⟩
  | close hphase hconn hclose hclosed => trivial
  | stays hphase =>
    rw [hphase]
    trivial
  | polled | accepted | skipped | ready | read | noRead | write | noWrite | keep | writeDone => trivial

theorem run_enforced (hmono : Monotone clock) (hsound : srv.Sound I) {data : δ} (hI : I data) {answers : List Answer}
    (hok : Along (loopStep srv clock) (OrderOk clock) (Loop.init data) answers)
    (hrun : run (loopStep srv clock) (Loop.init data) answers = .ok s) : ∃ q, Enforced clock s q := by
  have hinit : Enforced clock (Loop.init data) fun _ => [] :=
    ⟨queues_init data, allIdle_init data, fun k => ⟨List.Pairwise.nil, nofun⟩, trivial⟩
  have hall : I s.data ∧ ∃ q, Enforced clock s q := by
    refine Run.invariant_along (I := fun s => I s.data ∧ ∃ q, Enforced clock s q) ?_ ⟨hI, _, hinit⟩ hok hrun
    rintro s ans s' ⟨hI, q, h⟩ hok hstep
    have ht := loopStep_transition hstep
    obtain ⟨q', hq', hidle', hticks, hsteps⟩ := transition_queues hsound hI h.queues h.idle hok.1 ht
    refine ⟨transition_data hsound hI ht, q', hq', hidle', transition_ordered hmono h hok hticks hsteps, ?_⟩
    exact transition_timers hmono h hticks hsteps ht
  exact hall.2

end Runs

/-- In a run that keeps the lists in order, no connection of a list is late when `process_timers` has run. -/
theorem timeouts_enforced (envs : Nat → Env) (clock : Nat → Nat) (answers : List Answer) (ans : Answer)
    (s s' : Loop (GlobalData × Nat)) (currMs : Nat) (hmono : Monotone clock)
    (hok : Along (loopStep (redisService envs) clock) (OrderOk clock) (Loop.init ({}, 0)) answers)
    (hrun : run (loopStep (redisService envs) clock) (Loop.init ({}, 0)) answers = .ok s)
    (hphase : s.phase = .timers currMs .write) (hstep : loopStep (redisService envs) clock s ans = .ok s')
    (hpoll : s'.phase = .poll) (k : Timeout) (c : Ptr) (conn : ConnRec) (hc : c ∈ (s'.lists k).nodes sentinel)
    (hconn : s'.conns.read c = some conn) : ¬conn.stamp k + k.limitMs < currMs := by
  have hempty : ({} : GlobalData).WF ∧ ({} : GlobalData).Shaped := ⟨GlobalData.WF.empty, nofun⟩
  obtain ⟨q, h⟩ := run_enforced hmono (redisService_sound envs) hempty hok hrun
  have hdone := h.timers
  rw [hphase] at hdone
  have hend : Unexpired s currMs .write ∧ s'.conns = s.conns ∧ s'.lists = s.lists := by
    cases loopStep_transition hstep with
    | writeDone hphase' hfront hdata =>
      rw [hphase] at hphase'
      cases hphase'
      exact ⟨hfront, rfl, rfl⟩
    | expired hphase' hhead hfirst hne hconn hlate hclosed =>
      cases hclosed with
      | mk hconn hm =>
        rw [hphase] at hpoll
        cases hpoll
    | stays h | polled h | accepted h | skipped h | ready h | read h | noRead h | write h | noWrite h | close h
    | keep h | timers h | idleDone h | readDone h =>
      rw [hphase] at h
      cases h
  obtain ⟨hfront, hconns, hlists⟩ := hend
  rw [hlists, h.queues.nodes_eq] at hc
  rw [hconns] at hconn
  have hwrite := inTime_of_unexpired h.queues (h.ordered .write) hfront
  have hin : InTime s.conns k currMs (q k) := by
    cases k with
    | idle => exact hdone.2.1
    | read => exact hdone.2.2
    | write => exact hwrite
  have hthis := hin c hc
  rw [stampIn_of_read hconn] at hthis
  exact Nat.not_lt.mpr hthis

/-! ### Two connections -/

/-- The answers for an iteration with two connections, of which the first one is ready. -/
def firstOfTwo (ready : UInt8) (read : ReadResult) (write : WriteResult) : List Answer :=
  [{}, { revents := ready }, { read := read }, { write := write }, {}, {}, {}, {}, {}, {}]

def secondOfTwo (ready : UInt8) (read : ReadResult) (write : WriteResult) : List Answer :=
  [{}, {}, { revents := ready }, { read := read }, { write := write }, {}, {}, {}, {}, {}]

/-- The answers for an iteration in which a second client connects. -/
def connectingToo (connfd : Nat) : List Answer := [{ accepted := some (some connfd) }, {}, {}, {}, {}, {}]

/-- Two clients connect, send a request each, one after the other, and take the reply. Both are in the read list then. -/
def twoServed : List Answer :=
  connecting 4 ++ connectingToo 5 ++
    firstOfTwo pollIn (received (frame [text "keys"])) .again ++ firstOfTwo pollOut .again (.wrote 100) ++
    secondOfTwo pollIn (received (frame [text "keys"])) .again ++ secondOfTwo pollOut .again (.wrote 100)

/-- A clock that stands still but for one jump. -/
def jump (tick ms : Nat) : Nat → Nat := fun n => if n < tick then 0 else ms

theorem monotone_jump (tick ms : Nat) : Monotone (jump tick ms) := by
  intro a b hab
  unfold jump
  split
  · exact Nat.zero_le _
  · next ha => rw [if_neg (by omega)]

/-- After 20 seconds the second client sends a byte, and the first one is closed. -/
theorem timeouts_enforced_last :
    ∃ s s', run (loopStep (redisService fun _ => {}) (jump 25 20000)) (Loop.init ({}, 0))
        (twoServed ++ secondOfTwo pollIn (received [0]) .again) = .ok s ∧
      loopStep (redisService fun _ => {}) (jump 25 20000) s {} = .ok s' ∧ (s'.lists .read).nodes sentinel = [2] ∧
      ∀ k c conn, c ∈ (s'.lists k).nodes sentinel → s'.conns.read c = some conn → ¬conn.stamp k + k.limitMs < 20000 := by
  have hcheck : check (run (loopStep (redisService fun _ => {}) (jump 25 20000)) (Loop.init ({}, 0))
      (twoServed ++ secondOfTwo pollIn (received [0]) .again)) (fun s => s.phase = .timers 20000 .write ∧
        check (loopStep (redisService fun _ => {}) (jump 25 20000) s {})
          (fun s' => s'.phase = .poll ∧ (s'.lists .read).nodes sentinel = [2])) = true := by
    decide +kernel
  obtain ⟨s, hrun, hs⟩ := exists_ok_of_check hcheck
  obtain ⟨hphase, hs⟩ := of_decide_eq_true hs
  obtain ⟨s', hstep, hs'⟩ := exists_ok_of_check hs
  obtain ⟨hpoll, hnodes⟩ := of_decide_eq_true hs'
  refine ⟨s, s', hrun, hstep, hnodes, fun k c conn hc hconn => ?_⟩
  exact timeouts_enforced _ _ _ _ s s' _ (monotone_jump _ _) (by decide +kernel) hrun hphase hstep hpoll k c conn hc hconn

/-- After 20 seconds the first client sends a byte. Its stamp is new, its node is still the first one, and the second
connection, which is late, is not looked at. -/
theorem refreshed_first_hides_late :
    ∃ s s' conn, Monotone (jump 25 20000) ∧
      run (loopStep (redisService fun _ => {}) (jump 25 20000)) (Loop.init ({}, 0))
        (twoServed ++ (firstOfTwo pollIn (received [0]) .again).dropLast) = .ok s ∧ s.phase = .timers 20000 .write ∧
      loopStep (redisService fun _ => {}) (jump 25 20000) s {} = .ok s' ∧ s'.phase = .poll ∧
      2 ∈ (s'.lists .read).nodes sentinel ∧ s'.conns.read 2 = some conn ∧
      conn.stamp .read + Timeout.read.limitMs < 20000 := by
  have hcheck : check (run (loopStep (redisService fun _ => {}) (jump 25 20000)) (Loop.init ({}, 0))
      (twoServed ++ (firstOfTwo pollIn (received [0]) .again).dropLast)) (fun s => s.phase = .timers 20000 .write ∧
        check (loopStep (redisService fun _ => {}) (jump 25 20000) s {})
          (fun s' => s'.phase = .poll ∧ 2 ∈ (s'.lists .read).nodes sentinel ∧
            (s'.conns.read 2).map (ConnRec.stamp · .read) = some 0)) = true := by
    decide +kernel
  obtain ⟨s, hrun, hs⟩ := exists_ok_of_check hcheck
  obtain ⟨hphase, hs⟩ := of_decide_eq_true hs
  obtain ⟨s', hstep, hs'⟩ := exists_ok_of_check hs
  obtain ⟨hpoll, hnode, hstamp⟩ := of_decide_eq_true hs'
  obtain ⟨conn, hconn, hzero⟩ := Option.map_eq_some_iff.mp hstamp
  refine ⟨s, s', conn, monotone_jump _ _, hrun, hphase, hstep, hpoll, hnode, hconn, ?_⟩
  rw [hzero]
  decide

end CustomRedis
