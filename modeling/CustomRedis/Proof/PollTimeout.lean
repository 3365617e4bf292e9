import CustomRedis.Proof.TimeoutLists

/-!
# The timeout of `poll`

`next_timer_ms` looks at the first connection of the idle list and at the root of the heap, and only if the idle
list is not empty. The difference to the clock is taken in a `uint64_t`, where the maximum with 0 has no effect, and
`poll` takes the lower 32 bits of it as an `int`.
-/

namespace CustomRedis

open DListMem
open Run (run check exists_ok_of_check)

variable {δ : Type}

/-- A deadline of a linked connection, as `process_timers` computes it, or the one at the root of the heap. -/
inductive Pending (s : Loop δ) (ttlHeap : List HeapNode) : Nat → Prop
  | conn {k : Timeout} {c : Ptr} {conn : ConnRec} (hc : c ∈ (s.lists k).nodes sentinel)
      (hconn : s.conns.read c = some conn) : Pending s ttlHeap ((conn.stamp k + k.limitMs) % 2 ^ 64)
  | root {e : HeapNode} (he : ttlHeap.head? = some e) : Pending s ttlHeap e.val

/-- The timeout is no longer than the time to any pending deadline, and 0 if one has passed. -/
def TimelyWait (s : Loop δ) (ttlHeap : List HeapNode) (now : Nat) (timeout : Int) : Prop :=
  0 ≤ timeout ∧ ∀ d, Pending s ttlHeap d → (now ≤ d → now + timeout ≤ d) ∧ (d < now → timeout = 0)

/-- The deadline that `next_timer_ms` counts to, for the first connection of the idle list. -/
def nextDeadline (conn : ConnRec) (ttlHeap : List HeapNode) : Nat :=
  match ttlHeap with
  | [] => (conn.lastActiveMs + idleTimeoutMs) % 2 ^ 64
  | h :: _ => min ((conn.lastActiveMs + idleTimeoutMs) % 2 ^ 64) h.val

/-- A deadline that has passed is late by a multiple of `2 ^ 32`. Of one that has not, the lower 32 bits of the time
left are not negative, and they are 0 or reach no further than the pending deadlines. -/
def CountsRight (s : Loop δ) (ttlHeap : List HeapNode) (now deadline : Nat) : Prop :=
  (deadline < now ∧ (now - deadline) % 2 ^ 32 = 0) ∨
    (now ≤ deadline ∧ (deadline - now) % 2 ^ 32 < 2 ^ 31 ∧
      ((deadline - now) % 2 ^ 32 = 0 ∨ ∀ d, Pending s ttlHeap d → now + (deadline - now) % 2 ^ 32 ≤ d))

/-- With no idle connection no deadline is nearer than the idle timeout, and otherwise the one of the first idle
connection or of the root counts right. -/
def PollFits (s : Loop δ) (ttlHeap : List HeapNode) (now : Nat) : Prop :=
  match (s.lists .idle).nodes sentinel with
  | [] => ∀ d, Pending s ttlHeap d → now + idleTimeoutMs ≤ d
  | c :: _ => ∃ conn, s.conns.read c = some conn ∧ CountsRight s ttlHeap now (nextDeadline conn ttlHeap)

/-! ### What `next_timer_ms` returns -/

theorem nextTimerMs_eq {s : Loop δ} (h : WellLinked s .idle) (ttlHeap : List HeapNode) (now : Nat) :
    match (s.lists .idle).nodes sentinel with
    | [] => nextTimerMs s ttlHeap now = .ok idleTimeoutMs
    | c :: _ => ∃ conn, s.conns.read c = some conn ∧
        nextTimerMs s ttlHeap now = .ok (toU64 ((nextDeadline conn ttlHeap : Int) - now)) := by
  obtain ⟨l, hring, hlive, -⟩ := h
  rw [hring.nodes_eq]
  obtain ⟨head, hhead⟩ := Option.isSome_iff_exists.mp (hring.live List.mem_cons_self)
  have hnode : (s.lists .idle).node sentinel = .ok head := by rw [node, hhead]
  have hnext : (s.lists .idle).nextOf sentinel = head.next := by
    rw [nextOf, hhead]
    rfl
  have hempty : dlistEmpty (s.lists .idle) sentinel = .ok (head.next == some sentinel) := by
    rw [dlistEmpty, hnode]
    rfl
  rw [nextTimerMs, hempty]
  cases l with
  | nil =>
    have hself : head.next = some sentinel := hnext.symm.trans hring.forward
    rw [hself]
    rfl
  | cons c rest =>
    have hc : head.next = some c := hnext.symm.trans hring.forward.1
    have hne : c ≠ sentinel := by
      rintro rfl
      exact hring.start_notMem List.mem_cons_self
    obtain ⟨conn, hconn⟩ := Option.isSome_iff_exists.mp (hlive c List.mem_cons_self)
    have hread : s.conn c = .ok conn := by rw [Loop.conn, hconn]
    have hother : (some c == some sentinel) = false := beq_eq_false_iff_ne.mpr fun heq => hne (Option.some.inj heq)
    refine ⟨conn, hconn, ?_⟩
    simp only [bind, Except.bind, hnode, hc, hother, hread, Bool.false_eq_true, if_false, Nat.zero_max]
    cases ttlHeap with
    | nil => rfl
    | cons e others => rfl

/-! ### The conversions -/

theorem toI32_nonneg_iff {x : Nat} : 0 ≤ toI32 x ↔ x % 2 ^ 32 < 2 ^ 31 := by
  unfold toI32
  omega

theorem toI32_of_low {x : Nat} (hx : x % 2 ^ 32 < 2 ^ 31) : toI32 x = (x % 2 ^ 32 : Nat) := by
  unfold toI32
  omega

theorem toU64_sub_of_le {deadline now : Nat} (hle : now ≤ deadline) (hmax : deadline < 2 ^ 64) :
    toU64 ((deadline : Int) - now) = deadline - now := by
  unfold toU64
  omega

/-- Behind the deadline the difference wraps. -/
theorem toI32_toU64_late {deadline now : Nat} (hlt : deadline < now) (hmax : now < 2 ^ 64) :
    toI32 (toU64 ((deadline : Int) - now)) = 0 ↔ (now - deadline) % 2 ^ 32 = 0 := by
  unfold toI32 toU64
  omega

/-- A timeout counted to one of the pending deadlines. -/
theorem timelyWait_iff {s : Loop δ} {ttlHeap : List HeapNode} {now deadline : Nat} (hnow : now < 2 ^ 64)
    (hdeadline : deadline < 2 ^ 64) (hpending : Pending s ttlHeap deadline) :
    TimelyWait s ttlHeap now (toI32 (toU64 ((deadline : Int) - now))) ↔ CountsRight s ttlHeap now deadline := by
  rcases Nat.lt_or_ge deadline now with hlate | hle
  · have hzero := toI32_toU64_late hlate hnow
    rw [CountsRight, or_iff_left fun h => absurd hlate h.1.not_gt, and_iff_right hlate, ← hzero]
    constructor
    · intro h
      exact (h.2 deadline hpending).2 hlate
    · intro h
      rw [TimelyWait, h]
      exact ⟨le_rfl, fun d _ => ⟨fun hd => by omega, fun _ => rfl⟩⟩
  · rw [toU64_sub_of_le hle hdeadline, CountsRight, or_iff_right fun h => absurd hle h.1.not_ge, and_iff_right hle,
      TimelyWait, toI32_nonneg_iff]
    refine and_congr_right fun hlow => ?_
    rw [toI32_of_low hlow]
    generalize (deadline - now) % 2 ^ 32 = left
    constructor
    · intro h
      rw [or_iff_not_imp_left]
      intro hleft d hd
      rcases Nat.lt_or_ge d now with hpast | hahead
      · have hzero := (h d hd).2 hpast
        omega
      · have hreach := (h d hd).1 hahead
        omega
    · rintro (hzero | hreach) d hd
      · omega
      · have hle := hreach d hd
        omega

/-- The time to a deadline that is not far off is counted right if it has come or is the earliest. -/
theorem countsRight_near {s : Loop δ} {ttlHeap : List HeapNode} {now deadline : Nat} (hle : now ≤ deadline)
    (hnear : deadline < now + 2 ^ 31) :
    CountsRight s ttlHeap now deadline ↔ now = deadline ∨ ∀ d, Pending s ttlHeap d → deadline ≤ d := by
  have hmod : (deadline - now) % 2 ^ 32 = deadline - now := by omega
  rw [CountsRight, hmod, or_iff_right fun h => absurd hle h.1.not_ge, and_iff_right hle, and_iff_right (by omega),
    Nat.add_sub_cancel' hle]
  exact or_congr_left (by omega)

/-! ### The timeout -/

theorem nextDeadline_pending {s : Loop δ} {c : Ptr} {conn : ConnRec} (hc : c ∈ (s.lists .idle).nodes sentinel)
    (hconn : s.conns.read c = some conn) (ttlHeap : List HeapNode) : Pending s ttlHeap (nextDeadline conn ttlHeap) := by
  have hidle : Pending s ttlHeap ((conn.stamp .idle + Timeout.idle.limitMs) % 2 ^ 64) := .conn hc hconn
  rw [ConnRec.stamp, Timeout.limitMs] at hidle
  cases ttlHeap with
  | nil => exact hidle
  | cons e others =>
    rcases Nat.le_total ((conn.lastActiveMs + idleTimeoutMs) % 2 ^ 64) e.val with hle | hle
    · rw [nextDeadline, Nat.min_eq_left hle]
      exact hidle
    · rw [nextDeadline, Nat.min_eq_right hle]
      exact .root rfl

theorem nextDeadline_lt (conn : ConnRec) (ttlHeap : List HeapNode) : nextDeadline conn ttlHeap < 2 ^ 64 := by
  cases ttlHeap with
  | nil => exact Nat.mod_lt _ (by decide)
  | cons e others => exact (Nat.min_le_left _ _).trans_lt (Nat.mod_lt _ (by decide))

/-- `poll` gets a timely timeout exactly in the states that fit. -/
theorem pollTimeout_timely_iff {s : Loop δ} (h : WellLinked s .idle) (ttlHeap : List HeapNode) {now : Nat}
    (hnow : now < 2 ^ 64) :
    (∃ timeout, pollTimeout s ttlHeap now = .ok timeout ∧ TimelyWait s ttlHeap now timeout) ↔ PollFits s ttlHeap now := by
  have hnext := nextTimerMs_eq h ttlHeap now
  have hret : ∀ {timer : Nat}, nextTimerMs s ttlHeap now = .ok timer →
      ((∃ timeout, pollTimeout s ttlHeap now = .ok timeout ∧ TimelyWait s ttlHeap now timeout) ↔
        TimelyWait s ttlHeap now (toI32 timer)) := by
    intro timer hok
    have hpoll : pollTimeout s ttlHeap now = .ok (toI32 timer) := by
      rw [pollTimeout, hok]
      rfl
    constructor
    · rintro ⟨timeout, hrun, htimely⟩
      rwa [Except.ok.inj (hpoll.symm.trans hrun)]
    · intro htimely
      exact ⟨_, hpoll, htimely⟩
  unfold PollFits
  cases hnodes : (s.lists .idle).nodes sentinel with
  | nil =>
    rw [hnodes] at hnext
    rw [hret hnext, toI32_of_lt (by decide) (by decide)]
    constructor
    · rintro ⟨-, hall⟩ d hd
      rcases Nat.lt_or_ge d now with hpast | hahead
      · exact absurd ((hall d hd).2 hpast) (by decide)
      · exact_mod_cast (hall d hd).1 hahead
    · intro hall
      refine ⟨by decide, fun d hd => ⟨fun _ => by exact_mod_cast hall d hd, fun hpast => ?_⟩⟩
      exact absurd (hall d hd) (by omega)
  | cons c rest =>
    rw [hnodes] at hnext
    obtain ⟨conn, hconn, hok⟩ := hnext
    have hc : c ∈ (s.lists .idle).nodes sentinel := by
      rw [hnodes]
      exact List.mem_cons_self
    rw [hret hok, timelyWait_iff hnow (nextDeadline_lt conn ttlHeap) (nextDeadline_pending hc hconn ttlHeap)]
    constructor
    · intro hright
      exact ⟨conn, hconn, hright⟩
    · rintro ⟨conn', hconn', hright⟩
      cases hconn.symm.trans hconn'
      exact hright

/-! ### Runs -/

/-- A client that connects at time 0 and is silent: 100001 ms later `poll` is told to wait for ever. -/
theorem pollTimeout_forever : ∃ s, run (loopStep (redisService fun _ => {}) fun _ => 0) (Loop.init ({}, 0))
      (connecting 4) = .ok s ∧ s.phase = .poll ∧ WellLinked s .idle ∧ Pending s [] 100000 ∧
    pollTimeout s [] 100001 = .ok (-1) ∧ ¬TimelyWait s [] 100001 (-1) := by
  obtain ⟨s, hrun, hcheck⟩ := exists_ok_of_check (x := run (loopStep (redisService fun _ => {}) fun _ => 0)
      (Loop.init ({}, 0)) (connecting 4))
    (p := fun s => decide (s.phase = .poll ∧ (s.lists .idle).nodes sentinel = [1] ∧
      (s.conns.read 1).map ConnRec.lastActiveMs = some 0) && check (pollTimeout s [] 100001) (· = -1))
    (by decide +kernel)
  obtain ⟨hstate, hcheck⟩ := Bool.and_eq_true_iff.mp hcheck
  obtain ⟨hphase, hnodes, hstamp⟩ := of_decide_eq_true hstate
  obtain ⟨timeout, htimeout, hval⟩ := exists_ok_of_check hcheck
  obtain ⟨conn, hconn, hzero⟩ := Option.map_eq_some_iff.mp hstamp
  have hlinked := timeout_lists_linked (fun _ => {}) (fun _ => 0) (connecting 4) s (by decide +kernel) hrun .idle
  have hpending : Pending s [] ((conn.stamp .idle + Timeout.idle.limitMs) % 2 ^ 64) :=
    .conn (by rw [hnodes]; exact List.mem_singleton_self 1) hconn
  rw [ConnRec.stamp, hzero] at hpending
  refine ⟨s, hrun, hphase, hlinked, hpending, of_decide_eq_true hval ▸ htimeout, ?_⟩
  rintro ⟨hneg, -⟩
  exact absurd hneg (by decide)

/-- Half a second after the client has connected. -/
theorem pollTimeout_timely_idle : ∃ s, run (loopStep (redisService fun _ => {}) fun _ => 0) (Loop.init ({}, 0))
      (connecting 4) = .ok s ∧ ∃ timeout, pollTimeout s [] 500 = .ok timeout ∧ TimelyWait s [] 500 timeout := by
  obtain ⟨s, hrun, hcheck⟩ := exists_ok_of_check (x := run (loopStep (redisService fun _ => {}) fun _ => 0)
      (Loop.init ({}, 0)) (connecting 4))
    (p := fun s => decide ((s.lists .idle).nodes sentinel = [1] ∧ (s.lists .read).nodes sentinel = [] ∧
      (s.lists .write).nodes sentinel = [] ∧ (s.conns.read 1).map ConnRec.lastActiveMs = some 0)) (by decide +kernel)
  obtain ⟨hidle, hread, hwrite, hstamp⟩ := of_decide_eq_true hcheck
  obtain ⟨conn, hconn, hzero⟩ := Option.map_eq_some_iff.mp hstamp
  have hlinked := timeout_lists_linked (fun _ => {}) (fun _ => 0) (connecting 4) s (by decide +kernel) hrun .idle
  have hnext : nextDeadline conn [] = 100000 := by rw [nextDeadline, hzero]; rfl
  refine ⟨s, hrun, (pollTimeout_timely_iff hlinked [] (by decide)).mpr ?_⟩
  rw [PollFits, hidle]
  refine ⟨conn, hconn, (countsRight_near (by rw [hnext]; decide) (by rw [hnext]; decide)).mpr (.inr ?_)⟩
  intro d hd
  cases hd with
  | @conn k c conn' hc hconn' =>
    cases k with
    | idle =>
      rw [hidle, List.mem_singleton] at hc
      subst hc
      cases hconn.symm.trans hconn'
      exact le_rfl
    | read => rw [hread] at hc; cases hc
    | write => rw [hwrite] at hc; cases hc
  | root he => cases he

end CustomRedis
