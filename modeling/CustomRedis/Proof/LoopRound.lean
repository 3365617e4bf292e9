import CustomRedis.Lib.Drain
import CustomRedis.Proof.Connections

/-!
# One round of the event loop

From one `poll` to the next. Every step between the two spends some of a finite amount of work, whatever the operating system
answers, so nothing a peer does can hold the loop. On the way each connection that was registered at the first `poll` is
looked at exactly once, and none can be passed over in favour of another one.
-/

namespace CustomRedis

open Run (run ok_of_bind Along)

variable {δ : Type}

/-! ### What is left of a round -/

/-- The sockets that are still to be looked at. -/
def Phase.pending : Phase → List ℕ
  | .sockets args | .read _ _ args | .write _ _ args | .close _ _ args => args.map Prod.fst
  | .poll | .timers _ _ => []

/-- An upper bound on the steps to the next `poll`, with `live` connections: four for each socket, one for each
connection that may be late, one for the end of each of the four loops. -/
def Phase.left (live : ℕ) : Phase → ℕ
  | .poll => 0
  | .sockets args => 4 * args.length + (live + 4)
  | .read _ _ args => 4 * args.length + 3 + (live + 4)
  | .write _ _ args => 4 * args.length + 2 + (live + 4)
  | .close _ _ args => 4 * args.length + 1 + (live + 4)
  | .timers _ .idle => live + 3
  | .timers _ .read => live + 2
  | .timers _ .write => live + 1

namespace Loop

def roundLeft (s : Loop δ) : ℕ := s.phase.left s.conns.live.card

end Loop

section Steps

variable {srv : Service δ} {clock : Nat → Nat} {s s' : Loop δ} {c : Ptr} {ans : Answer}

theorem readOutcome_live {res : ReadResult} (h : ReadOutcome srv clock s c res s') : s'.conns.live = s.conns.live := by
  cases h with
  | again => rfl
  | closed hconn _ => exact Mem.live_set hconn _
  | quiet hconn _ _ => exact Mem.live_set hconn _
  | replied hconn _ _ _ _ => exact Mem.live_set hconn _

theorem writeOutcome_live {res : WriteResult} (h : WriteOutcome clock s c res s') : s'.conns.live = s.conns.live := by
  cases h with
  | again => rfl
  | closed hconn _ _ => exact Mem.live_set hconn _
  | some hconn _ => exact Mem.live_set hconn _
  | all hconn _ _ _ _ => exact Mem.live_set hconn _

/-- A connection that is closed is one less. -/
theorem closed_live (h : Closed s c s') : s'.conns.live.card + 1 = s.conns.live.card ∧ s'.phase = s.phase := by
  cases h with
  | mk hconn _ =>
    refine ⟨?_, rfl⟩
    have hmem : c ∈ s.conns.live := Mem.mem_live.mpr (by rw [hconn]; rfl)
    show (s.conns.free c).live.card + 1 = _
    rw [Mem.live_free]
    exact Finset.card_erase_add_one hmem

/-- Between two calls of `poll` every step brings the next one nearer. -/
theorem transition_less (hinside : s.phase ≠ .poll) (h : Transition srv clock s ans s') : s'.roundLeft < s.roundLeft := by
  unfold Loop.roundLeft
  cases h with
  | stays hphase => exact absurd hphase hinside
  | polled hphase _ => exact absurd hphase hinside
  | accepted hphase _ _ _ => exact absurd hphase hinside
  | skipped hphase =>
    simp only [hphase, Phase.left, List.length_cons]
    omega
  | ready hphase _ _ hconn _ _ =>
    simp only [hphase, Phase.left, List.length_cons, Mem.live_set hconn]
    omega
  | read hphase _ ho =>
    simp only [hphase, Phase.left, readOutcome_live ho]
    omega
  | noRead hphase =>
    simp only [hphase, Phase.left]
    omega
  | write hphase _ ho =>
    simp only [hphase, Phase.left, writeOutcome_live ho]
    omega
  | noWrite hphase =>
    simp only [hphase, Phase.left]
    omega
  | close hphase _ _ hclosed =>
    have hless := (closed_live hclosed).1
    simp only [hphase, Phase.left]
    omega
  | keep hphase _ _ =>
    simp only [hphase, Phase.left]
    omega
  | timers hphase =>
    simp only [hphase, Phase.left]
    omega
  | @expired currMs list _ _ _ _ hphase _ _ _ _ _ hclosed =>
    obtain ⟨hless, hsame⟩ := closed_live hclosed
    rw [hsame, hphase]
    cases list with
    | idle => exact Nat.add_lt_add_right (by omega) 3
    | read => exact Nat.add_lt_add_right (by omega) 2
    | write => exact Nat.add_lt_add_right (by omega) 1
  | idleDone hphase _ =>
    simp only [hphase, Phase.left]
    omega
  | readDone hphase _ =>
    simp only [hphase, Phase.left]
    omega
  | writeDone hphase _ _ =>
    simp only [hphase, Phase.left]
    omega

end Steps

/-! ### What is looked at -/

/-- What a step looks at. -/
def Phase.looks : Phase → List ℕ
  | .sockets ((fd, _) :: _) => [fd]
  | _ => []

/-- The loop with the descriptors that it has looked at. -/
structure Scan (δ : Type) where
  loop : Loop δ
  looked : List ℕ := []

def scanStep (srv : Service δ) (clock : Nat → Nat) (t : Scan δ) (ans : Answer) : M (Scan δ) := do
  let s ← loopStep srv clock t.loop ans
  .ok ⟨s, t.looked ++ t.loop.phase.looks⟩

namespace Scan

/-- Still on the way to the next `poll`. -/
def Inside (t : Scan δ) : Prop := t.loop.phase ≠ .poll

instance (t : Scan δ) : Decidable t.Inside := inferInstanceAs (Decidable (_ ≠ _))

/-- The descriptors of this round, those behind and those in front. -/
def all (t : Scan δ) : List ℕ := t.looked ++ t.loop.phase.pending

end Scan

section Round

variable {srv : Service δ} {clock : Nat → Nat} {s s' : Loop δ} {ans : Answer}

/-- What a step looks at is taken off the front of what is pending. -/
theorem transition_pending (hinside : s.phase ≠ .poll) (h : Transition srv clock s ans s') :
    s.phase.looks ++ s'.phase.pending = s.phase.pending := by
  cases h with
  | stays hphase => exact absurd hphase hinside
  | polled hphase _ => exact absurd hphase hinside
  | accepted hphase _ _ _ => exact absurd hphase hinside
  | expired hphase _ _ _ _ _ hclosed =>
    rw [(closed_live hclosed).2, hphase]
    rfl
  | read hphase _ _ | write hphase _ _ | close hphase _ _ _ | keep hphase _ _ | skipped hphase | noRead hphase
  | noWrite hphase | timers hphase | idleDone hphase _ | readDone hphase _ | writeDone hphase _ _ =>
    rw [hphase]
    rfl
  | ready hphase _ _ _ _ _ =>
    rw [hphase]
    rfl

/-- With all connections registered there is one descriptor for each. -/
theorem length_pollArgs_le {args : List (Nat × UInt8)} (h : Registered s.fdToConn s.conns) (hargs : pollArgs s = .ok args) :
    args.length ≤ s.conns.live.card := by
  obtain ⟨hnodup, hmem⟩ := pollArgs_spec h hargs
  have hentry : ∀ fd ∈ (args.map Prod.fst).toFinset, ∃ c conn, s.fdToConn[fd]? = some (some c) ∧
      s.conns.read c = some conn ∧ conn.fd = fd := by
    intro fd hfd
    obtain ⟨⟨fd, events⟩, harg, rfl⟩ := List.mem_map.mp (List.mem_toFinset.mp hfd)
    obtain ⟨c, conn, hc, -⟩ := (hmem fd events).mp harg
    obtain ⟨conn, hconn, hconnfd⟩ := (h fd c).mp hc
    exact ⟨c, conn, hc, hconn, hconnfd⟩
  have hcard : (args.map Prod.fst).toFinset.card = args.length := by
    rw [List.toFinset_card_of_nodup hnodup, List.length_map]
  rw [← hcard]
  apply Finset.card_le_card_of_injOn fun fd => (s.fdToConn[fd]?.join).getD 0
  · intro fd hfd
    obtain ⟨c, conn, hc, hconn, -⟩ := hentry fd hfd
    simp only [hc, Option.join_some, Option.getD_some]
    exact Mem.mem_live.mpr (by rw [hconn]; rfl)
  · intro fd hfd fd' hfd' heq
    obtain ⟨c, conn, hc, hconn, rfl⟩ := hentry fd hfd
    obtain ⟨c', conn', hc', hconn', rfl⟩ := hentry fd' hfd'
    simp only [hc, hc', Option.join_some, Option.getD_some] at heq
    subst heq
    cases hconn.symm.trans hconn'
    rfl

/-- What the first step of a round leaves to do. -/
theorem transition_begins (hpoll : s.phase = .poll) (hleave : s'.phase ≠ .poll) (h : Transition srv clock s ans s') :
    ∃ args, pollArgs s = .ok args ∧ s'.phase = .sockets args ∧ s'.roundLeft ≤ 4 * args.length + (s.conns.live.card + 5) := by
  cases h with
  | stays hphase => exact absurd hphase hleave
  | @polled args _ hargs =>
    refine ⟨args, hargs, rfl, ?_⟩
    simp only [Loop.roundLeft, Phase.left]
    omega
  | @accepted args _ _ _ hargs _ _ =>
    refine ⟨args, hargs, rfl, ?_⟩
    have hcard := Finset.card_insert_le s.conns.next s.conns.live
    simp only [Loop.roundLeft, Phase.left, Mem.live_alloc]
    omega
  | expired hphase _ _ _ _ _ _ | read hphase _ _ | write hphase _ _ | close hphase _ _ _ | keep hphase _ _
  | skipped hphase | noRead hphase | noWrite hphase | timers hphase | idleDone hphase _ | readDone hphase _
  | writeDone hphase _ _ | ready hphase _ _ _ _ _ => cases hpoll.symm.trans hphase

/-- A step on the way to the next `poll` leaves less to do, and what it looks at was pending. -/
theorem scanStep_inside {t t' : Scan δ} (hinside : t.Inside) (hstep : scanStep srv clock t ans = .ok t') :
    t'.loop.roundLeft < t.loop.roundLeft ∧ t'.all = t.all := by
  obtain ⟨s', hnext, hret⟩ := ok_of_bind hstep
  cases hret
  have htransition := loopStep_transition hnext
  refine ⟨transition_less hinside htransition, ?_⟩
  rw [Scan.all, Scan.all, List.append_assoc, transition_pending hinside htransition]

/-- The same for a whole round. -/
theorem scanStep_round {t t' : Scan δ} {round : List Answer} (hinside : Along (scanStep srv clock) (fun t _ => t.Inside) t round)
    (hround : run (scanStep srv clock) t round = .ok t') :
    round.length + t'.loop.roundLeft ≤ t.loop.roundLeft ∧ t'.all = t.all := by
  have hless (u : Scan δ) (e : Answer) (v : Scan δ) (hu : u.Inside) (hstep : scanStep srv clock u e = .ok v) :
      v.loop.roundLeft < u.loop.roundLeft :=
    (scanStep_inside hu hstep).1
  refine ⟨Drain.length_run_le hless hinside hround, ?_⟩
  apply Run.invariant_along (I := fun u => u.all = t.all) _ rfl hinside hround
  intro u e v hu hin hstep
  rw [(scanStep_inside hin hstep).2, hu]

end Round

/-- However the operating system answers, a round takes at most five steps for each connection and five more, and it looks
at every connection that is registered at its beginning exactly once. -/
theorem loop_round_looks_once (envs : Nat → Env) (clock : Nat → Nat) (answers : List Answer) (s s₁ : Loop (GlobalData × Nat))
    (hfresh : Along (loopStep (redisService envs) clock) FreshFd (Loop.init ({}, 0)) answers)
    (hrun : run (loopStep (redisService envs) clock) (Loop.init ({}, 0)) answers = .ok s) (hpoll : s.phase = .poll)
    (ans : Answer) (hfirst : loopStep (redisService envs) clock s ans = .ok s₁) (hleave : s₁.phase ≠ .poll)
    (round : List Answer) (t : Scan (GlobalData × Nat))
    (hinside : Along (scanStep (redisService envs) clock) (fun t _ => t.Inside) ⟨s₁, []⟩ round)
    (hround : run (scanStep (redisService envs) clock) ⟨s₁, []⟩ round = .ok t) :
    round.length + t.loop.roundLeft ≤ 5 * s.conns.live.card + 5 ∧
      (t.looked ++ t.loop.phase.pending).Nodup ∧
      ∀ fd, fd ∈ t.looked ++ t.loop.phase.pending ↔ ∃ c, s.fdToConn[fd]? = some (some c) := by
  have hempty : ({} : GlobalData).WF ∧ ({} : GlobalData).Shaped := ⟨GlobalData.WF.empty, nofun⟩
  have htable := (run_served (redisService_sound envs) hempty hfresh hrun).table
  obtain ⟨args, hargs, hsockets, hbegins⟩ := transition_begins hpoll hleave (loopStep_transition hfirst)
  have hlive := length_pollArgs_le htable hargs
  obtain ⟨hnodup, hmem⟩ := pollArgs_spec htable hargs
  obtain ⟨hless, hall⟩ := scanStep_round hinside hround
  have hbound : round.length + t.loop.roundLeft ≤ s₁.roundLeft := hless
  have heq : t.looked ++ t.loop.phase.pending = args.map Prod.fst := by
    rw [← Scan.all, hall, Scan.all, hsockets]
    rfl
  rw [heq]
  refine ⟨by omega, hnodup, fun fd => ?_⟩
  constructor
  · intro hfd
    obtain ⟨⟨fd, events⟩, harg, rfl⟩ := List.mem_map.mp hfd
    obtain ⟨c, -, hc, -⟩ := (hmem fd events).mp harg
    exact ⟨c, hc⟩
  · rintro ⟨c, hc⟩
    obtain ⟨conn, hconn, -⟩ := (htable fd c).mp hc
    exact List.mem_map_of_mem (f := Prod.fst) ((hmem fd (pollEvents conn)).mpr ⟨c, conn, hc, hconn, rfl⟩)

/-- One connection that sends nothing: eight more steps to the next `poll`. -/
theorem loop_round_looks_once_idle :
    ∃ (s s₁ : Loop (GlobalData × Nat)) (t : Scan (GlobalData × Nat)),
      run (loopStep (redisService fun _ => {}) id) (Loop.init ({}, 0)) (connecting 4) = .ok s ∧
      loopStep (redisService fun _ => {}) id s {} = .ok s₁ ∧
      run (scanStep (redisService fun _ => {}) id) ⟨s₁, []⟩ (List.replicate 8 { revents := pollIn }) = .ok t ∧
      t.loop.phase = .poll ∧ (∀ fd, fd ∈ t.looked ↔ ∃ c, s.fdToConn[fd]? = some (some c)) ∧ 3 ≤ 5 * s.conns.live.card := by
  have hcheck : Run.check (run (loopStep (redisService fun _ => {}) id) (Loop.init ({}, 0)) (connecting 4)) (fun s =>
      s.phase = .poll ∧ Run.check (loopStep (redisService fun _ => {}) id s {}) (fun s₁ => s₁.phase ≠ .poll ∧
        Along (scanStep (redisService fun _ => {}) id) (fun t _ => t.Inside) ⟨s₁, []⟩
          (List.replicate 8 { revents := pollIn }) ∧
        Run.check (run (scanStep (redisService fun _ => {}) id) ⟨s₁, []⟩ (List.replicate 8 { revents := pollIn })) (fun t =>
          t.loop.phase = .poll) = true) = true) = true := by
    decide +kernel
  obtain ⟨s, hrun, hs⟩ := Run.exists_ok_of_check hcheck
  obtain ⟨hpoll, hs⟩ := of_decide_eq_true hs
  obtain ⟨s₁, hfirst, hs₁⟩ := Run.exists_ok_of_check hs
  obtain ⟨hleave, hinside, ht⟩ := of_decide_eq_true hs₁
  obtain ⟨t, hround, hend⟩ := Run.exists_ok_of_check ht
  have hend : t.loop.phase = .poll := of_decide_eq_true hend
  obtain ⟨hsteps, -, hlooked⟩ := loop_round_looks_once _ _ (connecting 4) s s₁ (by decide +kernel) hrun hpoll {} hfirst hleave _
    t hinside hround
  rw [hend, Phase.pending] at hlooked
  rw [List.length_replicate] at hsteps
  exact ⟨s, s₁, t, hrun, hfirst, hround, hend, by simpa using hlooked, by omega⟩

end CustomRedis
