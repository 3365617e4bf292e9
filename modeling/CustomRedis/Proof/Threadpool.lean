import CustomRedis.Model.Threadpool
import Mathlib.Data.Multiset.Basic
import Mathlib.Data.List.Range
import Mathlib.Logic.Relation
import Mathlib.Tactic

/-!
# No work is lost, taken twice or slept over

Two facts carry all of it. The takes followed by the queue are the pushes, in order. And a worker that is
about to fall asleep still holds the mutex under which it found the queue empty, so nothing can have been
pushed: whoever sleeps while there is work was asleep before that work was pushed, and a signal followed.
-/

namespace CustomRedis

open Relation

namespace ThreadPool

variable {W P ι : Type}

/-- A worker between taking the mutex and giving it up. -/
def Inside : WorkerAt ι → Prop
  | .test | .wait | .unlock _ => True
  | .lock | .asleep | .woken | .run _ => False

/-- A caller between taking the mutex and giving it up. -/
def Producing : ProducerAt ι → Prop
  | .push _ | .unlock => True
  | .idle | .lock _ => False

structure Sound (s : ThreadPool W P ι) : Prop where
  log : s.taken.map Prod.snd ++ s.queue = s.produced
  tickets : s.produced.map ThreadPoolWork.ticket = List.range s.produced.length
  worker_holds : ∀ w, Inside (s.worker w) → s.mutex = some (.inl w)
  producer_holds : ∀ p, Producing (s.producer p) → s.mutex = some (.inr p)
  /-- the test of a worker that is about to sleep still holds -/
  waits : ∀ w, s.worker w = .wait → s.queue = []
  awake : s.queue ≠ [] → ∃ w, s.worker w ≠ .asleep

theorem Sound.start : ({} : ThreadPool W P ι).Sound where
  log := rfl
  tickets := rfl
  worker_holds _ h := h.elim
  producer_holds _ h := h.elim
  waits _ h := nomatch h
  awake h := absurd rfl h

/-! ### Who holds the mutex -/

theorem Sound.nobody_inside {s : ThreadPool W P ι} (h : s.Sound) (hfree : s.mutex = none) :
    (∀ w, ¬Inside (s.worker w)) ∧ ∀ p, ¬Producing (s.producer p) := by
  constructor
  · intro w hw
    exact nomatch hfree.symm.trans (h.worker_holds w hw)
  · intro p hp
    exact nomatch hfree.symm.trans (h.producer_holds p hp)

theorem Sound.only_worker {s : ThreadPool W P ι} (h : s.Sound) {w : W} (hw : Inside (s.worker w)) :
    (∀ w', w' ≠ w → ¬Inside (s.worker w')) ∧ ∀ p, ¬Producing (s.producer p) := by
  have hheld := h.worker_holds w hw
  constructor
  · intro w' hne hw'
    have heq := hheld.symm.trans (h.worker_holds w' hw')
    exact hne (Sum.inl.inj (Option.some.inj heq)).symm
  · intro p hp
    exact nomatch Option.some.inj (hheld.symm.trans (h.producer_holds p hp))

theorem Sound.only_producer {s : ThreadPool W P ι} (h : s.Sound) {p : P} (hp : Producing (s.producer p)) :
    (∀ w, ¬Inside (s.worker w)) ∧ ∀ p', p' ≠ p → ¬Producing (s.producer p') := by
  have hheld := h.producer_holds p hp
  constructor
  · intro w hw
    exact nomatch Option.some.inj (hheld.symm.trans (h.worker_holds w hw))
  · intro p' hne hp'
    have heq := hheld.symm.trans (h.producer_holds p' hp')
    exact hne (Sum.inr.inj (Option.some.inj heq)).symm

/-! ### Steps that leave the queue alone -/

/-- A worker moves on, possibly with the mutex changing hands. -/
theorem Sound.moved [DecidableEq W] {s : ThreadPool W P ι} (h : s.Sound) {w : W} {pc : WorkerAt ι}
    {mutex : Option (W ⊕ P)}
    (hpc : Inside pc → mutex = some (.inl w))
    (hworkers : ∀ w', w' ≠ w → Inside (s.worker w') → mutex = some (.inl w'))
    (hproducers : ∀ p, Producing (s.producer p) → mutex = some (.inr p))
    (hempty : pc = .wait ∨ pc = .asleep → s.queue = []) :
    ({ s with mutex := mutex, worker := Function.update s.worker w pc } : ThreadPool W P ι).Sound where
  log := h.log
  tickets := h.tickets
  worker_holds w' hin := by
    by_cases hw : w' = w
    · subst hw
      simp only [Function.update_self] at hin
      exact hpc hin
    · simp only [Function.update_of_ne hw] at hin
      exact hworkers w' hw hin
  producer_holds := hproducers
  waits w' hwait := by
    by_cases hw : w' = w
    · subst hw
      simp only [Function.update_self] at hwait
      exact hempty (.inl hwait)
    · simp only [Function.update_of_ne hw] at hwait
      exact h.waits w' hwait
  awake hne := by
    refine ⟨w, ?_⟩
    simp only [Function.update_self]
    exact fun hasleep => hne (hempty (.inr hasleep))

/-- A caller moves on, possibly with the mutex changing hands. -/
theorem Sound.calls [DecidableEq P] {s : ThreadPool W P ι} (h : s.Sound) {p : P} {pc : ProducerAt ι}
    {mutex : Option (W ⊕ P)}
    (hpc : Producing pc → mutex = some (.inr p)) (hworkers : ∀ w, Inside (s.worker w) → mutex = some (.inl w))
    (hproducers : ∀ p', p' ≠ p → Producing (s.producer p') → mutex = some (.inr p')) :
    (s.moveP p mutex pc).Sound where
  log := h.log
  tickets := h.tickets
  worker_holds := hworkers
  producer_holds p' hin := by
    by_cases hp : p' = p
    · subst hp
      simp only [moveP, Function.update_self] at hin
      exact hpc hin
    · simp only [moveP, Function.update_of_ne hp] at hin
      exact hproducers p' hp hin
  waits := h.waits
  awake := h.awake

theorem Sound.acquire [DecidableEq W] {s : ThreadPool W P ι} (h : s.Sound) (hfree : s.mutex = none) (w : W) :
    (s.acquireW w).Sound := by
  obtain ⟨hw, hp⟩ := h.nobody_inside hfree
  apply h.moved (fun _ => rfl) (fun w' _ hin => absurd hin (hw w')) (fun p hin => absurd hin (hp p))
  simp

theorem Sound.release [DecidableEq W] {s : ThreadPool W P ι} (h : s.Sound) {w : W} (hin : Inside (s.worker w))
    {pc : WorkerAt ι} (hpc : ¬Inside pc) (hempty : pc = .wait ∨ pc = .asleep → s.queue = []) :
    (s.releaseW w pc).Sound := by
  obtain ⟨hw, hp⟩ := h.only_worker hin
  exact h.moved (fun hin' => absurd hin' hpc) (fun w' hne hin' => absurd hin' (hw w' hne))
    (fun p hin' => absurd hin' (hp p)) hempty

/-! ### The queue -/

theorem Sound.taking [DecidableEq W] {s : ThreadPool W P ι} (h : s.Sound) {w : W} {work : ThreadPoolWork ι}
    {rest : List (ThreadPoolWork ι)} (hpc : s.worker w = .test) (hqueue : s.queue = work :: rest) :
    (s.take w work rest).Sound := by
  have hin : Inside (s.worker w) := by rw [hpc]; trivial
  have hmoved : (s.moveW w (.unlock work)).Sound :=
    h.moved (fun _ => h.worker_holds w hin) (fun w' _ => h.worker_holds w') h.producer_holds (by simp)
  refine ⟨?_, h.tickets, hmoved.worker_holds, hmoved.producer_holds, fun w' hwait => ?_, fun _ => ?_⟩
  · have hlog := h.log
    rw [hqueue] at hlog
    simpa [ThreadPool.take] using hlog
  · -- a worker about to sleep would have found the queue empty
    have hnil : s.queue = [] := hmoved.waits w' hwait
    rw [hqueue] at hnil
    cases hnil
  · exact ⟨w, by simp [ThreadPool.take]⟩

theorem Sound.producing [DecidableEq W] [DecidableEq P] [Nonempty W] {s : ThreadPool W P ι} (h : s.Sound) {p : P}
    {item : ι} {awake : List W} (hpc : s.producer p = .push item) (hasleep : ∀ w ∈ awake, s.worker w = .asleep)
    (hone : (∃ w, s.worker w = .asleep) → awake ≠ []) : (s.pushSignal p item awake).Sound := by
  have hin : Producing (s.producer p) := by rw [hpc]; trivial
  obtain ⟨hw, -⟩ := h.only_producer hin
  have hcalls : (s.moveP p s.mutex .unlock).Sound :=
    h.calls (fun _ => h.producer_holds p hin) h.worker_holds fun p' _ => h.producer_holds p'
  refine ⟨?_, ?_, fun w hin' => ?_, hcalls.producer_holds, fun w hwait => ?_, fun _ => ?_⟩
  · rw [ThreadPool.pushSignal, ← List.append_assoc, h.log]
  · simp [ThreadPool.pushSignal, h.tickets, List.range_succ]
  · by_cases hmem : w ∈ awake
    · simp [ThreadPool.pushSignal, hmem, Inside] at hin'
    · simp only [ThreadPool.pushSignal, hmem, if_false] at hin'
      exact h.worker_holds w hin'
  · -- nobody is about to sleep: the caller holds the mutex
    by_cases hmem : w ∈ awake
    · simp [ThreadPool.pushSignal, hmem] at hwait
    · simp only [ThreadPool.pushSignal, hmem, if_false] at hwait
      refine absurd ?_ (hw w)
      rw [hwait]
      trivial
  · by_cases hall : ∃ w, s.worker w = .asleep
    · obtain ⟨w, hmem⟩ := List.exists_mem_of_ne_nil awake (hone hall)
      exact ⟨w, by simp [ThreadPool.pushSignal, hmem]⟩
    · have hany := not_exists.mp hall
      refine ⟨Classical.arbitrary W, ?_⟩
      have hnot : Classical.arbitrary W ∉ awake := fun hmem => hany _ (hasleep _ hmem)
      simp [ThreadPool.pushSignal, hnot, hany]

/-! ### Runs -/

theorem Sound.step [DecidableEq W] [DecidableEq P] [Nonempty W] {s s' : ThreadPool W P ι} (h : s.Sound)
    (hstep : Step s s') : s'.Sound := by
  cases hstep with
  | lock pc free => exact h.acquire free _
  | empty pc nothing =>
    rename_i w
    have hin : Inside (s.worker w) := by rw [pc]; trivial
    exact h.moved (fun _ => h.worker_holds w hin) (fun w' _ => h.worker_holds w') h.producer_holds fun _ => nothing
  | wait pc =>
    rename_i w
    exact h.release (by rw [pc]; trivial) (by simp [Inside]) fun _ => h.waits w pc
  | spurious pc =>
    exact h.moved (by simp [Inside]) (fun w' _ => h.worker_holds w') h.producer_holds (by simp)
  | reacquire pc free => exact h.acquire free _
  | take pc first => exact h.taking pc first
  | unlock pc => exact h.release (by rw [pc]; trivial) (by simp [Inside]) (by simp)
  | finish pc => exact h.moved (by simp [Inside]) (fun w' _ => h.worker_holds w') h.producer_holds (by simp)
  | call item pc =>
    exact h.calls (by simp [Producing]) h.worker_holds fun p' _ => h.producer_holds p'
  | produceLock pc free =>
    obtain ⟨hw, hp⟩ := h.nobody_inside free
    exact h.calls (fun _ => rfl) (fun w hin => absurd hin (hw w)) fun p' _ hin => absurd hin (hp p')
  | produce awake pc asleep one => exact h.producing pc asleep one
  | produceUnlock pc =>
    obtain ⟨hw, hp⟩ := h.only_producer (by rw [pc]; trivial)
    exact h.calls (by simp [Producing]) (fun w hin => absurd hin (hw w)) fun p' hne hin => absurd hin (hp p' hne)

end ThreadPool

/-- The only worker has gone to sleep on the empty queue, and a call pushes one item and wakes it. -/
def wokenPool : ThreadPool Unit Unit Nat :=
  let asleep := ((({} : ThreadPool Unit Unit Nat).acquireW ()).moveW () .wait).releaseW () .asleep
  let calling := (asleep.moveP () none (.lock 7)).moveP () (some (.inr ())) (.push 7)
  calling.pushSignal () 7 [()]

end CustomRedis
