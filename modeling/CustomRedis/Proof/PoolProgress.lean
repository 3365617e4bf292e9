import CustomRedis.Lib.Drain
import CustomRedis.Proof.Threadpool
import Mathlib.Algebra.BigOperators.Group.Finset.Basic
import Mathlib.Algebra.Order.BigOperators.Group.Finset
import Mathlib.Data.Fintype.Card
import Mathlib.Tactic

/-!
# The pool empties its queue and falls asleep

Two kinds of step come from outside: a call of `threadpool_produce`, and a wake-up without a reason. Between them
the threads of the pool cannot go on for ever and cannot block each other. Every other step spends some of a
finite amount of work, and when none is left the queue is empty, whatever was pushed has been run, and every
worker sleeps.
-/

namespace CustomRedis

open Relation

variable {W P ι : Type}

/-- The steps a worker takes until it sleeps, if it finds the queue empty. -/
def WorkerAt.left : WorkerAt ι → ℕ
  | .asleep => 0
  | .wait => 1
  | .test => 2
  | .lock | .woken => 3
  | .run _ => 4
  | .unlock _ => 5

/-- The steps a caller takes until it returns, with those its push and its signal may cause. -/
def ProducerAt.left (workers : ℕ) : ProducerAt ι → ℕ
  | .idle => 0
  | .unlock => 1
  | .push _ => 6 + 3 * workers
  | .lock _ => 7 + 3 * workers

namespace ThreadPool

/-- The mutex is held by a thread that will give it up. -/
structure Held (s : ThreadPool W P ι) : Prop where
  worker : ∀ w, s.mutex = some (.inl w) → Inside (s.worker w)
  producer : ∀ p, s.mutex = some (.inr p) → Producing (s.producer p)

theorem Held.start : ({} : ThreadPool W P ι).Held where
  worker _ h := nomatch h
  producer _ h := nomatch h

/-- A worker that does not hold the mutex moves on without taking it. -/
theorem Held.moved [DecidableEq W] {s : ThreadPool W P ι} (h : s.Held) {w : W} {pc : WorkerAt ι}
    (hw : ¬Inside (s.worker w) ∨ Inside pc) : (s.moveW w pc).Held where
  worker w' hheld := by
    have hin : Inside (s.worker w') := h.worker w' hheld
    by_cases heq : w' = w
    · subst heq
      simpa [moveW] using hw.resolve_left (not_not_intro hin)
    · simpa [moveW, heq] using hin
  producer := h.producer

theorem Held.acquired [DecidableEq W] {s : ThreadPool W P ι} (w : W) : (s.acquireW w).Held where
  worker w' hheld := by
    have heq : w = w' := Sum.inl.inj (Option.some.inj hheld)
    simp [acquireW, ← heq, Inside]
  producer p hheld := nomatch Option.some.inj hheld

theorem Held.released [DecidableEq W] {s : ThreadPool W P ι} (w : W) (pc : WorkerAt ι) : (s.releaseW w pc).Held where
  worker _ hheld := nomatch hheld
  producer _ hheld := nomatch hheld

theorem Held.step [DecidableEq W] [DecidableEq P] {s s' : ThreadPool W P ι} (h : s.Held) (hstep : Step s s') : s'.Held := by
  cases hstep with
  | lock => exact .acquired _
  | empty => exact h.moved (.inr trivial)
  | wait => exact .released _ _
  | spurious pc => exact h.moved (.inl (by simp [pc, Inside]))
  | reacquire => exact .acquired _
  | @take w work rest pc =>
    have hmoved : (s.moveW w (.unlock work)).Held := h.moved (.inr trivial)
    exact ⟨hmoved.worker, hmoved.producer⟩
  | unlock => exact .released _ _
  | finish pc => exact h.moved (.inl (by simp [pc, Inside]))
  | @call p item pc =>
    refine ⟨h.worker, fun p' hheld => ?_⟩
    have hin : Producing (s.producer p') := h.producer p' hheld
    have hne : p' ≠ p := by
      rintro rfl
      simp [pc, Producing] at hin
    simpa [moveP, hne] using hin
  | @produceLock p item =>
    refine ⟨fun w hheld => absurd (Option.some.inj hheld) Sum.inr_ne_inl, fun p' hheld => ?_⟩
    have heq : p = p' := Sum.inr.inj (Option.some.inj hheld)
    simp [moveP, ← heq, Producing]
  | @produce p item awake pc asleep =>
    constructor
    · intro w hheld
      have hin : Inside (s.worker w) := h.worker w hheld
      have hawake : w ∉ awake := fun hmem => by simp [asleep w hmem, Inside] at hin
      simpa [pushSignal, hawake] using hin
    · intro p' hheld
      have hin : Producing (s.producer p') := h.producer p' hheld
      by_cases heq : p' = p
      · simp [pushSignal, heq, Producing]
      · simpa [pushSignal, heq] using hin
  | produceUnlock =>
    exact ⟨fun _ hheld => absurd hheld.symm (Option.some_ne_none _), fun _ hheld => absurd hheld.symm (Option.some_ne_none _)⟩

/-! ### What is left to do -/

/-- An upper bound on the steps of all threads until the pool is at rest: each queued item costs one more round. -/
def work [Fintype W] [Fintype P] (s : ThreadPool W P ι) : ℕ :=
  ∑ w, (s.worker w).left + 4 * s.queue.length + ∑ p, (s.producer p).left (Fintype.card W)

theorem sum_update [Fintype W] [DecidableEq W] {α : Type} (f : W → α) (cost : α → ℕ) (w : W) (a : α) :
    ∑ v, cost (Function.update f w a v) + cost (f w) = ∑ v, cost (f v) + cost a := by
  rw [← Finset.add_sum_erase _ _ (Finset.mem_univ w), ← Finset.add_sum_erase _ (fun v => cost (f v)) (Finset.mem_univ w)]
  have hrest : ∑ v ∈ Finset.univ.erase w, cost (Function.update f w a v) = ∑ v ∈ Finset.univ.erase w, cost (f v) := by
    apply Finset.sum_congr rfl
    intro v hv
    rw [Function.update_of_ne (Finset.ne_of_mem_erase hv)]
  rw [hrest, Function.update_self]
  omega

/-- A signal costs at most one round of the test for each worker. -/
theorem sum_awake [Fintype W] [DecidableEq W] (s : ThreadPool W P ι) (awake : List W) :
    ∑ w, (if w ∈ awake then WorkerAt.woken else s.worker w).left ≤ ∑ w, (s.worker w).left + 3 * Fintype.card W := by
  calc ∑ w, (if w ∈ awake then WorkerAt.woken else s.worker w).left
      ≤ ∑ w, ((s.worker w).left + 3) := by
        apply Finset.sum_le_sum
        intro w _
        by_cases hmem : w ∈ awake
        · simp [hmem, WorkerAt.left]
        · simp [hmem]
    _ = ∑ w, (s.worker w).left + 3 * Fintype.card W := by
        rw [Finset.sum_add_distrib, Finset.sum_const, Finset.card_univ, smul_eq_mul, mul_comm]

variable [DecidableEq W] [DecidableEq P]

/-- What comes from outside. -/
inductive Outside : ThreadPool W P ι → ThreadPool W P ι → Prop
  | spurious {s : ThreadPool W P ι} {w : W} (pc : s.worker w = .asleep) : Outside s (s.moveW w .woken)
  | call {s : ThreadPool W P ι} {p : P} (item : ι) (pc : s.producer p = .idle) :
    Outside s (s.moveP p s.mutex (.lock item))

/-- A step that the threads of the pool take by themselves. -/
def Internal (s s' : ThreadPool W P ι) : Prop := Step s s' ∧ ¬Outside s s'

section

variable [Fintype W] [Fintype P]

omit [DecidableEq P] in
theorem moveW_less (s : ThreadPool W P ι) {w : W} {pc : WorkerAt ι} (mutex : Option (W ⊕ P))
    (hless : pc.left < (s.worker w).left) :
    ({ s with mutex := mutex, worker := Function.update s.worker w pc } : ThreadPool W P ι).work < s.work := by
  have hsum := sum_update s.worker WorkerAt.left w pc
  simp only [work]
  omega

omit [DecidableEq W] in
theorem moveP_less (s : ThreadPool W P ι) {p : P} {pc : ProducerAt ι} (mutex : Option (W ⊕ P))
    (hless : pc.left (Fintype.card W) < (s.producer p).left (Fintype.card W)) :
    (s.moveP p mutex pc).work < s.work := by
  have hsum := sum_update s.producer (ProducerAt.left (Fintype.card W)) p pc
  simp only [work, moveP]
  omega

omit [DecidableEq P] in
theorem take_less (s : ThreadPool W P ι) {w : W} {first : ThreadPoolWork ι} {rest : List (ThreadPoolWork ι)}
    (hpc : s.worker w = .test) (hqueue : s.queue = first :: rest) : (s.take w first rest).work < s.work := by
  have hsum := sum_update s.worker WorkerAt.left w (.unlock first)
  have hlength : s.queue.length = rest.length + 1 := by rw [hqueue, List.length_cons]
  rw [hpc] at hsum
  change _ + 2 = _ + 5 at hsum
  simp only [work, take]
  omega

theorem pushSignal_less (s : ThreadPool W P ι) {p : P} {item : ι} (awake : List W)
    (hpc : s.producer p = .push item) : (s.pushSignal p item awake).work < s.work := by
  have hsum := sum_update s.producer (ProducerAt.left (Fintype.card W)) p .unlock
  have hawake := s.sum_awake awake
  rw [hpc] at hsum
  change _ + (6 + 3 * Fintype.card W) = _ + 1 at hsum
  simp only [work, pushSignal, List.length_append, List.length_singleton]
  omega

theorem Internal.less {s s' : ThreadPool W P ι} (h : Internal s s') : s'.work < s.work := by
  obtain ⟨hstep, hinternal⟩ := h
  cases hstep with
  | lock pc => exact s.moveW_less _ (by simp [pc, WorkerAt.left])
  | empty pc => exact s.moveW_less _ (by simp [pc, WorkerAt.left])
  | wait pc => exact s.moveW_less _ (by simp [pc, WorkerAt.left])
  | spurious pc => exact absurd (.spurious pc) hinternal
  | reacquire pc => exact s.moveW_less _ (by simp [pc, WorkerAt.left])
  | take pc first => exact s.take_less pc first
  | unlock pc => exact s.moveW_less _ (by simp [pc, WorkerAt.left])
  | finish pc => exact s.moveW_less _ (by simp [pc, WorkerAt.left])
  | call item pc => exact absurd (.call item pc) hinternal
  | produceLock pc =>
    apply s.moveP_less
    simp only [pc, ProducerAt.left]
    omega
  | produce awake pc => exact s.pushSignal_less awake pc
  | produceUnlock pc => exact s.moveP_less _ (by simp [pc, ProducerAt.left])

end

/-! ### At rest -/

/-- Nothing is queued, nobody is under way, and the takes are the pushes. -/
structure AtRest (s : ThreadPool W P ι) : Prop where
  queue : s.queue = []
  taken : s.taken.map Prod.snd = s.produced
  mutex : s.mutex = none
  workers : ∀ w, s.worker w = .asleep
  producers : ∀ p, s.producer p = .idle

/-- A thread that is under way and moves is not moved from outside. -/
theorem Step.internal {s s' : ThreadPool W P ι} (h : Step s s')
    (hmoves : (∃ w, s.worker w ≠ .asleep ∧ s'.worker w ≠ s.worker w) ∨
      ∃ p, s.producer p ≠ .idle ∧ s'.producer p ≠ s.producer p) : Internal s s' := by
  refine ⟨h, fun houtside => ?_⟩
  obtain ⟨w, hw, hne⟩ | ⟨p, hp, hne⟩ := hmoves
  · cases houtside with
    | @spurious v pc =>
      have hvw : w ≠ v := fun heq => hw (heq ▸ pc)
      simp [moveW, hvw] at hne
    | call => exact hne rfl
  · cases houtside with
    | spurious => exact hne rfl
    | @call q item pc =>
      have hqp : p ≠ q := fun heq => hp (heq ▸ pc)
      simp [moveP, hqp] at hne

/-- A worker that has the mutex is not stopped by anything. -/
theorem exists_internal_of_inside {s : ThreadPool W P ι} {w : W} (h : Inside (s.worker w)) :
    ∃ s', Internal s s' := by
  cases hpc : s.worker w with
  | test =>
    cases hqueue : s.queue with
    | nil => exact ⟨_, (Step.empty hpc hqueue).internal (.inl ⟨w, by simp [hpc, moveW]⟩)⟩
    | cons first rest => exact ⟨_, (Step.take hpc hqueue).internal (.inl ⟨w, by simp [hpc, take]⟩)⟩
  | wait => exact ⟨_, (Step.wait hpc).internal (.inl ⟨w, by simp [hpc, releaseW]⟩)⟩
  | unlock work => exact ⟨_, (Step.unlock hpc).internal (.inl ⟨w, by simp [hpc, releaseW]⟩)⟩
  | lock | asleep | woken | run => simp [hpc, Inside] at h

/-- A caller that has the mutex signals and gives it back. -/
theorem exists_internal_of_producing {s : ThreadPool W P ι} {p : P} (h : Producing (s.producer p)) :
    ∃ s', Internal s s' := by
  cases hpc : s.producer p with
  | push item =>
    -- whom the signal wakes is up to the scheduler
    by_cases hany : ∃ w, s.worker w = .asleep
    · obtain ⟨w, hw⟩ := hany
      have hstep : Step s (s.pushSignal p item [w]) := .produce [w] hpc (by simpa using hw) (by simp)
      exact ⟨_, hstep.internal (.inr ⟨p, by simp [hpc, pushSignal]⟩)⟩
    · have hstep : Step s (s.pushSignal p item []) := .produce [] hpc (by simp) fun h => absurd h hany
      exact ⟨_, hstep.internal (.inr ⟨p, by simp [hpc, pushSignal]⟩)⟩
  | unlock => exact ⟨_, (Step.produceUnlock hpc).internal (.inr ⟨p, by simp [hpc, moveP]⟩)⟩
  | idle | lock => simp [hpc, Producing] at h

/-- Nobody is stuck: a pool without an internal step is at rest. -/
theorem Sound.at_rest {s : ThreadPool W P ι} (h : s.Sound) (hheld : s.Held) (hrest : ∀ s', ¬Internal s s') :
    s.AtRest := by
  have hstuck : ¬∃ s', Internal s s' := not_exists.mpr hrest
  have hfree : s.mutex = none := by
    cases hmutex : s.mutex with
    | none => rfl
    | some holder =>
      cases holder with
      | inl w => exact absurd (exists_internal_of_inside (hheld.worker w hmutex)) hstuck
      | inr p => exact absurd (exists_internal_of_producing (hheld.producer p hmutex)) hstuck
  have hworkers : ∀ w, s.worker w = .asleep := by
    intro w
    cases hpc : s.worker w with
    | asleep => rfl
    | lock => exact absurd ((Step.lock hpc hfree).internal (.inl ⟨w, by simp [hpc, acquireW]⟩)) (hrest _)
    | woken => exact absurd ((Step.reacquire hpc hfree).internal (.inl ⟨w, by simp [hpc, acquireW]⟩)) (hrest _)
    | run work => exact absurd ((Step.finish hpc).internal (.inl ⟨w, by simp [hpc, moveW]⟩)) (hrest _)
    | test | wait | unlock =>
      exact absurd (exists_internal_of_inside (w := w) (by simp [hpc, Inside])) hstuck
  have hproducers : ∀ p, s.producer p = .idle := by
    intro p
    cases hpc : s.producer p with
    | idle => rfl
    | lock item => exact absurd ((Step.produceLock hpc hfree).internal (.inr ⟨p, by simp [hpc, moveP]⟩)) (hrest _)
    | push | unlock =>
      exact absurd (exists_internal_of_producing (p := p) (by simp [hpc, Producing])) hstuck
  have hqueue : s.queue = [] := by
    by_contra hne
    obtain ⟨w, hw⟩ := h.awake hne
    exact hw (hworkers w)
  refine ⟨hqueue, ?_, hfree, hworkers, hproducers⟩
  rw [← h.log, hqueue, List.append_nil]

theorem drains [Nonempty W] [Fintype W] [Fintype P] :
    Drain.Drains (@Internal W P ι _ _) (fun s => s.Sound ∧ s.Held) work where
  keeps hinv hstep := ⟨hinv.1.step hstep.1, hinv.2.step hstep.1⟩
  drops _ hstep := hstep.less

theorem good_of_reachable [Nonempty W] {s : ThreadPool W P ι} (h : ReflTransGen Step {} s) : s.Sound ∧ s.Held := by
  induction h with
  | refl => exact ⟨.start, .start⟩
  | tail _ hstep ih => exact ⟨ih.1.step hstep, ih.2.step hstep⟩

end ThreadPool

/-- From every reachable pool, and in every order of the steps that follow: without a new call or a wake-up from
outside the threads stop after at most `work` steps, they stop nowhere but at rest, and there is a way to rest. -/
theorem threadpool_comes_to_rest {W P ι : Type} [DecidableEq W] [DecidableEq P] [Fintype W] [Fintype P] [Nonempty W]
    {s : ThreadPool W P ι} (h : ReflTransGen ThreadPool.Step {} s) :
    (∀ n s', Drain.Steps ThreadPool.Internal n s s' →
        n ≤ s.work ∧ ((∀ t, ¬ThreadPool.Internal s' t) → s'.AtRest)) ∧
      ∃ n s', Drain.Steps ThreadPool.Internal n s s' ∧ s'.AtRest := by
  have hgood := ThreadPool.good_of_reachable h
  constructor
  · intro n s' hrun
    obtain ⟨⟨hsound, hheld⟩, hwork⟩ := ThreadPool.drains.run hgood hrun
    exact ⟨by omega, hsound.at_rest hheld⟩
  · obtain ⟨n, s', hrun, hstop⟩ := ThreadPool.drains.comes_to_rest hgood
    obtain ⟨hsound, hheld⟩ := (ThreadPool.drains.run hgood hrun).1
    exact ⟨n, s', hrun, hsound.at_rest hheld hstop⟩

/-- The sleeping worker that a call has woken takes the item, and the pool falls asleep again. -/
theorem threadpool_comes_to_rest_woken : ∃ n s', Drain.Steps ThreadPool.Internal n wokenPool s' ∧
    s'.queue = [] ∧ s'.worker () = .asleep := by
  have hrun : ReflTransGen ThreadPool.Step {} wokenPool := by
    refine ((((((ReflTransGen.refl.tail (.lock rfl rfl)).tail (.empty ?_ rfl)).tail (.wait ?_)).tail
      (.call 7 rfl)).tail (.produceLock ?_ rfl)).tail (.produce [()] ?_ ?_ fun _ => List.cons_ne_nil _ _))
    all_goals
      simp [ThreadPool.acquireW, ThreadPool.moveW, ThreadPool.releaseW, ThreadPool.moveP]
  obtain ⟨n, s', hsteps, hrest⟩ := (threadpool_comes_to_rest hrun).2
  exact ⟨n, s', hsteps, hrest.queue, hrest.workers ()⟩

end CustomRedis
