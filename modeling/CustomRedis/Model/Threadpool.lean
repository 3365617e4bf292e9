import Mathlib.Logic.Function.Basic

/-!
# The thread pool

`threadpool.cpp`, as a step relation over the threads that share a pool: any number of workers in `work`
and any number of callers of `threadpool_produce`. What the code uses of pthreads is in the steps: a mutex
is taken only when it is free, `pthread_cond_wait` gives it up and falls asleep in one step and takes it
again before it returns, a sleeping worker may wake up without a reason, and `pthread_cond_signal` wakes at
least one sleeping worker if there is one.

A call of `threadpool_produce` pushes and signals in one step. It holds the mutex through both, and
whatever touches the queue in between would have to hold the mutex as well.

The tickets and the two logs are not part of the program. A ticket is the number of the push that put an
item into the queue, so that the same function with the same argument can be told apart when it is
produced twice.
-/

namespace CustomRedis

structure ThreadPoolWork (ι : Type) where
  ticket : Nat
  /-- `f` and `arg` -/
  item : ι

/-- Where a worker stands in `work`. -/
inductive WorkerAt (ι : Type)
  /-- at `pthread_mutex_lock` -/
  | lock
  /-- at the test of the inner loop -/
  | test
  /-- at `pthread_cond_wait`, the queue having been empty -/
  | wait
  /-- asleep in `pthread_cond_wait` -/
  | asleep
  /-- in `pthread_cond_wait`, woken up and waiting for the mutex -/
  | woken
  /-- at `pthread_mutex_unlock`, with the work it took -/
  | unlock (work : ThreadPoolWork ι)
  /-- in `work.f(work.arg)` -/
  | run (work : ThreadPoolWork ι)

/-- Where a caller stands in `threadpool_produce`. -/
inductive ProducerAt (ι : Type)
  | idle
  /-- at `pthread_mutex_lock` -/
  | lock (item : ι)
  /-- at the push and the signal -/
  | push (item : ι)
  /-- at `pthread_mutex_unlock` -/
  | unlock

structure ThreadPool (W P ι : Type) where
  queue : List (ThreadPoolWork ι) := []
  /-- the thread that holds the mutex -/
  mutex : Option (W ⊕ P) := none
  worker : W → WorkerAt ι := fun _ => .lock
  producer : P → ProducerAt ι := fun _ => .idle
  /-- the pushes so far -/
  produced : List (ThreadPoolWork ι) := []
  /-- the takes so far, each with its worker -/
  taken : List (W × ThreadPoolWork ι) := []

namespace ThreadPool

variable {W P ι : Type} [DecidableEq W] [DecidableEq P]

/-- A worker takes the mutex and goes to the test. -/
def acquireW (s : ThreadPool W P ι) (w : W) : ThreadPool W P ι :=
  { s with mutex := some (.inl w), worker := Function.update s.worker w .test }

def moveW (s : ThreadPool W P ι) (w : W) (pc : WorkerAt ι) : ThreadPool W P ι :=
  { s with worker := Function.update s.worker w pc }

/-- A worker gives up the mutex. -/
def releaseW (s : ThreadPool W P ι) (w : W) (pc : WorkerAt ι) : ThreadPool W P ι :=
  { s with mutex := none, worker := Function.update s.worker w pc }

def moveP (s : ThreadPool W P ι) (p : P) (mutex : Option (W ⊕ P)) (pc : ProducerAt ι) : ThreadPool W P ι :=
  { s with mutex := mutex, producer := Function.update s.producer p pc }

/-- `front` and `pop` -/
def take (s : ThreadPool W P ι) (w : W) (work : ThreadPoolWork ι) (rest : List (ThreadPoolWork ι)) :
    ThreadPool W P ι :=
  { s with queue := rest, worker := Function.update s.worker w (.unlock work), taken := s.taken ++ [(w, work)] }

/-- The push and the signal of a call, and the workers that the signal wakes. -/
def pushSignal (s : ThreadPool W P ι) (p : P) (item : ι) (awake : List W) : ThreadPool W P ι :=
  { s with
    queue := s.queue ++ [⟨s.produced.length, item⟩]
    produced := s.produced ++ [⟨s.produced.length, item⟩]
    worker := fun w => if w ∈ awake then .woken else s.worker w
    producer := Function.update s.producer p .unlock }

inductive Step : ThreadPool W P ι → ThreadPool W P ι → Prop
  | lock {s : ThreadPool W P ι} {w : W} (pc : s.worker w = .lock) (free : s.mutex = none) : Step s (s.acquireW w)
  | empty {s : ThreadPool W P ι} {w : W} (pc : s.worker w = .test) (nothing : s.queue = []) : Step s (s.moveW w .wait)
  | wait {s : ThreadPool W P ι} {w : W} (pc : s.worker w = .wait) : Step s (s.releaseW w .asleep)
  | spurious {s : ThreadPool W P ι} {w : W} (pc : s.worker w = .asleep) : Step s (s.moveW w .woken)
  | reacquire {s : ThreadPool W P ι} {w : W} (pc : s.worker w = .woken) (free : s.mutex = none) :
    Step s (s.acquireW w)
  | take {s : ThreadPool W P ι} {w : W} {work : ThreadPoolWork ι} {rest : List (ThreadPoolWork ι)}
    (pc : s.worker w = .test) (first : s.queue = work :: rest) : Step s (s.take w work rest)
  | unlock {s : ThreadPool W P ι} {w : W} {work : ThreadPoolWork ι} (pc : s.worker w = .unlock work) :
    Step s (s.releaseW w (.run work))
  | finish {s : ThreadPool W P ι} {w : W} {work : ThreadPoolWork ι} (pc : s.worker w = .run work) :
    Step s (s.moveW w .lock)
  | call {s : ThreadPool W P ι} {p : P} (item : ι) (pc : s.producer p = .idle) : Step s (s.moveP p s.mutex (.lock item))
  | produceLock {s : ThreadPool W P ι} {p : P} {item : ι} (pc : s.producer p = .lock item) (free : s.mutex = none) :
    Step s (s.moveP p (some (.inr p)) (.push item))
  | produce {s : ThreadPool W P ι} {p : P} {item : ι} (awake : List W) (pc : s.producer p = .push item)
    (asleep : ∀ w ∈ awake, s.worker w = .asleep) (one : (∃ w, s.worker w = .asleep) → awake ≠ []) :
    Step s (s.pushSignal p item awake)
  | produceUnlock {s : ThreadPool W P ι} {p : P} (pc : s.producer p = .unlock) : Step s (s.moveP p none .idle)

end ThreadPool

end CustomRedis
