import Mathlib.Data.Fintype.Basic
import Mathlib.Data.Fintype.Sum
import Rinha.Common.Run
/-!
# `thread_pool.cc`, `thread_pool_200.cc`

The queue of the two pools, which differ in what a task is: a mutex, a
condition variable, workers in the loop of `InitializeThreadPool` and
threads that call `EnqueueProcessRequest`, cut at the points where another
thread can come in between. `condition.wait` lets go of the mutex and
blocks in one action, and a worker that is woken takes the mutex again
before it tests the condition again. `notify_one` wakes one of the workers
that are blocked, whichever, and a worker may wake without it.

The last three fields of `State` are a record of the run, which no step
reads.
-/

namespace Rinha
namespace ThreadPool

variable {Task Worker Producer : Type}

/-- `bool stop`, which nothing sets. -/
def stop : Bool := false

/-- Where a worker is. `notified` has been woken and has yet to take the mutex. -/
inductive WorkerPc (Task : Type)
  | locking
  | testing
  | waiting
  | notified
  | taking
  | processing (task : Task)
  | returned

/-- Where a thread is in `EnqueueProcessRequest`. -/
inductive ProducerPc (Task : Type)
  | idle
  | locking (task : Task)
  | emplacing (task : Task)
  | unlocking
  | notifying

def WorkerPc.isWaiting : WorkerPc Task → Bool
  | .waiting => true
  | _ => false

structure State (Task Worker Producer : Type) where
  queueMutex : Option (Worker ⊕ Producer)
  tasks : List Task
  workers : Worker → WorkerPc Task
  producers : Producer → ProducerPc Task
  emplaced : List Task
  taken : List Task
  processed : List Task

/-- Every worker at the top of its loop. -/
def State.init : State Task Worker Producer where
  queueMutex := none
  tasks := []
  workers := fun _ => .locking
  producers := fun _ => .idle
  emplaced := []
  taken := []
  processed := []

/-- A call of `EnqueueProcessRequest`, the next step of a call or of a worker,
a `notify_one` with the worker it wakes, or a worker that wakes without. -/
inductive Action (Task Worker Producer : Type)
  | enqueue (p : Producer) (task : Task)
  | produce (p : Producer)
  | notifyOne (p : Producer) (woken : Option Worker)
  | work (w : Worker)
  | spurious (w : Worker)

section Step

variable [DecidableEq Worker] [DecidableEq Producer] [Fintype Worker]

def State.setWorker (s : State Task Worker Producer) (w : Worker) (pc : WorkerPc Task) :
    State Task Worker Producer :=
  { s with workers := Function.update s.workers w pc }

def State.setProducer (s : State Task Worker Producer) (p : Producer) (pc : ProducerPc Task) :
    State Task Worker Producer :=
  { s with producers := Function.update s.producers p pc }

/-- The next step of `EnqueueProcessRequest`, up to its `notify_one`. -/
def State.produce (s : State Task Worker Producer) (p : Producer) :
    Option (State Task Worker Producer) :=
  match s.producers p with
  | .locking task =>
      if s.queueMutex.isNone then
        some { s.setProducer p (.emplacing task) with queueMutex := some (.inr p) }
      else none
  | .emplacing task =>
      some { s.setProducer p .unlocking with
        tasks := s.tasks ++ [task]
        emplaced := s.emplaced ++ [task] }
  | .unlocking => some { s.setProducer p .notifying with queueMutex := none }
  | .idle | .notifying => none

/-- `condition.notify_one()`, which wakes no one only where no one is blocked. -/
def State.notifyOne (s : State Task Worker Producer) (p : Producer) (woken : Option Worker) :
    Option (State Task Worker Producer) :=
  match s.producers p, woken with
  | .notifying, some w =>
      if (s.workers w).isWaiting then some ((s.setWorker w .notified).setProducer p .idle)
      else none
  | .notifying, none =>
      if ∀ w, (s.workers w).isWaiting = false then some (s.setProducer p .idle) else none
  | _, _ => none

/-- The next step of a worker. `tasks.front()` of an empty queue is undefined. -/
def State.work (s : State Task Worker Producer) (w : Worker) :
    Option (State Task Worker Producer) :=
  match s.workers w with
  | .locking | .notified =>
      if s.queueMutex.isNone then
        some { s.setWorker w .testing with queueMutex := some (.inl w) }
      else none
  | .testing =>
      if stop || !s.tasks.isEmpty then some (s.setWorker w .taking)
      else some { s.setWorker w .waiting with queueMutex := none }
  | .taking =>
      if stop && s.tasks.isEmpty then some { s.setWorker w .returned with queueMutex := none }
      else
        match s.tasks with
        | [] => none
        | task :: tasks =>
            some { s.setWorker w (.processing task) with
              queueMutex := none
              tasks := tasks
              taken := s.taken ++ [task] }
  | .processing task => some { s.setWorker w .locking with processed := s.processed ++ [task] }
  | .waiting | .returned => none

/-- A step of the pool. -/
def State.step (s : State Task Worker Producer) :
    Action Task Worker Producer → Option (State Task Worker Producer)
  | .enqueue p task =>
      match s.producers p with
      | .idle => some (s.setProducer p (.locking task))
      | _ => none
  | .produce p => s.produce p
  | .notifyOne p woken => s.notifyOne p woken
  | .work w => s.work w
  | .spurious w =>
      if (s.workers w).isWaiting then some (s.setWorker w .notified) else none

/-! ## What a step can do -/

/-- The ways a state can move to the next. -/
inductive Stepped (s : State Task Worker Producer) :
    Action Task Worker Producer → State Task Worker Producer → Prop
  | called (p task) : s.producers p = .idle →
      Stepped s (.enqueue p task) (s.setProducer p (.locking task))
  | entered (p task) : s.producers p = .locking task → s.queueMutex = none →
      Stepped s (.produce p)
        { s.setProducer p (.emplacing task) with queueMutex := some (.inr p) }
  | emplaced (p task) : s.producers p = .emplacing task →
      Stepped s (.produce p) { s.setProducer p .unlocking with
        tasks := s.tasks ++ [task]
        emplaced := s.emplaced ++ [task] }
  | left (p) : s.producers p = .unlocking →
      Stepped s (.produce p) { s.setProducer p .notifying with queueMutex := none }
  | woke (p w) : s.producers p = .notifying → s.workers w = .waiting →
      Stepped s (.notifyOne p (some w)) ((s.setWorker w .notified).setProducer p .idle)
  | missed (p) : s.producers p = .notifying → (∀ w, s.workers w ≠ .waiting) →
      Stepped s (.notifyOne p none) (s.setProducer p .idle)
  | locked (w) : (s.workers w = .locking ∨ s.workers w = .notified) → s.queueMutex = none →
      Stepped s (.work w) { s.setWorker w .testing with queueMutex := some (.inl w) }
  | passed (w) : s.workers w = .testing → s.tasks ≠ [] →
      Stepped s (.work w) (s.setWorker w .taking)
  | blocked (w) : s.workers w = .testing → s.tasks = [] →
      Stepped s (.work w) { s.setWorker w .waiting with queueMutex := none }
  | took (w task tasks) : s.workers w = .taking → s.tasks = task :: tasks →
      Stepped s (.work w) { s.setWorker w (.processing task) with
        queueMutex := none
        tasks := tasks
        taken := s.taken ++ [task] }
  | processed (w task) : s.workers w = .processing task →
      Stepped s (.work w) { s.setWorker w .locking with processed := s.processed ++ [task] }
  | stirred (w) : s.workers w = .waiting → Stepped s (.spurious w) (s.setWorker w .notified)

theorem isWaiting_iff {pc : WorkerPc Task} : pc.isWaiting = true ↔ pc = .waiting := by
  cases pc <;> simp [WorkerPc.isWaiting]

/-- **Every step is one of the above**: no worker leaves its loop. -/
theorem stepped_of_step {s s' : State Task Worker Producer} {a : Action Task Worker Producer}
    (h : s.step a = some s') : Stepped s a s' := by
  cases a with
  | enqueue p task =>
      simp only [State.step] at h
      split at h
      · rename_i hpc
        obtain rfl := Option.some.inj h
        exact .called p task hpc
      · cases h
  | produce p =>
      simp only [State.step, State.produce, Option.isNone_iff_eq_none] at h
      split at h
      · rename_i task hpc
        split at h
        · rename_i hfree
          obtain rfl := Option.some.inj h
          exact .entered p task hpc hfree
        · cases h
      · rename_i task hpc
        obtain rfl := Option.some.inj h
        exact .emplaced p task hpc
      · rename_i hpc
        obtain rfl := Option.some.inj h
        exact .left p hpc
      · cases h
      · cases h
  | notifyOne p woken =>
      simp only [State.step, State.notifyOne] at h
      split at h
      · rename_i w hpc
        split at h
        · rename_i hwaiting
          obtain rfl := Option.some.inj h
          exact .woke p w hpc (isWaiting_iff.mp hwaiting)
        · cases h
      · rename_i hpc
        split at h
        · rename_i hnone
          obtain rfl := Option.some.inj h
          refine .missed p hpc fun w hwaiting => ?_
          have := hnone w
          rw [isWaiting_iff.mpr hwaiting] at this
          cases this
        · cases h
      · cases h
  | work w =>
      have hlocked : (s.workers w = .locking ∨ s.workers w = .notified) →
          (if s.queueMutex.isNone then
            some { s.setWorker w .testing with queueMutex := some (Sum.inl w) } else none) =
            some s' → Stepped s (.work w) s' := by
        intro hpc hif
        split at hif
        · rename_i hfree
          obtain rfl := Option.some.inj hif
          exact .locked w hpc (Option.isNone_iff_eq_none.mp hfree)
        · cases hif
      simp only [State.step, State.work, stop, Bool.false_or, Bool.false_and] at h
      split at h
      · rename_i hpc
        exact hlocked (.inl hpc) h
      · rename_i hpc
        exact hlocked (.inr hpc) h
      · rename_i hpc
        split at h <;> rename_i hempty <;> obtain rfl := Option.some.inj h
        · exact .passed w hpc (by simpa using hempty)
        · exact .blocked w hpc (by simpa using hempty)
      · rename_i hpc
        rw [if_neg Bool.false_ne_true] at h
        split at h
        · cases h
        · rename_i task tasks htasks
          obtain rfl := Option.some.inj h
          exact .took w task tasks hpc htasks
      · rename_i task hpc
        obtain rfl := Option.some.inj h
        exact .processed w task hpc
      · cases h
      · cases h
  | spurious w =>
      simp only [State.step] at h
      split at h
      · rename_i hwaiting
        obtain rfl := Option.some.inj h
        exact .stirred w (isWaiting_iff.mp hwaiting)
      · cases h

end Step

end ThreadPool
end Rinha
