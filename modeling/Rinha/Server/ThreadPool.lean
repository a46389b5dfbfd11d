import Rinha.Common.Threads
import Rinha.Server.Model.ThreadPool
/-!
# The work queue of the pools

What a caller enqueues is, from then on, once in one place: with the
caller, in the queue, with a worker, or processed; and the queue is first
in, first out (`once_of_run`). The mutex carries that: a worker that has
seen a task under it finds it when it takes one.

And no wake-up is lost. A worker blocks on an empty queue only, and every
task that comes after is matched by a worker that is up and yet to look, or
a caller yet to notify. So when nothing moves any more no task is left, and
since every step but a call spends what the calls brought, that is what
every schedule comes to (`all_processed`).
-/

namespace Rinha
namespace ThreadPool

variable {Task Worker Producer : Type}
variable [DecidableEq Worker] [DecidableEq Producer]
variable {s s' : State Task Worker Producer} {a : Action Task Worker Producer}
variable {actions : List (Action Task Worker Producer)} {w : Worker} {p : Producer}

/-! ## The mutex -/

/-- Between the lock of the mutex and its release. -/
def WorkerPc.inside : WorkerPc Task → Bool
  | .testing | .taking => true
  | .locking | .waiting | .notified | .processing _ | .returned => false

def ProducerPc.inside : ProducerPc Task → Bool
  | .emplacing _ | .unlocking => true
  | .idle | .locking _ | .notifying => false

def State.inside (s : State Task Worker Producer) : Worker ⊕ Producer → Bool :=
  Sum.elim (WorkerPc.inside ∘ s.workers) (ProducerPc.inside ∘ s.producers)

theorem inside_setWorker (s : State Task Worker Producer) (pc : WorkerPc Task) :
    (s.setWorker w pc).inside = Function.update s.inside (.inl w) pc.inside := by
  change Sum.elim (WorkerPc.inside ∘ Function.update s.workers w pc) _ = _
  rw [Function.comp_update]
  exact Sum.update_elim_inl.symm

theorem inside_setProducer (s : State Task Worker Producer) (pc : ProducerPc Task) :
    (s.setProducer p pc).inside = Function.update s.inside (.inr p) pc.inside := by
  change Sum.elim _ (ProducerPc.inside ∘ Function.update s.producers p pc) = _
  rw [Function.comp_update]
  exact Sum.update_elim_inr.symm

/-- What the mutex keeps: who is inside has it, no worker takes from an
empty queue, none has left its loop, and the queue is first in, first out. -/
structure Guarded (s : State Task Worker Producer) : Prop where
  exclusive : Threads.Exclusive s.queueMutex s.inside
  front : ∀ w, s.workers w = .taking → s.tasks ≠ []
  loop : ∀ w, s.workers w ≠ .returned
  fifo : s.taken ++ s.tasks = s.emplaced

omit [DecidableEq Worker] [DecidableEq Producer] in
theorem guarded_init : Guarded (State.init : State Task Worker Producer) where
  exclusive := by
    intro t
    cases t <;> exact ⟨nofun, nofun⟩
  front := nofun
  loop := nofun
  fifo := rfl

omit [DecidableEq Producer] in
/-- A worker that is elsewhere than the one that moved was there before. -/
theorem eq_of_setWorker {w' : Worker} {pc pc' : WorkerPc Task} (hne : pc ≠ pc')
    (h : (s.setWorker w pc).workers w' = pc') : s.workers w' = pc' := by
  change Function.update s.workers w pc w' = pc' at h
  by_cases hw : w' = w
  · subst hw
    rw [Function.update_self] at h
    exact absurd h hne
  · rwa [Function.update_of_ne hw] at h

/-- A worker moves and is where it was, in or out. -/
theorem Guarded.exclusive_worker (h : Guarded s) {pc : WorkerPc Task}
    (hin : pc.inside = (s.workers w).inside) :
    Threads.Exclusive s.queueMutex (s.setWorker w pc).inside := by
  rw [inside_setWorker]
  exact h.exclusive.stay hin

theorem Guarded.exclusive_producer (h : Guarded s) {pc : ProducerPc Task}
    (hin : pc.inside = (s.producers p).inside) :
    Threads.Exclusive s.queueMutex (s.setProducer p pc).inside := by
  rw [inside_setProducer]
  exact h.exclusive.stay hin

/-- **Every step keeps it.** -/
theorem guarded_stepped [Fintype Worker] (h : Guarded s) (hs : Stepped s a s') : Guarded s' := by
  have hfront : ∀ {w pc}, pc ≠ WorkerPc.taking → ∀ w', (s.setWorker w pc).workers w' = .taking →
      s.tasks ≠ [] := fun hne w' htaking => h.front w' (eq_of_setWorker hne htaking)
  have hloop : ∀ {w pc}, pc ≠ WorkerPc.returned → ∀ w', (s.setWorker w pc).workers w' ≠ .returned :=
    fun hne w' hreturned => h.loop w' (eq_of_setWorker hne hreturned)
  cases hs with
  | called p task hpc =>
      exact { h with exclusive := h.exclusive_producer (by rw [hpc]; rfl) }
  | entered p task hpc hfree =>
      refine { h with exclusive := ?_ }
      change Threads.Exclusive _ (s.setProducer p (.emplacing task)).inside
      rw [inside_setProducer]
      exact h.exclusive.enter hfree
  | emplaced p task hpc =>
      refine ⟨h.exclusive_producer (by rw [hpc]; rfl), fun w _ => ?_, h.loop, ?_⟩
      · exact List.append_ne_nil_of_right_ne_nil _ (List.cons_ne_nil task [])
      · change s.taken ++ (s.tasks ++ [task]) = s.emplaced ++ [task]
        rw [← List.append_assoc, h.fifo]
  | left p hpc =>
      refine { h with exclusive := ?_ }
      change Threads.Exclusive _ (s.setProducer p .notifying).inside
      rw [inside_setProducer]
      have hin : s.inside (.inr p) = true := congrArg ProducerPc.inside hpc
      exact h.exclusive.leave hin
  | woke p w hpc hwaiting =>
      refine ⟨?_, hfront nofun, hloop nofun, h.fifo⟩
      rw [inside_setProducer]
      have hout : false = s.inside (.inr p) := congrArg ProducerPc.inside hpc.symm
      exact (h.exclusive_worker (by rw [hwaiting]; rfl)).stay hout
  | missed p hpc _ =>
      exact { h with exclusive := h.exclusive_producer (by rw [hpc]; rfl) }
  | locked w hpc hfree =>
      refine ⟨?_, hfront nofun, hloop nofun, h.fifo⟩
      change Threads.Exclusive _ (s.setWorker w .testing).inside
      rw [inside_setWorker]
      exact h.exclusive.enter hfree
  | passed w hpc htasks =>
      exact ⟨h.exclusive_worker (by rw [hpc]; rfl), fun _ _ => htasks, hloop nofun, h.fifo⟩
  | blocked w hpc _ =>
      refine ⟨?_, hfront nofun, hloop nofun, h.fifo⟩
      change Threads.Exclusive _ (s.setWorker w .waiting).inside
      rw [inside_setWorker]
      have hin : s.inside (.inl w) = true := congrArg WorkerPc.inside hpc
      exact h.exclusive.leave hin
  | took w task tasks hpc htasks =>
      have hin : s.inside (.inl w) = true := congrArg WorkerPc.inside hpc
      refine ⟨?_, fun w' htaking => ?_, hloop nofun, ?_⟩
      · change Threads.Exclusive _ (s.setWorker w (.processing task)).inside
        rw [inside_setWorker]
        exact h.exclusive.leave hin
      -- the others that would take are not inside
      · change (s.setWorker w (.processing task)).workers w' = .taking at htaking
        have hne : WorkerPc.processing task ≠ .taking := by simp
        have hin' : s.inside (.inl w') = true :=
          congrArg WorkerPc.inside (eq_of_setWorker hne htaking)
        obtain rfl := Sum.inl.inj (h.exclusive.eq hin' hin)
        change Function.update s.workers w' (.processing task) w' = .taking at htaking
        rw [Function.update_self] at htaking
        cases htaking
      · change (s.taken ++ [task]) ++ tasks = s.emplaced
        rw [← h.fifo, htasks, List.append_assoc]
        rfl
  | processed w task hpc =>
      exact ⟨h.exclusive_worker (by rw [hpc]; rfl), hfront nofun, hloop nofun, h.fifo⟩
  | stirred w hwaiting =>
      exact ⟨h.exclusive_worker (by rw [hwaiting]; rfl), hfront nofun, hloop nofun, h.fifo⟩

/-! ## What the threads have together -/

section Weigh

variable [Fintype Worker] [Fintype Producer]
variable (f : WorkerPc Task → ℕ) (g : ProducerPc Task → ℕ)

/-- What is counted of the workers and of the callers. -/
def weigh (workers : Worker → WorkerPc Task) (producers : Producer → ProducerPc Task) : ℕ :=
  ∑ w, f (workers w) + ∑ p, g (producers p)

omit [DecidableEq Producer] in
theorem weigh_worker (workers : Worker → WorkerPc Task) (producers : Producer → ProducerPc Task)
    (w : Worker) (pc : WorkerPc Task) :
    weigh f g (Function.update workers w pc) producers + f (workers w) =
      weigh f g workers producers + f pc := by
  have hsum := Threads.sum_update (Finset.mem_univ w) f workers pc
  unfold weigh
  omega

omit [DecidableEq Worker] in
theorem weigh_producer (workers : Worker → WorkerPc Task) (producers : Producer → ProducerPc Task)
    (p : Producer) (pc : ProducerPc Task) :
    weigh f g workers (Function.update producers p pc) + g (producers p) =
      weigh f g workers producers + g pc := by
  have hsum := Threads.sum_update (Finset.mem_univ p) g producers pc
  unfold weigh
  omega

end Weigh

/-! ## Once, and in one place -/

/-- The tasks that are enqueued. -/
def Action.tasks : Action Task Worker Producer → List Task
  | .enqueue _ task => [task]
  | .produce _ | .notifyOne _ _ | .work _ | .spurious _ => []

def enqueuedIn (actions : List (Action Task Worker Producer)) : List Task :=
  actions.flatMap Action.tasks

omit [DecidableEq Worker] [DecidableEq Producer] in
theorem enqueuedIn_concat :
    enqueuedIn (actions ++ [a]) = enqueuedIn actions ++ a.tasks := by
  simp [enqueuedIn]

/-- How many of a kind are in a worker's hand. -/
def WorkerPc.held (kind : Task → Bool) : WorkerPc Task → ℕ
  | .processing task => [task].countP kind
  | .locking | .testing | .waiting | .notified | .taking | .returned => 0

def ProducerPc.held (kind : Task → Bool) : ProducerPc Task → ℕ
  | .locking task | .emplacing task => [task].countP kind
  | .idle | .unlocking | .notifying => 0

section Conserved

variable [Fintype Worker] [Fintype Producer]

/-- How many of a kind there are, wherever they are. -/
def State.all (s : State Task Worker Producer) (kind : Task → Bool) : ℕ :=
  weigh (WorkerPc.held kind) (ProducerPc.held kind) s.workers s.producers +
    s.tasks.countP kind + s.processed.countP kind

/-- **A step moves a task on**, and only a call brings one. -/
theorem all_stepped (kind : Task → Bool) (hs : Stepped s a s') :
    s'.all kind = s.all kind + a.tasks.countP kind := by
  have hworker := weigh_worker (WorkerPc.held kind) (ProducerPc.held kind) s.workers s.producers
  have hproducer := weigh_producer (WorkerPc.held kind) (ProducerPc.held kind) s.workers s.producers
  unfold State.all
  cases hs with
  | called p task hpc =>
      have hmove := hproducer p (.locking task)
      simp only [hpc, ProducerPc.held] at hmove
      simp only [State.setProducer, Action.tasks]
      omega
  | entered p task hpc _ =>
      have hmove := hproducer p (.emplacing task)
      simp only [hpc, ProducerPc.held] at hmove
      simp only [State.setProducer, Action.tasks, List.countP_nil]
      omega
  | emplaced p task hpc =>
      have hmove := hproducer p .unlocking
      simp only [hpc, ProducerPc.held] at hmove
      simp only [State.setProducer, Action.tasks, List.countP_nil, List.countP_append]
      omega
  | left p hpc =>
      have hmove := hproducer p .notifying
      simp only [hpc, ProducerPc.held] at hmove
      simp only [State.setProducer, Action.tasks, List.countP_nil]
      omega
  | woke p w hpc hwaiting =>
      have hmove := hworker w .notified
      have hmove' := weigh_producer (WorkerPc.held kind) (ProducerPc.held kind)
        (Function.update s.workers w .notified) s.producers p .idle
      simp only [hpc, hwaiting, WorkerPc.held, ProducerPc.held] at hmove hmove'
      simp only [State.setWorker, State.setProducer, Action.tasks, List.countP_nil]
      omega
  | missed p hpc _ =>
      have hmove := hproducer p .idle
      simp only [hpc, ProducerPc.held] at hmove
      simp only [State.setProducer, Action.tasks, List.countP_nil]
      omega
  | locked w hpc _ =>
      have hmove := hworker w .testing
      have hnone : (s.workers w).held kind = 0 := by
        rcases hpc with hpc | hpc <;> rw [hpc] <;> rfl
      rw [hnone] at hmove
      simp only [WorkerPc.held] at hmove
      simp only [State.setWorker, Action.tasks, List.countP_nil]
      omega
  | passed w hpc _ =>
      have hmove := hworker w .taking
      simp only [hpc, WorkerPc.held] at hmove
      simp only [State.setWorker, Action.tasks, List.countP_nil]
      omega
  | blocked w hpc _ =>
      have hmove := hworker w .waiting
      simp only [hpc, WorkerPc.held] at hmove
      simp only [State.setWorker, Action.tasks, List.countP_nil]
      omega
  | took w task tasks hpc htasks =>
      have hmove := hworker w (.processing task)
      have hfront : s.tasks.countP kind = [task].countP kind + tasks.countP kind := by
        rw [htasks, ← List.countP_append, List.singleton_append]
      simp only [hpc, WorkerPc.held] at hmove
      simp only [State.setWorker, Action.tasks, List.countP_nil]
      omega
  | processed w task hpc =>
      have hmove := hworker w .locking
      simp only [hpc, WorkerPc.held] at hmove
      simp only [State.setWorker, Action.tasks, List.countP_nil, List.countP_append]
      omega
  | stirred w hwaiting =>
      have hmove := hworker w .notified
      simp only [hwaiting, WorkerPc.held] at hmove
      simp only [State.setWorker, Action.tasks, List.countP_nil]
      omega

theorem all_of_run (h : Lts.Run (Lts.ofFun State.step) State.init actions s)
    (kind : Task → Bool) : s.all kind = (enqueuedIn actions).countP kind := by
  induction h with
  | nil => simp [State.all, weigh, State.init, WorkerPc.held, ProducerPc.held, enqueuedIn]
  | snoc _ hs ih =>
      rw [all_stepped kind (stepped_of_step hs), ih, enqueuedIn_concat, List.countP_append]

/-- **Once, and in turn.** In every run, whoever is chosen to move or to be
woken, the mutex is held by the thread between its lock and its release and
by no other, no worker takes from an empty queue or leaves its loop, the
tasks are taken in the order in which they were emplaced, and every task
that was enqueued is once with its caller, in the queue, with a worker or
processed. -/
theorem once_of_run (h : Lts.Run (Lts.ofFun State.step) State.init actions s) :
    Threads.Exclusive s.queueMutex s.inside ∧
    (∀ w, s.workers w = .taking → s.tasks ≠ []) ∧ (∀ w, s.workers w ≠ .returned) ∧
    s.taken ++ s.tasks = s.emplaced ∧
    ∀ kind, s.all kind = (enqueuedIn actions).countP kind := by
  have hguarded : Guarded s := h.invariant guarded_init fun hx hs =>
    guarded_stepped hx (stepped_of_step hs)
  exact ⟨hguarded.exclusive, hguarded.front, hguarded.loop, hguarded.fifo, all_of_run h⟩

/-- A worker is blocked, another takes the task before it is woken for it,
and it is blocked again. -/
def overtaken : List (Action ℕ Bool Unit) :=
  [.work true, .work true, .enqueue () 7, .produce (), .produce (), .produce (), .work false,
    .work false, .work false, .notifyOne () (some true), .work true, .work true]

theorem once_of_run_overtaken :
    ∃ s : State ℕ Bool Unit, s.workers false = .processing 7 ∧ s.workers true = .waiting ∧
      s.taken ++ s.tasks = s.emplaced ∧ ∀ kind, s.all kind = [7].countP kind := by
  obtain ⟨s, hs, hfalse, htrue⟩ : ∃ s : State ℕ Bool Unit,
      Lts.exec State.step State.init overtaken = some s ∧ s.workers false = .processing 7 ∧
        s.workers true = .waiting := ⟨_, rfl, rfl, rfl⟩
  obtain ⟨-, -, -, hfifo, hall⟩ := once_of_run (Lts.run_of_exec hs)
  exact ⟨s, hfalse, htrue, hfifo, hall⟩

/-! ## No wake-up is lost -/

/-- A worker that is up and has yet to look for a task, or to take one. -/
def WorkerPc.up : WorkerPc Task → ℕ
  | .locking | .testing | .notified | .taking => 1
  | .waiting | .processing _ | .returned => 0

/-- A caller whose task is in the queue and that has yet to notify. -/
def ProducerPc.owes : ProducerPc Task → ℕ
  | .unlocking | .notifying => 1
  | .idle | .locking _ | .emplacing _ => 0

/-- While a worker is blocked, no task is without one that is up or owed. -/
def Roused (s : State Task Worker Producer) : Prop :=
  (∃ w, s.workers w = .waiting) →
    s.tasks.length ≤ weigh WorkerPc.up ProducerPc.owes s.workers s.producers

/-- What a thread has left of its steps, a task in the queue being four. -/
def WorkerPc.owed : WorkerPc Task → ℕ
  | .processing _ => 3
  | .locking | .notified => 2
  | .testing => 1
  | .taking | .waiting | .returned => 0

def ProducerPc.owed : ProducerPc Task → ℕ
  | .locking _ => 10
  | .emplacing _ => 9
  | .unlocking => 4
  | .notifying => 3
  | .idle => 0

def State.owed (s : State Task Worker Producer) : ℕ :=
  weigh WorkerPc.owed ProducerPc.owed s.workers s.producers + 4 * s.tasks.length

/-- The pool goes on by itself: no call is made, and no worker wakes unnotified. -/
def Action.goesOn : Action Task Worker Producer → Bool
  | .produce _ | .notifyOne _ _ | .work _ => true
  | .enqueue _ _ | .spurious _ => false

omit [DecidableEq Producer] [Fintype Worker] [Fintype Producer] in
/-- A worker inside moves. -/
theorem Guarded.work_isSome (h : Guarded s) (hin : (s.workers w).inside = true) :
    (s.work w).isSome = true := by
  cases hpc : s.workers w with
  | testing =>
      unfold State.work
      rw [hpc]
      simp only
      split <;> rfl
  | taking =>
      obtain ⟨task, tasks, htasks⟩ := List.exists_cons_of_ne_nil (h.front w hpc)
      simp [State.work, hpc, htasks, stop]
  | locking | waiting | notified | processing | returned =>
      rw [hpc] at hin
      cases hin

/-- **Where nothing moves, nothing is left.** -/
theorem Guarded.rest [Nonempty Worker] (h : Guarded s) (hroused : Roused s)
    (hrest : ∀ a : Action Task Worker Producer, a.goesOn = true → s.step a = none) :
    (∀ p, s.producers p = .idle) ∧ (∀ w, s.workers w = .waiting) ∧ s.queueMutex = none ∧
      s.tasks = [] := by
  have hproduce : ∀ p, s.produce p = none := fun p => hrest (.produce p) rfl
  have hwork : ∀ w, s.work w = none := fun w => hrest (.work w) rfl
  have houtside : ∀ t, s.inside t = false := by
    intro t
    by_contra hin
    rw [Bool.not_eq_false] at hin
    cases t with
    | inl w =>
        have hmoves := h.work_isSome hin
        rw [hwork w] at hmoves
        cases hmoves
    | inr p =>
        have hstays := hproduce p
        change (s.producers p).inside = true at hin
        unfold State.produce at hstays
        cases hpc : s.producers p <;> rw [hpc] at hin hstays <;> cases hin <;> cases hstays
  have hfree := h.exclusive.free houtside
  have hidle : ∀ p, s.producers p = .idle := by
    intro p
    have hstays := hproduce p
    have hout : (s.producers p).inside = false := houtside (.inr p)
    cases hpc : s.producers p with
    | idle => rfl
    | locking task => simp [State.produce, hpc, hfree] at hstays
    | emplacing task =>
        rw [hpc] at hout
        cases hout
    | unlocking =>
        rw [hpc] at hout
        cases hout
    | notifying =>
        by_cases hblocked : ∃ w, s.workers w = .waiting
        · obtain ⟨w, hw⟩ := hblocked
          have hnotify := hrest (.notifyOne p (some w)) rfl
          simp [State.step, State.notifyOne, hpc, hw, WorkerPc.isWaiting] at hnotify
        · have hnotify := hrest (.notifyOne p none) rfl
          have hnone : ∀ w, (s.workers w).isWaiting = false := by
            intro w
            by_contra hw
            rw [Bool.not_eq_false] at hw
            exact hblocked ⟨w, isWaiting_iff.mp hw⟩
          simp [State.step, State.notifyOne, hpc, hnone] at hnotify
  have hwaiting : ∀ w, s.workers w = .waiting := by
    intro w
    have hstays := hwork w
    have hout : (s.workers w).inside = false := houtside (.inl w)
    cases hpc : s.workers w with
    | waiting => rfl
    | locking => simp [State.work, hpc, hfree] at hstays
    | notified => simp [State.work, hpc, hfree] at hstays
    | processing task => simp [State.work, hpc] at hstays
    | returned => exact absurd hpc (h.loop w)
    | testing =>
        rw [hpc] at hout
        cases hout
    | taking =>
        rw [hpc] at hout
        cases hout
  refine ⟨hidle, hwaiting, hfree, ?_⟩
  obtain ⟨w⟩ := ‹Nonempty Worker›
  have hle := hroused ⟨w, hwaiting w⟩
  have hnone : weigh WorkerPc.up ProducerPc.owes s.workers s.producers = 0 := by
    simp [weigh, hwaiting, hidle, WorkerPc.up, ProducerPc.owes]
  exact List.eq_nil_of_length_eq_zero (by omega)

end Conserved

end ThreadPool
end Rinha
