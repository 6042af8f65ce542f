import LearningCpp.Library.Measure
import LearningCpp.Library.Mutex
import LearningCpp.Library.Workers

/-!
The thread pool of `zl_threadpool/03_ThreadPool`. A worker waits with a predicate, a task is
queued and `stop` is set with the mutex, and nothing is queued after `stop`: no task waits for
a worker that sleeps, and the destructor joins the workers after every task has run.
-/

namespace LearningCpp.FuturePool

open LearningCpp.Library

/-- Where a worker is: it wants the mutex, evaluates the predicate with the mutex, is about to
wait with the mutex, waits, or runs a task without the mutex. -/
inductive Worker where
  | locking
  | testing
  | waiting
  | blocked
  | running (task : Nat)
  | exited
  deriving DecidableEq, Repr

namespace Worker

def HoldsLock : Worker → Prop
  | .testing | .waiting => True
  | _ => False

/-- The worker is on its way to the queue. -/
def ready : Worker → Bool
  | .locking | .testing => true
  | _ => false

end Worker

/-- The destructor has not begun, has set `stop`, or has notified all and joins. -/
inductive Destructor where
  | idle
  | stopping
  | joining
  deriving DecidableEq, Repr

/-- The pool and its threads. A task is known by its number among all that were queued, and
`notifies` counts the calls of `enqueue` that have yet to notify. Kept for the specification:
how many tasks were queued, and those taken and run, in order. -/
structure ThreadPool where
  queue_mutex : Option Nat
  stop : Bool
  tasks : List Nat
  workers : List Worker
  destructor : Destructor
  notifies : Nat
  enqueued : Nat
  dequeued : List Nat
  ran : List Nat
  deriving DecidableEq, Repr

/-- A worker goes on; a worker that waits wakes up by itself; `enqueue` queues a task, and
later notifies one, which wakes worker `i`; the destructor goes on. -/
inductive Act where
  | run (i : Nat)
  | wake (i : Nat)
  | enqueue
  | notify (i : Nat)
  | destroy
  deriving DecidableEq, Repr

/-- The pool after its constructor. -/
def start (threads : Nat) : ThreadPool where
  queue_mutex := none
  stop := false
  tasks := []
  workers := List.replicate threads .locking
  destructor := .idle
  notifies := 0
  enqueued := 0
  dequeued := []
  ran := []

namespace ThreadPool

def goto (s : ThreadPool) (i : Nat) (pc : Worker) (queue_mutex : Option Nat) : ThreadPool :=
  {s with workers := s.workers.set i pc, queue_mutex := queue_mutex}

/-- The next step of worker `i`. -/
def run (s : ThreadPool) (i : Nat) : Worker → Option ThreadPool
  | .locking => if s.queue_mutex = none then some (s.goto i .testing (some i)) else none
  | .testing =>
      match s.tasks with
      | task :: tasks =>
          some {s.goto i (.running task) none with
            tasks := tasks, dequeued := s.dequeued ++ [task] }
      | [] => some (if s.stop then s.goto i .exited none else s.goto i .waiting s.queue_mutex)
  | .waiting => some (s.goto i .blocked none)
  | .running task => some {s.goto i .locking s.queue_mutex with ran := s.ran ++ [task]}
  | .blocked | .exited => none

/-- The part of `enqueue` with the mutex. After `stop` it throws and changes nothing. -/
def enqueue (s : ThreadPool) : Option ThreadPool :=
  if s.queue_mutex = none ∧ s.stop = false then
    some {s with
      tasks := s.tasks ++ [s.enqueued]
      enqueued := s.enqueued + 1
      notifies := s.notifies + 1 }
  else none

/-- The next step of the destructor, up to the loop that joins. -/
def destroy (s : ThreadPool) : Option ThreadPool :=
  match s.destructor with
  | .idle =>
      if s.queue_mutex = none then some {s with stop := true, destructor := .stopping} else none
  | .stopping =>
      some {s with
        workers := s.workers.map fun pc => if pc = .blocked then .locking else pc
        destructor := .joining }
  | .joining => none

def step (s : ThreadPool) : Act → Option ThreadPool
  | .run i => s.workers[i]?.bind (s.run i)
  | .wake i => if s.workers[i]? = some .blocked then some (s.goto i .locking s.queue_mutex) else none
  | .enqueue => s.enqueue
  | .notify i =>
      if s.notifies = 0 then none
      else if s.workers[i]? = some .blocked then
        some {s.goto i .locking s.queue_mutex with notifies := s.notifies - 1}
      else if .blocked ∈ s.workers then none
      else some {s with notifies := s.notifies - 1}
  | .destroy => s.destroy

end ThreadPool

/-- What holds in every state. As long as a worker sleeps, there is for every queued task a
worker on its way to the queue or a call that has yet to notify. -/
structure Sound (s : ThreadPool) : Prop where
  mutex : Mutex s.workers Worker.HoldsLock s.queue_mutex
  order : s.dequeued ++ s.tasks = List.range s.enqueued
  counted : ∀ n, s.ran.count n + s.workers.count (.running n) = s.dequeued.count n
  stops : s.destructor ≠ .idle ↔ s.stop = true
  tested : Worker.waiting ∈ s.workers → s.tasks = [] ∧ s.stop = false
  joins : s.destructor = .joining → Worker.blocked ∉ s.workers
  left : Worker.exited ∈ s.workers → s.tasks = [] ∧ s.stop = true
  served : Worker.blocked ∈ s.workers →
    s.tasks.length ≤ s.notifies + s.workers.countP Worker.ready

variable {s s' t : ThreadPool} {i : Nat} {pc pc' : Worker}

theorem start_sound (threads : Nat) : Sound (start threads) := by
  have hworkers : ∀ pc ∈ (start threads).workers, pc = .locking :=
    fun pc hpc => List.eq_of_mem_replicate hpc
  constructor
  · apply Mutex.free
    intro pc hpc
    rw [hworkers pc hpc]
    exact id
  · rfl
  · intro n
    simp [start, List.count_replicate]
  · simp [start]
  · exact fun hmem => Worker.noConfusion (hworkers _ hmem)
  · exact fun hjoining => Destructor.noConfusion hjoining
  · exact fun hmem => Worker.noConfusion (hworkers _ hmem)
  · exact fun hmem => Worker.noConfusion (hworkers _ hmem)

theorem running_injective : Function.Injective Worker.running := by
  intro a b h
  cases h
  rfl

theorem Sound.accounted (h : Sound s) :
    Accounted Worker.running s.workers s.ran s.dequeued := h.counted

/-- A worker goes on that neither took nor ran a task. -/
theorem Sound.goto (h : Sound s) (hpc : s.workers[i]? = some pc) {queue_mutex : Option Nat}
    (hmutex : Mutex (s.workers.set i pc') Worker.HoldsLock queue_mutex)
    (hold : ∀ n, pc ≠ .running n) (hnew : ∀ n, pc' ≠ .running n)
    (hwaiting : pc' = .waiting → s.tasks = [] ∧ s.stop = false)
    (hblocked : pc' = .blocked → s.tasks = [] ∧ s.destructor ≠ .joining)
    (hexited : pc' = .exited → s.tasks = [] ∧ s.stop = true)
    (hready : pc.ready = true → pc'.ready = true ∨ s.tasks = []) :
    Sound (s.goto i pc' queue_mutex) where
  mutex := hmutex
  order := h.order
  counted := h.accounted.move hpc hold hnew
  stops := h.stops
  tested := by
    intro hmem
    rcases List.mem_or_eq_of_mem_set hmem with hmem | heq
    · exact h.tested hmem
    · exact hwaiting heq.symm
  joins := by
    intro hjoining hmem
    rcases List.mem_or_eq_of_mem_set hmem with hmem | heq
    · exact h.joins hjoining hmem
    · exact (hblocked heq.symm).2 hjoining
  left := by
    intro hmem
    rcases List.mem_or_eq_of_mem_set hmem with hmem | heq
    · exact h.left hmem
    · exact hexited heq.symm
  served := by
    apply Served.move h.served hpc
    · intro heq
      rw [(hblocked heq).1, List.length_nil]
    · intro hwas
      rcases hready hwas with hstill | hempty
      · exact Or.inl hstill
      · exact Or.inr (by rw [hempty, List.length_nil])

/-- A worker takes the first task of the queue. -/
theorem Sound.dequeue (h : Sound s) (hpc : s.workers[i]? = some .testing) {task : Nat}
    {tasks : List Nat} (htasks : s.tasks = task :: tasks) :
    Sound {s.goto i (.running task) none with
      tasks := tasks, dequeued := s.dequeued ++ [task] } where
  mutex := h.mutex.release hpc trivial id
  order := by
    have horder := h.order
    rw [htasks] at horder
    simpa [ThreadPool.goto] using horder
  counted := h.accounted.take hpc running_injective nofun task
  stops := h.stops
  tested := by
    intro hmem
    have hempty := (h.tested (mem_of_mem_set hmem nofun)).1
    rw [htasks] at hempty
    cases hempty
  joins := fun hjoining hmem => h.joins hjoining (mem_of_mem_set hmem nofun)
  left := by
    intro hmem
    have hempty := (h.left (mem_of_mem_set hmem nofun)).1
    rw [htasks] at hempty
    cases hempty
  served := by
    have hserved := h.served
    rw [htasks, List.length_cons] at hserved
    exact Served.take hserved hpc nofun

/-- A task returns, and its worker goes back to the queue. -/
theorem Sound.finish (h : Sound s) {task : Nat} (hpc : s.workers[i]? = some (.running task)) :
    Sound {s.goto i .locking s.queue_mutex with ran := s.ran ++ [task]} where
  mutex := h.mutex.move hpc Iff.rfl
  order := h.order
  counted := h.accounted.finish hpc running_injective nofun
  stops := h.stops
  tested := fun hmem => h.tested (mem_of_mem_set hmem nofun)
  joins := fun hjoining hmem => h.joins hjoining (mem_of_mem_set hmem nofun)
  left := fun hmem => h.left (mem_of_mem_set hmem nofun)
  served := Served.move h.served hpc nofun fun _ => Or.inl rfl

theorem Sound.run (h : Sound s) (hpc : s.workers[i]? = some pc) (hrun : s.run i pc = some s') :
    Sound s' := by
  cases pc with
  | locking =>
      simp only [ThreadPool.run, Option.ite_none_right_eq_some, Option.some.injEq] at hrun
      obtain ⟨hfree, rfl⟩ := hrun
      exact h.goto hpc (h.mutex.acquire hfree hpc trivial) nofun nofun nofun nofun nofun
        fun _ => Or.inl rfl
  | testing =>
      simp only [ThreadPool.run] at hrun
      split at hrun
      case h_1 task tasks htasks =>
        cases hrun
        exact h.dequeue hpc htasks
      case h_2 hempty =>
        cases hrun
        split
        case isTrue hstop =>
          exact h.goto hpc (h.mutex.release hpc trivial id) nofun nofun nofun nofun
            (fun _ => ⟨hempty, hstop⟩) fun _ => Or.inr hempty
        case isFalse hopen =>
          refine h.goto hpc (h.mutex.move hpc ⟨fun _ => trivial, fun _ => trivial⟩) nofun nofun ?_
            nofun nofun fun _ => Or.inr hempty
          exact fun _ => ⟨hempty, Bool.eq_false_of_not_eq_true hopen⟩
  | waiting =>
      cases hrun
      obtain ⟨hempty, hopen⟩ := h.tested (List.mem_of_getElem? hpc)
      refine h.goto hpc (h.mutex.release hpc trivial id) nofun nofun nofun ?_ nofun nofun
      -- a worker that is about to wait has seen the pool open, and holds the mutex since
      intro _
      refine ⟨hempty, fun hjoining => ?_⟩
      rw [h.stops.mp (by rw [hjoining]; nofun)] at hopen
      cases hopen
  | running task =>
      cases hrun
      exact h.finish hpc
  | blocked | exited => cases hrun

theorem Sound.wake (h : Sound s) (hpc : s.workers[i]? = some .blocked) :
    Sound (s.goto i .locking s.queue_mutex) :=
  h.goto hpc (h.mutex.move hpc Iff.rfl) nofun nofun nofun nofun nofun nofun

/-- The call that notifies wakes a worker that sleeps. -/
theorem Sound.notify (h : Sound s) (hpc : s.workers[i]? = some .blocked) :
    Sound {s.goto i .locking s.queue_mutex with notifies := s.notifies - 1} :=
  { h.wake hpc with
    served := by
      intro hmem
      have hserved := h.served (mem_of_mem_set hmem nofun)
      have hcount := countP_set_add hpc .locking Worker.ready
      simp only [Worker.ready, if_true, Bool.false_eq_true, if_false] at hcount
      simp only [ThreadPool.goto]
      omega }

theorem Sound.enqueue (h : Sound s) (henqueue : s.enqueue = some s') : Sound s' := by
  simp only [ThreadPool.enqueue, Option.ite_none_right_eq_some, Option.some.injEq] at henqueue
  obtain ⟨⟨hfree, hopen⟩, rfl⟩ := henqueue
  constructor
  · exact h.mutex
  · rw [List.range_succ, ← h.order, List.append_assoc]
  · exact h.counted
  · exact h.stops
  · intro hmem
    -- a worker that is about to wait holds the mutex
    obtain ⟨j, hj⟩ := List.getElem?_of_mem hmem
    exact absurd trivial (h.mutex.not_holding_of_free hfree hj)
  · exact h.joins
  · intro hmem
    have hstop := (h.left hmem).2
    rw [hopen] at hstop
    cases hstop
  · rw [List.length_append, List.length_singleton]
    exact Served.add h.served

theorem Sound.destroy (h : Sound s) (hdestroy : s.destroy = some s') : Sound s' := by
  unfold ThreadPool.destroy at hdestroy
  split at hdestroy
  case h_1 hidle =>
    simp only [Option.ite_none_right_eq_some, Option.some.injEq] at hdestroy
    obtain ⟨hfree, rfl⟩ := hdestroy
    constructor
    · exact h.mutex
    · exact h.order
    · exact h.counted
    · simp
    · intro hmem
      obtain ⟨j, hj⟩ := List.getElem?_of_mem hmem
      exact absurd trivial (h.mutex.not_holding_of_free hfree hj)
    · exact Destructor.noConfusion
    · exact fun hmem => ⟨(h.left hmem).1, rfl⟩
    · exact h.served
  case h_2 hstopping =>
    cases hdestroy
    constructor
    · apply h.mutex.map
      intro pc
      split
      case isTrue hblocked =>
        rw [hblocked]
        exact Iff.rfl
      case isFalse => exact Iff.rfl
    · exact h.order
    · apply h.accounted.map
      intro a pc
      cases pc <;> simp
    · simp [← h.stops, hstopping]
    · exact fun hmem => h.tested (mem_of_mem_woken hmem nofun).1
    · exact fun _ hmem => (mem_of_mem_woken hmem nofun).2 rfl
    · exact fun hmem => h.left (mem_of_mem_woken hmem nofun).1
    · exact fun hmem => absurd rfl (mem_of_mem_woken hmem nofun).2
  case h_3 => cases hdestroy

theorem Sound.step (h : Sound s) {a : Act} (hstep : s.step a = some s') : Sound s' := by
  cases a with
  | run i =>
      obtain ⟨pc, hpc, hrun⟩ := Option.bind_eq_some_iff.mp hstep
      exact h.run hpc hrun
  | wake i =>
      simp only [ThreadPool.step, Option.ite_none_right_eq_some, Option.some.injEq] at hstep
      obtain ⟨hblocked, rfl⟩ := hstep
      exact h.wake hblocked
  | enqueue => exact h.enqueue hstep
  | notify i =>
      simp only [ThreadPool.step] at hstep
      split at hstep
      case isTrue => cases hstep
      case isFalse =>
        split at hstep
        case isTrue hblocked =>
          cases hstep
          exact h.notify hblocked
        case isFalse =>
          split at hstep
          case isTrue => cases hstep
          case isFalse hnone =>
            cases hstep
            exact { h with served := fun hmem => absurd hmem hnone }
  | destroy => exact h.destroy hstep

theorem sound_of_run {threads : Nat} {as : List Act}
    (hrun : runSteps ThreadPool.step (start threads) as = some s) : Sound s :=
  invariant_run (fun h hstep => Sound.step h hstep) (start_sound threads) hrun

/-- In every run, as long as a worker sleeps there are at least as many workers on their way to
the queue, and calls that have yet to notify, as there are tasks in the queue; the tasks are
taken in the order in which they were queued, and none is run twice. -/
theorem no_task_waits_for_sleeper {threads : Nat} {as : List Act}
    (hrun : runSteps ThreadPool.step (start threads) as = some s) :
    (Worker.blocked ∈ s.workers → s.tasks.length ≤ s.notifies + s.workers.countP Worker.ready) ∧
      s.dequeued <+: List.range s.enqueued ∧ s.ran.Nodup := by
  have hsound := sound_of_run hrun
  have horder : s.dequeued <+: List.range s.enqueued := ⟨s.tasks, hsound.order⟩
  refine ⟨hsound.served, horder, ?_⟩
  rw [List.nodup_iff_count_le_one]
  intro n
  have hcounted := hsound.counted n
  have honce := List.nodup_iff_count_le_one.mp
    (horder.sublist.nodup (List.nodup_range (n := s.enqueued))) n
  omega

/-- Of two workers that sleep one was notified of the first of two tasks. -/
theorem no_task_waits_for_sleeper_two :
    ∃ s, runSteps ThreadPool.step (start 2)
        [.run 0, .run 0, .run 0, .run 1, .run 1, .run 1, .enqueue, .enqueue, .notify 0] = some s ∧
      (Worker.blocked ∈ s.workers →
          s.tasks.length ≤ s.notifies + s.workers.countP Worker.ready) ∧
        s.dequeued <+: List.range s.enqueued ∧ s.ran.Nodup := by
  have hrun : ∃ s, runSteps ThreadPool.step (start 2)
      [.run 0, .run 0, .run 0, .run 1, .run 1, .run 1, .enqueue, .enqueue, .notify 0] = some s :=
    ⟨_, rfl⟩
  obtain ⟨s, hrun⟩ := hrun
  exact ⟨s, hrun, no_task_waits_for_sleeper hrun⟩

end LearningCpp.FuturePool
