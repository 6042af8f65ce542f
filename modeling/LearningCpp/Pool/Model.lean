import LearningCpp.Library.Machine
import LearningCpp.Library.Mutex
import LearningCpp.Library.Ring

/-!
The thread pool of `zl_threadpool/02_thread_pool/threadpool.c`: callers add tasks
to a ring, workers take them out, a manager thread lets the number of workers grow
and shrink, and `threadpool_destroy` joins as many threads as are counted. What a
thread does with `lock` held, up to where it gives it back, is one step.
-/

namespace LearningCpp.Pool

def MIN_WAIT_TASK_NUM : Nat := 10

def DEFAULT_THREAD_VARY : Nat := 10

/-- `threadpool_task_t`; 0 is the null pointer. -/
structure Task where
  function : Nat
  arg : Nat
  deriving DecidableEq, Repr

/-- Where a caller is in `threadpool_add`: it wants the lock, tests with the lock
whether the queue is full, waits for `queue_not_full`, or has found `shutdown` set
and given the lock back. -/
inductive Adder where
  | idle
  | locking (task : Task)
  | testing (task : Task)
  | waiting (task : Task)
  | rejected (task : Task)
  | unlocking
  deriving DecidableEq, Repr

/-- Where a worker is in `threadpool_thread`. After waiting it wants the lock again
and then is `woken`. Having taken a task it counts itself as busy, works, and counts
itself as idle when it has `returned`. It is `leaving` when it was one thread too
many and `stopping` at shutdown; it has given back the lock then, but not exited. -/
inductive Worker where
  | locking
  | testing
  | waiting
  | relocking
  | woken
  | took (task : Task)
  | working (task : Task)
  | returned
  | leaving
  | left
  | stopping
  | stopped
  deriving DecidableEq, Repr

/-- Where the manager is in `adjust_thread`. While it is `growing` it has the lock and
looks at slot `i`. -/
inductive Adjuster where
  | looping
  | sleeping
  | counting (queue_size live_thr_num : Nat)
  | deciding (queue_size live_thr_num : Nat) (busy_thr_num : Int)
  | growing (i add live_thr_num : Nat) (busy_thr_num : Int)
  | grown (live_thr_num : Nat) (busy_thr_num : Int)
  | shrinking
  | exited
  deriving DecidableEq, Repr

/-- Where `threadpool_destroy` is: it waits for the manager, wakes the workers, tests
whether thread `i` is to be joined, or joins it. -/
inductive Destroyer where
  | idle
  | joining_adjuster
  | broadcasting
  | testing (i : Nat)
  | joining (i : Nat)
  | freed
  deriving DecidableEq, Repr

inductive Pc where
  | adjuster (a : Adjuster)
  | adder (a : Adder)
  | worker (w : Worker)
  deriving DecidableEq, Repr

/-- `threadpool_t`, with the number of the thread that holds `lock`; a slot of
`threads` names a thread or is 0. The threads are the manager, the callers, and the
workers in the order of their creation. Of the past it is kept which tasks were
added and taken, and which arguments were freed. -/
structure Threadpool where
  lock : Option Nat
  threads : List (Option Nat)
  task_queue : List Task
  live_thr_num : Nat
  busy_thr_num : Int
  wait_exit_thr_num : Int
  queue_front : Nat
  queue_rear : Nat
  queue_size : Nat
  shutdown : Bool
  pcs : List Pc
  destroyer : Destroyer
  added : List Task
  taken : List Task
  freed : List Nat
  deriving DecidableEq, Repr

/-- A caller calls `threadpool_add`; a thread goes on, where `alive` is the answer of
`pthread_kill` for a thread that has exited but was not joined; a thread that waits
wakes up, which it may at any time; `threadpool_destroy` goes on. -/
inductive Act where
  | call (i : Nat) (task : Task)
  | run (i : Nat) (alive : Bool)
  | wake (i : Nat)
  | destroy
  deriving DecidableEq, Repr

variable (min_thr_num max_thr_num queue_max_size : Nat)

/-- `threadpool_create`, for a number of callers. More than `max_thr_num` threads do
not fit in the array. `task_queue` and `wait_exit_thr_num` are not initialized. -/
def threadpool_create (callers : Nat) (task_queue : Nat → Task) (wait_exit_thr_num : Int) :
    Option Threadpool :=
  if min_thr_num ≤ max_thr_num then
    some {
      lock := none
      threads := (List.range min_thr_num).map (fun i => some (1 + callers + i)) ++
        List.replicate (max_thr_num - min_thr_num) none
      task_queue := (List.range queue_max_size).map task_queue
      live_thr_num := min_thr_num
      busy_thr_num := 0
      wait_exit_thr_num := wait_exit_thr_num
      queue_front := 0
      queue_rear := 0
      queue_size := 0
      shutdown := false
      pcs := .adjuster .looping :: (List.replicate callers (.adder .idle) ++
        List.replicate min_thr_num (.worker .locking))
      destroyer := .idle
      added := []
      taken := []
      freed := [] }
  else none

/-- The thread goes to another place. -/
def Threadpool.goto (s : Threadpool) (i : Nat) (pc : Pc) : Threadpool := {s with pcs := s.pcs.set i pc}

/-- A task is put into the slot at the rear, and what its argument was is freed. -/
def Threadpool.enqueue (s : Threadpool) (task : Task) : Option Threadpool :=
  match s.task_queue[s.queue_rear]? with
  | none => none
  | some old =>
      some {s with
        task_queue := s.task_queue.set s.queue_rear task
        queue_rear := (s.queue_rear + 1) % queue_max_size
        queue_size := s.queue_size + 1
        added := s.added ++ [task]
        freed := if old.arg = 0 then s.freed else s.freed ++ [old.arg] }

/-- A task is taken out of the slot at the front. -/
def Threadpool.dequeue (s : Threadpool) : Option (Task × Threadpool) :=
  match s.task_queue[s.queue_front]? with
  | none => none
  | some task =>
      some (task, {s with
        queue_front := (s.queue_front + 1) % queue_max_size
        queue_size := s.queue_size - 1
        taken := s.taken ++ [task] })

/-- A caller that is rejected goes on to the queue without the lock. There is no step
for its second unlock, of a mutex that it does not hold. -/
def threadpool_add (s : Threadpool) (i : Nat) : Adder → Option Threadpool
  | .idle => none
  | .locking task =>
      if s.lock = none then some {s.goto i (.adder (.testing task)) with lock := some i} else none
  | .testing task =>
      if s.queue_size = queue_max_size ∧ s.shutdown = false then
        some {s.goto i (.adder (.waiting task)) with lock := none}
      else if s.shutdown then some {s.goto i (.adder (.rejected task)) with lock := none}
      else ({s.goto i (.adder .idle) with lock := none}).enqueue queue_max_size task
  | .waiting _ => none
  | .rejected task => (s.goto i (.adder .unlocking)).enqueue queue_max_size task
  | .unlocking => none

def threadpool_thread (s : Threadpool) (i : Nat) : Worker → Option Threadpool
  | .locking =>
      if s.lock = none then some {s.goto i (.worker .testing) with lock := some i} else none
  | .testing =>
      if s.queue_size = 0 ∧ s.shutdown = false then
        some {s.goto i (.worker .waiting) with lock := none}
      else if s.shutdown then some {s.goto i (.worker .stopping) with lock := none}
      else
        match s.dequeue queue_max_size with
        | none => none
        | some (task, s') => some {s'.goto i (.worker (.took task)) with lock := none}
  | .waiting => none
  | .relocking =>
      if s.lock = none then some {s.goto i (.worker .woken) with lock := some i} else none
  | .woken =>
      if 0 < s.wait_exit_thr_num then
        if min_thr_num < s.live_thr_num then
          some {s.goto i (.worker .leaving) with
            lock := none
            wait_exit_thr_num := s.wait_exit_thr_num - 1
            live_thr_num := s.live_thr_num - 1 }
        else
          some {s.goto i (.worker .testing) with wait_exit_thr_num := s.wait_exit_thr_num - 1}
      else some (s.goto i (.worker .testing))
  | .took task =>
      some {s.goto i (.worker (.working task)) with busy_thr_num := s.busy_thr_num + 1}
  | .working _ => some (s.goto i (.worker .returned))
  | .returned => some {s.goto i (.worker .locking) with busy_thr_num := s.busy_thr_num - 1}
  | .leaving => some (s.goto i (.worker .left))
  | .left => none
  | .stopping => some (s.goto i (.worker .stopped))
  | .stopped => none

/-- The thread has called `pthread_exit`. -/
def Pc.HasExited (pc : Pc) : Prop := pc = .worker .left ∨ pc = .worker .stopped

instance (pc : Pc) : Decidable pc.HasExited := inferInstanceAs (Decidable (_ ∨ _))

/-- `threads[i] == 0 || !is_thread_alive(threads[i])` -/
def Threadpool.vacant (s : Threadpool) (i : Nat) (alive : Bool) : Bool :=
  match s.threads[i]? with
  | some (some w) =>
      match s.pcs[w]? with
      | some pc => decide pc.HasExited && !alive
      | none => false
  | _ => true

/-- A worker is created in slot `i`. -/
def Threadpool.create (s : Threadpool) (i : Nat) : Threadpool :=
  {s with
    threads := s.threads.set i (some s.pcs.length)
    pcs := s.pcs ++ [.worker .locking]
    live_thr_num := s.live_thr_num + 1 }

def adjust_thread (s : Threadpool) (i : Nat) (alive : Bool) : Adjuster → Option Threadpool
  | .looping =>
      if s.shutdown then some (s.goto i (.adjuster .exited))
      else some (s.goto i (.adjuster .sleeping))
  | .sleeping =>
      if s.lock = none then some (s.goto i (.adjuster (.counting s.queue_size s.live_thr_num)))
      else none
  | .counting queue_size live_thr_num =>
      some (s.goto i (.adjuster (.deciding queue_size live_thr_num s.busy_thr_num)))
  | .deciding queue_size live_thr_num busy_thr_num =>
      if MIN_WAIT_TASK_NUM ≤ queue_size ∧ live_thr_num < max_thr_num then
        if s.lock = none then
          some {s.goto i (.adjuster (.growing 0 0 live_thr_num busy_thr_num)) with lock := some i}
        else none
      else some (s.goto i (.adjuster (.grown live_thr_num busy_thr_num)))
  | .growing slot add live_thr_num busy_thr_num =>
      if slot < max_thr_num ∧ add < DEFAULT_THREAD_VARY ∧ s.live_thr_num < max_thr_num then
        if s.vacant slot alive then
          some ((s.create slot).goto i
            (.adjuster (.growing (slot + 1) (add + 1) live_thr_num busy_thr_num)))
        else some (s.goto i (.adjuster (.growing (slot + 1) add live_thr_num busy_thr_num)))
      else some {s.goto i (.adjuster (.grown live_thr_num busy_thr_num)) with lock := none}
  | .grown live_thr_num busy_thr_num =>
      if busy_thr_num * 2 < live_thr_num ∧ min_thr_num < live_thr_num then
        some (s.goto i (.adjuster .shrinking))
      else some (s.goto i (.adjuster .looping))
  | .shrinking =>
      if s.lock = none then
        some {s.goto i (.adjuster .looping) with wait_exit_thr_num := DEFAULT_THREAD_VARY}
      else none
  | .exited => none

/-- `pthread_join` returns when the thread has exited. -/
def threadpool_destroy (s : Threadpool) : Destroyer → Option Threadpool
  | .idle => some {s with shutdown := true, destroyer := .joining_adjuster}
  | .joining_adjuster =>
      if s.pcs[0]? = some (.adjuster .exited) then some {s with destroyer := .broadcasting} else none
  | .broadcasting => some {s with destroyer := .testing 0}
  | .testing i =>
      if i < s.live_thr_num then some {s with destroyer := .joining i}
      else some {s with destroyer := .freed}
  | .joining i =>
      match s.threads[i]? with
      | some (some w) =>
          match s.pcs[w]? with
          | some pc => if pc.HasExited then some {s with destroyer := .testing (i + 1)} else none
          | none => none
      | _ => none
  | .freed => none

/-- A thread that waits is woken, and wants the lock again. -/
def Pc.wake : Pc → Option Pc
  | .adder (.waiting task) => some (.adder (.locking task))
  | .worker .waiting => some (.worker .relocking)
  | _ => none

/-- Once the pool is freed there are no more steps. -/
def step (s : Threadpool) (a : Act) : Option Threadpool :=
  if s.destroyer = .freed then none
  else
    match a with
    | .call i task =>
        if s.pcs[i]? = some (.adder .idle) then some (s.goto i (.adder (.locking task))) else none
    | .run i alive =>
        match s.pcs[i]? with
        | none => none
        | some (.adjuster p) => adjust_thread min_thr_num max_thr_num s i alive p
        | some (.adder p) => threadpool_add queue_max_size s i p
        | some (.worker p) => threadpool_thread min_thr_num queue_max_size s i p
    | .wake i =>
        match s.pcs[i]?.bind Pc.wake with
        | none => none
        | some pc => some (s.goto i pc)
    | .destroy => threadpool_destroy s s.destroyer

/-- A pool that `threadpool_create` can return, for any number of callers and
whatever is in the memory that it does not initialize. -/
def Created (s : Threadpool) : Prop :=
  ∃ callers task_queue wait_exit_thr_num,
    threadpool_create min_thr_num max_thr_num queue_max_size callers task_queue wait_exit_thr_num =
      some s

/-- The states that a pool can get to. -/
def Reachable (s : Threadpool) : Prop :=
  ∃ s₀, Created min_thr_num max_thr_num queue_max_size s₀ ∧
    ∃ acts, Library.runSteps (step min_thr_num max_thr_num queue_max_size) s₀ acts = some s

/-- A run that has been computed, by what was observed at its end. -/
theorem exists_run {lo hi cap callers : Nat} {task_queue : Nat → Task} {wait_exit_thr_num : Int}
    {acts : List Act} {α : Type*} {observe : Threadpool → α} {result : α}
    (h : ((threadpool_create lo hi cap callers task_queue wait_exit_thr_num).bind (fun s =>
      Library.runSteps (step lo hi cap) s acts)).map observe = some result) :
    ∃ s₀ s, threadpool_create lo hi cap callers task_queue wait_exit_thr_num = some s₀ ∧
      Library.runSteps (step lo hi cap) s₀ acts = some s ∧ observe s = result := by
  obtain ⟨s, hs, hresult⟩ := Option.map_eq_some_iff.mp h
  obtain ⟨s₀, hcreate, hrun⟩ := Option.bind_eq_some_iff.mp hs
  exact ⟨s₀, s, hcreate, hrun, hresult⟩

end LearningCpp.Pool
