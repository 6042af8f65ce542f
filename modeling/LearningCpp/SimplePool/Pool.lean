import Mathlib.Tactic
import LearningCpp.Library.Census
import LearningCpp.Library.Machine
import LearningCpp.Library.Mutex
import LearningCpp.SimplePool.LinkedList

/-!
The thread pool of `zl_threadpool/01_simple_threadPool`. Its workers and the calls of
`nThreadPoolPushTask` are threads that share one mutex; the list of jobs is changed by
the list macros only. `nThreadPoolDestory` sets the flags of the workers without the
mutex, and so at any moment.
-/

namespace LearningCpp.SimplePool

open LearningCpp.Library

universe u

variable {ι : Type u} [DecidableEq ι]

/-- Where a worker is in `nThreadCallback`, up to `exited`, and where a call is in
`nThreadPoolPushTask`. A worker that is idling is about to wait for the condition; it is
then waiting until it is woken, and relocking until it has the mutex again. -/
inductive Pc (ι : Type u) where
  | locking
  | testing
  | idling
  | waiting
  | relocking
  | checking
  | quitting
  | taking
  | unlocking (job : ι)
  | running (job : ι)
  | exited
  | pushing (job : ι)
  | inserting (job : ι)
  | signalling
  | releasing
  | returned
  deriving DecidableEq, Repr

namespace Pc

/-- The places where a thread has the mutex. -/
def Holds : Pc ι → Prop
  | .testing | .idling | .checking | .quitting | .taking | .unlocking _ => True
  | .inserting _ | .signalling | .releasing => True
  | _ => False

/-- The job that a thread has and that is not in the list. -/
def job : Pc ι → Option ι
  | .unlocking job | .running job | .pushing job | .inserting job => some job
  | _ => none

def IsWorker : Pc ι → Prop
  | .pushing _ | .inserting _ | .signalling | .releasing | .returned => False
  | _ => True

end Pc

/-- `nThreadPool` and the threads. Kept for the specification: the jobs of all calls of
`nThreadPoolPushTask`, and the jobs whose function has returned. -/
structure NThreadPool (ι : Type u) where
  jobs : LinkedList ι
  mtx : Option Nat
  terminate : Nat → Bool
  threads : List (Pc ι)
  pushed : List ι
  ran : List ι

/-- A thread goes on; call `i` signals the condition, which wakes worker `j` if that one
waits; a worker that waits wakes up by itself; a call begins with a job that was not
pushed before; worker `i` is told to terminate; the condition is broadcast. -/
inductive Act (ι : Type u) where
  | run (i : Nat)
  | signal (i j : Nat)
  | wake (j : Nat)
  | push (job : ι)
  | terminate (i : Nat)
  | broadcast
  deriving DecidableEq, Repr

/-- The pool after `nThreadPoolCreate`, when every worker could be created. The links of
the jobs are what they are. -/
def nThreadPoolCreate (links : Links ι) (numWorker : Int) : NThreadPool ι where
  jobs := {links with list := none}
  mtx := none
  terminate := fun _ => false
  threads := List.replicate (if numWorker < 1 then 1 else numWorker.toNat) .locking
  pushed := []
  ran := []

namespace NThreadPool

def goto (s : NThreadPool ι) (i : Nat) (pc : Pc ι) (mtx : Option Nat) : NThreadPool ι :=
  {s with threads := s.threads.set i pc, mtx := mtx}

/-- The next step of a thread. Taking a job from an empty list would read through the
null pointer; no step is said to follow. -/
def run (s : NThreadPool ι) (i : Nat) : Pc ι → Option (NThreadPool ι)
  | .locking | .relocking => if s.mtx = none then some (s.goto i .testing (some i)) else none
  | .testing =>
      if s.jobs.list = none then
        if s.terminate i then some (s.goto i .checking s.mtx) else some (s.goto i .idling s.mtx)
      else some (s.goto i .checking s.mtx)
  | .idling => some (s.goto i .waiting none)
  | .checking => some (s.goto i (if s.terminate i then .quitting else .taking) s.mtx)
  | .quitting => some (s.goto i .exited none)
  | .taking =>
      match s.jobs.list with
      | some job => some {s.goto i (.unlocking job) s.mtx with jobs := LL_REMOVE job s.jobs}
      | none => none
  | .unlocking job => some (s.goto i (.running job) none)
  | .running job => some {s.goto i .locking s.mtx with ran := s.ran ++ [job]}
  | .pushing job => if s.mtx = none then some (s.goto i (.inserting job) (some i)) else none
  | .inserting job => some {s.goto i .signalling s.mtx with jobs := LL_INSERT job s.jobs}
  | .releasing => some (s.goto i .returned none)
  | .waiting | .exited | .signalling | .returned => none

/-- `pthread_cond_signal` wakes a worker that waits, if there is one. -/
def signal (s : NThreadPool ι) (i j : Nat) : Option (NThreadPool ι) :=
  if s.threads[j]? = some .waiting then
    some ((s.goto j .relocking s.mtx).goto i .releasing s.mtx)
  else if .waiting ∈ s.threads then none
  else some (s.goto i .releasing s.mtx)

def step (s : NThreadPool ι) : Act ι → Option (NThreadPool ι)
  | .run i => s.threads[i]?.bind (s.run i)
  | .signal i j => if s.threads[i]? = some .signalling then s.signal i j else none
  | .wake j => if s.threads[j]? = some .waiting then some (s.goto j .relocking s.mtx) else none
  | .push job =>
      if job ∈ s.pushed then none
      else some {s with threads := s.threads ++ [.pushing job], pushed := s.pushed ++ [job]}
  | .terminate i => some {s with terminate := Function.update s.terminate i true}
  | .broadcast =>
      if s.mtx = none then
        some {s with threads := s.threads.map fun pc => if pc = .waiting then .relocking else pc}
      else none

/-- No thread can go on, unless one that waits wakes up by itself. -/
def AtRest (s : NThreadPool ι) : Prop :=
  ∀ i, s.step (.run i) = none ∧ ∀ j, s.step (.signal i j) = none

end NThreadPool

end LearningCpp.SimplePool
