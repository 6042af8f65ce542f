import Mathlib.Tactic
import LearningCpp.Library.Machine
import LearningCpp.Library.Mutex

/-!
The thread pool of `zl_threadpool/ThreadPoolCpp98`. `stop` writes `isRunning_` and
broadcasts without the mutex, so both can fall between the test of a worker and its
wait. What a thread does between two looks at `isRunning_` with the mutex held is one
step.
-/

namespace LearningCpp.Pool98

open LearningCpp.Library

/-- Where a worker is in `threadFunc` and `take`. It has the mutex while it tests, when
it has found the queue empty and the pool running and is about to wait, and when it is
past the loop. -/
inductive Worker where
  | looping
  | locking
  | testing
  | waiting
  | blocked
  | relocking
  | leaving
  | running (task : Nat)
  | exited
  deriving DecidableEq, Repr

/-- Where the caller of `stop` is: it has found `isRunning_` set, has cleared it, and
after the broadcast joins the threads one by one. -/
inductive Stopper where
  | idle
  | entered
  | written
  | joining (i : Nat)
  | stopped
  deriving DecidableEq, Repr

/-- The pool, the thread that has `mutex_`, and the calls of `addTask` that have still to
signal. -/
structure ThreadPool where
  isRunning : Bool
  taskQueue : List Nat
  mutex : Option Nat
  workers : List Worker
  stopper : Stopper
  signals : Nat
  ran : List Nat
  deriving DecidableEq, Repr

/-- A worker goes on; a worker that waits wakes up by itself; a task is added; the
signal for one is sent and wakes worker `i`; `stop` goes on. -/
inductive Act where
  | run (i : Nat)
  | wake (i : Nat)
  | addTask (task : Nat)
  | signal (i : Nat)
  | stop
  deriving DecidableEq, Repr

/-- The pool after its constructor with `threadNum` threads. -/
def start (threadNum : Nat) : ThreadPool where
  isRunning := true
  taskQueue := []
  mutex := none
  workers := List.replicate threadNum .looping
  stopper := .idle
  signals := 0
  ran := []

namespace ThreadPool

def goto (s : ThreadPool) (i : Nat) (pc : Worker) : ThreadPool :=
  {s with workers := s.workers.set i pc}

/-- The next step of worker `i`. -/
def run (s : ThreadPool) (i : Nat) : Worker → Option ThreadPool
  | .looping => some (s.goto i (if s.isRunning then .locking else .exited))
  | .locking | .relocking =>
      if s.mutex = none then some {s.goto i .testing with mutex := some i} else none
  | .testing =>
      some (s.goto i (if s.taskQueue.isEmpty && s.isRunning then .waiting else .leaving))
  | .waiting => some {s.goto i .blocked with mutex := none}
  | .leaving =>
      if !s.isRunning then some {s.goto i .exited with mutex := none}
      else
        match s.taskQueue with
        | [] => some {s.goto i .locking with mutex := none}
        | task :: taskQueue =>
            some {s.goto i (.running task) with mutex := none, taskQueue := taskQueue}
  | .running task => some {s.goto i .looping with ran := s.ran ++ [task]}
  | .blocked | .exited => none

/-- `pthread_cond_broadcast` -/
def broadcast (s : ThreadPool) : ThreadPool :=
  {s with workers := s.workers.map fun pc => if pc = .blocked then .relocking else pc}

/-- The next step of `stop`. -/
def stop (s : ThreadPool) : Option ThreadPool :=
  match s.stopper with
  | .idle => some {s with stopper := if s.isRunning then .entered else .stopped}
  | .entered => some {s with isRunning := false, stopper := .written}
  | .written => some {s.broadcast with stopper := .joining 0}
  | .joining i =>
      match s.workers[i]? with
      | none => some {s with stopper := .stopped}
      | some .exited => some {s with stopper := .joining (i + 1)}
      | some _ => none
  | .stopped => none

def step (s : ThreadPool) : Act → Option ThreadPool
  | .run i => s.workers[i]?.bind (s.run i)
  | .wake i => if s.workers[i]? = some .blocked then some (s.goto i .relocking) else none
  | .addTask task =>
      if s.mutex = none ∧ s.stopper ≠ .stopped then
        some {s with taskQueue := s.taskQueue ++ [task], signals := s.signals + 1}
      else none
  | .signal i =>
      if s.signals = 0 then none
      else if s.workers[i]? = some .blocked then
        some {s.goto i .relocking with signals := s.signals - 1}
      else if .blocked ∈ s.workers then none
      else some {s with signals := s.signals - 1}
  | .stop => s.stop

end ThreadPool

/-- `stop` has broadcast. -/
def Stopper.HasBroadcast : Stopper → Prop
  | .joining _ | .stopped => True
  | .idle | .entered | .written => False

/-- When `stop` broadcasts no worker is between its test and its wait. -/
def NoneBetween (s : ThreadPool) (a : Act) : Prop :=
  a = .stop → s.stopper = .written → ∀ i : Nat, s.workers[i]? ≠ some Worker.waiting

/-- What the condition at the broadcast preserves. -/
structure Awake (s : ThreadPool) : Prop where
  fresh : s.stopper = .idle → s.isRunning = true
  cleared : s.stopper ≠ .idle → s.stopper ≠ .entered → s.isRunning = false
  awake : s.stopper.HasBroadcast → ∀ {i : Nat} {pc : Worker}, s.workers[i]? = some pc →
    pc ≠ .waiting ∧ pc ≠ .blocked

private theorem start_awake (threadNum : Nat) : Awake (start threadNum) := by
  constructor
  · exact fun _ => rfl
  · exact fun hidle => absurd rfl hidle
  · exact fun hbroadcast => hbroadcast.elim

variable {s s' : ThreadPool} {i : Nat} {pc : Worker}

theorem Stopper.HasBroadcast.cleared (h : Awake s) (hbroadcast : s.stopper.HasBroadcast) :
    s.isRunning = false := by
  apply h.cleared <;> (intro heq; rw [heq] at hbroadcast; exact hbroadcast)

/-- A worker goes to a place where it neither waits nor is about to. -/
theorem Awake.goto (h : Awake s) (hpc : s.workers[i]? = some pc) (pc' : Worker)
    (hnew : s.stopper.HasBroadcast → pc' ≠ .waiting ∧ pc' ≠ .blocked) : Awake (s.goto i pc') := by
  refine ⟨h.fresh, h.cleared, ?_⟩
  intro hbroadcast j pc₀ hpc₀
  exact Mutex.forall_set hpc (hnew hbroadcast) (fun _ hold => h.awake hbroadcast hold) hpc₀

theorem Awake.run (h : Awake s) (hpc : s.workers[i]? = some pc) (hrun : s.run i pc = some s') :
    Awake s' := by
  cases pc with
  | looping =>
    cases hrun
    apply h.goto hpc
    split <;> simp
  | locking =>
    simp only [ThreadPool.run] at hrun
    split at hrun
    · cases hrun
      exact {h.goto hpc .testing (by simp) with}
    · cases hrun
  | relocking =>
    simp only [ThreadPool.run] at hrun
    split at hrun
    · cases hrun
      exact {h.goto hpc .testing (by simp) with}
    · cases hrun
  | testing =>
    cases hrun
    apply h.goto hpc
    intro hbroadcast
    rw [hbroadcast.cleared h]
    simp
  | waiting =>
    cases hrun
    refine {h.goto hpc .blocked ?_ with}
    intro hbroadcast
    exact absurd rfl (h.awake hbroadcast hpc).1
  | blocked => cases hrun
  | leaving =>
    simp only [ThreadPool.run] at hrun
    split at hrun
    · cases hrun
      exact {h.goto hpc .exited (by simp) with}
    · split at hrun
      next =>
        cases hrun
        exact {h.goto hpc .locking (by simp) with}
      next task taskQueue _ =>
        cases hrun
        exact {h.goto hpc (.running task) (by simp) with}
  | running task =>
    cases hrun
    exact {h.goto hpc .looping (by simp) with}
  | exited => cases hrun

theorem Awake.stop (h : Awake s) (hbetween : NoneBetween s .stop) (hstop : s.stop = some s') :
    Awake s' := by
  unfold ThreadPool.stop at hstop
  split at hstop
  next hidle =>
    rw [if_pos (h.fresh hidle)] at hstop
    cases hstop
    exact ⟨by simp, by simp, fun hbroadcast => hbroadcast.elim⟩
  next =>
    cases hstop
    exact ⟨by simp, fun _ _ => rfl, fun hbroadcast => hbroadcast.elim⟩
  next hwritten =>
    cases hstop
    refine ⟨by simp, fun _ _ => h.cleared (by simp [hwritten]) (by simp [hwritten]), ?_⟩
    intro _ i pc hpc
    -- those that waited are woken, and no other one is about to wait
    simp only [ThreadPool.broadcast, List.getElem?_map, Option.map_eq_some_iff] at hpc
    obtain ⟨pc₀, hold, rfl⟩ := hpc
    split
    next => simp
    next hblocked =>
      refine ⟨?_, hblocked⟩
      rintro rfl
      exact hbetween rfl hwritten i hold
  next k hjoining =>
    have hbroadcast : s.stopper.HasBroadcast := by
      rw [hjoining]
      trivial
    have hcleared := hbroadcast.cleared h
    split at hstop <;> cases hstop
    · exact ⟨by simp, fun _ _ => hcleared, fun _ _ _ => h.awake hbroadcast⟩
    · exact ⟨by simp, fun _ _ => hcleared, fun _ _ _ => h.awake hbroadcast⟩
  next => cases hstop

theorem Awake.step {a : Act} (h : Awake s) (hbetween : NoneBetween s a)
    (hstep : s.step a = some s') : Awake s' := by
  cases a with
  | run i =>
    obtain ⟨pc, hpc, hrun⟩ := Option.bind_eq_some_iff.1 hstep
    exact h.run hpc hrun
  | wake i =>
    simp only [ThreadPool.step] at hstep
    split at hstep
    next hblocked =>
      cases hstep
      exact h.goto hblocked .relocking (by simp)
    next => cases hstep
  | addTask task =>
    simp only [ThreadPool.step] at hstep
    split at hstep
    · cases hstep
      exact {h with}
    · cases hstep
  | signal i =>
    simp only [ThreadPool.step] at hstep
    split at hstep
    · cases hstep
    · split at hstep
      next hblocked =>
        cases hstep
        exact {h.goto hblocked .relocking (by simp) with}
      next =>
        split at hstep
        · cases hstep
        · cases hstep
          exact {h with}
  | stop => exact h.stop hbetween hstep

/-- Whoever is about to wait when `stop` broadcasts sleeps after it. -/
theorem blocked_after_broadcast (hwritten : s.stopper = .written)
    (hi : s.workers[i]? = some .waiting) :
    ∃ t, runSteps ThreadPool.step s [.stop, .run i] = some t ∧ t.stopper.HasBroadcast ∧
      t.workers[i]? = some .blocked := by
  have hlt : i < s.workers.length := (List.getElem?_eq_some_iff.1 hi).1
  have hkept : s.broadcast.workers[i]? = some .waiting := by
    simp [ThreadPool.broadcast, hi]
  have hstop : s.step .stop = some {s.broadcast with stopper := .joining 0} := by
    simp only [ThreadPool.step, ThreadPool.stop, hwritten]
  have hwait : ThreadPool.step {s.broadcast with stopper := .joining 0} (.run i) =
      some {s.broadcast with
        stopper := .joining 0, workers := s.broadcast.workers.set i .blocked, mutex := none} := by
    simp only [ThreadPool.step, hkept]
    rfl
  refine ⟨_, runSteps_cons_iff.2 ⟨_, hstop, runSteps_cons_iff.2 ⟨_, hwait, rfl⟩⟩, trivial, ?_⟩
  simp [ThreadPool.broadcast, hlt]

/-- If at its broadcast no worker is between its test and its wait, none sleeps once `stop`
has broadcast, nor ever after; otherwise one can. -/
theorem stop_wakes_all (threadNum : Nat) :
    (∀ as s, runSteps ThreadPool.step (start threadNum) as = some s →
      Along ThreadPool.step NoneBetween (start threadNum) as → s.stopper.HasBroadcast →
        s.isRunning = false ∧ ∀ i : Nat, s.workers[i]? ≠ some Worker.blocked) ∧
    ∀ as s, runSteps ThreadPool.step (start threadNum) as = some s → ¬ NoneBetween s .stop →
      ∃ bs t, runSteps ThreadPool.step s bs = some t ∧ t.stopper.HasBroadcast ∧
        ∃ i : Nat, t.workers[i]? = some Worker.blocked := by
  constructor
  · intro as s hrun halong hbroadcast
    have hawake := invariant_along (I := Awake) (fun h hok hstep => h.step hok hstep)
      (start_awake threadNum) halong hrun
    refine ⟨hbroadcast.cleared hawake, ?_⟩
    intro i hi
    exact (hawake.awake hbroadcast hi).2 rfl
  · intro as s _ hbetween
    simp only [NoneBetween, not_forall, not_not] at hbetween
    obtain ⟨-, hwritten, i, hi⟩ := hbetween
    obtain ⟨t, hrun, hbroadcast, hblocked⟩ := blocked_after_broadcast hwritten hi
    exact ⟨_, t, hrun, hbroadcast, i, hblocked⟩

/-- A pool that is stopped before its worker has tested anything. -/
theorem stop_wakes_all_early :
    ∃ s, runSteps ThreadPool.step (start 1) [.stop, .stop, .stop] = some s ∧
      s.stopper.HasBroadcast ∧ s.workers[0]? ≠ some Worker.blocked := by
  have hrun : runSteps ThreadPool.step (start 1) [.stop, .stop, .stop] = some _ := rfl
  have halong : Along ThreadPool.step NoneBetween (start 1) [.stop, .stop, .stop] := by
    refine ⟨by simp [NoneBetween, start], ?_⟩
    rintro _ ⟨⟩
    refine ⟨by simp [NoneBetween, start], ?_⟩
    rintro _ ⟨⟩
    refine ⟨?_, fun _ _ => trivial⟩
    intro _ _ i hi
    cases i <;> cases hi
  exact ⟨_, hrun, trivial, ((stop_wakes_all 1).1 _ _ hrun halong trivial).2 0⟩

/-- One worker finds the queue empty and the pool running, then `stop` clears the flag and
broadcasts, then the worker waits: `stop` joins a thread that sleeps. -/
theorem stop_loses_wakeup :
    ¬ ∀ threadNum as s, runSteps ThreadPool.step (start threadNum) as = some s →
      s.stopper.HasBroadcast → s.isRunning = false →
        ∀ i : Nat, s.workers[i]? ≠ some Worker.blocked := by
  intro hall
  have hrun : runSteps ThreadPool.step (start 1)
      [.run 0, .run 0, .run 0, .stop, .stop, .stop, .run 0] = some _ := rfl
  exact hall 1 _ _ hrun trivial rfl 0 rfl

end LearningCpp.Pool98
