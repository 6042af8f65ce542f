import Mathlib.Tactic
import LearningCpp.Library.Census
import LearningCpp.Library.Machine
import LearningCpp.Library.Mutex

/-!
The thread pool of `zl_threadpool/ThreadPoolCpp14`. A worker keeps the mutex from its
test of the queue to its wait, and the destructor sets `is_shutdown_` with the mutex, so
no wakeup is lost and the queue is drained before a worker exits.
-/

namespace LearningCpp.Pool14

open LearningCpp.Library

/-- Where a worker is: it wants the mutex, is at the top of its loop with the mutex, is
about to wait with the mutex, waits, was woken, or runs a task without the mutex. -/
inductive Worker where
  | locking
  | looping
  | waiting
  | blocked
  | relocking
  | running (current : Nat)
  | exited
  deriving DecidableEq, Repr

def Worker.HoldsLock : Worker → Prop
  | .looping | .waiting => True
  | _ => False

/-- The destructor has not begun, has set `is_shutdown_`, or has notified all. -/
inductive Destructor where
  | idle
  | shut
  | notified
  deriving DecidableEq, Repr

/-- `ThreadPool::data` and the threads. A task is known by its number among all the tasks
submitted. Kept for the specification: the tasks dequeued and the tasks run, in order,
and how many were submitted before `is_shutdown_` was set. -/
structure ThreadPool where
  mtx : Option Nat
  is_shutdown : Bool
  tasks : List Nat
  workers : List Worker
  destructor : Destructor
  notifies : Nat
  submitted : Nat
  dequeued : List Nat
  ran : List Nat
  before : Option Nat
  deriving DecidableEq, Repr

/-- A worker goes on; a worker that waits wakes up by itself; `execute` queues a task,
and later notifies one, which wakes worker `i`; the destructor goes on. -/
inductive Act where
  | run (i : Nat)
  | wake (i : Nat)
  | execute
  | notify (i : Nat)
  | destroy
  deriving DecidableEq, Repr

/-- The pool after its constructor. -/
def start (thread_count : Nat) : ThreadPool where
  mtx := none
  is_shutdown := false
  tasks := []
  workers := List.replicate thread_count .locking
  destructor := .idle
  notifies := 0
  submitted := 0
  dequeued := []
  ran := []
  before := none

namespace ThreadPool

def goto (s : ThreadPool) (i : Nat) (pc : Worker) (mtx : Option Nat) : ThreadPool :=
  {s with workers := s.workers.set i pc, mtx := mtx}

/-- The next step of worker `i`. -/
def run (s : ThreadPool) (i : Nat) : Worker → Option ThreadPool
  | .locking | .relocking => if s.mtx = none then some (s.goto i .looping (some i)) else none
  | .looping =>
      match s.tasks with
      | current :: tasks =>
          some {s.goto i (.running current) none with
            tasks := tasks, dequeued := s.dequeued ++ [current] }
      | [] => some (if s.is_shutdown then s.goto i .exited none else s.goto i .waiting s.mtx)
  | .waiting => some (s.goto i .blocked none)
  | .running current => some {s.goto i .locking s.mtx with ran := s.ran ++ [current]}
  | .blocked | .exited => none

/-- The next step of the destructor. -/
def destroy (s : ThreadPool) : Option ThreadPool :=
  match s.destructor with
  | .idle =>
      if s.mtx = none then
        some {s with is_shutdown := true, destructor := .shut, before := some s.submitted}
      else none
  | .shut =>
      some {s with
        workers := s.workers.map fun pc => if pc = .blocked then .relocking else pc
        destructor := .notified }
  | .notified => none

def step (s : ThreadPool) : Act → Option ThreadPool
  | .run i => s.workers[i]?.bind (s.run i)
  | .wake i => if s.workers[i]? = some .blocked then some (s.goto i .relocking s.mtx) else none
  | .execute =>
      if s.mtx = none then
        some {s with
          tasks := s.tasks ++ [s.submitted]
          submitted := s.submitted + 1
          notifies := s.notifies + 1 }
      else none
  | .notify i =>
      if s.notifies = 0 then none
      else if s.workers[i]? = some .blocked then
        some {s.goto i .relocking s.mtx with notifies := s.notifies - 1}
      else if .blocked ∈ s.workers then none
      else some {s with notifies := s.notifies - 1}
  | .destroy => s.destroy

end ThreadPool

/-- What holds in every state. -/
structure Sound (s : ThreadPool) : Prop where
  mutex : Mutex s.workers Worker.HoldsLock s.mtx
  order : s.dequeued ++ s.tasks = List.range s.submitted
  counted : ∀ n, s.ran.count n + s.workers.count (.running n) = s.dequeued.count n
  shut : s.destructor ≠ .idle ↔ s.is_shutdown = true
  before : s.is_shutdown = true → ∃ n, s.before = some n ∧ n ≤ s.submitted
  testing : s.is_shutdown = true → Worker.waiting ∉ s.workers
  notified : s.destructor = .notified → Worker.blocked ∉ s.workers
  drained : Worker.exited ∈ s.workers →
    s.is_shutdown = true ∧ ∃ n, s.before = some n ∧ n ≤ s.dequeued.length

variable {s s' : ThreadPool} {i : Nat} {pc : Worker}

theorem start_sound (thread_count : Nat) : Sound (start thread_count) := by
  have hworkers : ∀ pc ∈ (start thread_count).workers, pc = .locking :=
    fun pc hpc => List.eq_of_mem_replicate hpc
  constructor
  · apply Mutex.free
    intro pc hpc
    rw [hworkers pc hpc]
    exact id
  · rfl
  · intro n
    simp [start, List.count_replicate]
  · simp [start]
  · simp [start]
  · simp [start]
  · simp [start]
  · intro hexited
    cases hworkers _ hexited

theorem Sound.length_dequeued (h : Sound s) (hempty : s.tasks = []) :
    s.dequeued.length = s.submitted := by
  have horder := h.order
  rw [hempty, List.append_nil] at horder
  rw [horder, List.length_range]

/-- A worker goes on that neither took nor ran a task. -/
theorem Sound.move (h : Sound s) (hpc : s.workers[i]? = some pc) {pc' : Worker} {mtx : Option Nat}
    (hmutex : Mutex (s.workers.set i pc') Worker.HoldsLock mtx)
    (hold : ∀ n, pc ≠ .running n) (hnew : ∀ n, pc' ≠ .running n)
    (hwaiting : pc' = .waiting → s.is_shutdown = false)
    (hblocked : pc' = .blocked → s.destructor ≠ .notified)
    (hexited : pc' = .exited → s.is_shutdown = true ∧ s.tasks = []) : Sound (s.goto i pc' mtx) := by
  constructor
  · exact hmutex
  · exact h.order
  · intro n
    have hcount := count_set_add hpc pc' (.running n)
    have hcounted := h.counted n
    rw [if_neg (hold n), if_neg (hnew n)] at hcount
    simp only [ThreadPool.goto]
    omega
  · exact h.shut
  · exact h.before
  · intro hshut hmem
    rcases List.mem_or_eq_of_mem_set hmem with hmem | heq
    · exact h.testing hshut hmem
    · exact Bool.false_ne_true ((hwaiting heq.symm).symm.trans hshut)
  · intro hnotified hmem
    rcases List.mem_or_eq_of_mem_set hmem with hmem | heq
    · exact h.notified hnotified hmem
    · exact hblocked heq.symm hnotified
  · intro hmem
    rcases List.mem_or_eq_of_mem_set hmem with hmem | heq
    · exact h.drained hmem
    · obtain ⟨hshut, hempty⟩ := hexited heq.symm
      obtain ⟨n, hn, hle⟩ := h.before hshut
      exact ⟨hshut, n, hn, by rw [← h.length_dequeued hempty] at hle; exact hle⟩

/-- A worker takes the first task of the queue. -/
theorem Sound.dequeue (h : Sound s) (hpc : s.workers[i]? = some .looping) {current : Nat}
    {tasks : List Nat} (htasks : s.tasks = current :: tasks) :
    Sound {s.goto i (.running current) none with
      tasks := tasks, dequeued := s.dequeued ++ [current] } := by
  constructor
  · exact h.mutex.release hpc trivial id
  · have horder := h.order
    rw [htasks] at horder
    simpa [ThreadPool.goto] using horder
  · intro n
    have hcount := count_set_add hpc (.running current) (.running n)
    have hcounted := h.counted n
    simp only [ThreadPool.goto, List.count_append, List.count_singleton, Worker.running.injEq,
      reduceCtorEq, if_false, beq_iff_eq] at hcount ⊢
    omega
  · exact h.shut
  · exact h.before
  · exact fun hshut hz => h.testing hshut (mem_of_mem_set hz nofun)
  · exact fun hnotified hz => h.notified hnotified (mem_of_mem_set hz nofun)
  · intro hz
    obtain ⟨hshut, n, hn, hle⟩ := h.drained (mem_of_mem_set hz nofun)
    refine ⟨hshut, n, hn, ?_⟩
    simp only [List.length_append]
    omega

/-- A task returns, and its worker wants the mutex. -/
theorem Sound.finish (h : Sound s) {current : Nat}
    (hpc : s.workers[i]? = some (.running current)) :
    Sound {s.goto i .locking s.mtx with ran := s.ran ++ [current]} := by
  constructor
  · exact h.mutex.move hpc Iff.rfl
  · exact h.order
  · intro n
    have hcount := count_set_add hpc .locking (.running n)
    have hcounted := h.counted n
    simp only [ThreadPool.goto, List.count_append, List.count_singleton, Worker.running.injEq,
      reduceCtorEq, if_false, beq_iff_eq] at hcount ⊢
    omega
  · exact h.shut
  · exact h.before
  · exact fun hshut hz => h.testing hshut (mem_of_mem_set hz nofun)
  · exact fun hnotified hz => h.notified hnotified (mem_of_mem_set hz nofun)
  · exact fun hz => h.drained (mem_of_mem_set hz nofun)

theorem Sound.run (h : Sound s) (hpc : s.workers[i]? = some pc) (hrun : s.run i pc = some s') :
    Sound s' := by
  cases pc with
  | locking | relocking =>
    simp only [ThreadPool.run] at hrun
    split at hrun
    next hfree =>
      cases hrun
      exact h.move hpc (h.mutex.acquire hfree hpc trivial) nofun nofun nofun nofun nofun
    next => cases hrun
  | looping =>
    simp only [ThreadPool.run] at hrun
    split at hrun
    next current tasks htasks =>
      cases hrun
      exact h.dequeue hpc htasks
    next hempty =>
      cases hrun
      split
      next hshut =>
        exact h.move hpc (h.mutex.release hpc trivial id) nofun nofun nofun nofun
          fun _ => ⟨hshut, hempty⟩
      next hopen =>
        refine h.move hpc (h.mutex.move hpc ⟨fun _ => trivial, fun _ => trivial⟩) nofun nofun ?_
          nofun nofun
        exact fun _ => Bool.eq_false_iff.2 hopen
  | waiting =>
    cases hrun
    refine h.move hpc (h.mutex.release hpc trivial id) nofun nofun nofun ?_ nofun
    -- a worker that is about to wait has seen the pool open, and holds the mutex
    intro _ hnotified
    have hshut := h.shut.1 (by rw [hnotified]; nofun)
    exact h.testing hshut (List.mem_of_getElem? hpc)
  | blocked => cases hrun
  | running current =>
    cases hrun
    exact h.finish hpc
  | exited => cases hrun

theorem Sound.wake (h : Sound s) (hpc : s.workers[i]? = some .blocked) :
    Sound (s.goto i .relocking s.mtx) :=
  h.move hpc (h.mutex.move hpc Iff.rfl) nofun nofun nofun nofun nofun

theorem Sound.destroy (h : Sound s) (hdestroy : s.destroy = some s') : Sound s' := by
  unfold ThreadPool.destroy at hdestroy
  split at hdestroy
  next hidle =>
    split at hdestroy
    next hfree =>
      cases hdestroy
      constructor
      · exact h.mutex
      · exact h.order
      · exact h.counted
      · simp
      · exact fun _ => ⟨_, rfl, le_rfl⟩
      · intro _ hmem
        obtain ⟨j, hj⟩ := List.mem_iff_getElem?.1 hmem
        exact h.mutex.not_holding_of_free hfree hj trivial
      · nofun
      · intro hmem
        exact absurd hidle (h.shut.2 (h.drained hmem).1)
    next => cases hdestroy
  next hshutting =>
    cases hdestroy
    have hmem : ∀ z : Worker, z ≠ .relocking →
        z ∈ (s.workers.map fun pc => if pc = .blocked then .relocking else pc) →
          z ∈ s.workers ∧ z ≠ .blocked := by
      intro z hne hz
      obtain ⟨pc, hpc, rfl⟩ := List.mem_map.1 hz
      split at hne
      next => exact absurd rfl hne
      next hawake =>
        rw [if_neg hawake]
        exact ⟨hpc, hawake⟩
    constructor
    · apply h.mutex.map
      intro pc
      split
      next hblocked =>
        rw [hblocked]
        exact Iff.rfl
      next => exact Iff.rfl
    · exact h.order
    · intro n
      rw [← h.counted n]
      simp only [List.count_eq_countP, List.countP_map]
      congr 1
      apply List.countP_congr
      intro pc _
      cases pc <;> simp
    · simp [← h.shut, hshutting]
    · exact h.before
    · exact fun hshut hz => h.testing hshut (hmem .waiting nofun hz).1
    · exact fun _ hz => (hmem .blocked nofun hz).2 rfl
    · exact fun hz => h.drained (hmem .exited nofun hz).1
  next => cases hdestroy

theorem Sound.execute (h : Sound s) :
    Sound {s with
      tasks := s.tasks ++ [s.submitted]
      submitted := s.submitted + 1
      notifies := s.notifies + 1 } where
  mutex := h.mutex
  order := by rw [List.range_succ, ← h.order, List.append_assoc]
  counted := h.counted
  shut := h.shut
  before hshut := by
    obtain ⟨n, hn, hle⟩ := h.before hshut
    exact ⟨n, hn, Nat.le_succ_of_le hle⟩
  testing := h.testing
  notified := h.notified
  drained := h.drained

theorem Sound.step {a : Act} (h : Sound s) (hstep : s.step a = some s') : Sound s' := by
  cases a with
  | run i =>
    obtain ⟨pc, hpc, hrun⟩ := Option.bind_eq_some_iff.1 hstep
    exact h.run hpc hrun
  | wake i =>
    simp only [ThreadPool.step] at hstep
    split at hstep
    next hblocked =>
      cases hstep
      exact h.wake hblocked
    next => cases hstep
  | execute =>
    simp only [ThreadPool.step] at hstep
    split at hstep
    · cases hstep
      exact h.execute
    · cases hstep
  | notify i =>
    simp only [ThreadPool.step] at hstep
    split at hstep
    · cases hstep
    · split at hstep
      next hblocked =>
        cases hstep
        exact {h.wake hblocked with}
      next =>
        split at hstep
        · cases hstep
        · cases hstep
          exact {h with}
  | destroy => exact h.destroy hstep

theorem sound_of_run {thread_count : Nat} {as : List Act}
    (hrun : runSteps ThreadPool.step (start thread_count) as = some s) : Sound s :=
  invariant_run (fun h hstep => Sound.step h hstep) (start_sound thread_count) hrun

/-- What a step does to the places of the workers. A worker goes to its exit only when the
pool is shut down and the queue empty. -/
def MovesWorkers (s s' : ThreadPool) : Prop :=
  s'.workers = s.workers ∨
    (∃ (j : Nat) (pc pc' : Worker), s.workers[j]? = some pc ∧ s'.workers = s.workers.set j pc' ∧
      (pc' = .exited → s.is_shutdown = true ∧ s.tasks = [])) ∨
    s'.workers = s.workers.map fun pc => if pc = .blocked then .relocking else pc

theorem movesWorkers_of_set {pc' : Worker} (hpc : s.workers[i]? = some pc)
    (hset : s'.workers = s.workers.set i pc')
    (hexited : pc' = .exited → s.is_shutdown = true ∧ s.tasks = []) : MovesWorkers s s' :=
  Or.inr (Or.inl ⟨i, pc, pc', hpc, hset, hexited⟩)

private theorem movesWorkers_run (hpc : s.workers[i]? = some pc) (hrun : s.run i pc = some s') :
    MovesWorkers s s' := by
  cases pc with
  | locking | relocking =>
    simp only [ThreadPool.run] at hrun
    split at hrun
    · cases hrun
      exact movesWorkers_of_set hpc rfl nofun
    · cases hrun
  | looping =>
    simp only [ThreadPool.run] at hrun
    split at hrun
    next =>
      cases hrun
      exact movesWorkers_of_set hpc rfl nofun
    next hempty =>
      cases hrun
      split
      next hshut =>
        exact movesWorkers_of_set hpc rfl fun _ => ⟨hshut, hempty⟩
      next => exact movesWorkers_of_set hpc rfl nofun
  | waiting | running =>
    cases hrun
    exact movesWorkers_of_set hpc rfl nofun
  | blocked | exited => cases hrun

theorem movesWorkers_step {a : Act} (hstep : s.step a = some s') : MovesWorkers s s' := by
  cases a with
  | run j =>
    obtain ⟨pc, hpc, hrun⟩ := Option.bind_eq_some_iff.1 hstep
    exact movesWorkers_run hpc hrun
  | wake j =>
    simp only [ThreadPool.step] at hstep
    split at hstep
    next hblocked =>
      cases hstep
      exact movesWorkers_of_set hblocked rfl nofun
    next => cases hstep
  | execute =>
    simp only [ThreadPool.step] at hstep
    split at hstep <;> cases hstep
    exact Or.inl rfl
  | notify j =>
    simp only [ThreadPool.step] at hstep
    split at hstep
    · cases hstep
    · split at hstep
      next hblocked =>
        cases hstep
        exact movesWorkers_of_set hblocked rfl nofun
      next =>
        split at hstep <;> cases hstep
        exact Or.inl rfl
  | destroy =>
    simp only [ThreadPool.step, ThreadPool.destroy] at hstep
    split at hstep
    · split at hstep <;> cases hstep
      exact Or.inl rfl
    · cases hstep
      exact Or.inr (Or.inr rfl)
    · cases hstep

theorem MovesWorkers.length_eq (h : MovesWorkers s s') : s'.workers.length = s.workers.length := by
  rcases h with heq | ⟨j, pc, pc', -, heq, -⟩ | heq <;> simp [heq]

theorem MovesWorkers.exited (h : MovesWorkers s s') (hrunning : s.workers[i]? ≠ some .exited)
    (hexited : s'.workers[i]? = some .exited) : s.is_shutdown = true ∧ s.tasks = [] := by
  rcases h with heq | ⟨j, pc, pc', hpc, heq, hshut⟩ | heq
  · rw [heq] at hexited
    exact absurd hexited hrunning
  · rw [heq] at hexited
    rcases (Mutex.getElem?_set_of_some hpc i).1 hexited with ⟨-, hpc'⟩ | ⟨-, hold⟩
    · exact hshut hpc'
    · exact absurd hold hrunning
  · rw [heq, List.getElem?_map] at hexited
    obtain ⟨pc, hpc, heq⟩ := Option.map_eq_some_iff.1 hexited
    split at heq
    · cases heq
    · rw [heq] at hpc
      exact absurd hpc hrunning

private theorem length_workers {thread_count : Nat} {as : List Act}
    (hrun : runSteps ThreadPool.step (start thread_count) as = some s) :
    s.workers.length = thread_count := by
  refine invariant_run (I := fun s => s.workers.length = thread_count) ?_ ?_ hrun
  · exact fun h hstep => (movesWorkers_step hstep).length_eq.trans h
  · simp [start]

private theorem records_run (hrun : s.run i pc = some s') :
    s'.submitted = s.submitted ∧ s'.before = s.before ∧ s'.destructor = s.destructor := by
  cases pc with
  | locking | relocking =>
    simp only [ThreadPool.run] at hrun
    split at hrun <;> cases hrun
    exact ⟨rfl, rfl, rfl⟩
  | looping =>
    simp only [ThreadPool.run] at hrun
    split at hrun
    next =>
      cases hrun
      exact ⟨rfl, rfl, rfl⟩
    next =>
      cases hrun
      split
      next => exact ⟨rfl, rfl, rfl⟩
      next => exact ⟨rfl, rfl, rfl⟩
  | waiting | running =>
    cases hrun
    exact ⟨rfl, rfl, rfl⟩
  | blocked | exited => cases hrun

/-- `submitted` counts the calls of `execute`, and `before` is written once, by the first step
of the destructor. -/
theorem records_step {a : Act} (hstep : s.step a = some s') :
    s'.submitted = s.submitted + [a].count .execute ∧
      (a ≠ .destroy ∨ s.destructor ≠ .idle → s'.before = s.before) ∧
      (a ≠ .destroy → s'.destructor = s.destructor) ∧
      (s.destructor ≠ .idle → s'.destructor ≠ .idle) := by
  cases a with
  | run j =>
    obtain ⟨pc, -, hrun⟩ := Option.bind_eq_some_iff.1 hstep
    obtain ⟨hsubmitted, hbefore, hdestructor⟩ := records_run hrun
    exact ⟨hsubmitted, fun _ => hbefore, fun _ => hdestructor, fun h => hdestructor ▸ h⟩
  | wake j =>
    simp only [ThreadPool.step] at hstep
    split at hstep <;> cases hstep
    exact ⟨rfl, fun _ => rfl, fun _ => rfl, id⟩
  | execute =>
    simp only [ThreadPool.step] at hstep
    split at hstep <;> cases hstep
    exact ⟨rfl, fun _ => rfl, fun _ => rfl, id⟩
  | notify j =>
    simp only [ThreadPool.step] at hstep
    split at hstep
    next => cases hstep
    next =>
      split at hstep
      next =>
        cases hstep
        exact ⟨rfl, fun _ => rfl, fun _ => rfl, id⟩
      next =>
        split at hstep <;> cases hstep
        exact ⟨rfl, fun _ => rfl, fun _ => rfl, id⟩
  | destroy =>
    simp only [ThreadPool.step, ThreadPool.destroy] at hstep
    split at hstep
    next hidle =>
      split at hstep <;> cases hstep
      refine ⟨rfl, ?_, fun h => absurd rfl h, fun h => absurd hidle h⟩
      rintro (h | h)
      · exact absurd rfl h
      · exact absurd hidle h
    next =>
      cases hstep
      exact ⟨rfl, fun _ => rfl, fun h => absurd rfl h, fun _ => Destructor.noConfusion⟩
    next => cases hstep

theorem submitted_run {as : List Act} (hrun : runSteps ThreadPool.step s as = some s') :
    s'.submitted = s.submitted + as.count .execute := by
  induction as generalizing s with
  | nil =>
    cases hrun
    rfl
  | cons a as ih =>
    obtain ⟨t, hstep, hrest⟩ := runSteps_cons_iff.1 hrun
    have hsplit : ([a] ++ as).count Act.execute = [a].count .execute + as.count .execute :=
      List.count_append
    rw [ih hrest, (records_step hstep).1, Nat.add_assoc, ← hsplit]
    rfl

theorem destructor_run {as : List Act} (hnone : Act.destroy ∉ as)
    (hrun : runSteps ThreadPool.step s as = some s') : s'.destructor = s.destructor := by
  induction as generalizing s with
  | nil =>
    cases hrun
    rfl
  | cons a as ih =>
    obtain ⟨t, hstep, hrest⟩ := runSteps_cons_iff.1 hrun
    rw [List.mem_cons, not_or] at hnone
    exact (ih hnone.2 hrest).trans ((records_step hstep).2.2.1 (Ne.symm hnone.1))

/-- `before` is the number of calls of `execute` before the destructor's first step. -/
theorem before_run {thread_count : Nat} {bs cs : List Act} (hfirst : Act.destroy ∉ bs)
    (hrun : runSteps ThreadPool.step (start thread_count) (bs ++ .destroy :: cs) = some s) :
    s.before = some (bs.count .execute) := by
  rw [runSteps_append, Option.bind_eq_some_iff] at hrun
  obtain ⟨t, hbs, hrest⟩ := hrun
  obtain ⟨u, hdestroy, hcs⟩ := runSteps_cons_iff.1 hrest
  have hidle : t.destructor = .idle := destructor_run hfirst hbs
  have hsubmitted : t.submitted = bs.count .execute := by
    rw [submitted_run hbs]
    exact Nat.zero_add _
  have hshut : u.before = some (bs.count .execute) ∧ u.destructor ≠ .idle := by
    simp only [ThreadPool.step, ThreadPool.destroy, hidle] at hdestroy
    split at hdestroy <;> cases hdestroy
    exact ⟨congrArg some hsubmitted, Destructor.noConfusion⟩
  refine (invariant_run (I := fun s => s.before = some (bs.count .execute) ∧
    s.destructor ≠ .idle) ?_ hshut hcs).1
  intro s s' a ⟨hbefore, hbegun⟩ hstep
  obtain ⟨-, hkept, -, hgoes⟩ := records_step hstep
  exact ⟨(hkept (Or.inr hbegun)).trans hbefore, hgoes hbegun⟩

/-- Tasks leave the queue in the order of their submission, one for each call of `execute`; a
worker exits only when the pool is shut down and the queue empty; after `notify_all` no worker
waits; and when all have exited every task submitted before the destructor has run once. -/
theorem thread_pool_drains {thread_count : Nat} (hpos : 1 ≤ thread_count) {as : List Act}
    (hrun : runSteps ThreadPool.step (start thread_count) as = some s) :
    s.dequeued ++ s.tasks = List.range s.submitted ∧ s.submitted = as.count .execute ∧
      (∀ a s' (i : Nat), s.step a = some s' → s.workers[i]? ≠ some Worker.exited →
        s'.workers[i]? = some Worker.exited → s.is_shutdown = true ∧ s.tasks = []) ∧
      (s.destructor = .notified → ∀ i : Nat, s.workers[i]? ≠ some Worker.blocked) ∧
      ((∀ pc ∈ s.workers, pc = Worker.exited) →
        ∃ bs cs, as = bs ++ .destroy :: cs ∧ .destroy ∉ bs ∧
          s.before = some (bs.count .execute) ∧ ∀ k < bs.count .execute, s.ran.count k = 1) := by
  have hsound := sound_of_run hrun
  have hsubmitted : s.submitted = as.count .execute := by
    rw [submitted_run hrun]
    exact Nat.zero_add _
  refine ⟨hsound.order, hsubmitted, fun _ _ _ hstep => (movesWorkers_step hstep).exited, ?_, ?_⟩
  · intro hnotified i hi
    exact hsound.notified hnotified (List.mem_of_getElem? hi)
  · intro hall
    have hsome : Worker.exited ∈ s.workers := by
      have hlength := length_workers hrun
      obtain ⟨pc, hpc⟩ := List.exists_mem_of_length_pos (l := s.workers) (by omega)
      exact hall pc hpc ▸ hpc
    obtain ⟨hshut, n, hn, hle⟩ := hsound.drained hsome
    have hdestroy : Act.destroy ∈ as := by
      by_contra hnone
      exact hsound.shut.2 hshut (destructor_run hnone hrun)
    obtain ⟨bs, cs, rfl, hfirst⟩ := List.eq_append_cons_of_mem hdestroy
    have hbefore := before_run hfirst hrun
    rw [hbefore, Option.some.injEq] at hn
    subst hn
    refine ⟨bs, cs, rfl, hfirst, hbefore, ?_⟩
    intro k hk
    have hidle : s.workers.count (.running k) = 0 := by
      rw [List.count_eq_zero]
      intro hmem
      cases hall _ hmem
    have hnodup : s.dequeued.Nodup := by
      have hrange := List.nodup_range (n := s.submitted)
      rw [← hsound.order] at hrange
      exact hrange.of_append_left
    have hmem : k ∈ s.dequeued := by
      have htaken : s.dequeued = List.range s.dequeued.length := by
        have hprefix := List.prefix_append s.dequeued s.tasks
        rw [hsound.order] at hprefix
        have htake := List.prefix_iff_eq_take.1 hprefix
        rwa [List.take_range, Nat.min_eq_left (by simpa using hprefix.length_le)] at htake
      rw [htaken, List.mem_range]
      omega
    have hcounted := hsound.counted k
    rw [hidle, Nat.add_zero] at hcounted
    rw [hcounted]
    exact List.count_eq_one_of_mem hnodup hmem

/-- A task is submitted and the pool destroyed before its worker has begun; it has run in the
end. -/
theorem thread_pool_drains_one :
    ∃ s, runSteps ThreadPool.step (start 1)
        [.execute, .destroy, .destroy, .run 0, .run 0, .run 0, .run 0, .run 0] = some s ∧
      (∀ pc ∈ s.workers, pc = Worker.exited) ∧ s.submitted = 1 ∧ s.ran.count 0 = 1 := by
  have hrun : runSteps ThreadPool.step (start 1)
      [.execute, .destroy, .destroy, .run 0, .run 0, .run 0, .run 0, .run 0] = some _ := rfl
  obtain ⟨-, hsubmitted, -, -, hdrained⟩ := thread_pool_drains le_rfl hrun
  obtain ⟨bs, cs, -, -, hbefore, hran⟩ := hdrained (by decide)
  have hone : 1 = bs.count .execute := Option.some.inj hbefore
  exact ⟨_, hrun, by decide, hsubmitted, hran 0 (hone ▸ Nat.one_pos)⟩

end LearningCpp.Pool14
