import LearningCpp.Library.Machine
import LearningCpp.Library.Mutex
import LearningCpp.Library.Workers

/-!
The thread pool of `zl_threadpool/ThreadPoolCpp11` and the program that tests it: `main` adds
tasks, gets and prints their answers in order, and destroys the pool. The destructor sets `stop_`
and notifies all without the mutex, and then the guard of the threads joins them.
-/

namespace LearningCpp.Pool11

open LearningCpp.Library

/-- Where a worker is: it tests the condition of its loop, wants the mutex, evaluates the
predicate with the mutex, is about to wait with the mutex, waits, is past the wait with the
mutex, or runs a task without the mutex. -/
inductive Worker where
  | looping
  | locking
  | testing
  | waiting
  | blocked
  | taking
  | running (task : Nat)
  | exited
  deriving DecidableEq, Repr

namespace Worker

def HoldsLock : Worker → Prop
  | .testing | .waiting | .taking => True
  | _ => False

/-- The worker is on its way to the queue. -/
def ready : Worker → Bool
  | .looping | .locking | .testing | .taking => true
  | _ => false

end Worker

/-- Where `main` is: it adds task `i`, has queued it and has yet to notify, gets the answer of
task `i`; in the destructor, it sets `stop_`, notifies all, and joins worker `i`. -/
inductive Caller where
  | adding (i : Nat)
  | notifying (i : Nat)
  | getting (i : Nat)
  | stopping
  | notifyingAll
  | joining (i : Nat)
  | returned
  deriving DecidableEq, Repr

/-- The pool, its threads and `main`. A task is known by its answer, the number of its turn.
`ran` has the tasks whose futures are ready, and `dequeued`, kept for the specification, those
that were taken. -/
structure Program where
  stop : Bool
  mtx : Option Nat
  tasks : List Nat
  workers : List Worker
  caller : Caller
  printed : List Nat
  dequeued : List Nat
  ran : List Nat
  deriving DecidableEq, Repr

/-- A worker goes on; a worker that waits wakes up by itself; `main` goes on; its `notify_one`
wakes worker `i`. -/
inductive Act where
  | run (i : Nat)
  | wake (i : Nat)
  | main
  | notify (i : Nat)
  deriving DecidableEq, Repr

/-- How many threads the constructor makes. -/
def nthreads (n : Int) (hardware_concurrency : Nat) : Nat :=
  if n ≤ 0 then (if hardware_concurrency = 0 then 2 else hardware_concurrency) else n.toNat

theorem nthreads_pos (n : Int) (hardware_concurrency : Nat) :
    0 < nthreads n hardware_concurrency := by
  unfold nthreads
  split_ifs <;> omega

/-- The program after the constructor of its pool. -/
def start (threads : Nat) : Program where
  stop := false
  mtx := none
  tasks := []
  workers := List.replicate threads .looping
  caller := .adding 0
  printed := []
  dequeued := []
  ran := []

namespace Program

def goto (s : Program) (i : Nat) (pc : Worker) (mtx : Option Nat) : Program :=
  {s with workers := s.workers.set i pc, mtx := mtx}

/-- The next step of worker `i`. Nothing is said of `front()` of an empty queue. -/
def run (s : Program) (i : Nat) : Worker → Option Program
  | .looping => some (s.goto i (if s.stop then .exited else .locking) s.mtx)
  | .locking => if s.mtx = none then some (s.goto i .testing (some i)) else none
  | .testing =>
      some (s.goto i (if s.stop = true ∨ s.tasks ≠ [] then .taking else .waiting) s.mtx)
  | .waiting => some (s.goto i .blocked none)
  | .taking =>
      if s.stop then some (s.goto i .exited none)
      else
        match s.tasks with
        | [] => none
        | task :: tasks =>
            some {s.goto i (.running task) none with
              tasks := tasks, dequeued := s.dequeued ++ [task] }
  | .running task => some {s.goto i .looping s.mtx with ran := s.ran ++ [task]}
  | .blocked | .exited => none

/-- The next step of `main`, which adds `n` tasks; its `notify_one` is a step of its own. -/
def main (n : Nat) (s : Program) : Option Program :=
  match s.caller with
  | .adding i =>
      if i < n then
        if s.mtx = none ∧ s.stop = false then
          some {s with tasks := s.tasks ++ [i], caller := .notifying i}
        else none
      else some {s with caller := .getting 0}
  | .notifying _ => none
  | .getting i =>
      if i < n then
        if i ∈ s.ran then some {s with printed := s.printed ++ [i], caller := .getting (i + 1)}
        else none
      else some {s with caller := .stopping}
  | .stopping => some {s with stop := true, caller := .notifyingAll}
  | .notifyingAll =>
      some {s with
        workers := s.workers.map fun pc => if pc = .blocked then .locking else pc
        caller := .joining 0 }
  | .joining i =>
      match s.workers[i]? with
      | none => some {s with caller := .returned}
      | some .exited => some {s with caller := .joining (i + 1)}
      | some _ => none
  | .returned => none

/-- `cond_.notify_one()` wakes a worker that waits, if there is one. -/
def notify (s : Program) (i : Nat) : Option Program :=
  match s.caller with
  | .notifying k =>
      if s.workers[i]? = some .blocked then
        some {s.goto i .locking s.mtx with caller := .adding (k + 1)}
      else if .blocked ∈ s.workers then none
      else some {s with caller := .adding (k + 1)}
  | _ => none

def step (n : Nat) (s : Program) : Act → Option Program
  | .run i => s.workers[i]?.bind (s.run i)
  | .wake i => if s.workers[i]? = some .blocked then some (s.goto i .locking s.mtx) else none
  | .main => s.main n
  | .notify i => s.notify i

end Program

namespace Caller

/-- How many tasks are queued, of `n`. -/
def added (n : Nat) : Caller → Nat
  | .adding i => i
  | .notifying i => i + 1
  | _ => n

/-- How many answers are printed, of `n`. -/
def gotten (n : Nat) : Caller → Nat
  | .adding _ | .notifying _ => 0
  | .getting i => i
  | _ => n

def notifies : Caller → Nat
  | .notifying _ => 1
  | _ => 0

def HasStopped : Caller → Prop
  | .notifyingAll | .joining _ | .returned => True
  | _ => False

end Caller

/-- What holds in every state. A worker that is past its wait finds a task unless it leaves. -/
structure Sound (n : Nat) (s : Program) : Prop where
  mutex : Mutex s.workers Worker.HoldsLock s.mtx
  order : s.dequeued ++ s.tasks = List.range (s.caller.added n)
  accounted : Accounted Worker.running s.workers s.ran s.dequeued
  added_le : s.caller.added n ≤ n
  gotten_le : s.caller.gotten n ≤ n
  printed : s.printed = List.range (s.caller.gotten n)
  answered : ∀ k < s.caller.gotten n, k ∈ s.ran
  stops : s.stop = true ↔ s.caller.HasStopped
  waits : Worker.waiting ∈ s.workers → s.tasks = []
  takes : Worker.taking ∈ s.workers → s.stop = true ∨ s.tasks ≠ []
  exits : Worker.exited ∈ s.workers → s.stop = true
  served : Served .blocked Worker.ready s.workers s.tasks.length s.caller.notifies

variable {n : Nat} {s s' : Program} {i : Nat} {pc pc' : Worker}

theorem running_injective : Function.Injective Worker.running := by
  intro a b h
  cases h
  rfl

theorem start_sound (threads n : Nat) : Sound n (start threads) := by
  have hworkers : ∀ pc ∈ (start threads).workers, pc = .looping :=
    fun pc hpc => List.eq_of_mem_replicate hpc
  have hnot : ∀ pc ≠ Worker.looping, pc ∉ (start threads).workers :=
    fun pc hne hmem => hne (hworkers pc hmem)
  constructor
  · apply Mutex.free
    intro pc hpc
    rw [hworkers pc hpc]
    exact id
  · rfl
  · intro a
    simp [start, List.count_replicate]
  · exact Nat.zero_le n
  · exact Nat.zero_le n
  · rfl
  · intro k hk
    cases hk
  · simp [start, Caller.HasStopped]
  · exact fun _ => rfl
  · exact fun hmem => absurd hmem (hnot _ nofun)
  · exact fun hmem => absurd hmem (hnot _ nofun)
  · exact Served.of_empty

namespace Sound

/-- Nothing is queued any more when the pool is stopped, as every answer was waited for. -/
theorem drained (h : Sound n s) (hstop : s.stop = true) : s.tasks = [] := by
  have hfull : s.caller.gotten n = n ∧ s.caller.added n = n := by
    have hstopped := h.stops.mp hstop
    cases hcaller : s.caller with
    | adding | notifying | getting | stopping =>
        rw [hcaller] at hstopped
        exact hstopped.elim
    | notifyingAll | joining | returned => exact ⟨rfl, rfl⟩
  have horder := h.order
  rw [hfull.2] at horder
  rw [List.eq_nil_iff_forall_not_mem]
  intro k hqueued
  have hk : k < n := by
    rw [← List.mem_range, ← horder]
    exact List.mem_append_right _ hqueued
  have hran := h.answered k (hfull.1.symm ▸ hk)
  have hdequeued : k ∈ s.dequeued := by
    have hcount := h.accounted k
    have hpos := List.count_pos_iff.mpr hran
    exact List.count_pos_iff.mp (by omega)
  have hnodup : (s.dequeued ++ s.tasks).Nodup := horder ▸ List.nodup_range
  exact List.disjoint_of_nodup_append hnodup hdequeued hqueued

/-- A worker goes on that neither took nor ran a task. -/
theorem goto (h : Sound n s) (hpc : s.workers[i]? = some pc) {mtx : Option Nat}
    (hmutex : Mutex (s.workers.set i pc') Worker.HoldsLock mtx)
    (hold : ∀ a, pc ≠ .running a) (hnew : ∀ a, pc' ≠ .running a)
    (hsleeps : pc' = .waiting ∨ pc' = .blocked → s.tasks = [])
    (htaking : pc' = .taking → s.stop = true ∨ s.tasks ≠ [])
    (hexited : pc' = .exited → s.stop = true)
    (hready : pc.ready = true → pc'.ready = true ∨ s.tasks = []) :
    Sound n (s.goto i pc' mtx) where
  mutex := hmutex
  order := h.order
  accounted := h.accounted.move hpc hold hnew
  added_le := h.added_le
  gotten_le := h.gotten_le
  printed := h.printed
  answered := h.answered
  stops := h.stops
  waits := by
    intro hmem
    rcases List.mem_or_eq_of_mem_set hmem with hmem | heq
    · exact h.waits hmem
    · exact hsleeps (Or.inl heq.symm)
  takes := by
    intro hmem
    rcases List.mem_or_eq_of_mem_set hmem with hmem | heq
    · exact h.takes hmem
    · exact htaking heq.symm
  exits := by
    intro hmem
    rcases List.mem_or_eq_of_mem_set hmem with hmem | heq
    · exact h.exits hmem
    · exact hexited heq.symm
  served := by
    apply h.served.move hpc
    · intro hblocked
      rw [hsleeps (Or.inr hblocked), List.length_nil]
    · intro hwas
      rcases hready hwas with hstill | hempty
      · exact Or.inl hstill
      · exact Or.inr (by rw [hempty, List.length_nil])

/-- A worker takes the first task of the queue. -/
theorem dequeue (h : Sound n s) (hpc : s.workers[i]? = some .taking) {task : Nat}
    {tasks : List Nat} (htasks : s.tasks = task :: tasks) (hopen : s.stop = false) :
    Sound n {s.goto i (.running task) none with
      tasks := tasks, dequeued := s.dequeued ++ [task] } where
  mutex := h.mutex.release hpc trivial id
  order := by
    have horder := h.order
    rw [htasks] at horder
    simpa [Program.goto] using horder
  accounted := h.accounted.take hpc running_injective nofun task
  added_le := h.added_le
  gotten_le := h.gotten_le
  printed := h.printed
  answered := h.answered
  stops := h.stops
  waits := by
    intro hmem
    have hempty := h.waits (mem_of_mem_set hmem nofun)
    rw [htasks] at hempty
    cases hempty
  takes := by
    -- the worker that took the task had the mutex
    intro hmem
    obtain ⟨j, hj⟩ := List.getElem?_of_mem hmem
    rcases (Mutex.getElem?_set_of_some hpc j).mp hj with ⟨-, heq⟩ | ⟨hne, hj⟩
    · cases heq
    · exact absurd trivial (h.mutex.not_holding_of_ne hpc trivial hj hne.symm)
  exits := by
    intro hmem
    have hstop := h.exits (mem_of_mem_set hmem nofun)
    rw [hopen] at hstop
    cases hstop
  served := by
    have hserved := h.served
    rw [htasks, List.length_cons] at hserved
    exact hserved.take hpc nofun

/-- A task returns, and its worker goes back to its loop. -/
theorem finish (h : Sound n s) {task : Nat} (hpc : s.workers[i]? = some (.running task)) :
    Sound n {s.goto i .looping s.mtx with ran := s.ran ++ [task]} where
  mutex := h.mutex.move hpc Iff.rfl
  order := h.order
  accounted := h.accounted.finish hpc running_injective nofun
  added_le := h.added_le
  gotten_le := h.gotten_le
  printed := h.printed
  answered := fun k hk => List.mem_append_left _ (h.answered k hk)
  stops := h.stops
  waits := fun hmem => h.waits (mem_of_mem_set hmem nofun)
  takes := fun hmem => h.takes (mem_of_mem_set hmem nofun)
  exits := fun hmem => h.exits (mem_of_mem_set hmem nofun)
  served := h.served.move hpc nofun fun _ => Or.inl rfl

theorem run (h : Sound n s) (hpc : s.workers[i]? = some pc) (hrun : s.run i pc = some s') :
    Sound n s' := by
  cases pc with
  | looping =>
      cases hrun
      split
      case isTrue hstop =>
        exact h.goto hpc (h.mutex.move hpc Iff.rfl) nofun nofun nofun nofun (fun _ => hstop)
          fun _ => Or.inr (h.drained hstop)
      case isFalse =>
        exact h.goto hpc (h.mutex.move hpc Iff.rfl) nofun nofun nofun nofun nofun
          fun _ => Or.inl rfl
  | locking =>
      simp only [Program.run, Option.ite_none_right_eq_some, Option.some.injEq] at hrun
      obtain ⟨hfree, rfl⟩ := hrun
      exact h.goto hpc (h.mutex.acquire hfree hpc trivial) nofun nofun nofun nofun nofun
        fun _ => Or.inl rfl
  | testing =>
      cases hrun
      split
      case isTrue hpast =>
        exact h.goto hpc (h.mutex.move hpc ⟨fun _ => trivial, fun _ => trivial⟩) nofun nofun nofun
          (fun _ => hpast) nofun fun _ => Or.inl rfl
      case isFalse hempty =>
        have htasks : s.tasks = [] := not_not.mp fun hne => hempty (Or.inr hne)
        exact h.goto hpc (h.mutex.move hpc ⟨fun _ => trivial, fun _ => trivial⟩) nofun nofun
          (fun _ => htasks) nofun nofun fun _ => Or.inr htasks
  | waiting =>
      cases hrun
      have hempty := h.waits (List.mem_of_getElem? hpc)
      exact h.goto hpc (h.mutex.release hpc trivial id) nofun nofun (fun _ => hempty) nofun nofun
        fun _ => Or.inr hempty
  | taking =>
      simp only [Program.run] at hrun
      split at hrun
      case isTrue hstop =>
        cases hrun
        exact h.goto hpc (h.mutex.release hpc trivial id) nofun nofun nofun nofun
          (fun _ => hstop) fun _ => Or.inr (h.drained hstop)
      case isFalse hopen =>
        split at hrun
        case h_1 => cases hrun
        case h_2 task tasks htasks =>
          cases hrun
          exact h.dequeue hpc htasks (Bool.eq_false_of_not_eq_true hopen)
  | running task =>
      cases hrun
      exact h.finish hpc
  | blocked | exited => cases hrun

theorem wake (h : Sound n s) (hpc : s.workers[i]? = some .blocked) :
    Sound n (s.goto i .locking s.mtx) :=
  h.goto hpc (h.mutex.move hpc Iff.rfl) nofun nofun nofun nofun nofun nofun

/-- `main` goes on, and changes neither the queue nor the workers. -/
theorem proceed (h : Sound n s) {caller : Caller} (hadded : caller.added n = s.caller.added n)
    (hgotten : caller.gotten n = s.caller.gotten n)
    (hstopped : caller.HasStopped ↔ s.caller.HasStopped)
    (hserved : Served .blocked Worker.ready s.workers s.tasks.length caller.notifies) :
    Sound n {s with caller := caller} where
  mutex := h.mutex
  order := hadded.symm ▸ h.order
  accounted := h.accounted
  added_le := hadded.symm ▸ h.added_le
  gotten_le := hgotten.symm ▸ h.gotten_le
  printed := hgotten.symm ▸ h.printed
  answered := hgotten.symm ▸ h.answered
  stops := h.stops.trans hstopped.symm
  waits := h.waits
  takes := h.takes
  exits := h.exits
  served := hserved

/-- `main` queues task `k`. -/
theorem add (h : Sound n s) {k : Nat} (hcaller : s.caller = .adding k) (hk : k < n)
    (hfree : s.mtx = none) :
    Sound n {s with tasks := s.tasks ++ [k], caller := .notifying k} where
  mutex := h.mutex
  order := by
    have horder := h.order
    rw [hcaller, Caller.added] at horder
    rw [Caller.added, List.range_succ, ← horder, List.append_assoc]
  accounted := h.accounted
  added_le := hk
  gotten_le := Nat.zero_le n
  printed := by
    have hprinted := h.printed
    rwa [hcaller] at hprinted
  answered := by
    intro j hj
    cases hj
  stops := by
    have hstops := h.stops
    rwa [hcaller] at hstops
  waits := by
    -- a worker that is about to wait has the mutex
    intro hmem
    obtain ⟨j, hj⟩ := List.getElem?_of_mem hmem
    exact absurd trivial (h.mutex.not_holding_of_free hfree hj)
  takes := fun _ => Or.inr (by simp)
  exits := h.exits
  served := by
    have hserved := h.served
    rw [hcaller] at hserved
    rw [List.length_append, List.length_singleton]
    exact hserved.add

/-- `main` has the answer of task `k`. -/
theorem get (h : Sound n s) {k : Nat} (hcaller : s.caller = .getting k) (hk : k < n)
    (hready : k ∈ s.ran) :
    Sound n {s with printed := s.printed ++ [k], caller := .getting (k + 1)} where
  mutex := h.mutex
  order := by
    have horder := h.order
    rwa [hcaller] at horder
  accounted := h.accounted
  added_le := Nat.le_refl n
  gotten_le := hk
  printed := by
    have hprinted := h.printed
    rw [hcaller, Caller.gotten] at hprinted
    rw [Caller.gotten, List.range_succ, ← hprinted]
  answered := by
    intro j hj
    have hanswered := h.answered j
    rw [hcaller, Caller.gotten] at hanswered
    rcases Nat.lt_succ_iff_lt_or_eq.mp hj with hlt | rfl
    · exact hanswered hlt
    · exact hready
  stops := by
    have hstops := h.stops
    rwa [hcaller] at hstops
  waits := h.waits
  takes := h.takes
  exits := h.exits
  served := by
    have hserved := h.served
    rwa [hcaller] at hserved

/-- `stop_` is set when every answer was printed. -/
theorem stop (h : Sound n s) (hcaller : s.caller = .stopping) :
    Sound n {s with stop := true, caller := .notifyingAll} where
  mutex := h.mutex
  order := by
    have horder := h.order
    rwa [hcaller] at horder
  accounted := h.accounted
  added_le := Nat.le_refl n
  gotten_le := Nat.le_refl n
  printed := by
    have hprinted := h.printed
    rwa [hcaller] at hprinted
  answered := by
    have hanswered := h.answered
    rwa [hcaller] at hanswered
  stops := ⟨fun _ => trivial, fun _ => rfl⟩
  waits := h.waits
  takes := fun _ => Or.inl rfl
  exits := fun _ => rfl
  served := by
    have hserved := h.served
    rwa [hcaller] at hserved

/-- Every worker that sleeps is woken. -/
theorem notifyAll (h : Sound n s) (hcaller : s.caller = .notifyingAll) :
    Sound n {s with
      workers := s.workers.map fun pc => if pc = .blocked then .locking else pc
      caller := .joining 0 } := by
  constructor
  · apply h.mutex.map
    intro pc
    split
    case isTrue hblocked =>
      rw [hblocked]
      exact Iff.rfl
    case isFalse => exact Iff.rfl
  · have horder := h.order
    rwa [hcaller] at horder
  · apply h.accounted.map
    intro a pc
    cases pc <;> simp
  · exact Nat.le_refl n
  · exact Nat.le_refl n
  · have hprinted := h.printed
    rwa [hcaller] at hprinted
  · have hanswered := h.answered
    rwa [hcaller] at hanswered
  · have hstops := h.stops
    rwa [hcaller] at hstops
  · exact fun hmem => h.waits (mem_of_mem_woken hmem nofun).1
  · exact fun hmem => h.takes (mem_of_mem_woken hmem nofun).1
  · exact fun hmem => h.exits (mem_of_mem_woken hmem nofun).1
  · exact Served.of_notMem fun hmem => (mem_of_mem_woken hmem nofun).2 rfl

theorem main (h : Sound n s) (hmain : s.main n = some s') : Sound n s' := by
  unfold Program.main at hmain
  split at hmain
  case h_1 k hcaller =>
    split at hmain
    case isTrue hk =>
      simp only [Option.ite_none_right_eq_some, Option.some.injEq] at hmain
      obtain ⟨⟨hfree, -⟩, rfl⟩ := hmain
      exact h.add hcaller hk hfree
    case isFalse hk =>
      cases hmain
      have hle := h.added_le
      have hserved := h.served
      rw [hcaller] at hle hserved
      have hall : n = k := Nat.le_antisymm (Nat.not_lt.mp hk) hle
      apply h.proceed
      · rw [hcaller]
        exact hall
      · rw [hcaller]
        rfl
      · rw [hcaller]
        exact Iff.rfl
      · exact hserved
  case h_2 => cases hmain
  case h_3 k hcaller =>
    split at hmain
    case isTrue hk =>
      simp only [Option.ite_none_right_eq_some, Option.some.injEq] at hmain
      obtain ⟨hready, rfl⟩ := hmain
      exact h.get hcaller hk hready
    case isFalse hk =>
      cases hmain
      have hle := h.gotten_le
      have hserved := h.served
      rw [hcaller] at hle hserved
      have hall : n = k := Nat.le_antisymm (Nat.not_lt.mp hk) hle
      apply h.proceed
      · rw [hcaller]
        rfl
      · rw [hcaller]
        exact hall
      · rw [hcaller]
        exact Iff.rfl
      · exact hserved
  case h_4 hcaller =>
    cases hmain
    exact h.stop hcaller
  case h_5 hcaller =>
    cases hmain
    exact h.notifyAll hcaller
  case h_6 k hcaller =>
    have hjoined : ∀ caller : Caller, caller.added n = n → caller.gotten n = n →
        caller.HasStopped → caller.notifies = 0 → Sound n {s with caller := caller} := by
      intro caller hadded hgotten hstopped hnotifies
      have hserved := h.served
      rw [hcaller] at hserved
      apply h.proceed
      · rw [hcaller, hadded]
        rfl
      · rw [hcaller, hgotten]
        rfl
      · rw [hcaller]
        exact ⟨fun _ => trivial, fun _ => hstopped⟩
      · rw [hnotifies]
        exact hserved
    split at hmain
    case h_1 =>
      cases hmain
      exact hjoined .returned rfl rfl trivial rfl
    case h_2 =>
      cases hmain
      exact hjoined (.joining (k + 1)) rfl rfl trivial rfl
    case h_3 => cases hmain
  case h_7 => cases hmain

/-- `notify_one` wakes a worker, or there is none that waits. -/
theorem notify (h : Sound n s) (hnotify : s.notify i = some s') : Sound n s' := by
  unfold Program.notify at hnotify
  split at hnotify
  case h_1 k hcaller =>
    have hserved := h.served
    rw [hcaller] at hserved
    split at hnotify
    case isTrue hblocked =>
      cases hnotify
      have hwoken := h.wake hblocked
      apply hwoken.proceed
      · rw [Program.goto, hcaller]
        rfl
      · rw [Program.goto, hcaller]
        rfl
      · rw [Program.goto, hcaller]
        exact Iff.rfl
      · exact hserved.notify hblocked rfl rfl nofun
    case isFalse =>
      split at hnotify
      case isTrue => cases hnotify
      case isFalse hnone =>
        cases hnotify
        apply h.proceed
        · rw [hcaller]
          rfl
        · rw [hcaller]
          rfl
        · rw [hcaller]
          exact Iff.rfl
        · exact Served.of_notMem hnone
  case h_2 => cases hnotify

theorem step (h : Sound n s) {a : Act} (hstep : s.step n a = some s') : Sound n s' := by
  cases a with
  | run i =>
      obtain ⟨pc, hpc, hrun⟩ := Option.bind_eq_some_iff.mp hstep
      exact h.run hpc hrun
  | wake i =>
      simp only [Program.step, Option.ite_none_right_eq_some, Option.some.injEq] at hstep
      obtain ⟨hblocked, rfl⟩ := hstep
      exact h.wake hblocked
  | main => exact h.main hstep
  | notify i => exact h.notify hstep

end Sound

end LearningCpp.Pool11
