import LearningCpp.Pool.Moves

/-!
The queue of the pool is a bounded one as long as no caller of `threadpool_add`
finds `shutdown` set: such a caller gives back the lock and goes on to the queue
all the same.
-/

namespace LearningCpp.Pool

open Library

/-- The ring holds the tasks that were added and not taken. -/
structure TaskQueue (cap : Nat) (queue : List Task) (front rear size : Nat)
    (added taken live : List Task) : Prop where
  length_queue : queue.length = cap
  length_live : live.length = size
  size_le : size ≤ cap
  ring : 0 < cap → Ring queue front live
  rear_eq : 0 < cap → rear = (front + size) % cap
  added_eq : added = taken ++ live

namespace TaskQueue

variable {cap front rear size : Nat} {queue : List Task} {added taken live : List Task}

theorem enqueue (h : TaskQueue cap queue front rear size added taken live) (hroom : size < cap)
    (task : Task) :
    TaskQueue cap (queue.set rear task) front ((rear + 1) % cap) (size + 1) (added ++ [task]) taken
      (live ++ [task]) := by
  have hpos : 0 < cap := Nat.lt_of_le_of_lt (Nat.zero_le _) hroom
  have hring := (h.ring hpos).push (by rw [h.length_live, h.length_queue]; exact hroom) task
  rw [h.length_live, h.length_queue, ← h.rear_eq hpos] at hring
  refine ⟨by rw [List.length_set, h.length_queue], ?_, hroom, fun _ => hring, ?_, ?_⟩
  · rw [List.length_append, h.length_live, List.length_singleton]
  · intro _
    rw [h.rear_eq hpos, mod_succ_mod]
  · rw [h.added_eq, List.append_assoc]

/-- What is taken is the first task that was added and not taken. -/
theorem dequeue (h : TaskQueue cap queue front rear size added taken live) (hsize : ¬ size = 0) :
    ∃ task rest, queue[front]? = some task ∧
      TaskQueue cap queue ((front + 1) % cap) rear (size - 1) added (taken ++ [task]) rest := by
  have hle := h.size_le
  have hpos : 0 < cap := by omega
  have hlength := h.length_live
  cases live with
  | nil => exact absurd hlength.symm hsize
  | cons task rest =>
      rw [List.length_cons] at hlength
      have hpop := (h.ring hpos).pop
      rw [h.length_queue] at hpop
      refine ⟨task, rest, (h.ring hpos).head, h.length_queue, by omega, by omega, fun _ => hpop, ?_, ?_⟩
      · intro _
        rw [h.rear_eq hpos, Nat.mod_add_mod]
        congr 1
        omega
      · rw [h.added_eq, List.append_assoc]
        rfl

end TaskQueue

/-- The places where a thread holds `lock`. -/
def Pc.HoldsLock : Pc → Prop
  | .adder (.testing _) | .worker .testing | .worker .woken => True
  | .adjuster (.growing _ _ _ _) => True
  | _ => False

/-- The caller has found `shutdown` set. -/
def Pc.Rejected : Pc → Prop
  | .adder (.rejected _) | .adder .unlocking => True
  | _ => False

/-- No caller of `threadpool_add` finds `shutdown` set in this step. -/
def Admitting (s : Threadpool) : Act → Prop
  | .run i _ => ∀ task, s.pcs[i]? = some (.adder (.testing task)) → s.shutdown = false
  | _ => True

/-- What holds of the queue and of the lock while no caller was rejected. -/
structure Orderly (cap : Nat) (s : Threadpool) : Prop where
  queue : ∃ live, TaskQueue cap s.task_queue s.queue_front s.queue_rear s.queue_size s.added s.taken live
  lock : Mutex s.pcs Pc.HoldsLock s.lock
  admitted : ∀ pc ∈ s.pcs, ¬ pc.Rejected

namespace Orderly

variable {lo hi cap i : Nat} {s s' : Threadpool} {pc q : Pc}

theorem admitted_set (h : Orderly cap s) (hnew : ¬ q.Rejected) :
    ∀ pc ∈ s.pcs.set i q, ¬ pc.Rejected := by
  intro pc hpc
  rcases List.mem_or_eq_of_mem_set hpc with hold | rfl
  · exact h.admitted pc hold
  · exact hnew

theorem goto (h : Orderly cap s) (hpc : s.pcs[i]? = some pc) (hlock : q.HoldsLock ↔ pc.HoldsLock)
    (hnew : ¬ q.Rejected) : Orderly cap (s.goto i q) where
  queue := h.queue
  lock := h.lock.move hpc hlock
  admitted := h.admitted_set hnew

theorem acquire (h : Orderly cap s) (hpc : s.pcs[i]? = some pc) (hfree : s.lock = none)
    (hlock : q.HoldsLock) (hnew : ¬ q.Rejected) :
    Orderly cap {s.goto i q with lock := some i} where
  queue := h.queue
  lock := h.lock.acquire hfree hpc hlock
  admitted := h.admitted_set hnew

theorem release (h : Orderly cap s) (hpc : s.pcs[i]? = some pc) (hold : pc.HoldsLock)
    (hlock : ¬ q.HoldsLock) (hnew : ¬ q.Rejected) :
    Orderly cap {s.goto i q with lock := none} where
  queue := h.queue
  lock := h.lock.release hpc hold hlock
  admitted := h.admitted_set hnew

theorem enqueue (h : Orderly cap s) (hroom : s.queue_size < cap) {task : Task}
    (henqueue : s.enqueue cap task = some s') : Orderly cap s' := by
  obtain ⟨live, hlive⟩ := h.queue
  obtain ⟨freed, rfl⟩ := enqueue_eq henqueue
  exact {h with queue := ⟨_, hlive.enqueue hroom task⟩}

theorem dequeue (h : Orderly cap s) (hsize : ¬ s.queue_size = 0) {task : Task}
    (hdequeue : s.dequeue cap = some (task, s')) : Orderly cap s' := by
  obtain ⟨live, hlive⟩ := h.queue
  obtain ⟨first, rest, hfirst, hrest⟩ := hlive.dequeue hsize
  obtain ⟨htask, rfl⟩ := dequeue_eq hdequeue
  obtain rfl := Option.some.inj (hfirst.symm.trans htask)
  exact {h with queue := ⟨rest, hrest⟩}

theorem create (h : Orderly cap s) (slot : Nat) : Orderly cap (s.create slot) where
  queue := h.queue
  lock := h.lock.append id
  admitted := by
    intro pc hpc
    rcases List.mem_append.mp hpc with hold | hnew
    · exact h.admitted pc hold
    · rw [List.mem_singleton.mp hnew]
      exact id

protected theorem move (h : Orderly cap s) {a : Act} (hadmitting : Admitting s a)
    (hmove : Move lo hi cap s a s') : Orderly cap s' := by
  cases hmove with
  | call hpc => exact h.goto hpc Iff.rfl id
  | add_lock hpc hfree => exact h.acquire hpc hfree trivial id
  | add_wait hpc _ _ => exact h.release hpc trivial id id
  | add_reject hpc hshut =>
      rw [hadmitting _ hpc] at hshut
      cases hshut
  | add_enqueue hpc hroom _ henqueue =>
      have hidle := h.release (q := .adder .idle) hpc trivial id id
      obtain ⟨live, hlive⟩ := h.queue
      exact hidle.enqueue (Nat.lt_of_le_of_ne hlive.size_le hroom) henqueue
  | add_unlocked hpc _ => exact absurd trivial (h.admitted _ (List.mem_of_getElem? hpc))
  | work_lock hpc hfree => exact h.acquire hpc hfree trivial id
  | work_wait hpc _ _ => exact h.release hpc trivial id id
  | work_stop hpc _ => exact h.release hpc trivial id id
  | work_take hpc hsize _ hdequeue =>
      have htaken := h.dequeue hsize hdequeue
      obtain ⟨-, rfl⟩ := dequeue_eq hdequeue
      exact htaken.release hpc trivial id id
  | work_relock hpc hfree => exact h.acquire hpc hfree trivial id
  | work_leave hpc _ _ =>
      have hleaving := h.release (q := .worker .leaving) hpc trivial id id
      exact {hleaving with}
  | work_stay hpc _ _ =>
      have htesting := h.goto (q := .worker .testing) hpc Iff.rfl id
      exact {htesting with}
  | work_recheck hpc _ => exact h.goto hpc Iff.rfl id
  | @work_busy _ _ task hpc =>
      have hworking := h.goto (q := .worker (.working task)) hpc Iff.rfl id
      exact {hworking with}
  | work_return hpc => exact h.goto hpc Iff.rfl id
  | work_idle hpc =>
      have hlocking := h.goto (q := .worker .locking) hpc Iff.rfl id
      exact {hlocking with}
  | work_left hpc => exact h.goto hpc Iff.rfl id
  | work_stopped hpc => exact h.goto hpc Iff.rfl id
  | adjust_exit hpc _ => exact h.goto hpc Iff.rfl id
  | adjust_sleep hpc => exact h.goto hpc Iff.rfl id
  | adjust_count hpc => exact h.goto hpc Iff.rfl id
  | adjust_decide hpc => exact h.goto hpc Iff.rfl id
  | adjust_lock hpc hfree => exact h.acquire hpc hfree trivial id
  | adjust_skip hpc => exact h.goto hpc Iff.rfl id
  | @adjust_create _ slot _ _ _ _ hpc _ _ _ => exact (h.create slot).goto (pcs_create hpc slot) Iff.rfl id
  | adjust_pass hpc _ => exact h.goto hpc Iff.rfl id
  | adjust_unlock hpc => exact h.release hpc trivial id id
  | adjust_signal hpc => exact h.goto hpc Iff.rfl id
  | adjust_again hpc => exact h.goto hpc Iff.rfl id
  | adjust_shrink hpc =>
      have hlooping := h.goto (q := .adjuster .looping) hpc Iff.rfl id
      exact {hlooping with}
  | wake_adder hpc => exact h.goto hpc Iff.rfl id
  | wake_worker hpc => exact h.goto hpc Iff.rfl id
  | shut_down _ => exact {h with}
  | join_adjuster _ _ => exact {h with}
  | broadcast _ => exact {h with}
  | join _ _ => exact {h with}
  | joined _ _ _ _ => exact {h with}
  | free _ _ => exact {h with}

protected theorem step (h : Orderly cap s) {a : Act} (hadmitting : Admitting s a)
    (hstep : Pool.step lo hi cap s a = some s') : Orderly cap s' := h.move hadmitting (step_move hstep).2

end Orderly

/-- The places of the threads of a new pool. -/
theorem mem_pcs_of_created {lo hi cap : Nat} {s : Threadpool} (h : Created lo hi cap s) {pc : Pc}
    (hpc : pc ∈ s.pcs) : pc = .adjuster .looping ∨ pc = .adder .idle ∨ pc = .worker .locking := by
  obtain ⟨callers, task_queue, wait_exit, hcreate⟩ := h
  unfold threadpool_create at hcreate
  split at hcreate
  · rw [← Option.some.inj hcreate] at hpc
    rcases List.mem_cons.mp hpc with rfl | hrest
    · exact Or.inl rfl
    · rcases List.mem_append.mp hrest with hadder | hworker
      · exact Or.inr (Or.inl (List.eq_of_mem_replicate hadder))
      · exact Or.inr (Or.inr (List.eq_of_mem_replicate hworker))
  · cases hcreate

theorem Created.orderly {lo hi cap : Nat} {s : Threadpool} (h : Created lo hi cap s) :
    Orderly cap s := by
  have hpcs {pc : Pc} (hpc : pc ∈ s.pcs) := mem_pcs_of_created h hpc
  obtain ⟨callers, task_queue, wait_exit, hcreate⟩ := h
  unfold threadpool_create at hcreate
  split at hcreate
  · have hlength : ((List.range cap).map task_queue).length = cap := by
      rw [List.length_map, List.length_range]
    have hlock : s.lock = none := (Option.some.inj hcreate) ▸ rfl
    refine ⟨⟨[], ?_⟩, ?_, ?_⟩
    · rw [← Option.some.inj hcreate]
      exact ⟨hlength, rfl, Nat.zero_le _, fun hpos => Ring.empty (hlength.symm ▸ hpos),
        fun _ => (Nat.zero_mod cap).symm, rfl⟩
    · rw [hlock]
      refine Mutex.free ?_
      intro pc hpc
      rcases hpcs hpc with rfl | rfl | rfl <;> exact id
    · intro pc hpc
      rcases hpcs hpc with rfl | rfl | rfl <;> exact id
  · cases hcreate

theorem orderly_of_admitting {lo hi cap : Nat} {s₀ s : Threadpool} {acts : List Act}
    (hcreated : Created lo hi cap s₀) (halong : Along (step lo hi cap) Admitting s₀ acts)
    (hrun : runSteps (step lo hi cap) s₀ acts = some s) : Orderly cap s :=
  invariant_along (fun h hadmitting hstep => h.step hadmitting hstep) hcreated.orderly halong hrun

private theorem run_open_before {lo hi cap : Nat} {s t : Threadpool} {acts : List Act}
    (hrun : runSteps (step lo hi cap) s acts = some t) (hopen : t.shutdown = false) :
    s.shutdown = false := by
  induction acts generalizing s with
  | nil =>
      rw [runSteps, Option.some.injEq] at hrun
      exact hrun ▸ hopen
  | cons a as ih =>
      obtain ⟨s', hfirst, hrest⟩ := runSteps_cons_iff.mp hrun
      exact (step_move hfirst).2.open_before (ih hrest)

/-- Before shutdown no caller finds it set. -/
theorem admitting_of_open {lo hi cap : Nat} {s t : Threadpool} {acts : List Act}
    (hrun : runSteps (step lo hi cap) s acts = some t) (hopen : t.shutdown = false) :
    Along (step lo hi cap) Admitting s acts := by
  induction acts generalizing s with
  | nil => trivial
  | cons a as ih =>
      have hbefore := run_open_before hrun hopen
      obtain ⟨s', hfirst, hrest⟩ := runSteps_cons_iff.mp hrun
      refine ⟨?_, ?_⟩
      · cases a with
        | run i alive => exact fun _ _ => hbefore
        | _ => trivial
      · intro t ht
        obtain rfl := Option.some.inj (hfirst.symm.trans ht)
        exact ih hrest

/-- Before shutdown the ring is a bounded queue, and the tasks are taken in the order
in which they were added. -/
theorem queue_in_order (lo hi cap : Nat) (s : Threadpool) (hcap : 1 ≤ cap)
    (h : Reachable lo hi cap s) (hopen : s.shutdown = false) :
    s.queue_size ≤ cap ∧ s.queue_rear = (s.queue_front + s.queue_size) % cap ∧
      s.taken <+: s.added := by
  obtain ⟨s₀, hcreated, acts, hrun⟩ := h
  obtain ⟨live, hlive⟩ := (orderly_of_admitting hcreated (admitting_of_open hrun hopen) hrun).queue
  exact ⟨hlive.size_le, hlive.rear_eq hcap, ⟨live, hlive.added_eq.symm⟩⟩

/-- A caller adds a task, and the worker takes it. -/
def addAndTake (task : Task) : List Act :=
  [.call 1 task, .run 1 true, .run 1 true, .run 2 true, .run 2 true]

theorem one_task_in_order :
    ∃ s, Reachable 1 1 1 s ∧ s.taken = [⟨5, 7⟩] ∧ s.queue_size ≤ 1 ∧
      s.queue_rear = (s.queue_front + s.queue_size) % 1 ∧ s.taken <+: s.added := by
  have hrun : ((threadpool_create 1 1 1 1 (fun _ => ⟨0, 0⟩) 0).bind (fun s =>
      runSteps (step 1 1 1) s (addAndTake ⟨5, 7⟩))).map (fun s => (s.taken, s.shutdown)) =
      some ([⟨5, 7⟩], false) := by decide
  obtain ⟨s₀, s, hcreate, hacts, hresult⟩ := exists_run hrun
  obtain ⟨htaken, hopen⟩ := Prod.mk.inj hresult
  have hreach : Reachable 1 1 1 s := ⟨s₀, ⟨1, _, 0, hcreate⟩, _, hacts⟩
  exact ⟨s, hreach, htaken, queue_in_order 1 1 1 s (by decide) hreach hopen⟩

/-- What a thread may modify only with `lock` held. -/
structure TaskRing where
  task_queue : List Task
  queue_front : Nat
  queue_rear : Nat
  queue_size : Nat
  deriving DecidableEq, Repr

def Threadpool.ring (s : Threadpool) : TaskRing :=
  {task_queue := s.task_queue, queue_front := s.queue_front, queue_rear := s.queue_rear,
    queue_size := s.queue_size}

/-- The ring holds at most `cap` tasks, only the thread that holds the lock modifies
it, and a caller that has found `shutdown` set leaves it unchanged. -/
structure Guarded (lo hi cap : Nat) (s : Threadpool) : Prop where
  size_le : s.queue_size ≤ cap
  locked : ∀ a s', step lo hi cap s a = some s' → s'.ring ≠ s.ring →
    ∃ i alive, a = .run i alive ∧ s.lock = some i
  rejected : ∀ i alive task s', s.pcs[i]? = some (.adder (.rejected task)) →
    step lo hi cap s (.run i alive) = some s' → s'.ring = s.ring

/-- Only an adder or a worker with the lock touches the ring, or a rejected caller. -/
theorem Move.ring_cases {lo hi cap : Nat} {s s' : Threadpool} {a : Act}
    (h : Move lo hi cap s a s') :
    s'.ring = s.ring ∨ (∃ i alive, a = .run i alive ∧ ∃ pc, s.pcs[i]? = some pc ∧ pc.HoldsLock) ∨
      ∃ pc ∈ s.pcs, pc.Rejected := by
  cases h with
  | add_enqueue hpc _ _ _ => exact Or.inr (Or.inl ⟨_, _, rfl, _, hpc, trivial⟩)
  | add_unlocked hpc _ => exact Or.inr (Or.inr ⟨_, List.mem_of_getElem? hpc, trivial⟩)
  | work_take hpc _ _ _ => exact Or.inr (Or.inl ⟨_, _, rfl, _, hpc, trivial⟩)
  | _ => exact Or.inl rfl

theorem Orderly.guarded {lo hi cap : Nat} {s : Threadpool} (h : Orderly cap s) :
    Guarded lo hi cap s where
  size_le := by
    obtain ⟨live, hlive⟩ := h.queue
    exact hlive.size_le
  locked := by
    intro a s' hstep hchange
    obtain hsame | ⟨i, alive, rfl, pc, hpc, hholds⟩ | ⟨pc, hpc, hrejected⟩ :=
      (step_move hstep).2.ring_cases
    · exact absurd hsame hchange
    · exact ⟨i, alive, rfl, h.lock.held hpc hholds⟩
    · exact absurd hrejected (h.admitted pc hpc)
  rejected := by
    intro i alive task s' hpc _
    exact absurd trivial (h.admitted _ (List.mem_of_getElem? hpc))

/-- In every run in which no caller finds `shutdown` set, the ring is guarded. -/
theorem guarded_of_admitting (lo hi cap : Nat) (s₀ s : Threadpool) (acts : List Act)
    (hcreated : Created lo hi cap s₀) (halong : Along (step lo hi cap) Admitting s₀ acts)
    (hrun : runSteps (step lo hi cap) s₀ acts = some s) : Guarded lo hi cap s :=
  (orderly_of_admitting hcreated halong hrun).guarded

/-- The pool is shut down when a task has been added and taken. -/
theorem guarded_at_shutdown :
    ∃ s, s.shutdown = true ∧ s.taken = [⟨5, 7⟩] ∧ Guarded 1 1 1 s := by
  have hrun : ((threadpool_create 1 1 1 1 (fun _ => ⟨0, 0⟩) 0).bind (fun s =>
      runSteps (step 1 1 1) s (addAndTake ⟨5, 7⟩ ++ [.destroy]))).map
        (fun s => (s.shutdown, s.taken)) = some (true, [⟨5, 7⟩]) := by decide
  obtain ⟨s₀, s, hcreate, hacts, hresult⟩ := exists_run hrun
  obtain ⟨hshut, htaken⟩ := Prod.mk.inj hresult
  refine ⟨s, hshut, htaken, guarded_of_admitting 1 1 1 s₀ s _ ⟨1, _, 0, hcreate⟩ ?_ hacts⟩
  obtain ⟨t, hbefore, hlast⟩ := runSteps_snoc_iff.mp hacts
  have hopen : ((threadpool_create 1 1 1 1 (fun _ => ⟨0, 0⟩) 0).bind (fun s =>
      runSteps (step 1 1 1) s (addAndTake ⟨5, 7⟩))).map Threadpool.shutdown = some false := by decide
  rw [hcreate, Option.bind_some, hbefore, Option.map_some, Option.some.injEq] at hopen
  exact along_append_iff.mpr
    ⟨admitting_of_open hbefore hopen, fun _ _ => ⟨trivial, fun _ _ => trivial⟩⟩

/-- Two callers and a queue for one task: the second one calls after shutdown. -/
def addAfterShutdown : List Act :=
  [.call 1 ⟨5, 7⟩, .run 1 true, .run 1 true, .destroy,
   .call 2 ⟨6, 8⟩, .run 2 true, .run 2 true, .run 2 true]

/-- The task is added without the lock to a queue that is full. -/
theorem rejected_caller_adds :
    ∃ s₀ s, Created 1 1 1 s₀ ∧ runSteps (step 1 1 1) s₀ addAfterShutdown = some s ∧
      s.lock = none ∧ s.queue_size = 2 ∧ s.added = [⟨5, 7⟩, ⟨6, 8⟩] ∧ ¬ Guarded 1 1 1 s := by
  have hrun : ((threadpool_create 1 1 1 2 (fun _ => ⟨0, 0⟩) 0).bind (fun s =>
      runSteps (step 1 1 1) s addAfterShutdown)).map (fun s => (s.lock, s.queue_size, s.added)) =
      some (none, 2, [⟨5, 7⟩, ⟨6, 8⟩]) := by decide
  obtain ⟨s₀, s, hcreate, hacts, hresult⟩ := exists_run hrun
  simp only [Prod.mk.injEq] at hresult
  obtain ⟨hlock, hsize, hadded⟩ := hresult
  refine ⟨s₀, s, ⟨2, _, 0, hcreate⟩, hacts, hlock, hsize, hadded, ?_⟩
  intro h
  have hle := h.size_le
  rw [hsize] at hle
  exact absurd hle (by decide)

end LearningCpp.Pool
