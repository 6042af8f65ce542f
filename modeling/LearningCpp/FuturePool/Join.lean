import LearningCpp.FuturePool.ThreadPool

/-!
The destructor of the pool of `zl_threadpool/03_ThreadPool` returns: once it has notified all,
the workers take a bounded number of steps, and when none can take one every task has run.
-/

namespace LearningCpp.FuturePool

open LearningCpp.Library

/-- How many steps a worker takes until it exits, when it finds no task. -/
def Worker.stepsLeft : Worker → Nat
  | .running _ => 3
  | .locking => 2
  | .testing => 1
  | .waiting | .blocked | .exited => 0

/-- How many steps are left once the destructor joins. -/
def ThreadPool.stepsLeft (s : ThreadPool) : Nat :=
  weigh Worker.stepsLeft s.workers + 3 * s.tasks.length + s.notifies

/-- What does not change once the destructor joins, for `n` workers and `m` tasks. -/
structure Joining (n m : Nat) (s : ThreadPool) : Prop where
  sound : Sound s
  joining : s.destructor = .joining
  workers_length : s.workers.length = n
  enqueued_eq : s.enqueued = m

variable {s s' t : ThreadPool} {i n m : Nat} {pc : Worker}

namespace Joining

theorem stop (h : Joining n m s) : s.stop = true := by
  apply h.sound.stops.mp
  rw [h.joining]
  nofun

theorem not_waiting (h : Joining n m s) : Worker.waiting ∉ s.workers := by
  intro hmem
  have hopen := (h.sound.tested hmem).2
  rw [h.stop] at hopen
  cases hopen

theorem not_blocked (h : Joining n m s) : Worker.blocked ∉ s.workers := h.sound.joins h.joining

/-- A step of a worker after which fewer are left. -/
theorem run (h : Joining n m s) (hpc : s.workers[i]? = some pc) (hrun : s.run i pc = some s') :
    s'.stepsLeft < s.stepsLeft ∧ s'.destructor = s.destructor ∧
      s'.workers.length = s.workers.length ∧ s'.enqueued = s.enqueued := by
  cases pc with
  | locking =>
      simp only [ThreadPool.run, Option.ite_none_right_eq_some, Option.some.injEq] at hrun
      obtain ⟨-, rfl⟩ := hrun
      have hless : weigh Worker.stepsLeft (s.workers.set i .testing) <
          weigh Worker.stepsLeft s.workers := weigh_set_lt hpc (by decide)
      refine ⟨?_, rfl, List.length_set, rfl⟩
      simp only [ThreadPool.stepsLeft, ThreadPool.goto]
      omega
  | testing =>
      simp only [ThreadPool.run, h.stop, if_true] at hrun
      split at hrun
      case h_1 task tasks htasks =>
        cases hrun
        have hadd := weigh_set_add hpc (.running task) (w := Worker.stepsLeft)
        refine ⟨?_, rfl, List.length_set, rfl⟩
        simp only [ThreadPool.stepsLeft, ThreadPool.goto, htasks, List.length_cons]
        simp only [Worker.stepsLeft] at hadd
        omega
      case h_2 hempty =>
        cases hrun
        have hless : weigh Worker.stepsLeft (s.workers.set i .exited) <
            weigh Worker.stepsLeft s.workers := weigh_set_lt hpc (by decide)
        refine ⟨?_, rfl, List.length_set, rfl⟩
        simp only [ThreadPool.stepsLeft, ThreadPool.goto]
        omega
  | waiting => exact absurd (List.mem_of_getElem? hpc) h.not_waiting
  | running task =>
      cases hrun
      have hadd := weigh_set_add hpc .locking (w := Worker.stepsLeft)
      refine ⟨?_, rfl, List.length_set, rfl⟩
      simp only [ThreadPool.stepsLeft, ThreadPool.goto]
      simp only [Worker.stepsLeft] at hadd
      omega
  | blocked | exited => cases hrun

/-- Only workers go on, and calls that had yet to notify. -/
theorem step_less (h : Joining n m s) {a : Act} (hstep : s.step a = some s') :
    s'.stepsLeft < s.stepsLeft ∧ s'.destructor = s.destructor ∧
      s'.workers.length = s.workers.length ∧ s'.enqueued = s.enqueued := by
  have hawake : ∀ j : Nat, s.workers[j]? ≠ some .blocked :=
    fun j hj => h.not_blocked (List.mem_of_getElem? hj)
  cases a with
  | run i =>
      obtain ⟨pc, hpc, hrun⟩ := Option.bind_eq_some_iff.mp hstep
      exact h.run hpc hrun
  | wake i =>
      simp only [ThreadPool.step, if_neg (hawake i)] at hstep
      cases hstep
  | enqueue =>
      simp only [ThreadPool.step, ThreadPool.enqueue, h.stop, reduceCtorEq, and_false,
        if_false] at hstep
  | notify i =>
      simp only [ThreadPool.step, if_neg (hawake i), if_neg h.not_blocked] at hstep
      split at hstep
      case isTrue => cases hstep
      case isFalse hsome =>
        cases hstep
        refine ⟨?_, rfl, rfl, rfl⟩
        simp only [ThreadPool.stepsLeft]
        omega
  | destroy =>
      simp only [ThreadPool.step, ThreadPool.destroy, h.joining] at hstep
      cases hstep

theorem step (h : Joining n m s) {a : Act} (hstep : s.step a = some s') : Joining n m s' := by
  obtain ⟨-, hdestructor, hlength, henqueued⟩ := h.step_less hstep
  exact ⟨h.sound.step hstep, hdestructor.trans h.joining, hlength.trans h.workers_length,
    henqueued.trans h.enqueued_eq⟩

/-- As long as a worker has not exited, one can go on. -/
theorem exited_or_step (h : Joining n m s) :
    (∀ pc ∈ s.workers, pc = .exited) ∨ ∃ j, (s.step (.run j)).isSome := by
  rcases Classical.em (∀ pc ∈ s.workers, pc = .exited) with hall | hsome
  · exact Or.inl hall
  · push Not at hsome
    obtain ⟨pc, hmem, hne⟩ := hsome
    obtain ⟨j, hj⟩ := List.getElem?_of_mem hmem
    have hgo : ∀ k pc, s.workers[k]? = some pc → (s.run k pc).isSome →
        ∃ j, (s.step (.run j)).isSome := by
      intro k pc hk hrun
      refine ⟨k, ?_⟩
      rw [ThreadPool.step, hk]
      exact hrun
    have htest : ∀ k, s.workers[k]? = some .testing → (s.run k .testing).isSome := by
      intro k _
      simp only [ThreadPool.run]
      split <;> rfl
    right
    cases hmutex : s.queue_mutex with
    | none =>
        cases pc with
        | locking =>
            refine hgo j _ hj ?_
            rw [ThreadPool.run, if_pos hmutex]
            rfl
        | testing => exact hgo j _ hj (htest j hj)
        | waiting => exact absurd hmem h.not_waiting
        | blocked => exact absurd hmem h.not_blocked
        | running task => exact hgo j _ hj rfl
        | exited => exact absurd rfl hne
    | some k =>
        -- the worker that has the mutex is at its test
        obtain ⟨pc', hk, hholds⟩ := h.sound.mutex.holder hmutex
        cases pc' with
        | testing => exact hgo k _ hk (htest k hk)
        | waiting => exact absurd (List.mem_of_getElem? hk) h.not_waiting
        | locking | blocked | running task | exited => exact absurd hholds id

/-- When all workers have exited, every task has run once. -/
theorem ran_perm (h : Joining n m s) (hpos : 0 < n) (hexited : ∀ pc ∈ s.workers, pc = .exited) :
    s.ran.Perm (List.range m) := by
  rw [List.perm_iff_count]
  intro k
  have hmem : Worker.exited ∈ s.workers := by
    obtain ⟨pc, hpc⟩ := List.exists_mem_of_length_pos (h.workers_length.symm ▸ hpos)
    exact hexited pc hpc ▸ hpc
  have hidle : ∀ task, Worker.running task ∉ s.workers := by
    intro task hrunning
    exact Worker.noConfusion (hexited _ hrunning)
  have horder := h.sound.order
  rw [(h.sound.left hmem).1, List.append_nil, h.enqueued_eq] at horder
  rw [h.sound.accounted.count_done hidle k, horder]

end Joining

private theorem run_workers_length (hrun : s.run i pc = some s') :
    s'.workers.length = s.workers.length := by
  cases pc with
  | locking =>
      simp only [ThreadPool.run, Option.ite_none_right_eq_some, Option.some.injEq] at hrun
      obtain ⟨-, rfl⟩ := hrun
      exact List.length_set
  | testing =>
      simp only [ThreadPool.run] at hrun
      split at hrun
      case h_1 =>
        cases hrun
        exact List.length_set
      case h_2 =>
        cases hrun
        split <;> exact List.length_set
  | waiting | running task =>
      cases hrun
      exact List.length_set
  | blocked | exited => cases hrun

/-- No worker is made or destroyed after the constructor. -/
theorem step_workers_length {a : Act} (hstep : s.step a = some s') :
    s'.workers.length = s.workers.length := by
  cases a with
  | run i =>
      obtain ⟨pc, -, hrun⟩ := Option.bind_eq_some_iff.mp hstep
      exact run_workers_length hrun
  | wake i =>
      simp only [ThreadPool.step, Option.ite_none_right_eq_some, Option.some.injEq] at hstep
      obtain ⟨-, rfl⟩ := hstep
      exact List.length_set
  | enqueue =>
      simp only [ThreadPool.step, ThreadPool.enqueue, Option.ite_none_right_eq_some,
        Option.some.injEq] at hstep
      obtain ⟨-, rfl⟩ := hstep
      rfl
  | notify i =>
      simp only [ThreadPool.step] at hstep
      split at hstep
      case isTrue => cases hstep
      case isFalse =>
        split at hstep
        case isTrue =>
          cases hstep
          exact List.length_set
        case isFalse =>
          split at hstep
          case isTrue => cases hstep
          case isFalse =>
            cases hstep
            rfl
  | destroy =>
      simp only [ThreadPool.step, ThreadPool.destroy] at hstep
      split at hstep
      case h_1 =>
        simp only [Option.ite_none_right_eq_some, Option.some.injEq] at hstep
        obtain ⟨-, rfl⟩ := hstep
        rfl
      case h_2 =>
        cases hstep
        exact List.length_map _
      case h_3 => cases hstep

/-- Once the destructor has notified all, at most three steps are left for each worker and each
queued task, and one for each call that has yet to notify. A worker can go on until all have
exited, and then every task that was ever queued has run exactly once. -/
theorem destructor_joins {threads : Nat} (hpos : 0 < threads) {as bs : List Act}
    (hrun : runSteps ThreadPool.step (start threads) as = some s)
    (hjoining : s.destructor = .joining)
    (hlater : runSteps ThreadPool.step s bs = some t) :
    bs.length ≤ 3 * s.workers.length + 3 * s.tasks.length + s.notifies ∧
      ((∃ j, (t.step (.run j)).isSome) ∨
        (∀ pc ∈ t.workers, pc = .exited) ∧ t.ran.Perm (List.range s.enqueued)) := by
  have hlength : s.workers.length = threads := by
    apply invariant_run (I := fun s : ThreadPool => s.workers.length = threads) ?_ ?_ hrun
    · intro s s' a hinv hstep
      exact (step_workers_length hstep).trans hinv
    · exact List.length_replicate
  have hinit : Joining threads s.enqueued s := ⟨sound_of_run hrun, hjoining, hlength, rfl⟩
  have hend := invariant_run (fun hinv hstep => Joining.step hinv hstep) hinit hlater
  have hsteps := length_le_of_decreasing (fun hinv hstep => Joining.step hinv hstep)
    (fun hinv hstep => (Joining.step_less hinv hstep).1) hinit hlater
  have hbound : weigh Worker.stepsLeft s.workers ≤ 3 * s.workers.length := by
    apply weigh_le
    intro pc _
    cases pc <;> simp [Worker.stepsLeft]
  constructor
  · simp only [ThreadPool.stepsLeft] at hsteps
    omega
  · rcases hend.exited_or_step with hexited | hnext
    · exact Or.inr ⟨hexited, hend.ran_perm hpos hexited⟩
    · exact Or.inl hnext

/-- One worker, a task queued before the destructor begins, and the run to the end. -/
theorem destructor_joins_one :
    ∃ s t, runSteps ThreadPool.step (start 1) [.enqueue, .destroy, .destroy] = some s ∧
      runSteps ThreadPool.step s
          [.run 0, .run 0, .notify 0, .run 0, .run 0, .run 0] = some t ∧
        6 ≤ 3 * s.workers.length + 3 * s.tasks.length + s.notifies ∧
          ((∃ j, (t.step (.run j)).isSome) ∨
            (∀ pc ∈ t.workers, pc = .exited) ∧ t.ran.Perm (List.range s.enqueued)) := by
  have hrun : ∃ s t, runSteps ThreadPool.step (start 1) [.enqueue, .destroy, .destroy] = some s ∧
      s.destructor = .joining ∧ runSteps ThreadPool.step s
        [.run 0, .run 0, .notify 0, .run 0, .run 0, .run 0] = some t :=
    ⟨_, _, rfl, rfl, rfl⟩
  obtain ⟨s, t, hrun, hjoining, hlater⟩ := hrun
  exact ⟨s, t, hrun, hlater, destructor_joins Nat.one_pos hrun hjoining hlater⟩

end LearningCpp.FuturePool
