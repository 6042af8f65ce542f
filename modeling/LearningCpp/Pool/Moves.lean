import LearningCpp.Pool.Model

/-!
What a step of the pool can be, one move for every branch of the code. The
invariants are proved move by move.
-/

namespace LearningCpp.Pool

variable {lo hi cap : Nat}

/-- The moves of a caller, of a worker, of the manager and of `threadpool_destroy`. -/
inductive Move (lo hi cap : Nat) (s : Threadpool) : Act → Threadpool → Prop
  | call {i : Nat} {task : Task} (hpc : s.pcs[i]? = some (.adder .idle)) :
      Move lo hi cap s (.call i task) (s.goto i (.adder (.locking task)))
  | add_lock {i : Nat} {alive : Bool} {task : Task} (hpc : s.pcs[i]? = some (.adder (.locking task)))
      (hfree : s.lock = none) :
      Move lo hi cap s (.run i alive) {s.goto i (.adder (.testing task)) with lock := some i}
  | add_wait {i : Nat} {alive : Bool} {task : Task} (hpc : s.pcs[i]? = some (.adder (.testing task)))
      (hfull : s.queue_size = cap) (hopen : s.shutdown = false) :
      Move lo hi cap s (.run i alive) {s.goto i (.adder (.waiting task)) with lock := none}
  | add_reject {i : Nat} {alive : Bool} {task : Task}
      (hpc : s.pcs[i]? = some (.adder (.testing task))) (hshut : s.shutdown = true) :
      Move lo hi cap s (.run i alive) {s.goto i (.adder (.rejected task)) with lock := none}
  | add_enqueue {i : Nat} {alive : Bool} {task : Task} {s' : Threadpool}
      (hpc : s.pcs[i]? = some (.adder (.testing task))) (hroom : ¬ s.queue_size = cap)
      (hopen : s.shutdown = false)
      (henqueue : ({s.goto i (.adder .idle) with lock := none} : Threadpool).enqueue cap task = some s') :
      Move lo hi cap s (.run i alive) s'
  | add_unlocked {i : Nat} {alive : Bool} {task : Task} {s' : Threadpool}
      (hpc : s.pcs[i]? = some (.adder (.rejected task)))
      (henqueue : (s.goto i (.adder .unlocking)).enqueue cap task = some s') :
      Move lo hi cap s (.run i alive) s'
  | work_lock {i : Nat} {alive : Bool} (hpc : s.pcs[i]? = some (.worker .locking))
      (hfree : s.lock = none) :
      Move lo hi cap s (.run i alive) {s.goto i (.worker .testing) with lock := some i}
  | work_wait {i : Nat} {alive : Bool} (hpc : s.pcs[i]? = some (.worker .testing))
      (hempty : s.queue_size = 0) (hopen : s.shutdown = false) :
      Move lo hi cap s (.run i alive) {s.goto i (.worker .waiting) with lock := none}
  | work_stop {i : Nat} {alive : Bool} (hpc : s.pcs[i]? = some (.worker .testing))
      (hshut : s.shutdown = true) :
      Move lo hi cap s (.run i alive) {s.goto i (.worker .stopping) with lock := none}
  | work_take {i : Nat} {alive : Bool} {task : Task} {s' : Threadpool}
      (hpc : s.pcs[i]? = some (.worker .testing)) (hsize : ¬ s.queue_size = 0)
      (hopen : s.shutdown = false) (hdequeue : s.dequeue cap = some (task, s')) :
      Move lo hi cap s (.run i alive) {s'.goto i (.worker (.took task)) with lock := none}
  | work_relock {i : Nat} {alive : Bool} (hpc : s.pcs[i]? = some (.worker .relocking))
      (hfree : s.lock = none) :
      Move lo hi cap s (.run i alive) {s.goto i (.worker .woken) with lock := some i}
  | work_leave {i : Nat} {alive : Bool} (hpc : s.pcs[i]? = some (.worker .woken))
      (hexit : 0 < s.wait_exit_thr_num) (hmany : lo < s.live_thr_num) :
      Move lo hi cap s (.run i alive)
        {s.goto i (.worker .leaving) with
          lock := none
          wait_exit_thr_num := s.wait_exit_thr_num - 1
          live_thr_num := s.live_thr_num - 1 }
  | work_stay {i : Nat} {alive : Bool} (hpc : s.pcs[i]? = some (.worker .woken))
      (hexit : 0 < s.wait_exit_thr_num) (hfew : ¬ lo < s.live_thr_num) :
      Move lo hi cap s (.run i alive)
        {s.goto i (.worker .testing) with wait_exit_thr_num := s.wait_exit_thr_num - 1}
  | work_recheck {i : Nat} {alive : Bool} (hpc : s.pcs[i]? = some (.worker .woken))
      (hnone : ¬ 0 < s.wait_exit_thr_num) :
      Move lo hi cap s (.run i alive) (s.goto i (.worker .testing))
  | work_busy {i : Nat} {alive : Bool} {task : Task} (hpc : s.pcs[i]? = some (.worker (.took task))) :
      Move lo hi cap s (.run i alive)
        {s.goto i (.worker (.working task)) with busy_thr_num := s.busy_thr_num + 1}
  | work_return {i : Nat} {alive : Bool} {task : Task}
      (hpc : s.pcs[i]? = some (.worker (.working task))) :
      Move lo hi cap s (.run i alive) (s.goto i (.worker .returned))
  | work_idle {i : Nat} {alive : Bool} (hpc : s.pcs[i]? = some (.worker .returned)) :
      Move lo hi cap s (.run i alive)
        {s.goto i (.worker .locking) with busy_thr_num := s.busy_thr_num - 1}
  | work_left {i : Nat} {alive : Bool} (hpc : s.pcs[i]? = some (.worker .leaving)) :
      Move lo hi cap s (.run i alive) (s.goto i (.worker .left))
  | work_stopped {i : Nat} {alive : Bool} (hpc : s.pcs[i]? = some (.worker .stopping)) :
      Move lo hi cap s (.run i alive) (s.goto i (.worker .stopped))
  | adjust_exit {i : Nat} {alive : Bool} (hpc : s.pcs[i]? = some (.adjuster .looping))
      (hshut : s.shutdown = true) : Move lo hi cap s (.run i alive) (s.goto i (.adjuster .exited))
  | adjust_sleep {i : Nat} {alive : Bool} (hpc : s.pcs[i]? = some (.adjuster .looping)) :
      Move lo hi cap s (.run i alive) (s.goto i (.adjuster .sleeping))
  | adjust_count {i : Nat} {alive : Bool} (hpc : s.pcs[i]? = some (.adjuster .sleeping)) :
      Move lo hi cap s (.run i alive) (s.goto i (.adjuster (.counting s.queue_size s.live_thr_num)))
  | adjust_decide {i size live : Nat} {alive : Bool}
      (hpc : s.pcs[i]? = some (.adjuster (.counting size live))) :
      Move lo hi cap s (.run i alive) (s.goto i (.adjuster (.deciding size live s.busy_thr_num)))
  | adjust_lock {i size live : Nat} {alive : Bool} {busy : Int}
      (hpc : s.pcs[i]? = some (.adjuster (.deciding size live busy))) (hfree : s.lock = none) :
      Move lo hi cap s (.run i alive) {s.goto i (.adjuster (.growing 0 0 live busy)) with lock := some i}
  | adjust_skip {i size live : Nat} {alive : Bool} {busy : Int}
      (hpc : s.pcs[i]? = some (.adjuster (.deciding size live busy))) :
      Move lo hi cap s (.run i alive) (s.goto i (.adjuster (.grown live busy)))
  | adjust_create {i slot add live : Nat} {alive : Bool} {busy : Int}
      (hpc : s.pcs[i]? = some (.adjuster (.growing slot add live busy))) (hslot : slot < hi)
      (hlive : s.live_thr_num < hi) (hvacant : s.vacant slot alive = true) :
      Move lo hi cap s (.run i alive)
        ((s.create slot).goto i (.adjuster (.growing (slot + 1) (add + 1) live busy)))
  | adjust_pass {i slot add live : Nat} {alive : Bool} {busy : Int}
      (hpc : s.pcs[i]? = some (.adjuster (.growing slot add live busy)))
      (hvacant : s.vacant slot alive = false) :
      Move lo hi cap s (.run i alive) (s.goto i (.adjuster (.growing (slot + 1) add live busy)))
  | adjust_unlock {i slot add live : Nat} {alive : Bool} {busy : Int}
      (hpc : s.pcs[i]? = some (.adjuster (.growing slot add live busy))) :
      Move lo hi cap s (.run i alive) {s.goto i (.adjuster (.grown live busy)) with lock := none}
  | adjust_signal {i live : Nat} {alive : Bool} {busy : Int}
      (hpc : s.pcs[i]? = some (.adjuster (.grown live busy))) :
      Move lo hi cap s (.run i alive) (s.goto i (.adjuster .shrinking))
  | adjust_again {i live : Nat} {alive : Bool} {busy : Int}
      (hpc : s.pcs[i]? = some (.adjuster (.grown live busy))) :
      Move lo hi cap s (.run i alive) (s.goto i (.adjuster .looping))
  | adjust_shrink {i : Nat} {alive : Bool} (hpc : s.pcs[i]? = some (.adjuster .shrinking)) :
      Move lo hi cap s (.run i alive)
        {s.goto i (.adjuster .looping) with wait_exit_thr_num := DEFAULT_THREAD_VARY}
  | wake_adder {i : Nat} {task : Task} (hpc : s.pcs[i]? = some (.adder (.waiting task))) :
      Move lo hi cap s (.wake i) (s.goto i (.adder (.locking task)))
  | wake_worker {i : Nat} (hpc : s.pcs[i]? = some (.worker .waiting)) :
      Move lo hi cap s (.wake i) (s.goto i (.worker .relocking))
  | shut_down (hdestroy : s.destroyer = .idle) :
      Move lo hi cap s .destroy {s with shutdown := true, destroyer := .joining_adjuster}
  | join_adjuster (hdestroy : s.destroyer = .joining_adjuster)
      (hexited : s.pcs[0]? = some (.adjuster .exited)) :
      Move lo hi cap s .destroy {s with destroyer := .broadcasting}
  | broadcast (hdestroy : s.destroyer = .broadcasting) :
      Move lo hi cap s .destroy {s with destroyer := .testing 0}
  | join {i : Nat} (hdestroy : s.destroyer = .testing i) (hmore : i < s.live_thr_num) :
      Move lo hi cap s .destroy {s with destroyer := .joining i}
  | joined {i w : Nat} {pc : Pc} (hdestroy : s.destroyer = .joining i)
      (hslot : s.threads[i]? = some (some w)) (hpc : s.pcs[w]? = some pc) (hexited : pc.HasExited) :
      Move lo hi cap s .destroy {s with destroyer := .testing (i + 1)}
  | free {i : Nat} (hdestroy : s.destroyer = .testing i) (hdone : s.live_thr_num ≤ i) :
      Move lo hi cap s .destroy {s with destroyer := .freed}

variable {s s' : Threadpool} {i : Nat} {alive : Bool}

private theorem threadpool_add_move {p : Adder} (hpc : s.pcs[i]? = some (.adder p))
    (hstep : threadpool_add cap s i p = some s') : Move lo hi cap s (.run i alive) s' := by
  cases p with
  | idle => cases hstep
  | locking task =>
      simp only [threadpool_add] at hstep
      split at hstep
      · next hfree => exact Option.some.inj hstep ▸ .add_lock hpc hfree
      · cases hstep
  | testing task =>
      simp only [threadpool_add] at hstep
      split at hstep
      · next hfull => exact Option.some.inj hstep ▸ .add_wait hpc hfull.1 hfull.2
      · next hnotfull =>
        split at hstep
        · next hshut => exact Option.some.inj hstep ▸ .add_reject hpc hshut
        · next hopen =>
          have hopen' : s.shutdown = false := Bool.eq_false_iff.mpr hopen
          exact .add_enqueue hpc (fun hfull => hnotfull ⟨hfull, hopen'⟩) hopen' hstep
  | waiting task => cases hstep
  | rejected task => exact .add_unlocked hpc hstep
  | unlocking => cases hstep

private theorem threadpool_thread_move {p : Worker} (hpc : s.pcs[i]? = some (.worker p))
    (hstep : threadpool_thread lo cap s i p = some s') : Move lo hi cap s (.run i alive) s' := by
  cases p with
  | locking =>
      simp only [threadpool_thread] at hstep
      split at hstep
      · next hfree => exact Option.some.inj hstep ▸ .work_lock hpc hfree
      · cases hstep
  | testing =>
      simp only [threadpool_thread] at hstep
      split at hstep
      · next hempty => exact Option.some.inj hstep ▸ .work_wait hpc hempty.1 hempty.2
      · next hnotempty =>
        split at hstep
        · next hshut => exact Option.some.inj hstep ▸ .work_stop hpc hshut
        · next hopen =>
          have hopen' : s.shutdown = false := Bool.eq_false_iff.mpr hopen
          split at hstep
          · cases hstep
          · next task taken hdequeue =>
            exact Option.some.inj hstep ▸
              .work_take hpc (fun hempty => hnotempty ⟨hempty, hopen'⟩) hopen' hdequeue
  | waiting => cases hstep
  | relocking =>
      simp only [threadpool_thread] at hstep
      split at hstep
      · next hfree => exact Option.some.inj hstep ▸ .work_relock hpc hfree
      · cases hstep
  | woken =>
      simp only [threadpool_thread] at hstep
      split at hstep
      · next hexit =>
        split at hstep
        · next hmany => exact Option.some.inj hstep ▸ .work_leave hpc hexit hmany
        · next hfew => exact Option.some.inj hstep ▸ .work_stay hpc hexit hfew
      · next hnone => exact Option.some.inj hstep ▸ .work_recheck hpc hnone
  | took task => exact Option.some.inj hstep ▸ .work_busy hpc
  | working task => exact Option.some.inj hstep ▸ .work_return hpc
  | returned => exact Option.some.inj hstep ▸ .work_idle hpc
  | leaving => exact Option.some.inj hstep ▸ .work_left hpc
  | left => cases hstep
  | stopping => exact Option.some.inj hstep ▸ .work_stopped hpc
  | stopped => cases hstep

private theorem adjust_thread_move {p : Adjuster} (hpc : s.pcs[i]? = some (.adjuster p))
    (hstep : adjust_thread lo hi s i alive p = some s') : Move lo hi cap s (.run i alive) s' := by
  cases p with
  | looping =>
      simp only [adjust_thread] at hstep
      split at hstep
      · next hshut => exact Option.some.inj hstep ▸ .adjust_exit hpc hshut
      · exact Option.some.inj hstep ▸ .adjust_sleep hpc
  | sleeping =>
      simp only [adjust_thread] at hstep
      split at hstep
      · exact Option.some.inj hstep ▸ .adjust_count hpc
      · cases hstep
  | counting size live => exact Option.some.inj hstep ▸ .adjust_decide hpc
  | deciding size live busy =>
      simp only [adjust_thread] at hstep
      split at hstep
      · split at hstep
        · next hfree => exact Option.some.inj hstep ▸ .adjust_lock hpc hfree
        · cases hstep
      · exact Option.some.inj hstep ▸ .adjust_skip hpc
  | growing slot add live busy =>
      simp only [adjust_thread] at hstep
      split at hstep
      · next hmore =>
        split at hstep
        · next hvacant =>
          exact Option.some.inj hstep ▸ .adjust_create hpc hmore.1 hmore.2.2 hvacant
        · next hvacant =>
          exact Option.some.inj hstep ▸ .adjust_pass hpc (Bool.eq_false_iff.mpr hvacant)
      · exact Option.some.inj hstep ▸ .adjust_unlock hpc
  | grown live busy =>
      simp only [adjust_thread] at hstep
      split at hstep
      · exact Option.some.inj hstep ▸ .adjust_signal hpc
      · exact Option.some.inj hstep ▸ .adjust_again hpc
  | shrinking =>
      simp only [adjust_thread] at hstep
      split at hstep
      · exact Option.some.inj hstep ▸ .adjust_shrink hpc
      · cases hstep
  | exited => cases hstep

private theorem threadpool_destroy_move (hstep : threadpool_destroy s s.destroyer = some s') :
    Move lo hi cap s .destroy s' := by
  cases hdestroy : s.destroyer with
  | idle =>
      rw [hdestroy] at hstep
      exact Option.some.inj hstep ▸ .shut_down hdestroy
  | joining_adjuster =>
      simp only [hdestroy, threadpool_destroy] at hstep
      split at hstep
      · next hexited => exact Option.some.inj hstep ▸ .join_adjuster hdestroy hexited
      · cases hstep
  | broadcasting =>
      rw [hdestroy] at hstep
      exact Option.some.inj hstep ▸ .broadcast hdestroy
  | testing i =>
      simp only [hdestroy, threadpool_destroy] at hstep
      split at hstep
      · next hmore => exact Option.some.inj hstep ▸ .join hdestroy hmore
      · next hdone => exact Option.some.inj hstep ▸ .free hdestroy (Nat.le_of_not_lt hdone)
  | joining i =>
      simp only [hdestroy, threadpool_destroy] at hstep
      split at hstep
      · next w hslot =>
        split at hstep
        · next pc hpc =>
          split at hstep
          · next hexited => exact Option.some.inj hstep ▸ .joined hdestroy hslot hpc hexited
          · cases hstep
        · cases hstep
      · cases hstep
  | freed =>
      rw [hdestroy] at hstep
      cases hstep

private theorem wake_move {pc pc' : Pc} (hpc : s.pcs[i]? = some pc) (hwake : pc.wake = some pc') :
    Move lo hi cap s (.wake i) (s.goto i pc') := by
  cases pc with
  | adjuster p => cases hwake
  | adder p =>
      cases p with
      | waiting task =>
          cases hwake
          exact .wake_adder hpc
      | _ => cases hwake
  | worker p =>
      cases p with
      | waiting =>
          cases hwake
          exact .wake_worker hpc
      | _ => cases hwake

/-- Every step is a move. -/
theorem step_move {a : Act} (hstep : step lo hi cap s a = some s') :
    s.destroyer ≠ .freed ∧ Move lo hi cap s a s' := by
  simp only [step] at hstep
  split at hstep
  · cases hstep
  · next hdestroy =>
    refine ⟨hdestroy, ?_⟩
    cases a with
    | call i task =>
        simp only at hstep
        split at hstep
        · next hpc => exact Option.some.inj hstep ▸ .call hpc
        · cases hstep
    | run i alive =>
        simp only at hstep
        split at hstep
        · cases hstep
        · next p hpc => exact adjust_thread_move hpc hstep
        · next p hpc => exact threadpool_add_move hpc hstep
        · next p hpc => exact threadpool_thread_move hpc hstep
    | wake i =>
        simp only at hstep
        split at hstep
        · cases hstep
        · next pc' hpc' =>
          obtain ⟨pc, hpc, hwake⟩ := Option.bind_eq_some_iff.mp hpc'
          exact Option.some.inj hstep ▸ wake_move hpc hwake
    | destroy => exact threadpool_destroy_move hstep

theorem enqueue_eq {task : Task} (henqueue : s.enqueue cap task = some s') :
    ∃ freed, s' = {s with
      task_queue := s.task_queue.set s.queue_rear task
      queue_rear := (s.queue_rear + 1) % cap
      queue_size := s.queue_size + 1
      added := s.added ++ [task]
      freed := freed } := by
  unfold Threadpool.enqueue at henqueue
  split at henqueue
  · cases henqueue
  · exact ⟨_, (Option.some.inj henqueue).symm⟩

theorem dequeue_eq {task : Task} (hdequeue : s.dequeue cap = some (task, s')) :
    s.task_queue[s.queue_front]? = some task ∧ s' = {s with
      queue_front := (s.queue_front + 1) % cap
      queue_size := s.queue_size - 1
      taken := s.taken ++ [task] } := by
  unfold Threadpool.dequeue at hdequeue
  split at hdequeue
  · cases hdequeue
  · next first hfirst =>
    rw [Option.some.injEq, Prod.mk.injEq] at hdequeue
    obtain ⟨rfl, rfl⟩ := hdequeue
    exact ⟨hfirst, rfl⟩

/-- A new worker comes behind the threads that are there. -/
theorem pcs_create {pc : Pc} (hpc : s.pcs[i]? = some pc) (slot : Nat) :
    (s.create slot).pcs[i]? = some pc := by
  obtain ⟨hi, -⟩ := List.getElem?_eq_some_iff.mp hpc
  rw [Threadpool.create, List.getElem?_append_left hi, hpc]

/-- `shutdown` is never taken back. -/
theorem Move.open_before {a : Act} (h : Move lo hi cap s a s') (hopen : s'.shutdown = false) :
    s.shutdown = false := by
  cases h with
  | add_enqueue _ _ hopen' _ => exact hopen'
  | add_unlocked hpc henqueue =>
      obtain ⟨freed, rfl⟩ := enqueue_eq henqueue
      exact hopen
  | work_take _ _ hopen' _ => exact hopen'
  | shut_down _ => cases hopen
  | _ => exact hopen

end LearningCpp.Pool
