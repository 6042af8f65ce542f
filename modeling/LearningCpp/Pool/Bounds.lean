import LearningCpp.Pool.Shutdown

/-!
The numbers that the pool keeps of its workers. `live_thr_num` stays between the
two bounds of `threadpool_create` whatever the manager decided on, because the
worker that leaves and the manager that creates both test it with the lock held;
`busy_thr_num` counts the workers that are at work.
-/

namespace LearningCpp.Pool

open Library

/-- The worker is counted in `busy_thr_num`. -/
def Pc.busy : Pc → Bool
  | .worker (.working _) | .worker .returned => true
  | _ => false

/-- A worker that is at work has not taken the exit branch. -/
theorem Pc.counted_of_busy {pc : Pc} (h : pc.busy = true) : pc.counted = true := by
  cases pc with
  | worker p =>
      cases p with
      | working task => rfl
      | returned => rfl
      | _ => cases h
  | adder p => cases h
  | adjuster p => cases h

structure Bounded (lo hi : Nat) (s : Threadpool) : Prop where
  low : lo ≤ s.live_thr_num
  high : s.live_thr_num ≤ hi
  busy : s.busy_thr_num = s.pcs.countP Pc.busy

namespace Bounded

variable {lo hi cap i : Nat} {s s' : Threadpool} {pc q : Pc}

/-- A thread goes on, and is as busy as before. -/
theorem goto (h : Bounded lo hi s) (hpc : s.pcs[i]? = some pc) (hbusy : q.busy = pc.busy) :
    Bounded lo hi (s.goto i q) where
  low := h.low
  high := h.high
  busy := h.busy.trans (congrArg Nat.cast (countP_set_same hpc hbusy).symm)

theorem goto_adder (h : Bounded lo hi s) {p : Adder} (hpc : s.pcs[i]? = some (.adder p))
    (q : Adder) : Bounded lo hi (s.goto i (.adder q)) := h.goto hpc rfl

theorem goto_adjuster (h : Bounded lo hi s) {p : Adjuster} (hpc : s.pcs[i]? = some (.adjuster p))
    (q : Adjuster) : Bounded lo hi (s.goto i (.adjuster q)) := h.goto hpc rfl

theorem create (h : Bounded lo hi s) (hlive : s.live_thr_num < hi) (slot : Nat) :
    Bounded lo hi (s.create slot) where
  low := Nat.le_succ_of_le h.low
  high := hlive
  busy := by
    have hnew : (s.pcs ++ [Pc.worker .locking]).countP Pc.busy = s.pcs.countP Pc.busy := by
      rw [List.countP_append]
      rfl
    exact h.busy.trans (congrArg Nat.cast hnew.symm)

protected theorem move (h : Bounded lo hi s) {a : Act} (hmove : Move lo hi cap s a s') :
    Bounded lo hi s' := by
  cases hmove with
  | call hpc => exact h.goto_adder hpc _
  | @add_lock _ _ task hpc _ => exact {h.goto_adder hpc (.testing task) with}
  | @add_wait _ _ task hpc _ _ => exact {h.goto_adder hpc (.waiting task) with}
  | @add_reject _ _ task hpc _ => exact {h.goto_adder hpc (.rejected task) with}
  | add_enqueue hpc _ _ henqueue =>
      obtain ⟨freed, rfl⟩ := enqueue_eq henqueue
      exact {h.goto_adder hpc .idle with}
  | add_unlocked hpc henqueue =>
      obtain ⟨freed, rfl⟩ := enqueue_eq henqueue
      exact {h.goto_adder hpc .unlocking with}
  | work_lock hpc _ => exact {h.goto (q := .worker .testing) hpc rfl with}
  | work_wait hpc _ _ => exact {h.goto (q := .worker .waiting) hpc rfl with}
  | work_stop hpc _ => exact {h.goto (q := .worker .stopping) hpc rfl with}
  | @work_take _ _ task _ hpc _ _ hdequeue =>
      obtain ⟨-, rfl⟩ := dequeue_eq hdequeue
      exact {h.goto (q := .worker (.took task)) hpc rfl with}
  | work_relock hpc _ => exact {h.goto (q := .worker .woken) hpc rfl with}
  | work_leave hpc _ hmany =>
      have hleaving := h.goto (q := .worker .leaving) hpc rfl
      exact {hleaving with
        low := Nat.le_sub_one_of_lt hmany
        high := (Nat.sub_le _ 1).trans h.high }
  | work_stay hpc _ _ => exact {h.goto (q := .worker .testing) hpc rfl with}
  | work_recheck hpc _ => exact h.goto hpc rfl
  | @work_busy _ _ task hpc =>
      refine {h with busy := ?_}
      rw [h.busy, Threadpool.goto, countP_set_gained hpc rfl rfl]
      rfl
  | work_return hpc => exact h.goto hpc rfl
  | work_idle hpc =>
      have hpos : 0 < s.pcs.countP Pc.busy :=
        List.countP_pos_iff.mpr ⟨_, List.mem_of_getElem? hpc, rfl⟩
      refine {h with busy := ?_}
      rw [h.busy, Threadpool.goto, countP_set_lost hpc rfl rfl, Nat.cast_pred hpos]
  | work_left hpc => exact h.goto hpc rfl
  | work_stopped hpc => exact h.goto hpc rfl
  | adjust_create hpc _ hlive _ =>
      exact (h.create hlive _).goto_adjuster (pcs_create hpc _) _
  | adjust_lock hpc _ => exact {h.goto_adjuster hpc (.growing 0 0 _ _) with}
  | adjust_unlock hpc => exact {h.goto_adjuster hpc (.grown _ _) with}
  | adjust_shrink hpc => exact {h.goto_adjuster hpc .looping with}
  | adjust_exit hpc _ => exact h.goto_adjuster hpc _
  | adjust_sleep hpc => exact h.goto_adjuster hpc _
  | adjust_count hpc => exact h.goto_adjuster hpc _
  | adjust_decide hpc => exact h.goto_adjuster hpc _
  | adjust_skip hpc => exact h.goto_adjuster hpc _
  | adjust_pass hpc _ => exact h.goto_adjuster hpc _
  | adjust_signal hpc => exact h.goto_adjuster hpc _
  | adjust_again hpc => exact h.goto_adjuster hpc _
  | wake_adder hpc => exact h.goto_adder hpc _
  | wake_worker hpc => exact h.goto hpc rfl
  | shut_down _ => exact {h with}
  | join_adjuster _ _ => exact {h with}
  | broadcast _ => exact {h with}
  | join _ _ => exact {h with}
  | joined _ _ _ _ => exact {h with}
  | free _ _ => exact {h with}

end Bounded

theorem Created.bounded {lo hi cap : Nat} {s : Threadpool} (h : Created lo hi cap s) :
    Bounded lo hi s := by
  obtain ⟨callers, task_queue, wait_exit, hcreate⟩ := h
  unfold threadpool_create at hcreate
  split at hcreate
  · next hle =>
    rw [← Option.some.inj hcreate]
    refine ⟨le_rfl, hle, ?_⟩
    simp [Pc.busy, List.countP_replicate]
  · cases hcreate

theorem Reachable.bounded {lo hi cap : Nat} {s : Threadpool} (h : Reachable lo hi cap s) :
    Bounded lo hi s := by
  obtain ⟨s₀, hcreated, acts, hrun⟩ := h
  refine invariant_run (I := Bounded lo hi) ?_ hcreated.bounded hrun
  intro s s' a hs hstep
  exact hs.move (step_move hstep).2

/-- In every state that a pool can get to, the number of live workers is between the
bounds and is that of the workers that have not taken the exit branch, and the
number of busy workers is between 0 and it. -/
theorem worker_numbers_bounded (lo hi cap : Nat) (s : Threadpool) (h : Reachable lo hi cap s) :
    lo ≤ s.live_thr_num ∧ s.live_thr_num ≤ hi ∧ s.live_thr_num = s.pcs.countP Pc.counted ∧
      0 ≤ s.busy_thr_num ∧ s.busy_thr_num ≤ s.live_thr_num := by
  have hbounded := h.bounded
  have hstaffed := h.staffed
  refine ⟨hbounded.low, hbounded.high, hstaffed.live, ?_, ?_⟩
  · rw [hbounded.busy]
    exact Int.natCast_nonneg _
  · rw [hbounded.busy, hstaffed.live]
    exact Int.ofNat_le.mpr (List.countP_mono_left (fun pc _ => Pc.counted_of_busy))

/-- Ten tasks made the manager create a second worker, and one of the two is at work. -/
theorem worker_numbers_grown :
    ∃ s, Reachable 1 2 10 s ∧ s.shutdown = false ∧ s.live_thr_num = 2 ∧ s.busy_thr_num = 1 ∧
      (1 ≤ s.live_thr_num ∧ s.live_thr_num ≤ 2 ∧ s.live_thr_num = s.pcs.countP Pc.counted ∧
        0 ≤ s.busy_thr_num ∧ s.busy_thr_num ≤ s.live_thr_num) := by
  have hrun : ((threadpool_create 1 2 10 1 (fun _ => ⟨0, 0⟩) 7).bind (fun s =>
      runSteps (step 1 2 10) s (growShrinkDestroy.take 49))).map
        (fun s => (s.shutdown, s.live_thr_num, s.busy_thr_num)) = some (false, 2, 1) := by
    decide +kernel
  obtain ⟨s₀, s, hcreate, hacts, hresult⟩ := exists_run hrun
  simp only [Prod.mk.injEq] at hresult
  obtain ⟨hopen, hlive, hbusy⟩ := hresult
  have hreach : Reachable 1 2 10 s := ⟨s₀, ⟨1, _, 7, hcreate⟩, _, hacts⟩
  exact ⟨s, hreach, hopen, hlive, hbusy, worker_numbers_bounded 1 2 10 s hreach⟩

end LearningCpp.Pool
