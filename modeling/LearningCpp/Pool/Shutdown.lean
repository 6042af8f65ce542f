import LearningCpp.Library.Census
import LearningCpp.Pool.Moves

/-!
`threadpool_destroy` joins as many slots of `threads` as workers are counted. No
worker is left running exactly when the slots that were vacated by shrinking are
behind those of all workers that are still running.
-/

namespace LearningCpp.Pool

open Library

/-- The worker is counted in `live_thr_num`: it has not taken the exit branch. -/
def Pc.counted : Pc → Bool
  | .worker .leaving | .worker .left => false
  | .worker _ => true
  | _ => false

/-- A thread stays a caller, a worker or the manager. -/
def SameKind : Pc → Pc → Prop
  | .adjuster _, .adjuster _ | .adder _, .adder _ | .worker _, .worker _ => True
  | _, _ => False

/-- The thread in slot `j` has exited. -/
def Threadpool.Gone (s : Threadpool) (j : Nat) : Prop :=
  ∃ w pc, s.threads[j]? = some (some w) ∧ s.pcs[w]? = some pc ∧ pc.HasExited

/-- A thread was created in slot `j`. -/
def Threadpool.Filled (s : Threadpool) (j : Nat) : Prop := ∃ w, s.threads[j]? = some (some w)

/-- How many slots `threadpool_destroy` has got past: at the end, at least as many as
workers are counted. -/
def Threadpool.joinCount (s : Threadpool) : Nat :=
  match s.destroyer with
  | .testing i | .joining i => i
  | .freed => s.live_thr_num
  | _ => 0

/-- `threadpool_destroy` has joined the manager. -/
def Destroyer.Closing : Destroyer → Prop
  | .idle | .joining_adjuster => False
  | _ => True

/-- What ties the slots to the workers and to their number. -/
structure Staffed (hi : Nat) (s : Threadpool) : Prop where
  live : s.live_thr_num = s.pcs.countP Pc.counted
  length_threads : s.threads.length = hi
  worker : ∀ {j w : Nat}, s.threads[j]? = some (some w) → ∃ p, s.pcs[w]? = some (.worker p)
  inj : ∀ {j k w : Nat}, s.threads[j]? = some (some w) → s.threads[k]? = some (some w) → j = k
  filled : ∀ {j k : Nat}, j < k → s.Filled k → s.Filled j
  seated : ∀ {w : Nat} {p : Worker}, s.pcs[w]? = some (.worker p) →
    (Pc.worker p).HasExited ∨ ∃ j : Nat, s.threads[j]? = some (some w)
  manager : ∀ {i : Nat} {p : Adjuster}, s.pcs[i]? = some (.adjuster p) → i = 0
  growing : ∀ {i slot add live : Nat} {busy : Int},
    s.pcs[i]? = some (.adjuster (.growing slot add live busy)) → ∀ j < slot, s.Filled j
  closing : s.destroyer.Closing → s.pcs[0]? = some (.adjuster .exited)
  gone : ∀ j < s.joinCount, s.Gone j

namespace Staffed

variable {lo hi cap i : Nat} {s s' : Threadpool} {pc q : Pc}

theorem gone_goto {j : Nat} (hgone : s.Gone j) (hpc : s.pcs[i]? = some pc) (hrunning : ¬ pc.HasExited) :
    (s.goto i q).Gone j := by
  obtain ⟨w, pcw, hslot, hw, hexited⟩ := hgone
  have hne : i ≠ w := by
    rintro rfl
    obtain rfl := Option.some.inj (hpc.symm.trans hw)
    exact hrunning hexited
  exact ⟨w, pcw, hslot, (List.getElem?_set_ne hne).trans hw, hexited⟩

/-- A thread that has not exited goes on, without a change of the slots. -/
theorem goto_live (h : Staffed hi s) {live : Nat} (hpc : s.pcs[i]? = some pc) (hkind : SameKind pc q)
    (hlive : live = (s.pcs.set i q).countP Pc.counted) (hrunning : ¬ pc.HasExited)
    (hmanager : pc ≠ .adjuster .exited) (hdestroyer : s.destroyer ≠ .freed)
    (hgrowing : ∀ slot add live busy, q = .adjuster (.growing slot add live busy) →
      ∀ j < slot, s.Filled j) : Staffed hi {s.goto i q with live_thr_num := live} where
  live := hlive
  length_threads := h.length_threads
  worker := by
    intro j w hslot
    obtain ⟨p, hp⟩ := h.worker hslot
    rcases eq_or_ne i w with rfl | hne
    · obtain rfl := Option.some.inj (hpc.symm.trans hp)
      obtain ⟨hlt, -⟩ := List.getElem?_eq_some_iff.mp hpc
      cases q with
      | worker p' => exact ⟨p', List.getElem?_set_self hlt⟩
      | adder p' => cases hkind
      | adjuster p' => cases hkind
    · exact ⟨p, (List.getElem?_set_ne hne).trans hp⟩
  inj := h.inj
  filled := h.filled
  seated := by
    intro w p hw
    rcases (Mutex.getElem?_set_of_some hpc w).mp hw with ⟨rfl, rfl⟩ | ⟨-, hold⟩
    · cases pc with
      | worker p' => exact Or.inr ((h.seated hpc).resolve_left hrunning)
      | adder p' => cases hkind
      | adjuster p' => cases hkind
    · exact h.seated hold
  manager := by
    intro j p hj
    rcases (Mutex.getElem?_set_of_some hpc j).mp hj with ⟨rfl, rfl⟩ | ⟨-, hold⟩
    · cases pc with
      | adjuster p' => exact h.manager hpc
      | adder p' => cases hkind
      | worker p' => cases hkind
    · exact h.manager hold
  growing := by
    intro j slot add live busy hj
    rcases (Mutex.getElem?_set_of_some hpc j).mp hj with ⟨-, hnew⟩ | ⟨-, hold⟩
    · exact hgrowing slot add live busy hnew
    · exact h.growing hold
  closing := by
    intro hclosing
    have hexited := h.closing hclosing
    have hne : i ≠ 0 := by
      rintro rfl
      exact hmanager (Option.some.inj (hpc.symm.trans hexited))
    exact (List.getElem?_set_ne hne).trans hexited
  gone := by
    intro j hj
    have hbefore : j < s.joinCount := by
      cases hdestroy : s.destroyer with
      | freed => exact absurd hdestroy hdestroyer
      | _ => simpa only [Threadpool.joinCount, Threadpool.goto, hdestroy] using hj
    exact gone_goto (h.gone j hbefore) hpc hrunning

theorem goto (h : Staffed hi s) (hpc : s.pcs[i]? = some pc) (hkind : SameKind pc q)
    (hcounted : q.counted = pc.counted) (hrunning : ¬ pc.HasExited)
    (hmanager : pc ≠ .adjuster .exited) (hdestroyer : s.destroyer ≠ .freed)
    (hgrowing : ∀ slot add live busy, q = .adjuster (.growing slot add live busy) →
      ∀ j < slot, s.Filled j) : Staffed hi (s.goto i q) :=
  h.goto_live hpc hkind (h.live.trans (countP_set_same hpc hcounted).symm) hrunning hmanager hdestroyer
    hgrowing

/-- While the manager is growing the pool nothing has been joined. -/
theorem not_closing_of_growing (h : Staffed hi s) {slot add live : Nat} {busy : Int}
    (hpc : s.pcs[i]? = some (.adjuster (.growing slot add live busy))) :
    ¬ s.destroyer.Closing := by
  intro hclosing
  have hexited := h.closing hclosing
  obtain rfl := h.manager hpc
  rw [hpc] at hexited
  cases hexited

private theorem joinCount_of_not_closing (hclosing : ¬ s.destroyer.Closing) : s.joinCount = 0 := by
  cases hdestroy : s.destroyer with
  | idle => simp only [Threadpool.joinCount, hdestroy]
  | joining_adjuster => simp only [Threadpool.joinCount, hdestroy]
  | _ =>
      rw [hdestroy] at hclosing
      exact absurd trivial hclosing

/-- The slot in which a worker is created held none, or one that has exited. -/
theorem exited_of_vacant {slot w : Nat} {alive : Bool} {p : Worker} (hvacant : s.vacant slot alive = true)
    (hslot : s.threads[slot]? = some (some w)) (hw : s.pcs[w]? = some (.worker p)) :
    (Pc.worker p).HasExited := by
  simp only [Threadpool.vacant, hslot, hw, Bool.and_eq_true, decide_eq_true_eq] at hvacant
  exact hvacant.1

theorem create (h : Staffed hi s) {slot add live : Nat} {busy : Int} {alive : Bool}
    (hpc : s.pcs[i]? = some (.adjuster (.growing slot add live busy))) (hslot : slot < hi)
    (hvacant : s.vacant slot alive = true) : Staffed hi (s.create slot) := by
  have hclosing := h.not_closing_of_growing hpc
  have hlt : slot < s.threads.length := h.length_threads.symm ▸ hslot
  have hnew : (s.pcs ++ [Pc.worker .locking])[s.pcs.length]? = some (.worker .locking) :=
    List.getElem?_concat_length
  -- no slot named the new thread
  have hfresh {j w : Nat} (hj : s.threads[j]? = some (some w)) : w ≠ s.pcs.length := by
    obtain ⟨p, hp⟩ := h.worker hj
    exact Nat.ne_of_lt (List.getElem?_eq_some_iff.mp hp).1
  have hthreads {j w : Nat} (hj : (s.create slot).threads[j]? = some (some w)) :
      (j = slot ∧ w = s.pcs.length) ∨ (j ≠ slot ∧ s.threads[j]? = some (some w)) := by
    unfold Threadpool.create at hj
    rcases eq_or_ne j slot with rfl | hne
    · rw [List.getElem?_set_self hlt] at hj
      exact Or.inl ⟨rfl, (Option.some.inj (Option.some.inj hj)).symm⟩
    · rw [List.getElem?_set_ne hne.symm] at hj
      exact Or.inr ⟨hne, hj⟩
  have hkept {j : Nat} (hj : s.Filled j) : (s.create slot).Filled j := by
    rcases eq_or_ne j slot with rfl | hne
    · exact ⟨s.pcs.length, List.getElem?_set_self hlt⟩
    · obtain ⟨w, hw⟩ := hj
      exact ⟨w, (List.getElem?_set_ne hne.symm).trans hw⟩
  refine {
    live := ?_
    length_threads := by rw [Threadpool.create, List.length_set, h.length_threads]
    worker := ?_
    inj := ?_
    filled := ?_
    seated := ?_
    manager := ?_
    growing := ?_
    closing := fun hclosing' => absurd hclosing' hclosing
    gone := ?_ }
  · rw [Threadpool.create, List.countP_append, ← h.live]
    rfl
  · intro j w hj
    rcases hthreads hj with ⟨-, rfl⟩ | ⟨-, hj⟩
    · exact ⟨.locking, hnew⟩
    · obtain ⟨p, hp⟩ := h.worker hj
      exact ⟨p, pcs_create hp slot⟩
  · intro j k w hj hk
    rcases hthreads hj with ⟨rfl, rfl⟩ | ⟨-, hj⟩
    · rcases hthreads hk with ⟨rfl, -⟩ | ⟨-, hk⟩
      · rfl
      · exact absurd rfl (hfresh hk)
    · rcases hthreads hk with ⟨-, rfl⟩ | ⟨-, hk⟩
      · exact absurd rfl (hfresh hj)
      · exact h.inj hj hk
  · rintro j k hjk ⟨w, hk⟩
    rcases hthreads hk with ⟨rfl, -⟩ | ⟨-, hk⟩
    · exact hkept (h.growing hpc j hjk)
    · exact hkept (h.filled hjk ⟨w, hk⟩)
  · intro w p hw
    rw [Threadpool.create, List.getElem?_append] at hw
    split at hw
    · rcases h.seated hw with hexited | ⟨j, hj⟩
      · exact Or.inl hexited
      · rcases eq_or_ne j slot with rfl | hne
        · exact Or.inl (exited_of_vacant hvacant hj hw)
        · exact Or.inr ⟨j, (List.getElem?_set_ne hne.symm).trans hj⟩
    · next hge =>
      rw [List.getElem?_singleton] at hw
      split at hw
      · next hzero =>
        obtain rfl : w = s.pcs.length := by omega
        exact Or.inr ⟨slot, List.getElem?_set_self hlt⟩
      · cases hw
  · intro j p hj
    rw [Threadpool.create, List.getElem?_append] at hj
    split at hj
    · exact h.manager hj
    · rw [List.getElem?_singleton] at hj
      split at hj <;> cases hj
  · intro j slot' add' live' busy' hj k hk
    rw [Threadpool.create, List.getElem?_append] at hj
    split at hj
    · exact hkept (h.growing hj k hk)
    · rw [List.getElem?_singleton] at hj
      split at hj <;> cases hj
  · intro j hj
    have hzero : (s.create slot).joinCount = 0 := joinCount_of_not_closing hclosing
    omega

/-- `threadpool_destroy` goes on. -/
theorem close (h : Staffed hi s) (shutdown : Bool) {destroyer : Destroyer}
    (hclosing : destroyer.Closing → s.pcs[0]? = some (.adjuster .exited))
    (hgone : ∀ j < Threadpool.joinCount {s with destroyer := destroyer}, s.Gone j) :
    Staffed hi {s with shutdown := shutdown, destroyer := destroyer} :=
  {h with closing := hclosing, gone := hgone}

theorem goto_adder (h : Staffed hi s) {p q : Adder} (hpc : s.pcs[i]? = some (.adder p))
    (hdestroyer : s.destroyer ≠ .freed) : Staffed hi (s.goto i (.adder q)) :=
  h.goto hpc trivial rfl (not_or.mpr ⟨nofun, nofun⟩) nofun hdestroyer nofun

theorem goto_worker (h : Staffed hi s) {p q : Worker} (hpc : s.pcs[i]? = some (.worker p))
    (hcounted : (Pc.worker q).counted = (Pc.worker p).counted) (hrunning : ¬ (Pc.worker p).HasExited)
    (hdestroyer : s.destroyer ≠ .freed) : Staffed hi (s.goto i (.worker q)) :=
  h.goto hpc trivial hcounted hrunning nofun hdestroyer nofun

theorem goto_adjuster (h : Staffed hi s) {p q : Adjuster} (hpc : s.pcs[i]? = some (.adjuster p))
    (hexited : p ≠ .exited) (hdestroyer : s.destroyer ≠ .freed)
    (hgrowing : ∀ slot add live busy, q = .growing slot add live busy → ∀ j < slot, s.Filled j) :
    Staffed hi (s.goto i (.adjuster q)) :=
  h.goto hpc trivial rfl (not_or.mpr ⟨nofun, nofun⟩) (fun heq => hexited (Pc.adjuster.inj heq))
    hdestroyer (fun slot add live busy heq => hgrowing slot add live busy (Pc.adjuster.inj heq))

theorem filled_of_not_vacant {slot : Nat} {alive : Bool} (hvacant : s.vacant slot alive = false) :
    s.Filled slot := by
  simp only [Threadpool.vacant] at hvacant
  split at hvacant
  · next w hslot => exact ⟨w, hslot⟩
  · cases hvacant

/-- The slots before the next one are filled when the ones before are. -/
theorem filled_succ {slot : Nat} (hslot : s.Filled slot) (hbefore : ∀ j < slot, s.Filled j) :
    ∀ j < slot + 1, s.Filled j := by
  intro j hj
  rcases Nat.lt_succ_iff_lt_or_eq.mp hj with hlt | rfl
  · exact hbefore j hlt
  · exact hslot

protected theorem move (h : Staffed hi s) {a : Act} (hdestroyer : s.destroyer ≠ .freed)
    (hmove : Move lo hi cap s a s') : Staffed hi s' := by
  cases hmove with
  | call hpc => exact h.goto_adder hpc hdestroyer
  | @add_lock _ _ task hpc _ =>
      have htesting := h.goto_adder (q := .testing task) hpc hdestroyer
      exact {htesting with}
  | @add_wait _ _ task hpc _ _ =>
      have hwaiting := h.goto_adder (q := .waiting task) hpc hdestroyer
      exact {hwaiting with}
  | @add_reject _ _ task hpc _ =>
      have hrejected := h.goto_adder (q := .rejected task) hpc hdestroyer
      exact {hrejected with}
  | add_enqueue hpc _ _ henqueue =>
      obtain ⟨freed, rfl⟩ := enqueue_eq henqueue
      have hidle := h.goto_adder (q := .idle) hpc hdestroyer
      exact {hidle with}
  | add_unlocked hpc henqueue =>
      obtain ⟨freed, rfl⟩ := enqueue_eq henqueue
      have hunlocking := h.goto_adder (q := .unlocking) hpc hdestroyer
      exact {hunlocking with}
  | work_lock hpc _ =>
      have htesting := h.goto_worker (q := .testing) hpc rfl (by decide) hdestroyer
      exact {htesting with}
  | work_wait hpc _ _ =>
      have hwaiting := h.goto_worker (q := .waiting) hpc rfl (by decide) hdestroyer
      exact {hwaiting with}
  | work_stop hpc _ =>
      have hstopping := h.goto_worker (q := .stopping) hpc rfl (by decide) hdestroyer
      exact {hstopping with}
  | @work_take _ _ task _ hpc _ _ hdequeue =>
      obtain ⟨-, rfl⟩ := dequeue_eq hdequeue
      have htook := h.goto_worker (q := .took task) hpc rfl (by decide) hdestroyer
      exact {htook with}
  | work_relock hpc _ =>
      have hwoken := h.goto_worker (q := .woken) hpc rfl (by decide) hdestroyer
      exact {hwoken with}
  | @work_leave i _ hpc _ _ =>
      have hlive : s.live_thr_num - 1 = (s.pcs.set i (.worker .leaving)).countP Pc.counted := by
        rw [countP_set_lost hpc rfl rfl, ← h.live]
      have hleaving :=
        h.goto_live (q := .worker .leaving) hpc trivial hlive (by decide) nofun hdestroyer nofun
      exact {hleaving with}
  | work_stay hpc _ _ =>
      have htesting := h.goto_worker (q := .testing) hpc rfl (by decide) hdestroyer
      exact {htesting with}
  | work_recheck hpc _ => exact h.goto_worker hpc rfl (by decide) hdestroyer
  | @work_busy _ _ task hpc =>
      have hworking := h.goto_worker (q := .working task) hpc rfl (not_or.mpr ⟨nofun, nofun⟩) hdestroyer
      exact {hworking with}
  | work_return hpc => exact h.goto_worker hpc rfl (not_or.mpr ⟨nofun, nofun⟩) hdestroyer
  | work_idle hpc =>
      have hlocking := h.goto_worker (q := .locking) hpc rfl (by decide) hdestroyer
      exact {hlocking with}
  | work_left hpc => exact h.goto_worker hpc rfl (by decide) hdestroyer
  | work_stopped hpc => exact h.goto_worker hpc rfl (by decide) hdestroyer
  | adjust_exit hpc _ => exact h.goto_adjuster hpc nofun hdestroyer nofun
  | adjust_sleep hpc => exact h.goto_adjuster hpc nofun hdestroyer nofun
  | adjust_count hpc => exact h.goto_adjuster hpc nofun hdestroyer nofun
  | adjust_decide hpc => exact h.goto_adjuster hpc nofun hdestroyer nofun
  | @adjust_lock _ _ live _ busy hpc _ =>
      have hgrowing := h.goto_adjuster (q := .growing 0 0 live busy) hpc nofun hdestroyer (by
        rintro slot add live' busy' ⟨⟩ j hj
        exact absurd hj (Nat.not_lt_zero j))
      exact {hgrowing with}
  | adjust_skip hpc => exact h.goto_adjuster hpc nofun hdestroyer nofun
  | @adjust_create _ slot _ _ _ _ hpc hslot _ hvacant =>
      have hcreated := h.create hpc hslot hvacant
      have hpc' := pcs_create hpc slot
      have hfilled : (s.create slot).Filled slot :=
        ⟨s.pcs.length, List.getElem?_set_self (h.length_threads.symm ▸ hslot)⟩
      refine hcreated.goto_adjuster hpc' nofun hdestroyer ?_
      rintro slot' add' live' busy' ⟨⟩
      exact filled_succ hfilled (hcreated.growing hpc')
  | adjust_pass hpc hvacant =>
      refine h.goto_adjuster hpc nofun hdestroyer ?_
      rintro slot' add' live' busy' ⟨⟩
      exact filled_succ (filled_of_not_vacant hvacant) (h.growing hpc)
  | @adjust_unlock _ _ _ live _ busy hpc =>
      have hgrown := h.goto_adjuster (q := .grown live busy) hpc nofun hdestroyer nofun
      exact {hgrown with}
  | adjust_signal hpc => exact h.goto_adjuster hpc nofun hdestroyer nofun
  | adjust_again hpc => exact h.goto_adjuster hpc nofun hdestroyer nofun
  | adjust_shrink hpc =>
      have hlooping := h.goto_adjuster (q := .looping) hpc nofun hdestroyer nofun
      exact {hlooping with}
  | wake_adder hpc => exact h.goto_adder hpc hdestroyer
  | wake_worker hpc => exact h.goto_worker hpc rfl (by decide) hdestroyer
  | shut_down _ =>
      refine h.close true nofun ?_
      intro j hj
      exact absurd hj (Nat.not_lt_zero j)
  | join_adjuster _ hexited =>
      refine h.close s.shutdown (fun _ => hexited) ?_
      intro j hj
      exact absurd hj (Nat.not_lt_zero j)
  | broadcast hdestroy =>
      refine h.close s.shutdown (fun _ => h.closing (hdestroy ▸ trivial)) ?_
      intro j hj
      exact absurd hj (Nat.not_lt_zero j)
  | join hdestroy _ =>
      refine h.close s.shutdown (fun _ => h.closing (hdestroy ▸ trivial)) ?_
      intro j hj
      apply h.gone
      rw [Threadpool.joinCount, hdestroy]
      exact hj
  | @joined i w pc hdestroy hslot hpc hexited =>
      refine h.close s.shutdown (fun _ => h.closing (hdestroy ▸ trivial)) ?_
      intro j hj
      rcases Nat.lt_succ_iff_lt_or_eq.mp hj with hlt | rfl
      · apply h.gone
        rw [Threadpool.joinCount, hdestroy]
        exact hlt
      · exact ⟨w, pc, hslot, hpc, hexited⟩
  | free hdestroy hdone =>
      refine h.close s.shutdown (fun _ => h.closing (hdestroy ▸ trivial)) ?_
      intro j hj
      apply h.gone
      rw [Threadpool.joinCount, hdestroy]
      exact Nat.lt_of_lt_of_le hj hdone

end Staffed

/-- The threads of a new pool: the manager, the callers, and a worker for every slot
that is filled. -/
theorem Created.cases {lo hi cap : Nat} {s : Threadpool} (h : Created lo hi cap s) :
    lo ≤ hi ∧ ∃ callers, s.live_thr_num = lo ∧ s.destroyer = .idle ∧
      s.threads = (List.range lo).map (fun i => some (1 + callers + i)) ++ List.replicate (hi - lo) none ∧
      s.pcs = Pc.adjuster .looping ::
        (List.replicate callers (Pc.adder .idle) ++ List.replicate lo (Pc.worker .locking)) := by
  obtain ⟨callers, task_queue, wait_exit, hcreate⟩ := h
  unfold threadpool_create at hcreate
  split at hcreate
  · next hle =>
    rw [← Option.some.inj hcreate]
    exact ⟨hle, callers, rfl, rfl, rfl, rfl⟩
  · cases hcreate

theorem slot_created {lo hi callers j w : Nat}
    (hslot : ((List.range lo).map (fun i => some (1 + callers + i)) ++
      List.replicate (hi - lo) none)[j]? = some (some w)) : j < lo ∧ w = 1 + callers + j := by
  rw [List.getElem?_append, List.length_map, List.length_range] at hslot
  split at hslot
  · next hlt =>
    rw [List.getElem?_map, List.getElem?_range hlt] at hslot
    exact ⟨hlt, (Option.some.inj (Option.some.inj hslot)).symm⟩
  · rw [List.getElem?_replicate] at hslot
    split at hslot <;> cases hslot

theorem created_slot {lo hi callers j : Nat} (hlt : j < lo) :
    ((List.range lo).map (fun i => some (1 + callers + i)) ++
      List.replicate (hi - lo) none)[j]? = some (some (1 + callers + j)) := by
  rw [List.getElem?_append_left (by rw [List.length_map, List.length_range]; exact hlt),
    List.getElem?_map, List.getElem?_range hlt]
  rfl

theorem pc_created {lo callers i : Nat} {pc : Pc}
    (hpc : (Pc.adjuster .looping :: (List.replicate callers (Pc.adder .idle) ++
      List.replicate lo (Pc.worker .locking)))[i]? = some pc) :
    (i = 0 ∧ pc = .adjuster .looping) ∨ pc = .adder .idle ∨
      (∃ j < lo, i = 1 + callers + j ∧ pc = .worker .locking) := by
  cases i with
  | zero => exact Or.inl ⟨rfl, (Option.some.inj hpc).symm⟩
  | succ i =>
      rw [List.getElem?_cons_succ, List.getElem?_append, List.length_replicate] at hpc
      split at hpc
      · next hlt =>
        rw [List.getElem?_replicate, if_pos hlt] at hpc
        exact Or.inr (Or.inl (Option.some.inj hpc).symm)
      · next hge =>
        rw [List.getElem?_replicate] at hpc
        split at hpc
        · next hlt =>
          exact Or.inr (Or.inr ⟨i - callers, hlt, by omega, (Option.some.inj hpc).symm⟩)
        · cases hpc

theorem Created.staffed {lo hi cap : Nat} {s : Threadpool} (h : Created lo hi cap s) :
    Staffed hi s := by
  obtain ⟨hle, callers, hlive, hdestroyer, hthreads, hpcs⟩ := h.cases
  have hworker {j : Nat} (hj : j < lo) : s.pcs[1 + callers + j]? = some (.worker .locking) := by
    rw [hpcs, Nat.add_assoc, Nat.add_comm 1, List.getElem?_cons_succ,
      List.getElem?_append_right (by rw [List.length_replicate]; omega), List.length_replicate,
      Nat.add_sub_cancel_left, List.getElem?_replicate, if_pos hj]
  refine {
    live := ?_
    length_threads := ?_
    worker := ?_
    inj := ?_
    filled := ?_
    seated := ?_
    manager := ?_
    growing := ?_
    closing := by rw [hdestroyer]; exact False.elim
    gone := by rw [Threadpool.joinCount, hdestroyer]; exact fun j hj => absurd hj (Nat.not_lt_zero j) }
  · rw [hlive, hpcs, List.countP_cons, List.countP_append, List.countP_replicate, List.countP_replicate]
    simp [Pc.counted]
  · rw [hthreads, List.length_append, List.length_map, List.length_range, List.length_replicate]
    omega
  · intro j w hj
    rw [hthreads] at hj
    obtain ⟨hlt, rfl⟩ := slot_created hj
    exact ⟨.locking, hworker hlt⟩
  · intro j k w hj hk
    rw [hthreads] at hj hk
    have hj' := (slot_created hj).2
    have hk' := (slot_created hk).2
    omega
  · rintro j k hjk ⟨w, hk⟩
    rw [hthreads] at hk
    have hlt := (slot_created hk).1
    exact ⟨1 + callers + j, by rw [hthreads]; exact created_slot (by omega)⟩
  · intro w p hw
    rw [hpcs] at hw
    obtain ⟨-, hpc⟩ | hpc | ⟨j, hlt, rfl, -⟩ := pc_created hw
    · cases hpc
    · cases hpc
    · exact Or.inr ⟨j, by rw [hthreads]; exact created_slot hlt⟩
  · intro i p hi
    rw [hpcs] at hi
    obtain ⟨rfl, -⟩ | hpc | ⟨j, -, -, hpc⟩ := pc_created hi
    · rfl
    · cases hpc
    · cases hpc
  · intro i slot add live busy hi
    rw [hpcs] at hi
    obtain ⟨-, hpc⟩ | hpc | ⟨j, -, -, hpc⟩ := pc_created hi <;> cases hpc

theorem Reachable.staffed {lo hi cap : Nat} {s : Threadpool} (h : Reachable lo hi cap s) :
    Staffed hi s := by
  obtain ⟨s₀, hcreated, acts, hrun⟩ := h
  refine invariant_run (I := Staffed hi) ?_ hcreated.staffed hrun
  intro s s' a hs hstep
  obtain ⟨hdestroyer, hmove⟩ := step_move hstep
  exact hs.move hdestroyer hmove

/-- No slot that was vacated by the exit branch is before that of a running worker,
and no worker is between that branch and its `pthread_exit`. -/
structure Compact (s : Threadpool) : Prop where
  before : ∀ (j k v w : Nat) (p : Worker), j < k → s.threads[j]? = some (some v) →
    s.threads[k]? = some (some w) → s.pcs[v]? = some (.worker .left) →
    s.pcs[w]? = some (.worker p) → (Pc.worker p).HasExited
  leaving : ∀ w : Nat, s.pcs[w]? ≠ some (.worker .leaving)

/-- The slots up to that of a running worker are taken by workers that are counted. -/
theorem Staffed.lt_live {hi : Nat} {s : Threadpool} (h : Staffed hi s) (hcompact : Compact s)
    {k w : Nat} {p : Worker} (hslot : s.threads[k]? = some (some w))
    (hw : s.pcs[w]? = some (.worker p)) (hrunning : ¬ (Pc.worker p).HasExited) :
    k < s.live_thr_num := by
  have hfilled : ∀ j : Nat, ∃ v, j ≤ k → s.threads[j]? = some (some v) := by
    intro j
    rcases Nat.lt_or_ge k j with hlt | hle
    · exact ⟨0, fun hj => absurd hj (Nat.not_le_of_lt hlt)⟩
    · rcases Nat.lt_or_eq_of_le hle with hlt | rfl
      · obtain ⟨v, hv⟩ := h.filled hlt ⟨w, hslot⟩
        exact ⟨v, fun _ => hv⟩
      · exact ⟨w, fun _ => hslot⟩
  choose seat hseat using hfilled
  have hcounted : ∀ j ≤ k, ∃ pc, s.pcs[seat j]? = some pc ∧ pc.counted = true := by
    intro j hj
    obtain ⟨q, hq⟩ := h.worker (hseat j hj)
    refine ⟨.worker q, hq, ?_⟩
    cases q with
    | leaving => exact absurd hq (hcompact.leaving (seat j))
    | left =>
        rcases Nat.lt_or_eq_of_le hj with hlt | rfl
        · exact absurd (hcompact.before j k _ w p hlt (hseat j hj) hslot hq hw) hrunning
        · have hsame := Option.some.inj (Option.some.inj ((hseat j hj).symm.trans hslot))
          rw [hsame, hw] at hq
          obtain rfl := Pc.worker.inj (Option.some.inj hq)
          exact absurd (Or.inl rfl) hrunning
    | _ => rfl
  have hnodup : ((List.range (k + 1)).map seat).Nodup := by
    refine List.Nodup.map_on ?_ List.nodup_range
    intro i hi j hj heq
    have hi' := hseat i (Nat.le_of_lt_succ (List.mem_range.mp hi))
    have hj' := hseat j (Nat.le_of_lt_succ (List.mem_range.mp hj))
    rw [heq] at hi'
    exact h.inj hi' hj'
  have hlength : ((List.range (k + 1)).map seat).length ≤ s.pcs.countP Pc.counted := by
    refine length_le_countP hnodup ?_
    intro v hv
    obtain ⟨j, hj, rfl⟩ := List.mem_map.mp hv
    exact hcounted j (Nat.le_of_lt_succ (List.mem_range.mp hj))
  rw [List.length_map, List.length_range, ← h.live] at hlength
  exact hlength

/-- When the pool is freed, no worker is running exactly when the slots are compact. -/
theorem none_running_iff (lo hi cap : Nat) (s : Threadpool) (h : Reachable lo hi cap s)
    (hfreed : s.destroyer = .freed) :
    (∀ (w : Nat) (p : Worker), s.pcs[w]? = some (.worker p) → (Pc.worker p).HasExited) ↔ Compact s := by
  have hstaffed := h.staffed
  constructor
  · intro hexited
    refine ⟨fun _ _ _ w p _ _ _ _ hw => hexited w p hw, ?_⟩
    intro w hw
    exact absurd (hexited w _ hw) (by decide)
  · intro hcompact w p hw
    by_contra hrunning
    obtain ⟨k, hslot⟩ := (hstaffed.seated hw).resolve_left hrunning
    have hlt := hstaffed.lt_live hcompact hslot hw hrunning
    have hcount : s.joinCount = s.live_thr_num := by rw [Threadpool.joinCount, hfreed]
    obtain ⟨v, pc, hv, hpc, hexited⟩ := hstaffed.gone k (hcount.symm ▸ hlt)
    obtain rfl := Option.some.inj (Option.some.inj (hslot.symm.trans hv))
    obtain rfl := Option.some.inj (hw.symm.trans hpc)
    exact hrunning hexited

/-- The only worker stops at shutdown, and is joined. -/
def stopAndJoin : List Act :=
  [Act.destroy, .run 0 true, .run 1 true, .run 1 true, .run 1 true] ++ List.replicate 5 Act.destroy

theorem none_running_after_stop :
    ∃ s, Reachable 1 1 1 s ∧ s.destroyer = .freed ∧
      s.pcs = [.adjuster .exited, .worker .stopped] ∧
      ((∀ (w : Nat) (p : Worker), s.pcs[w]? = some (.worker p) → (Pc.worker p).HasExited) ↔
        Compact s) := by
  have hrun : ((threadpool_create 1 1 1 0 (fun _ => ⟨0, 0⟩) 0).bind (fun s =>
      runSteps (step 1 1 1) s stopAndJoin)).map (fun s => (s.destroyer, s.pcs)) =
      some (.freed, [.adjuster .exited, .worker .stopped]) := by decide
  obtain ⟨s₀, s, hcreate, hacts, hresult⟩ := exists_run hrun
  obtain ⟨hfreed, hpcs⟩ := Prod.mk.inj hresult
  have hreach : Reachable 1 1 1 s := ⟨s₀, ⟨0, _, 0, hcreate⟩, _, hacts⟩
  exact ⟨s, hreach, hfreed, hpcs, none_running_iff 1 1 1 s hreach hfreed⟩

/-- The first worker waits, ten tasks make the manager create a second one and then
decide to shrink; the second worker takes a task, and the first one wakes up and
leaves. One thread is counted, and `threadpool_destroy` joins the one that has left. -/
def growShrinkDestroy : List Act :=
  [Act.run 2 true, .run 2 true] ++
  (List.replicate 10 [Act.call 1 ⟨5, 7⟩, .run 1 true, .run 1 true]).flatten ++
  List.replicate 14 (Act.run 0 true) ++
  [Act.run 3 true, .run 3 true, .run 3 true, .wake 2, .run 2 true, .run 2 true, .run 2 true] ++
  [Act.destroy, .run 0 true] ++ List.replicate 5 Act.destroy

/-- The pool is freed while the second worker is at work. -/
theorem freed_while_working :
    ∃ s, Reachable 1 2 10 s ∧ s.destroyer = .freed ∧ s.threads = [some 2, some 3] ∧
      s.pcs = [.adjuster .exited, .adder .idle, .worker .left, .worker (.working ⟨5, 7⟩)] ∧
      ¬ ∀ (w : Nat) (p : Worker), s.pcs[w]? = some (.worker p) → (Pc.worker p).HasExited := by
  have hrun : ((threadpool_create 1 2 10 1 (fun _ => ⟨0, 0⟩) 0).bind (fun s =>
      runSteps (step 1 2 10) s growShrinkDestroy)).map (fun s => (s.destroyer, s.threads, s.pcs)) =
      some (.freed, [some 2, some 3],
        [.adjuster .exited, .adder .idle, .worker .left, .worker (.working ⟨5, 7⟩)]) := by
    decide +kernel
  obtain ⟨s₀, s, hcreate, hacts, hresult⟩ := exists_run hrun
  simp only [Prod.mk.injEq] at hresult
  obtain ⟨hfreed, hthreads, hpcs⟩ := hresult
  refine ⟨s, ⟨s₀, ⟨1, _, 0, hcreate⟩, _, hacts⟩, hfreed, hthreads, hpcs, ?_⟩
  intro hexited
  have hworking := hexited 3 (.working ⟨5, 7⟩) (by rw [hpcs]; rfl)
  revert hworking
  decide

end LearningCpp.Pool
