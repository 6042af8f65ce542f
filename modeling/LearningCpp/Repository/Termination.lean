import LearningCpp.Library.Measure
import LearningCpp.Repository.Progress

/-!
Every run comes to an end: a thread that goes on takes from what is left to do, also when it
notifies all that wait, and only a thread that wakes up by itself adds to it.
-/

namespace LearningCpp.Repository

open Library

def Act.isWake : Act → Bool
  | .run _ => false
  | .wake _ => true

/-- What a step may add to what is left to do. -/
def Act.charge : Act → Nat
  | .run _ => 0
  | .wake _ => 3

/-- The steps of a thread until it waits, has stored or taken an item, or has exited; one
that has stored or taken its item comes back to the start of its loop. -/
def Pc.stepsLeft : Pc → Nat
  | .producer .sleeping | .consumer .sleeping => 3
  | .producer (.locking _) | .consumer .locking => 2
  | .producer (.testing _) | .consumer .testing => 1
  | .producer (.waiting _) | .consumer .waiting => 0
  | .producer .produced | .consumer (.consumed _) => 4
  | .producer .ready_to_exit | .consumer .ready_to_exit => 1
  | .producer .exited | .consumer .exited => 0

/-- Each item is still to be stored and to be returned, and both notify all threads. -/
def ItemRepository.stepsLeft (goal : Nat) (s : ItemRepository) : Nat :=
  (2 * s.threads.length + 4) * (goal - s.stored.length + (goal - s.returned.length)) +
    weigh Pc.stepsLeft s.threads

theorem Pc.notify_not_empty_stepsLeft (pc : Pc) :
    pc.notify_not_empty.stepsLeft ≤ pc.stepsLeft + 2 := by
  cases pc with
  | producer p => exact Nat.le_add_right _ 2
  | consumer c =>
      cases c with
      | waiting => exact Nat.le_refl 2
      | _ => exact Nat.le_add_right _ 2

theorem Pc.notify_not_full_stepsLeft (pc : Pc) :
    pc.notify_not_full.stepsLeft ≤ pc.stepsLeft + 2 := by
  cases pc with
  | producer p =>
      cases p with
      | waiting item => exact Nat.le_refl 2
      | _ => exact Nat.le_add_right _ 2
  | consumer c => exact Nat.le_add_right _ 2

variable {cap goal i : Nat} {s s' : ItemRepository} {pc pc' : Pc}

/-- A thread goes on, and no item is stored or returned. -/
theorem stepsLeft_of_move (hpc : s.threads[i]? = some pc)
    (hthreads : s'.threads = s.threads.set i pc') (hstored : s'.stored = s.stored)
    (hreturned : s'.returned = s.returned) (hless : pc'.stepsLeft < pc.stepsLeft) :
    s'.stepsLeft goal < s.stepsLeft goal := by
  have hweight := weigh_set_lt hpc hless
  simp only [ItemRepository.stepsLeft, hthreads, hstored, hreturned, List.length_set]
  omega

/-- An item is stored or returned, and the threads that wait for that are notified. -/
theorem stepsLeft_of_notify {notify : Pc → Pc}
    (hnotify : ∀ pc, (notify pc).stepsLeft ≤ pc.stepsLeft + 2) (hpc : s.threads[i]? = some pc)
    (hactive : 0 < (notify pc).stepsLeft) (hpc' : pc'.stepsLeft = 4)
    (hthreads : s'.threads = (s.threads.map notify).set i pc')
    (hless : goal - s'.stored.length + (goal - s'.returned.length) <
      goal - s.stored.length + (goal - s.returned.length)) :
    s'.stepsLeft goal < s.stepsLeft goal := by
  have hnotified : (s.threads.map notify)[i]? = some (notify pc) := by
    rw [List.getElem?_map, hpc]
    rfl
  have hadd := weigh_set_add hnotified pc' (w := Pc.stepsLeft)
  have hweight := weigh_map_le hnotify s.threads
  have hitem := Nat.mul_le_mul_left (2 * s.threads.length + 4) (Nat.succ_le_of_lt hless)
  rw [Nat.mul_succ] at hitem
  simp only [ItemRepository.stepsLeft, hthreads, List.length_set, List.length_map]
  omega

namespace Sound

private theorem ProduceItem_stepsLeft (h : Sound cap goal s) {item : Nat}
    (hpc : s.threads[i]? = some (.producer (.testing item))) :
    (ProduceItem cap s i item).stepsLeft goal < s.stepsLeft goal := by
  obtain ⟨-, hnext, hgoal⟩ := h.fact hpc
  unfold ProduceItem
  split
  case isTrue => exact stepsLeft_of_move hpc rfl rfl rfl Nat.one_pos
  case isFalse =>
    apply stepsLeft_of_notify Pc.notify_not_empty_stepsLeft hpc Nat.one_pos rfl rfl
    simp only [List.length_append, List.length_singleton]
    omega

private theorem ConsumeItem_stepsLeft (h : Sound cap goal s)
    (hpc : s.threads[i]? = some (.consumer .testing)) (hconsume : ConsumeItem cap s i = some s') :
    s'.stepsLeft goal < s.stepsLeft goal := by
  obtain ⟨hgoal, hreturned⟩ := h.fact hpc
  unfold ConsumeItem at hconsume
  split at hconsume
  case isTrue => exact Option.some.inj hconsume ▸ stepsLeft_of_move hpc rfl rfl rfl Nat.one_pos
  case isFalse =>
    split at hconsume
    case h_1 => cases hconsume
    case h_2 data hdata =>
      rw [← Option.some.inj hconsume]
      apply stepsLeft_of_notify Pc.notify_not_full_stepsLeft hpc Nat.one_pos rfl rfl
      simp only [List.length_append, List.length_singleton]
      omega

private theorem ProducerTask_stepsLeft (h : Sound cap goal s) {p : Producer}
    (hpc : s.threads[i]? = some (.producer p)) (hstep : ProducerTask cap goal s i p = some s') :
    s'.stepsLeft goal < s.stepsLeft goal := by
  cases p with
  | sleeping =>
      simp only [ProducerTask] at hstep
      split at hstep
      case isFalse => cases hstep
      case isTrue =>
        split at hstep
        case isTrue =>
          exact Option.some.inj hstep ▸ stepsLeft_of_move hpc rfl rfl rfl (Nat.lt_succ_self 2)
        case isFalse =>
          have hless : 1 < 3 := by decide
          exact Option.some.inj hstep ▸ stepsLeft_of_move hpc rfl rfl rfl hless
  | locking item =>
      simp only [ProducerTask] at hstep
      split at hstep
      case isFalse => cases hstep
      case isTrue =>
        exact Option.some.inj hstep ▸ stepsLeft_of_move hpc rfl rfl rfl (Nat.lt_succ_self 1)
  | testing item => exact Option.some.inj hstep ▸ h.ProduceItem_stepsLeft hpc
  | waiting item => cases hstep
  | produced =>
      exact Option.some.inj hstep ▸ stepsLeft_of_move hpc rfl rfl rfl (Nat.lt_succ_self 3)
  | ready_to_exit => exact Option.some.inj hstep ▸ stepsLeft_of_move hpc rfl rfl rfl Nat.one_pos
  | exited => cases hstep

private theorem ConsumerTask_stepsLeft (h : Sound cap goal s) {c : Consumer}
    (hpc : s.threads[i]? = some (.consumer c)) (hstep : ConsumerTask cap goal s i c = some s') :
    s'.stepsLeft goal < s.stepsLeft goal := by
  cases c with
  | sleeping =>
      simp only [ConsumerTask] at hstep
      split at hstep
      case isFalse => cases hstep
      case isTrue =>
        split at hstep
        case isTrue =>
          exact Option.some.inj hstep ▸ stepsLeft_of_move hpc rfl rfl rfl (Nat.lt_succ_self 2)
        case isFalse =>
          have hless : 1 < 3 := by decide
          exact Option.some.inj hstep ▸ stepsLeft_of_move hpc rfl rfl rfl hless
  | locking =>
      simp only [ConsumerTask] at hstep
      split at hstep
      case isFalse => cases hstep
      case isTrue =>
        exact Option.some.inj hstep ▸ stepsLeft_of_move hpc rfl rfl rfl (Nat.lt_succ_self 1)
  | testing => exact h.ConsumeItem_stepsLeft hpc hstep
  | waiting => cases hstep
  | consumed item =>
      exact Option.some.inj hstep ▸ stepsLeft_of_move hpc rfl rfl rfl (Nat.lt_succ_self 3)
  | ready_to_exit => exact Option.some.inj hstep ▸ stepsLeft_of_move hpc rfl rfl rfl Nat.one_pos
  | exited => cases hstep

/-- A thread that wakes up has to lock and to test again before it can wait. -/
theorem wake_stepsLeft (hpc : s.threads[i]? = some pc) (hwake : pc.wake = some pc') :
    ItemRepository.stepsLeft goal {s with threads := s.threads.set i pc'} <
      s.stepsLeft goal + 3 := by
  have hadd := weigh_set_add hpc pc' (w := Pc.stepsLeft)
  have hweight : pc'.stepsLeft = pc.stepsLeft + 2 := by
    cases pc with
    | producer p =>
        cases p with
        | waiting item => exact Option.some.inj hwake ▸ rfl
        | _ => cases hwake
    | consumer c =>
        cases c with
        | waiting => exact Option.some.inj hwake ▸ rfl
        | _ => cases hwake
  simp only [ItemRepository.stepsLeft, List.length_set]
  omega

/-- What a step takes from what is left to do, or adds to it. -/
theorem step_stepsLeft (h : Sound cap goal s) {a : Act} (hstep : step cap goal s a = some s') :
    s'.stepsLeft goal < s.stepsLeft goal + a.charge := by
  cases a with
  | run i =>
      simp only [step] at hstep
      split at hstep
      case h_1 => cases hstep
      case h_2 p hpc => exact h.ProducerTask_stepsLeft hpc hstep
      case h_3 c hpc => exact h.ConsumerTask_stepsLeft hpc hstep
  | wake i =>
      simp only [step] at hstep
      split at hstep
      case h_1 => cases hstep
      case h_2 pc' hpc' =>
        obtain ⟨pc, hpc, hwake⟩ := Option.bind_eq_some_iff.mp hpc'
        exact Option.some.inj hstep ▸ wake_stepsLeft hpc hwake

end Sound

private theorem init_stepsLeft (producers consumers : Nat) :
    (InitItemRepository cap producers consumers).stepsLeft goal =
      (2 * (producers + consumers) + 4) * (goal + goal) + 3 * (producers + consumers) := by
  simp only [ItemRepository.stepsLeft, InitItemRepository, List.length_append,
    List.length_replicate, List.length_nil, Nat.sub_zero, weigh, List.map_append,
    List.map_replicate, List.sum_append, List.sum_replicate, smul_eq_mul, Pc.stepsLeft]
  omega

theorem sum_charge (acts : List Act) :
    (acts.map Act.charge).sum = 3 * acts.countP Act.isWake := by
  induction acts with
  | nil => rfl
  | cons a acts ih =>
      rw [List.map_cons, List.sum_cons, ih, List.countP_cons]
      cases a with
      | run i => exact Nat.zero_add _
      | wake i =>
          simp only [Act.charge, Act.isWake, if_true]
          omega

/-- The steps that `n` threads take at most to pass on `goal` items and to exit, when
`wakes` times a thread wakes up by itself. -/
def stepBound (goal n wakes : Nat) : Nat := (2 * n + 4) * (2 * goal) + 3 * n + 3 * wakes

theorem length_le_stepBound {producers consumers : Nat} (hcap : 2 ≤ cap) {acts : List Act}
    (hrun : runSteps (step cap goal) (InitItemRepository cap producers consumers) acts = some s) :
    acts.length ≤ stepBound goal (producers + consumers) (acts.countP Act.isWake) := by
  have hcharged : ∀ {s s' : ItemRepository} {a : Act}, Sound cap goal s →
      step cap goal s a = some s' → s'.stepsLeft goal < s.stepsLeft goal + a.charge :=
    fun h hstep => h.step_stepsLeft hstep
  have hlength := @length_le_of_charged _ _ (step cap goal) (Sound cap goal)
    (ItemRepository.stepsLeft goal) Act.charge (fun h hstep => h.step hstep) hcharged _ _ _
    (init_sound hcap goal producers consumers) hrun
  rw [init_stepsLeft, sum_charge] at hlength
  rw [stepBound, Nat.two_mul goal]
  omega

/-- A run is no longer than its bound, and it can be continued until all threads have
exited; then the consumers have got the items one by one in order. -/
theorem every_run_ends {producers consumers : Nat} (hcap : 2 ≤ cap) (hproducers : 0 < producers)
    (hconsumers : 0 < consumers) {acts : List Act}
    (hrun : runSteps (step cap goal) (InitItemRepository cap producers consumers) acts = some s) :
    acts.length ≤ stepBound goal (producers + consumers) (acts.countP Act.isWake) ∧
      ((∃ i, (step cap goal s (.run i)).isSome) ∨
        s.Final ∧ s.returned = List.range' 1 goal) := by
  have hreach : Reachable cap goal producers consumers s := ⟨acts, hrun⟩
  have hsound := hreach.sound hcap
  obtain ⟨j, p, hproducer⟩ := hreach.exists_producer hproducers
  obtain ⟨k, c, hconsumer⟩ := hreach.exists_consumer hconsumers
  refine ⟨length_le_stepBound hcap hrun, ?_⟩
  rcases Classical.em s.Final with hfinal | hrunning
  · exact Or.inr ⟨hfinal, hsound.returned_of_final hconsumer hfinal⟩
  · exact Or.inl (hsound.canMove_of_running hcap hproducer hconsumer hrunning)

/-- The consumer finds the repository empty twice before it is notified. -/
theorem every_run_ends_woken :
    ∃ s, runSteps (step 2 1) (InitItemRepository 2 1 1)
        ([.run 1, .run 1, .run 1, .wake 1, .run 1, .run 1] ++ List.replicate 6 (.run 0) ++
          List.replicate 5 (.run 1)) = some s ∧
      17 ≤ stepBound 1 2 1 ∧
        ((∃ i, (step 2 1 s (.run i)).isSome) ∨ s.Final ∧ s.returned = List.range' 1 1) := by
  have hrun : ∃ s, runSteps (step 2 1) (InitItemRepository 2 1 1)
      ([.run 1, .run 1, .run 1, .wake 1, .run 1, .run 1] ++ List.replicate 6 (.run 0) ++
        List.replicate 5 (.run 1)) = some s := by
    rw [← Option.isSome_iff_exists]
    decide
  obtain ⟨s, hrun⟩ := hrun
  exact ⟨s, hrun, every_run_ends (by decide) Nat.one_pos Nat.one_pos hrun⟩

end LearningCpp.Repository
