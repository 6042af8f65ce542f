import LearningCpp.Repository.Termination

/-!
What the tasks of `04.多生产者-多消费者模型.cpp` have to do with the counters: inside `ProduceItem`
and `ConsumeItem` nothing, and outside each task with its own counter only.
-/

namespace LearningCpp.Repository

open Library

/-- Other counters. -/
def ItemRepository.recount (s : ItemRepository) (produced : Nat) (produced_mtx : Option Nat)
    (consumed : Nat) (consumed_mtx : Option Nat) : ItemRepository :=
  {s with
    produced_item_counter := produced
    produced_item_counter_mtx := produced_mtx
    consumed_item_counter := consumed
    consumed_item_counter_mtx := consumed_mtx }

section Recount

variable {cap goal t : Nat} {s s' : ItemRepository} (produced consumed : Nat)
  (produced_mtx consumed_mtx : Option Nat)

private theorem ProduceItem_recount (item : Nat) :
    ProduceItem cap (s.recount produced produced_mtx consumed consumed_mtx) t item =
      (ProduceItem cap s t item).recount produced produced_mtx consumed consumed_mtx := by
  unfold ProduceItem
  rcases Classical.em ((s.write_position + 1) % cap = s.read_position) with hfull | hroom
  · rw [if_pos hfull]
    exact if_pos hfull
  · rw [if_neg hroom]
    exact if_neg hroom

private theorem ConsumeItem_recount :
    ConsumeItem cap (s.recount produced produced_mtx consumed consumed_mtx) t =
      (ConsumeItem cap s t).map
        fun s' => s'.recount produced produced_mtx consumed consumed_mtx := by
  unfold ConsumeItem
  rcases Classical.em (s.write_position = s.read_position) with hempty | hitems
  · rw [if_pos hempty]
    exact if_pos hempty
  · rw [if_neg hitems]
    apply (if_neg hitems).trans
    have hbuffer : (s.recount produced produced_mtx consumed consumed_mtx).item_buffer =
        s.item_buffer := rfl
    have hread : (s.recount produced produced_mtx consumed consumed_mtx).read_position =
        s.read_position := rfl
    rw [hbuffer, hread]
    cases s.item_buffer[s.read_position]? <;> rfl

/-- Inside `ProduceItem`. -/
def Producer.Inside : Producer → Prop
  | .locking _ | .testing _ | .waiting _ => True
  | _ => False

/-- Inside `ConsumeItem`. -/
def Consumer.Inside : Consumer → Prop
  | .locking | .testing | .waiting => True
  | _ => False

/-- Inside `ProduceItem` the counters do not matter. -/
theorem ProducerTask_recount {p : Producer} (hinside : p.Inside) :
    ProducerTask cap goal (s.recount produced produced_mtx consumed consumed_mtx) t p =
      (ProducerTask cap goal s t p).map
        fun s' => s'.recount produced produced_mtx consumed consumed_mtx := by
  cases p with
  | locking item =>
      simp only [ProducerTask]
      rcases Classical.em (s.mtx = none) with hfree | hlocked
      · rw [if_pos hfree]
        exact if_pos hfree
      · rw [if_neg hlocked]
        exact if_neg hlocked
  | testing item => exact congrArg some (ProduceItem_recount produced consumed _ _ item)
  | waiting item => rfl
  | _ => exact hinside.elim

theorem ConsumerTask_recount {c : Consumer} (hinside : c.Inside) :
    ConsumerTask cap goal (s.recount produced produced_mtx consumed consumed_mtx) t c =
      (ConsumerTask cap goal s t c).map
        fun s' => s'.recount produced produced_mtx consumed consumed_mtx := by
  cases c with
  | locking =>
      simp only [ConsumerTask]
      rcases Classical.em (s.mtx = none) with hfree | hlocked
      · rw [if_pos hfree]
        exact if_pos hfree
      · rw [if_neg hlocked]
        exact if_neg hlocked
  | testing => exact ConsumeItem_recount produced consumed _ _
  | waiting => rfl
  | _ => exact hinside.elim

/-- Outside, a producer looks at its own counter only. -/
theorem ProducerTask_recount_consumed {p : Producer} (houtside : ¬ p.Inside) :
    ProducerTask cap goal (s.recount s.produced_item_counter s.produced_item_counter_mtx consumed
        consumed_mtx) t p =
      (ProducerTask cap goal s t p).map fun s' =>
        s'.recount s'.produced_item_counter s'.produced_item_counter_mtx consumed consumed_mtx := by
  cases p with
  | sleeping =>
      simp only [ProducerTask]
      rcases Classical.em (s.produced_item_counter_mtx = none) with hfree | hlocked
      · rw [if_pos hfree]
        apply (if_pos hfree).trans
        rcases Classical.em (s.produced_item_counter < goal) with hmore | hdone
        · rw [if_pos hmore]
          exact if_pos hmore
        · rw [if_neg hdone]
          exact if_neg hdone
      · rw [if_neg hlocked]
        exact if_neg hlocked
  | produced => rfl
  | ready_to_exit => rfl
  | exited => rfl
  | _ => exact absurd trivial houtside

theorem ConsumerTask_recount_produced {c : Consumer} (houtside : ¬ c.Inside) :
    ConsumerTask cap goal (s.recount produced produced_mtx s.consumed_item_counter
        s.consumed_item_counter_mtx) t c =
      (ConsumerTask cap goal s t c).map fun s' =>
        s'.recount produced produced_mtx s'.consumed_item_counter s'.consumed_item_counter_mtx := by
  cases c with
  | sleeping =>
      simp only [ConsumerTask]
      rcases Classical.em (s.consumed_item_counter_mtx = none) with hfree | hlocked
      · rw [if_pos hfree]
        apply (if_pos hfree).trans
        rcases Classical.em (s.consumed_item_counter < goal) with hmore | hdone
        · rw [if_pos hmore]
          exact if_pos hmore
        · rw [if_neg hdone]
          exact if_neg hdone
      · rw [if_neg hlocked]
        exact if_neg hlocked
  | consumed item => rfl
  | ready_to_exit => rfl
  | exited => rfl
  | _ => exact absurd trivial houtside

end Recount

variable {cap goal t : Nat} {s s' : ItemRepository}

/-- What a producer changes: its own place, those of notified consumers, and outside of
`ProduceItem` its counter. -/
theorem ProducerTask_moves {q : Producer} (hstep : ProducerTask cap goal s t q = some s') :
    ∃ f q', (f = id ∨ f = Pc.notify_not_empty) ∧
      s'.threads = (s.threads.map f).set t (.producer q') ∧
      s'.consumed_item_counter = s.consumed_item_counter ∧
      s'.consumed_item_counter_mtx = s.consumed_item_counter_mtx ∧
      (q.Inside → (q'.Inside ∨ q' = .produced) ∧
        s'.produced_item_counter = s.produced_item_counter ∧
          s'.produced_item_counter_mtx = s.produced_item_counter_mtx) := by
  cases q with
  | sleeping =>
      simp only [ProducerTask] at hstep
      split at hstep
      case isFalse => cases hstep
      case isTrue =>
        split at hstep
        all_goals
          cases hstep
          exact ⟨id, _, Or.inl rfl, by rw [List.map_id], rfl, rfl, False.elim⟩
  | locking item =>
      simp only [ProducerTask] at hstep
      split at hstep
      case isFalse => cases hstep
      case isTrue =>
        cases hstep
        exact ⟨id, .testing item, Or.inl rfl, by rw [List.map_id], rfl, rfl,
          fun _ => ⟨Or.inl trivial, rfl, rfl⟩⟩
  | testing item =>
      cases hstep
      unfold ProduceItem
      split
      case isTrue =>
        exact ⟨id, .waiting item, Or.inl rfl, by rw [List.map_id], rfl, rfl,
          fun _ => ⟨Or.inl trivial, rfl, rfl⟩⟩
      case isFalse =>
        exact ⟨Pc.notify_not_empty, _, Or.inr rfl, rfl, rfl, rfl, fun _ => ⟨Or.inr rfl, rfl, rfl⟩⟩
  | waiting item => cases hstep
  | produced =>
      cases hstep
      exact ⟨id, _, Or.inl rfl, by rw [List.map_id], rfl, rfl, False.elim⟩
  | ready_to_exit =>
      cases hstep
      exact ⟨id, _, Or.inl rfl, by rw [List.map_id], rfl, rfl, False.elim⟩
  | exited => cases hstep

theorem ConsumerTask_moves {c : Consumer} (hstep : ConsumerTask cap goal s t c = some s') :
    ∃ f c', (f = id ∨ f = Pc.notify_not_full) ∧
      s'.threads = (s.threads.map f).set t (.consumer c') ∧
      s'.produced_item_counter = s.produced_item_counter ∧
      s'.produced_item_counter_mtx = s.produced_item_counter_mtx ∧
      (c.Inside → (c'.Inside ∨ ∃ item, c' = .consumed item) ∧
        s'.consumed_item_counter = s.consumed_item_counter ∧
          s'.consumed_item_counter_mtx = s.consumed_item_counter_mtx) := by
  cases c with
  | sleeping =>
      simp only [ConsumerTask] at hstep
      split at hstep
      case isFalse => cases hstep
      case isTrue =>
        split at hstep
        all_goals
          cases hstep
          exact ⟨id, _, Or.inl rfl, by rw [List.map_id], rfl, rfl, False.elim⟩
  | locking =>
      simp only [ConsumerTask] at hstep
      split at hstep
      case isFalse => cases hstep
      case isTrue =>
        cases hstep
        exact ⟨id, .testing, Or.inl rfl, by rw [List.map_id], rfl, rfl,
          fun _ => ⟨Or.inl trivial, rfl, rfl⟩⟩
  | testing =>
      simp only [ConsumerTask, ConsumeItem] at hstep
      split at hstep
      case isTrue =>
        cases hstep
        exact ⟨id, .waiting, Or.inl rfl, by rw [List.map_id], rfl, rfl,
          fun _ => ⟨Or.inl trivial, rfl, rfl⟩⟩
      case isFalse =>
        split at hstep
        case h_1 => cases hstep
        case h_2 =>
          cases hstep
          exact ⟨Pc.notify_not_full, _, Or.inr rfl, rfl, rfl, rfl,
            fun _ => ⟨Or.inr ⟨_, rfl⟩, rfl, rfl⟩⟩
  | waiting => cases hstep
  | consumed item =>
      cases hstep
      exact ⟨id, _, Or.inl rfl, by rw [List.map_id], rfl, rfl, False.elim⟩
  | ready_to_exit =>
      cases hstep
      exact ⟨id, _, Or.inl rfl, by rw [List.map_id], rfl, rfl, False.elim⟩
  | exited => cases hstep

theorem step_producer {q : Producer} (hpc : s.threads[t]? = some (.producer q)) :
    step cap goal s (.run t) = ProducerTask cap goal s t q := by
  simp only [step, hpc]

theorem step_consumer {c : Consumer} (hpc : s.threads[t]? = some (.consumer c)) :
    step cap goal s (.run t) = ConsumerTask cap goal s t c := by
  simp only [step, hpc]

/-- The loop ends in two steps when all items are counted. -/
theorem producer_exits (hpc : s.threads[t]? = some (.producer .sleeping))
    (hfree : s.produced_item_counter_mtx = none) (hdone : ¬ s.produced_item_counter < goal) :
    runSteps (step cap goal) s [.run t, .run t] = some {s with
      produced_item_counter_mtx := none
      threads := s.threads.set t (.producer .exited) } := by
  have hplace : (s.threads.set t (.producer .ready_to_exit))[t]? =
      some (.producer .ready_to_exit) :=
    (Mutex.getElem?_set_of_some hpc t).mpr (Or.inl ⟨rfl, rfl⟩)
  refine runSteps_cons_iff.mpr ⟨{s with
    produced_item_counter_mtx := some t
    threads := s.threads.set t (.producer .ready_to_exit) }, (step_producer hpc).trans ?_,
    runSteps_cons_iff.mpr ⟨_, (step_producer hplace).trans rfl, ?_⟩⟩
  · simp only [ProducerTask, if_pos hfree, if_neg hdone]
  · simp only [runSteps, List.set_set]

theorem consumer_exits (hpc : s.threads[t]? = some (.consumer .sleeping))
    (hfree : s.consumed_item_counter_mtx = none) (hdone : ¬ s.consumed_item_counter < goal) :
    runSteps (step cap goal) s [.run t, .run t] = some {s with
      consumed_item_counter_mtx := none
      threads := s.threads.set t (.consumer .exited) } := by
  have hplace : (s.threads.set t (.consumer .ready_to_exit))[t]? =
      some (.consumer .ready_to_exit) :=
    (Mutex.getElem?_set_of_some hpc t).mpr (Or.inl ⟨rfl, rfl⟩)
  refine runSteps_cons_iff.mpr ⟨{s with
    consumed_item_counter_mtx := some t
    threads := s.threads.set t (.consumer .ready_to_exit) }, (step_consumer hpc).trans ?_,
    runSteps_cons_iff.mpr ⟨_, (step_consumer hplace).trans rfl, ?_⟩⟩
  · simp only [ConsumerTask, if_pos hfree, if_neg hdone]
  · simp only [runSteps, List.set_set]

end LearningCpp.Repository
