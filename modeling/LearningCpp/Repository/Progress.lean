import LearningCpp.Repository.Fifo

/-!
The program does not get stuck: when a producer waits the repository is full, so
that no consumer waits, and when a consumer waits there are items to come.
-/

namespace LearningCpp.Repository

open Library

variable {cap goal i : Nat} {s : ItemRepository}

/-- Some thread can go on, without having to wake up by itself. -/
def ItemRepository.CanMove (cap goal : Nat) (s : ItemRepository) : Prop :=
  ∃ i, (step cap goal s (.run i)).isSome

theorem canMove_of_producer {p : Producer} (hpc : s.threads[i]? = some (.producer p))
    (hstep : (ProducerTask cap goal s i p).isSome) : s.CanMove cap goal :=
  ⟨i, by simpa only [step, hpc] using hstep⟩

theorem canMove_of_consumer {c : Consumer} (hpc : s.threads[i]? = some (.consumer c))
    (hstep : (ConsumerTask cap goal s i c).isSome) : s.CanMove cap goal :=
  ⟨i, by simpa only [step, hpc] using hstep⟩

namespace Sound

/-- A consumer that has `mtx` waits or takes an item. -/
theorem ConsumeItem_isSome (h : Sound cap goal s) : (ConsumeItem cap s i).isSome := by
  obtain ⟨live, hfifo⟩ := h.fifo
  unfold ConsumeItem
  split
  · rfl
  · next hitems =>
    obtain ⟨data, rest, -, hdata, -⟩ := hfifo.take hitems
    rw [hdata]
    rfl

/-- The thread that has `mtx` goes on. -/
theorem canMove_of_mtx (h : Sound cap goal s) (hlock : s.mtx = some i) : s.CanMove cap goal := by
  obtain ⟨pc, hpc, hholding⟩ := h.mtx.holder hlock
  cases pc with
  | producer p =>
      cases p with
      | testing item => exact canMove_of_producer hpc rfl
      | _ => cases hholding
  | consumer c =>
      cases c with
      | testing => exact canMove_of_consumer hpc h.ConsumeItem_isSome
      | _ => cases hholding

/-- A producer goes on when it has the lock on the counter and does not wait. -/
theorem canMove_of_holdsProduced (h : Sound cap goal s) {p : Producer}
    (hpc : s.threads[i]? = some (.producer p)) (hholding : (Pc.producer p).HoldsProduced)
    (hwait : ∀ item, p ≠ .waiting item) : s.CanMove cap goal := by
  cases p with
  | sleeping => cases hholding
  | exited => cases hholding
  | locking item =>
      cases hmtx : s.mtx with
      | some j => exact h.canMove_of_mtx hmtx
      | none =>
          refine canMove_of_producer hpc ?_
          rw [ProducerTask, if_pos hmtx]
          rfl
  | testing item => exact canMove_of_producer hpc rfl
  | waiting item => exact absurd rfl (hwait item)
  | produced => exact canMove_of_producer hpc rfl
  | ready_to_exit => exact canMove_of_producer hpc rfl

private theorem canMove_of_holdsConsumed (h : Sound cap goal s) {c : Consumer}
    (hpc : s.threads[i]? = some (.consumer c)) (hholding : (Pc.consumer c).HoldsConsumed)
    (hwait : c ≠ .waiting) : s.CanMove cap goal := by
  cases c with
  | sleeping => cases hholding
  | exited => cases hholding
  | locking =>
      cases hmtx : s.mtx with
      | some j => exact h.canMove_of_mtx hmtx
      | none =>
          refine canMove_of_consumer hpc ?_
          rw [ConsumerTask, if_pos hmtx]
          rfl
  | testing => exact canMove_of_consumer hpc h.ConsumeItem_isSome
  | waiting => exact absurd rfl hwait
  | consumed item => exact canMove_of_consumer hpc rfl
  | ready_to_exit => exact canMove_of_consumer hpc rfl

/-- While no producer waits, producers go on until they have exited. -/
theorem canMove_of_producers (h : Sound cap goal s)
    (hwait : ∀ (j item : Nat), s.threads[j]? ≠ some (.producer (.waiting item))) {p : Producer}
    (hpc : s.threads[i]? = some (.producer p)) (hexited : p ≠ .exited) : s.CanMove cap goal := by
  cases hlock : s.produced_item_counter_mtx with
  | some j =>
      obtain ⟨pc, hpc', hholding⟩ := h.produced_mtx.holder hlock
      cases pc with
      | producer p' =>
          exact h.canMove_of_holdsProduced hpc' hholding (fun item heq => hwait j item (heq ▸ hpc'))
      | consumer c => cases hholding
  | none =>
      have hfree := h.produced_mtx.not_holding_of_free hlock hpc
      cases p with
      | sleeping =>
          refine canMove_of_producer hpc ?_
          rw [ProducerTask, if_pos hlock]
          split <;> rfl
      | exited => exact absurd rfl hexited
      | _ => exact absurd trivial hfree

theorem canMove_of_consumers (h : Sound cap goal s)
    (hwait : ∀ j : Nat, s.threads[j]? ≠ some (.consumer .waiting)) {c : Consumer}
    (hpc : s.threads[i]? = some (.consumer c)) (hexited : c ≠ .exited) : s.CanMove cap goal := by
  cases hlock : s.consumed_item_counter_mtx with
  | some j =>
      obtain ⟨pc, hpc', hholding⟩ := h.consumed_mtx.holder hlock
      cases pc with
      | producer p => cases hholding
      | consumer c' =>
          exact h.canMove_of_holdsConsumed hpc' hholding (fun heq => hwait j (heq ▸ hpc'))
  | none =>
      have hfree := h.consumed_mtx.not_holding_of_free hlock hpc
      cases c with
      | sleeping =>
          refine canMove_of_consumer hpc ?_
          rw [ConsumerTask, if_pos hlock]
          split <;> rfl
      | exited => exact absurd rfl hexited
      | _ => exact absurd trivial hfree

/-- A producer waits only while there are items, so the consumers go on. -/
theorem canMove_of_waiting_producer (h : Sound cap goal s) (hcap : 2 ≤ cap) {item k : Nat}
    {c : Consumer} (hpc : s.threads[i]? = some (.producer (.waiting item)))
    (hconsumer : s.threads[k]? = some (.consumer c)) : s.CanMove cap goal := by
  obtain ⟨-, hstored, hgoal, hfull⟩ := h.fact hpc
  refine h.canMove_of_consumers ?_ hconsumer ?_
  · intro j hj
    have hempty := (h.fact hj).2.2
    omega
  · rintro rfl
    have hdone : goal ≤ s.consumed_item_counter := h.fact hconsumer
    have hconsumed := h.consumed_le
    omega

/-- When all producers have exited every item was stored, so no consumer waits. -/
theorem not_waiting_of_producers_exited (h : Sound cap goal s) {p : Producer}
    (hpc : s.threads[i]? = some (.producer p))
    (hexited : ∀ (j : Nat) (p : Producer), s.threads[j]? = some (.producer p) → p = .exited) (j : Nat) :
    s.threads[j]? ≠ some (.consumer .waiting) := by
  intro hj
  obtain ⟨hmore, hreturned, hempty⟩ := h.fact hj
  obtain rfl := hexited i p hpc
  have hdone : goal ≤ s.produced_item_counter := h.fact hpc
  have hfree : s.produced_item_counter_mtx = none := by
    cases hlock : s.produced_item_counter_mtx with
    | none => rfl
    | some k =>
        obtain ⟨pc, hpc', hholding⟩ := h.produced_mtx.holder hlock
        cases pc with
        | producer p =>
            rw [hexited k p hpc'] at hholding
            cases hholding
        | consumer c => cases hholding
  have hstored := h.produced_free hfree
  omega

/-- A producer, a consumer and an invariant are all that it takes to go on. -/
theorem canMove_of_running (h : Sound cap goal s) (hcap : 2 ≤ cap) {j k : Nat} {p : Producer}
    {c : Consumer} (hproducer : s.threads[j]? = some (.producer p))
    (hconsumer : s.threads[k]? = some (.consumer c)) (hrunning : ¬ s.Final) :
    s.CanMove cap goal := by
  rcases Classical.em (∃ j item : Nat, s.threads[j]? = some (.producer (.waiting item))) with
    ⟨j, item, hwaiting⟩ | hnone
  · exact h.canMove_of_waiting_producer hcap hwaiting hconsumer
  have hwait : ∀ j item : Nat, s.threads[j]? ≠ some (.producer (.waiting item)) :=
    fun j item hj => hnone ⟨j, item, hj⟩
  rcases Classical.em
    (∃ (j : Nat) (p : Producer), s.threads[j]? = some (.producer p) ∧ p ≠ .exited) with
    ⟨j, p, hj, hlive⟩ | hexited
  · exact h.canMove_of_producers hwait hj hlive
  have hall : ∀ (j : Nat) (p : Producer), s.threads[j]? = some (.producer p) → p = .exited :=
    fun j p hj => by_contra fun hlive => hexited ⟨j, p, hj, hlive⟩
  simp only [ItemRepository.Final, not_forall] at hrunning
  obtain ⟨pc, hmem, hpc⟩ := hrunning
  obtain ⟨j, hj⟩ := List.mem_iff_getElem?.mp hmem
  cases pc with
  | producer p => exact absurd (Or.inl (congrArg Pc.producer (hall j p hj))) hpc
  | consumer c =>
      apply h.canMove_of_consumers (h.not_waiting_of_producers_exited hproducer hall) hj
      exact fun heq => hpc (Or.inr (congrArg Pc.consumer heq))

end Sound

/-- In every state that is reached, some thread can go on unless all have exited. -/
theorem never_stuck (cap goal producers consumers : Nat) (s : ItemRepository) (hcap : 2 ≤ cap)
    (hproducers : 0 < producers) (hconsumers : 0 < consumers)
    (h : Reachable cap goal producers consumers s) (hrunning : ¬ s.Final) :
    ∃ i, (step cap goal s (.run i)).isSome := by
  have hsound := h.sound hcap
  obtain ⟨k, c, hconsumer⟩ := h.exists_consumer hconsumers
  obtain ⟨j, p, hproducer⟩ := h.exists_producer hproducers
  exact hsound.canMove_of_running hcap hproducer hconsumer hrunning

/-- The consumer waits for the first item, and the producer can go on. -/
theorem not_stuck_on_first_item :
    ∃ s, Reachable 2 1 1 1 s ∧ s.threads = [.producer .sleeping, .consumer .waiting] ∧
      ∃ i, (step 2 1 s (.run i)).isSome := by
  have hrun : (runSteps (step 2 1) (InitItemRepository 2 1 1) [.run 1, .run 1, .run 1]).map
      ItemRepository.threads = some [.producer .sleeping, .consumer .waiting] := by decide
  obtain ⟨s, hs, hthreads⟩ := Option.map_eq_some_iff.mp hrun
  have hreach : Reachable 2 1 1 1 s := ⟨_, hs⟩
  have hrunning : ¬ s.Final := by
    rw [ItemRepository.Final, hthreads]
    decide
  exact ⟨s, hreach, hthreads, never_stuck 2 1 1 1 s (by decide) (by decide) (by decide) hreach hrunning⟩

end LearningCpp.Repository
