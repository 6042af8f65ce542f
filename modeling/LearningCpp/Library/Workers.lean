import LearningCpp.Library.Census

/-!
Threads that take what is queued and sleep when nothing is. Everything that was taken is with
one of them or done, and as long as one sleeps, there is for everything that is queued a thread
on its way to the queue or a call that has yet to notify.
-/

namespace LearningCpp.Library

variable {Pc α : Type*}

/-- What was taken and is not done is with the threads at `running`. -/
def Accounted [DecidableEq Pc] [DecidableEq α] (running : α → Pc) (threads : List Pc)
    (done taken : List α) : Prop :=
  ∀ a, done.count a + threads.count (running a) = taken.count a

/-- As long as a thread is `asleep`, `queued` is at most the calls that have yet to notify and
the threads that are `ready`. -/
def Served (asleep : Pc) (ready : Pc → Bool) (threads : List Pc) (queued notifies : Nat) : Prop :=
  asleep ∈ threads → queued ≤ notifies + threads.countP ready

variable {threads : List Pc} {i : Nat} {pc pc' : Pc}

/-- When all that sleep are woken, the others are where they were. -/
theorem mem_of_mem_woken [DecidableEq Pc] {asleep awake : Pc}
    (hmem : pc ∈ threads.map fun pc => if pc = asleep then awake else pc) (hne : pc ≠ awake) :
    pc ∈ threads ∧ pc ≠ asleep := by
  obtain ⟨old, hold, rfl⟩ := List.mem_map.mp hmem
  split at hne
  case isTrue => exact absurd rfl hne
  case isFalse hawake =>
    rw [if_neg hawake]
    exact ⟨hold, hawake⟩

namespace Accounted

variable [DecidableEq Pc] [DecidableEq α] {running : α → Pc} {done taken : List α}

/-- A thread goes on that neither takes something nor is done with it. -/
theorem move (h : Accounted running threads done taken) (hpc : threads[i]? = some pc)
    (hold : ∀ a, pc ≠ running a) (hnew : ∀ a, pc' ≠ running a) :
    Accounted running (threads.set i pc') done taken := by
  intro a
  have hcount := count_set_add hpc pc' (running a)
  have haccounted := h a
  rw [if_neg (hold a), if_neg (hnew a)] at hcount
  omega

theorem take (h : Accounted running threads done taken) (hpc : threads[i]? = some pc)
    (hinjective : Function.Injective running) (hold : ∀ a, pc ≠ running a) (a : α) :
    Accounted running (threads.set i (running a)) done (taken ++ [a]) := by
  intro b
  have hcount := count_set_add hpc (running a) (running b)
  have haccounted := h b
  rw [if_neg (hold b)] at hcount
  simp only [hinjective.eq_iff, List.count_append, List.count_singleton, beq_iff_eq] at hcount ⊢
  omega

theorem finish {a : α} (h : Accounted running threads done taken)
    (hpc : threads[i]? = some (running a)) (hinjective : Function.Injective running)
    (hnew : ∀ a, pc' ≠ running a) :
    Accounted running (threads.set i pc') (done ++ [a]) taken := by
  intro b
  have hcount := count_set_add hpc pc' (running b)
  have haccounted := h b
  rw [if_neg (hnew b)] at hcount
  simp only [hinjective.eq_iff, List.count_append, List.count_singleton, beq_iff_eq] at hcount ⊢
  omega

/-- All threads move, and those that are at work stay there. -/
theorem map (h : Accounted running threads done taken) {f : Pc → Pc}
    (hf : ∀ a pc, f pc = running a ↔ pc = running a) :
    Accounted running (threads.map f) done taken := by
  intro a
  rw [← h a]
  simp only [List.count_eq_countP, List.countP_map]
  congr 1
  apply List.countP_congr
  intro pc _
  simp [hf a pc]

/-- What was taken is done when no thread is at work. -/
theorem count_done (h : Accounted running threads done taken)
    (hidle : ∀ a, running a ∉ threads) (a : α) : done.count a = taken.count a := by
  rw [← h a, List.count_eq_zero.mpr (hidle a), Nat.add_zero]

end Accounted

namespace Served

variable {asleep : Pc} {ready : Pc → Bool} {queued notifies : Nat}

theorem of_notMem (h : asleep ∉ threads) : Served asleep ready threads queued notifies :=
  fun hmem => absurd hmem h

theorem of_empty : Served asleep ready threads 0 notifies := fun _ => Nat.zero_le _

/-- A thread goes on that takes nothing. -/
theorem move (h : Served asleep ready threads queued notifies) (hpc : threads[i]? = some pc)
    (hasleep : pc' = asleep → queued = 0) (hready : ready pc = true → ready pc' = true ∨ queued = 0) :
    Served asleep ready (threads.set i pc') queued notifies := by
  intro hmem
  rcases List.mem_or_eq_of_mem_set hmem with hmem | rfl
  · have hserved := h hmem
    have hcount := countP_set_add hpc pc' ready
    cases hold : ready pc with
    | false =>
        simp only [hold, Bool.false_eq_true, if_false] at hcount
        omega
    | true =>
        rcases hready hold with hstill | hempty
        · simp only [hold, hstill, if_true] at hcount
          omega
        · omega
  · have hempty := hasleep rfl
    omega

/-- A thread takes the first of what is queued. -/
theorem take (h : Served asleep ready threads (queued + 1) notifies)
    (hpc : threads[i]? = some pc) (hawake : pc' ≠ asleep) :
    Served asleep ready (threads.set i pc') queued notifies := by
  intro hmem
  have hserved := h (mem_of_mem_set hmem hawake.symm)
  have hcount := countP_set_add hpc pc' ready
  split at hcount <;> omega

/-- Something is queued, and a call has yet to notify. -/
theorem add (h : Served asleep ready threads queued notifies) :
    Served asleep ready threads (queued + 1) (notifies + 1) := by
  intro hmem
  have hserved := h hmem
  omega

/-- The call notifies a thread that sleeps. -/
theorem notify (h : Served asleep ready threads queued (notifies + 1))
    (hpc : threads[i]? = some asleep) (hasleep : ready asleep = false) (hready : ready pc' = true)
    (hawake : pc' ≠ asleep) : Served asleep ready (threads.set i pc') queued notifies := by
  intro hmem
  have hserved := h (mem_of_mem_set hmem hawake.symm)
  have hcount := countP_set_add hpc pc' ready
  simp only [hasleep, hready, Bool.false_eq_true, if_false, if_true] at hcount
  omega

end Served

end LearningCpp.Library
