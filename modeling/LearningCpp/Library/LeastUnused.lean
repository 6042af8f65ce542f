import Mathlib.Data.Finset.Card
import Mathlib.Tactic

/-!
The least number that is not in a finite set, as a system chooses the number of a new
descriptor.
-/

namespace LearningCpp.Library

def leastUnused (used : Finset Nat) : Nat :=
  ((List.range (used.card + 1)).find? fun n => decide (n ∉ used)).getD 0

variable (used : Finset Nat)

theorem leastUnused_spec :
    leastUnused used ∉ used ∧ (∀ n < leastUnused used, n ∈ used) ∧
      leastUnused used ≤ used.card := by
  have hroom : used.card < (Finset.range (used.card + 1)).card := by
    rw [Finset.card_range]
    exact Nat.lt_succ_self _
  obtain ⟨k, hk, hunused⟩ := Finset.exists_mem_notMem_of_card_lt_card hroom
  cases hfind : (List.range (used.card + 1)).find? fun n => decide (n ∉ used) with
  | none =>
      have hall := List.find?_eq_none.1 hfind k (List.mem_range.2 (Finset.mem_range.1 hk))
      exact absurd (decide_eq_true hunused) hall
  | some n =>
      obtain ⟨hn, hmem, hbelow⟩ := List.find?_range_eq_some.1 hfind
      rw [leastUnused, hfind, Option.getD_some]
      refine ⟨of_decide_eq_true hn, ?_, Nat.le_of_lt_succ (List.mem_range.1 hmem)⟩
      intro m hm
      simpa using hbelow m hm

theorem leastUnused_notMem : leastUnused used ∉ used := (leastUnused_spec used).1

theorem leastUnused_le_card : leastUnused used ≤ used.card := (leastUnused_spec used).2.2

variable {used}

theorem mem_of_lt_leastUnused {n : Nat} (hn : n < leastUnused used) : n ∈ used :=
  (leastUnused_spec used).2.1 n hn

/-- No unused number is smaller. -/
theorem leastUnused_le {n : Nat} (hn : n ∉ used) : leastUnused used ≤ n :=
  Nat.le_of_not_lt (fun hlt => hn (mem_of_lt_leastUnused hlt))

theorem leastUnused_range (n : Nat) : leastUnused (Finset.range n) = n := by
  apply Nat.le_antisymm
  · exact leastUnused_le Finset.notMem_range_self
  · have hunused := leastUnused_notMem (Finset.range n)
    rw [Finset.mem_range] at hunused
    exact Nat.le_of_not_lt hunused

end LearningCpp.Library
