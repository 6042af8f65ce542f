import Mathlib.Tactic

/-!
Semaphores with one permit: the value says whether somebody has the permit, and nobody shares
it with another.
-/

namespace LearningCpp.Library

variable {ι : Type*}

/-- The value of a semaphore, and who holds its permit. -/
def Guards (holds : ι → Prop) (value : Nat) : Prop :=
  (value = 1 ∧ ∀ i, ¬ holds i) ∨ (value = 0 ∧ ∃ i, ∀ j, holds j ↔ j = i)

namespace Guards

variable {holds holds' : ι → Prop} {value : Nat} {i j : ι}

theorem congr (h : Guards holds value) (hsame : ∀ i, holds' i ↔ holds i) : Guards holds' value := by
  rcases h with ⟨hone, hfree⟩ | ⟨hzero, i, hheld⟩
  · exact Or.inl ⟨hone, fun i hholds => hfree i ((hsame i).mp hholds)⟩
  · exact Or.inr ⟨hzero, i, fun j => (hsame j).trans (hheld j)⟩

/-- Somebody takes a permit that is there. -/
theorem acquire (h : Guards holds (value + 1)) (hnew : ∀ j, holds' j ↔ holds j ∨ j = i) :
    Guards holds' value := by
  rcases h with ⟨hone, hfree⟩ | ⟨hzero, -⟩
  · refine Or.inr ⟨Nat.succ_injective hone, i, ?_⟩
    intro j
    rw [hnew, or_iff_right (hfree j)]
  · cases hzero

/-- The holder gives the permit back. -/
theorem release (h : Guards holds value) (hheld : holds i)
    (hnew : ∀ j, holds' j ↔ holds j ∧ j ≠ i) : Guards holds' (value + 1) := by
  rcases h with ⟨-, hfree⟩ | ⟨hzero, k, hk⟩
  · exact absurd hheld (hfree i)
  · obtain rfl := (hk i).mp hheld
    refine Or.inl ⟨congrArg (· + 1) hzero, ?_⟩
    intro j hj
    obtain ⟨hold, hne⟩ := (hnew j).mp hj
    exact hne ((hk j).mp hold)

theorem exclusive (h : Guards holds value) (hi : holds i) (hj : holds j) : i = j := by
  rcases h with ⟨-, hfree⟩ | ⟨-, k, hk⟩
  · exact absurd hi (hfree i)
  · exact ((hk i).mp hi).trans ((hk j).mp hj).symm

theorem exists_holder (h : Guards holds 0) : ∃ i, holds i := by
  rcases h with ⟨hone, -⟩ | ⟨-, k, hk⟩
  · cases hone
  · exact ⟨k, (hk k).mpr rfl⟩

theorem value_of_free (h : Guards holds value) (hfree : ∀ i, ¬ holds i) : value = 1 := by
  rcases h with ⟨hone, -⟩ | ⟨-, k, hk⟩
  · exact hone
  · exact absurd ((hk k).mpr rfl) (hfree k)

end Guards

end LearningCpp.Library
