import Mathlib.Tactic

/-!
A loop that looks for the hits in a list and stops once it has counted down the
number of hits it was told. Told the right number it leaves none out.
-/

namespace LearningCpp.Library

variable {σ ι : Type*} (hit : σ → ι → Bool) (act : σ → ι → σ)

/-- Act on the hits in the list, until `n` of them are counted. -/
def countdown : List ι → Int → σ → σ
  | [], _, s => s
  | i :: is, n, s =>
      if hit s i then
        if n - 1 = 0 then act s i else countdown is (n - 1) (act s i)
      else countdown is n s

variable {hit act}

/-- The shortcut leaves out nothing when `n` is the number of hits and acting on one
index does not change whether another one is a hit. -/
theorem countdown_eq_foldl (hframe : ∀ s i j, i ≠ j → hit (act s i) j = hit s j) {is : List ι}
    (hnodup : is.Nodup) {n : Int} {s : σ} (hn : n = is.countP (hit s)) :
    countdown hit act is n s = (is.filter (hit s)).foldl act s := by
  induction is generalizing n s with
  | nil => rfl
  | cons i is ih =>
    obtain ⟨hi, his⟩ := List.nodup_cons.1 hnodup
    have hsame : ∀ j ∈ is, hit (act s i) j = hit s j := by
      intro j hj
      exact hframe s i j (by rintro rfl; exact hi hj)
    have hcount : is.countP (hit (act s i)) = is.countP (hit s) :=
      List.countP_congr fun j hj => by rw [hsame j hj]
    by_cases hhit : hit s i
    · rw [List.countP_cons_of_pos hhit] at hn
      rw [countdown, if_pos hhit, List.filter_cons_of_pos hhit, List.foldl_cons]
      split
      · have hnone : is.countP (hit s) = 0 := by omega
        have hempty : is.filter (hit s) = [] := by
          rw [← List.length_eq_zero_iff, ← List.countP_eq_length_filter, hnone]
        rw [hempty, List.foldl_nil]
      · rw [ih his (by rw [hcount]; omega), List.filter_congr hsame]
    · rw [List.countP_cons_of_neg hhit] at hn
      rw [countdown, if_neg hhit, List.filter_cons_of_neg hhit]
      exact ih his hn

/-- What acting on one of the hits preserves, the loop preserves. -/
theorem countdown_invariant {I : σ → Prop} (hact : ∀ {s i}, I s → hit s i → I (act s i))
    {is : List ι} {n : Int} {s : σ} (h : I s) : I (countdown hit act is n s) := by
  induction is generalizing n s with
  | nil => exact h
  | cons i is ih =>
    unfold countdown
    split
    next hhit =>
      split
      · exact hact h hhit
      · exact ih (hact h hhit)
    next => exact ih h

end LearningCpp.Library
