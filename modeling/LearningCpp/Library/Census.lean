import Mathlib.Tactic
import Mathlib.Data.List.Nodup

/-!
How many elements of a list, such as the places of some threads, have a property,
when one of them changes and when positions with the property are known.
-/

namespace LearningCpp.Library

variable {α : Type*} {p : α → Bool} {xs : List α} {i : Nat} {x y : α}

/-- What is in a list after one element was replaced, and is not the new one, was there. -/
theorem mem_of_mem_set (hx : x ∈ xs.set i y) (hne : x ≠ y) : x ∈ xs :=
  (List.mem_or_eq_of_mem_set hx).resolve_right hne

theorem countP_set_same (hx : xs[i]? = some x) (hp : p y = p x) :
    (xs.set i y).countP p = xs.countP p := by
  obtain ⟨hi, rfl⟩ := List.getElem?_eq_some_iff.mp hx
  have hle : (if p xs[i] then 1 else 0) ≤ xs.countP p := List.boole_getElem_le_countP hi
  rw [List.countP_set hi, hp, Nat.sub_add_cancel hle]

/-- An element loses the property. -/
theorem countP_set_lost (hx : xs[i]? = some x) (hold : p x = true) (hnew : p y = false) :
    (xs.set i y).countP p = xs.countP p - 1 := by
  obtain ⟨hi, rfl⟩ := List.getElem?_eq_some_iff.mp hx
  rw [List.countP_set hi, hold, hnew, if_pos rfl, if_neg Bool.false_ne_true, Nat.add_zero]

/-- An element gains the property. -/
theorem countP_set_gained (hx : xs[i]? = some x) (hold : p x = false) (hnew : p y = true) :
    (xs.set i y).countP p = xs.countP p + 1 := by
  obtain ⟨hi, rfl⟩ := List.getElem?_eq_some_iff.mp hx
  rw [List.countP_set hi, hold, hnew, if_pos rfl, if_neg Bool.false_ne_true, Nat.sub_zero]

/-- How many elements have the property when one of them is replaced. -/
theorem countP_set_add (hx : xs[i]? = some x) (y : α) (p : α → Bool) :
    (xs.set i y).countP p + (if p x then 1 else 0) = xs.countP p + (if p y then 1 else 0) := by
  obtain ⟨hi, rfl⟩ := List.getElem?_eq_some_iff.mp hx
  have hle : (if p xs[i] then 1 else 0) ≤ xs.countP p := List.boole_getElem_le_countP hi
  rw [List.countP_set hi]
  omega

/-- How often `a` occurs when one element is replaced. -/
theorem count_set_add [DecidableEq α] (hx : xs[i]? = some x) (y a : α) :
    (xs.set i y).count a + (if x = a then 1 else 0) = xs.count a + (if y = a then 1 else 0) := by
  have hadd := countP_set_add hx y (· == a)
  simp only [beq_iff_eq] at hadd
  exact hadd

/-- How often `b` is found when one element is replaced. -/
theorem count_filterMap_set_add {β : Type*} [DecidableEq β] (hx : xs[i]? = some x) (y : α)
    (f : α → Option β) (b : β) :
    ((xs.set i y).filterMap f).count b + (if f x = some b then 1 else 0) =
      (xs.filterMap f).count b + (if f y = some b then 1 else 0) := by
  have hadd := countP_set_add hx y (fun a => f a == some b)
  simp only [beq_iff_eq] at hadd
  rw [List.count_filterMap, List.count_filterMap]
  exact hadd

/-- A weaker property is counted more often exactly when something has only that one. -/
theorem countP_lt_countP_iff {q : α → Bool} (himp : ∀ x ∈ xs, p x → q x) :
    xs.countP p < xs.countP q ↔ ∃ x ∈ xs, q x ∧ p x = false := by
  induction xs with
  | nil => simp
  | cons x xs ih =>
      rw [List.forall_mem_cons] at himp
      have hle : xs.countP p ≤ xs.countP q := List.countP_mono_left himp.2
      rw [List.countP_cons, List.countP_cons]
      simp only [List.mem_cons, exists_eq_or_imp, ← ih himp.2]
      cases hp : p x with
      | true =>
          rw [if_pos rfl, if_pos (himp.1 hp)]
          simp
      | false =>
          cases hq : q x with
          | true =>
              simp only [Bool.false_eq_true, if_false, if_true, and_self, true_or, iff_true]
              omega
          | false => simp

/-- There are at least as many elements with the property as known positions. -/
theorem length_le_countP {positions : List Nat} (hnodup : positions.Nodup)
    (hp : ∀ i ∈ positions, ∃ x, xs[i]? = some x ∧ p x = true) : positions.length ≤ xs.countP p := by
  have hpositions : (List.range xs.length).map (fun i => xs[i]?) = xs.map some := by
    refine List.ext_getElem (by rw [List.length_map, List.length_map, List.length_range]) ?_
    intro i _ hi
    rw [List.length_map] at hi
    rw [List.getElem_map, List.getElem_map, List.getElem_range, List.getElem?_eq_getElem hi]
  have hsubset : positions ⊆ (List.range xs.length).filter (fun i => (xs[i]?).any p) := by
    intro i hi
    obtain ⟨x, hx, hpx⟩ := hp i hi
    obtain ⟨hlt, -⟩ := List.getElem?_eq_some_iff.mp hx
    rw [List.mem_filter, hx]
    exact ⟨List.mem_range.mpr hlt, hpx⟩
  have hcount : ((List.range xs.length).filter (fun i => (xs[i]?).any p)).length = xs.countP p := by
    rw [← List.countP_eq_length_filter]
    have hmap := congrArg (List.countP (Option.any p)) hpositions
    rw [List.countP_map, List.countP_map] at hmap
    exact hmap
  rw [← hcount]
  exact (hnodup.subperm hsubset).length_le

variable {P : Nat → α → Prop} {j : Nat} {z : α}

/-- What holds of every element at its position, when one more is put at the end. -/
theorem forall_concat (hnew : P xs.length x) (hold : ∀ {i y}, xs[i]? = some y → P i y)
    (hz : (xs ++ [x])[j]? = some z) : P j z := by
  rcases Nat.lt_or_ge j xs.length with hlt | hge
  · rw [List.getElem?_append_left hlt] at hz
    exact hold hz
  · rw [List.getElem?_append_right hge] at hz
    obtain ⟨hj, rfl⟩ := List.getElem?_eq_some_iff.mp hz
    rw [List.length_singleton] at hj
    rw [List.getElem_singleton, show j = xs.length by omega]
    exact hnew

/-- What holds of every element at its position, when one is replaced. -/
theorem forall_replaced (hnew : P i y) (hold : ∀ {j z}, j ≠ i → xs[j]? = some z → P j z)
    (hz : (xs.set i y)[j]? = some z) : P j z := by
  rcases eq_or_ne j i with rfl | hne
  · obtain ⟨hj, rfl⟩ := List.getElem?_eq_some_iff.mp hz
    rw [List.getElem_set_self]
    exact hnew
  · rw [List.getElem?_set_ne hne.symm] at hz
    exact hold hne hz

end LearningCpp.Library
