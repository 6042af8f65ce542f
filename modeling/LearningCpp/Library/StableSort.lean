import Mathlib.Data.List.Sort
import Mathlib.Tactic

/-!
Sorting by a strict weak ordering `lt`. The result is ordered, it is
the only ordered arrangement when ties are equal elements, and elements that
tie keep the order they had.
-/

namespace LearningCpp.Library

variable {α : Type*}

/-- The comparison laws a sort relies on: `lt` is asymmetric and "not after"
is transitive. -/
structure StrictWeak (lt : α → α → Bool) : Prop where
  asymm : ∀ a b, lt a b = true → lt b a = false
  not_lt_trans : ∀ a b c, lt b a = false → lt c b = false → lt c a = false

def sortBy (lt : α → α → Bool) (xs : List α) : List α :=
  xs.insertionSort (fun a b => lt b a = false)

variable {lt : α → α → Bool}

theorem sortBy_perm (xs : List α) : (sortBy lt xs).Perm xs :=
  List.perm_insertionSort _ xs

@[simp]
theorem sortBy_length (xs : List α) : (sortBy lt xs).length = xs.length :=
  (sortBy_perm xs).length_eq

theorem mem_sortBy {xs : List α} {x : α} : x ∈ sortBy lt xs ↔ x ∈ xs :=
  (sortBy_perm xs).mem_iff

theorem sortBy_pairwise (h : StrictWeak lt) (xs : List α) :
    (sortBy lt xs).Pairwise (fun a b => lt b a = false) := by
  have htotal : Std.Total (fun a b => lt b a = false) := ⟨fun a b => by
    cases hab : lt b a with
    | false => exact Or.inl rfl
    | true => exact Or.inr (h.asymm _ _ hab)⟩
  have htrans : IsTrans α (fun a b => lt b a = false) := ⟨h.not_lt_trans⟩
  exact List.pairwise_insertionSort _ xs

/-- When elements that tie are equal, the order of the result is forced. -/
theorem eq_sortBy (h : StrictWeak lt) {xs ys : List α}
    (hties : ∀ a ∈ xs, ∀ b ∈ xs, lt a b = false → lt b a = false → a = b)
    (hperm : ys.Perm xs) (hys : ys.Pairwise (fun a b => lt b a = false)) :
    ys = sortBy lt xs := by
  refine List.Perm.eq_of_pairwise ?_ hys (sortBy_pairwise h xs)
    (hperm.trans (sortBy_perm xs).symm)
  intro a b ha hb hab hba
  exact hties a (hperm.mem_iff.mp ha) b (mem_sortBy.mp hb) hba hab

/-- Elements that pairwise tie come out in the order they went in. -/
theorem filter_sortBy (xs : List α) (p : α → Bool)
    (hties : ∀ a b, p a = true → p b = true → lt b a = false) :
    (sortBy lt xs).filter p = xs.filter p := by
  have hpairwise : (xs.filter p).Pairwise (fun a b => lt b a = false) :=
    List.pairwise_of_forall_mem_list fun a ha b hb =>
      hties a b (List.mem_filter.mp ha).2 (List.mem_filter.mp hb).2
  have hsub : (xs.filter p).Sublist (sortBy lt xs) :=
    List.sublist_insertionSort hpairwise List.filter_sublist
  have hfiltered : (xs.filter p).Sublist ((sortBy lt xs).filter p) := by
    have h := hsub.filter p
    rwa [List.filter_filter, show (fun a => p a && p a) = p by funext a; simp] at h
  exact (hfiltered.eq_of_length ((sortBy_perm xs).filter p).length_eq.symm).symm

end LearningCpp.Library
