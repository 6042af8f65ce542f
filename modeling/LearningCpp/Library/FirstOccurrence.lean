import Mathlib.Data.Finset.Card
import Mathlib.Data.List.Nodup
import Mathlib.Tactic

/-!
The first element of each key, in the order in which the keys first appear.
This is what a filter that remembers the keys it has let through produces.
-/

namespace LearningCpp.Library

variable {α κ : Type*} [DecidableEq κ]

def firstsBy (key : α → κ) : List α → List α
  | [] => []
  | x :: xs => x :: (firstsBy key xs).filter (fun y => key y ≠ key x)

variable {key : α → κ}

theorem firstsBy_sublist (xs : List α) : (firstsBy key xs).Sublist xs := by
  induction xs with
  | nil => exact List.Sublist.slnil
  | cons x xs ih => exact (List.filter_sublist.trans ih).cons_cons x

/-- A key has a first element exactly when it occurs. -/
theorem mem_map_firstsBy (key : α → κ) (xs : List α) (k : κ) :
    k ∈ (firstsBy key xs).map key ↔ k ∈ xs.map key := by
  induction xs with
  | nil => rfl
  | cons x xs ih =>
      by_cases hx : k = key x
      · simp [firstsBy, hx]
      · have hfilter : k ∈ ((firstsBy key xs).filter (fun y => key y ≠ key x)).map key ↔
            k ∈ (firstsBy key xs).map key := by
          simp only [List.mem_map, List.mem_filter, decide_eq_true_eq]
          constructor
          · rintro ⟨y, ⟨hy, _⟩, hkey⟩
            exact ⟨y, hy, hkey⟩
          · rintro ⟨y, hy, hkey⟩
            exact ⟨y, ⟨hy, hkey ▸ hx⟩, hkey⟩
        rw [firstsBy, List.map_cons, List.mem_cons, hfilter, ih, List.map_cons, List.mem_cons]

theorem map_firstsBy (key : α → κ) (xs : List α) :
    (firstsBy key xs).map key = firstsBy id (xs.map key) := by
  induction xs with
  | nil => rfl
  | cons x xs ih =>
      rw [firstsBy, List.map_cons, List.map_cons, firstsBy, ← ih, List.filter_map]
      rfl

theorem firstsBy_keys_nodup (key : α → κ) (xs : List α) : ((firstsBy key xs).map key).Nodup := by
  induction xs with
  | nil => exact List.nodup_nil
  | cons x xs ih =>
      rw [firstsBy, List.map_cons, List.nodup_cons]
      refine ⟨?_, ih.sublist (List.filter_sublist.map key)⟩
      intro hmem
      obtain ⟨y, hy, hkey⟩ := List.mem_map.mp hmem
      exact of_decide_eq_true (List.mem_filter.mp hy).2 hkey

/-- The kept element of a key is the one a search from the front finds. -/
theorem mem_firstsBy_iff (key : α → κ) (xs : List α) (x : α) :
    x ∈ firstsBy key xs ↔ xs.find? (fun y => key y = key x) = some x := by
  induction xs with
  | nil => simp [firstsBy]
  | cons y ys ih =>
      rw [firstsBy, List.mem_cons, List.mem_filter]
      by_cases hkey : key y = key x
      · rw [List.find?_cons_of_pos (by simpa using hkey)]
        constructor
        · rintro (rfl | ⟨_, hne⟩)
          · rfl
          · exact (of_decide_eq_true hne hkey.symm).elim
        · intro hfound
          exact Or.inl (Option.some.inj hfound).symm
      · rw [List.find?_cons_of_neg (by simpa using hkey), ← ih]
        constructor
        · rintro (rfl | ⟨hmem, _⟩)
          · exact (hkey rfl).elim
          · exact hmem
        · intro hmem
          exact Or.inr ⟨hmem, decide_eq_true (Ne.symm hkey)⟩

/-- One more element is kept exactly when its key is new. -/
theorem firstsBy_snoc (xs : List α) (x : α) :
    firstsBy key (xs ++ [x]) =
      if key x ∈ xs.map key then firstsBy key xs else firstsBy key xs ++ [x] := by
  induction xs with
  | nil => simp [firstsBy]
  | cons y ys ih =>
      rw [List.cons_append, firstsBy, ih]
      by_cases hys : key x ∈ ys.map key
      · have hcons : key x ∈ (y :: ys).map key := List.mem_cons_of_mem _ hys
        rw [if_pos hys, if_pos hcons, firstsBy]
      · by_cases hy : key x = key y
        · have hcons : key x ∈ (y :: ys).map key := hy ▸ List.mem_cons_self
          rw [if_neg hys, if_pos hcons, firstsBy]
          simp [List.filter_append, hy]
        · have hcons : key x ∉ (y :: ys).map key := List.not_mem_cons_of_ne_of_not_mem hy hys
          rw [if_neg hys, if_neg hcons, firstsBy]
          simp [List.filter_append, hy]

theorem firstsBy_length (key : α → κ) (xs : List α) :
    (firstsBy key xs).length = (xs.map key).toFinset.card := by
  have hsame : (xs.map key).toFinset = ((firstsBy key xs).map key).toFinset := by
    ext k
    simp only [List.mem_toFinset, mem_map_firstsBy]
  rw [hsame, List.toFinset_card_of_nodup (firstsBy_keys_nodup key xs), List.length_map]

theorem firstsBy_eq_self {xs : List α} (h : (xs.map key).Nodup) : firstsBy key xs = xs := by
  induction xs with
  | nil => rfl
  | cons x xs ih =>
      obtain ⟨hx, hxs⟩ := List.nodup_cons.mp h
      rw [firstsBy, ih hxs, List.filter_eq_self.mpr]
      intro y hy
      apply decide_eq_true
      intro hkey
      exact hx (hkey ▸ List.mem_map_of_mem hy)

end LearningCpp.Library
