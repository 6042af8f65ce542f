import Mathlib.Tactic

/-!
Ring buffers: elements in consecutive slots, from the front on and going round
at the end. Pushing fills the slot behind the last element, popping gives up the
first one. What is not popped in time is overwritten: the slots hold the last
elements of all that was ever pushed.
-/

namespace LearningCpp.Library

variable {α : Type*}

/-- The slots from `front` on hold the elements `xs`. -/
structure Ring (slots : List α) (front : Nat) (xs : List α) : Prop where
  front_lt : front < slots.length
  length_le : xs.length ≤ slots.length
  slot : ∀ i < xs.length, slots[(front + i) % slots.length]? = xs[i]?

/-- The position after `p` in a ring of `cap` slots. -/
theorem wrap_succ {p cap : Nat} (hp : p < cap) : (if p + 1 = cap then 0 else p + 1) = (p + 1) % cap := by
  split
  · next h => rw [h, Nat.mod_self]
  · next h => exact (Nat.mod_eq_of_lt (by omega)).symm

theorem mod_succ_mod (a n cap : Nat) : ((a + n) % cap + 1) % cap = (a + (n + 1)) % cap := by
  rw [Nat.mod_add_mod, Nat.add_assoc]

/-- Two positions less than a round apart are equal only when they are the same. -/
theorem add_mod_inj {a i j cap : Nat} (hi : i < cap) (hj : j < cap)
    (h : (a + i) % cap = (a + j) % cap) : i = j := by
  have hmod : i ≡ j [MOD cap] := Nat.ModEq.add_left_cancel' a h
  exact Nat.ModEq.eq_of_lt_of_lt hmod hi hj

/-- The position behind the elements is the front exactly when there are none. -/
theorem end_eq_front_iff {front n cap : Nat} (hfront : front < cap) (hn : n < cap) :
    (front + n) % cap = front ↔ n = 0 := by
  constructor
  · intro h
    apply add_mod_inj hn (Nat.lt_of_le_of_lt (Nat.zero_le n) hn) (a := front)
    rw [h, Nat.add_zero, Nat.mod_eq_of_lt hfront]
  · rintro rfl
    rw [Nat.add_zero, Nat.mod_eq_of_lt hfront]

/-- When one slot is kept free, the position after the end is the front exactly
when the others are taken. -/
theorem end_succ_eq_front_iff {front n cap : Nat} (hfront : front < cap) (hn : n < cap) :
    ((front + n) % cap + 1) % cap = front ↔ n + 1 = cap := by
  rw [mod_succ_mod]
  constructor
  · intro h
    by_contra hne
    exact absurd ((end_eq_front_iff hfront (by omega)).mp h) (Nat.succ_ne_zero n)
  · intro h
    rw [h, Nat.add_mod_right, Nat.mod_eq_of_lt hfront]

namespace Ring

theorem empty {slots : List α} {front : Nat} (hfront : front < slots.length) : Ring slots front [] where
  front_lt := hfront
  length_le := Nat.zero_le _
  slot := by
    intro i hi
    exact absurd hi (Nat.not_lt_zero i)

theorem push {slots : List α} {front : Nat} {xs : List α} (h : Ring slots front xs)
    (hroom : xs.length < slots.length) (x : α) :
    Ring (slots.set ((front + xs.length) % slots.length) x) front (xs ++ [x]) := by
  have hpos : 0 < slots.length := Nat.lt_of_le_of_lt (Nat.zero_le _) h.front_lt
  refine ⟨by rw [List.length_set]; exact h.front_lt, ?_, ?_⟩
  · rw [List.length_set, List.length_append, List.length_singleton]
    exact hroom
  · intro i hi
    rw [List.length_append, List.length_singleton] at hi
    rw [List.length_set]
    rcases Nat.lt_succ_iff_lt_or_eq.mp hi with hlt | rfl
    · have hne : (front + xs.length) % slots.length ≠ (front + i) % slots.length :=
        fun heq => Nat.ne_of_gt hlt (add_mod_inj hroom (Nat.lt_trans hlt hroom) heq)
      rw [List.getElem?_set_ne hne, h.slot i hlt, List.getElem?_append_left hlt]
    · rw [List.getElem?_set_self (Nat.mod_lt _ hpos), List.getElem?_concat_length]

theorem head {slots : List α} {front : Nat} {x : α} {xs : List α} (h : Ring slots front (x :: xs)) :
    slots[front]? = some x := by
  have hslot := h.slot 0 (Nat.succ_pos _)
  rwa [Nat.add_zero, Nat.mod_eq_of_lt h.front_lt] at hslot

theorem pop {slots : List α} {front : Nat} {x : α} {xs : List α} (h : Ring slots front (x :: xs)) :
    Ring slots ((front + 1) % slots.length) xs := by
  have hpos : 0 < slots.length := Nat.lt_of_le_of_lt (Nat.zero_le _) h.front_lt
  have hlength := h.length_le
  rw [List.length_cons] at hlength
  refine ⟨Nat.mod_lt _ hpos, by omega, ?_⟩
  intro i hi
  have hslot := h.slot (i + 1) (by rw [List.length_cons]; omega)
  rwa [List.getElem?_cons_succ, Nat.add_comm i 1, ← Nat.add_assoc, ← Nat.mod_add_mod] at hslot

end Ring

/-- The slots hold the last elements of a log, of which element `k` was put into slot
`k % slots.length`. -/
def HoldsLast (slots log : List α) : Prop :=
  ∀ (k : Nat) (x : α), log[k]? = some x → log.length ≤ k + slots.length →
    slots[k % slots.length]? = some x

namespace HoldsLast

variable {slots log : List α}

theorem push (h : HoldsLast slots log) (hslots : 0 < slots.length) (x : α) :
    HoldsLast (slots.set (log.length % slots.length) x) (log ++ [x]) := by
  intro k y hy hlast
  rw [List.length_set, List.length_append, List.length_singleton] at hlast
  rw [List.length_set]
  rw [List.getElem?_append] at hy
  split at hy
  · next hk =>
    have hne : log.length % slots.length ≠ k % slots.length := by
      intro heq
      have hmod := add_mod_inj (a := k) (i := log.length - k) (j := 0)
        (by omega) hslots (by rw [Nat.add_zero, Nat.add_sub_cancel' hk.le, heq])
      omega
    rw [List.getElem?_set_ne hne]
    exact h k y hy (by omega)
  · next hk =>
    rw [List.getElem?_singleton] at hy
    split at hy
    · next hzero =>
      obtain rfl : k = log.length := by omega
      rw [List.getElem?_set_self (Nat.mod_lt _ hslots), hy]
    · cases hy

/-- The slot that is filled next holds the element a round before. -/
theorem oldest (h : HoldsLast slots log) (hslots : 0 < slots.length)
    (hround : slots.length ≤ log.length) :
    slots[log.length % slots.length]? = log[log.length - slots.length]? := by
  have hlt : log.length - slots.length < log.length := by omega
  have hslot := h _ _ (List.getElem?_eq_getElem hlt) (by omega)
  rw [List.getElem?_eq_getElem hlt, ← hslot]
  congr 1
  conv_lhs => rw [← Nat.sub_add_cancel hround, Nat.add_mod_right]

end HoldsLast

end LearningCpp.Library
