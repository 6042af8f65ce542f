import Mathlib.Tactic

/-!
The occurrences of a word in a text that a search from left to right finds: the
first one, and after each one the first that does not overlap it.
-/

namespace LearningCpp.Library

variable {α : Type*} [DecidableEq α]

/-- How many letters stand before the first occurrence of a word. -/
def firstAt (d : List α) : List α → Option Nat
  | [] => if d = [] then some 0 else none
  | c :: s => if d <+: c :: s then some 0 else (firstAt d s).map (fun n => n + 1)

/-- The number of occurrences that are found from left to right. The next `skip`
letters belong to the last one. -/
def occurrences (d : List α) : Nat → List α → Nat
  | _, [] => 0
  | skip + 1, _ :: s => occurrences d skip s
  | 0, c :: s => if d <+: c :: s then occurrences d (d.length - 1) s + 1 else occurrences d 0 s

variable {d s : List α}

theorem firstAt_nil (hd : d ≠ []) : firstAt d [] = none := if_neg hd

theorem firstAt_of_begins (h : d <+: s) : firstAt d s = some 0 := by
  cases s with
  | nil => exact if_pos (List.prefix_nil.mp h)
  | cons c s => exact if_pos h

/-- The first occurrence cuts the text. -/
theorem firstAt_eq_some {n : Nat} (h : firstAt d s = some n) :
    n + d.length ≤ s.length ∧ s.take n ++ d ++ s.drop (n + d.length) = s := by
  induction s generalizing n with
  | nil =>
      rw [firstAt] at h
      split at h
      · next hnil =>
        cases h
        simp [hnil]
      · cases h
  | cons c s ih =>
      rw [firstAt] at h
      split at h
      · next hbegins =>
        cases h
        obtain ⟨rest, hrest⟩ := hbegins
        rw [← hrest]
        simp
      · obtain ⟨m, hm, rfl⟩ := Option.map_eq_some_iff.mp h
        obtain ⟨hle, hcut⟩ := ih hm
        rw [Nat.add_right_comm, List.take_succ_cons, List.drop_succ_cons, List.cons_append,
          List.cons_append, hcut, List.length_cons]
        exact ⟨by omega, rfl⟩

theorem firstAt_eq_none_iff : firstAt d s = none ↔ ¬ d <:+: s := by
  induction s with
  | nil => simp [firstAt]
  | cons c s ih =>
      rw [List.infix_cons_iff, not_or, ← ih, firstAt]
      split
      · next hbegins => simp [hbegins]
      · next hbegins => simp [hbegins]

/-- No occurrence ends before the first one does. -/
theorem not_infix_take {n : Nat} (hd : d ≠ []) (h : firstAt d s = some n) :
    ¬ d <:+: s.take n := by
  induction s generalizing n with
  | nil => simpa using hd
  | cons c s ih =>
      rw [firstAt] at h
      split at h
      · cases h
        simpa using hd
      · next hbegins =>
        obtain ⟨m, hm, rfl⟩ := Option.map_eq_some_iff.mp h
        rw [List.take_succ_cons, List.infix_cons_iff, not_or]
        refine ⟨?_, ih hm⟩
        intro hearly
        apply hbegins
        exact hearly.trans (List.take_prefix (m + 1) (c :: s))

theorem occurrences_skip (skip : Nat) : occurrences d skip s = occurrences d 0 (s.drop skip) := by
  induction s generalizing skip with
  | nil =>
      rw [List.drop_nil]
      cases skip <;> rfl
  | cons c s ih =>
      cases skip with
      | zero => rfl
      | succ skip => exact ih skip

/-- The search goes on behind the first occurrence. -/
theorem occurrences_of_some {n : Nat} (hd : d ≠ []) (h : firstAt d s = some n) :
    occurrences d 0 s = occurrences d 0 (s.drop (n + d.length)) + 1 := by
  induction s generalizing n with
  | nil =>
      rw [firstAt_nil hd] at h
      cases h
  | cons c s ih =>
      rw [firstAt] at h
      split at h
      · next hbegins =>
        cases h
        obtain ⟨k, hk⟩ : ∃ k, d.length = k + 1 :=
          Nat.exists_eq_succ_of_ne_zero (mt List.length_eq_zero_iff.mp hd)
        rw [occurrences, if_pos hbegins, occurrences_skip, hk, Nat.zero_add, List.drop_succ_cons]
        rfl
      · next hbegins =>
        obtain ⟨m, hm, rfl⟩ := Option.map_eq_some_iff.mp h
        rw [occurrences, if_neg hbegins, ih hm, Nat.add_right_comm, List.drop_succ_cons]

theorem occurrences_of_none (h : firstAt d s = none) : occurrences d 0 s = 0 := by
  induction s with
  | nil => rfl
  | cons c s ih =>
      rw [firstAt] at h
      split at h
      · cases h
      · next hbegins =>
        rw [occurrences, if_neg hbegins]
        exact ih (Option.map_eq_none_iff.mp h)

end LearningCpp.Library
