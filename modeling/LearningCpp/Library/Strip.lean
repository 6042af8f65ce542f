import Mathlib.Data.List.DropRight
import Mathlib.Tactic

/-!
Taking away what is blank at the two ends of a list, for any notion of blank,
and the slice of the list that is left.
-/

namespace LearningCpp.Library

variable {α : Type*}

/-- The list without the blank elements at its two ends. -/
def strip (blank : α → Bool) (xs : List α) : List α := (xs.dropWhile blank).rdropWhile blank

variable {blank : α → Bool}

theorem dropWhile_eq_drop (xs : List α) :
    xs.dropWhile blank = xs.drop (xs.takeWhile blank).length := by
  have hsplit : xs.takeWhile blank ++ xs.dropWhile blank = xs := List.takeWhile_append_dropWhile
  have hdrop : (xs.takeWhile blank ++ xs.dropWhile blank).drop (xs.takeWhile blank).length =
      xs.dropWhile blank := List.drop_left
  rw [hsplit] at hdrop
  exact hdrop.symm

/-- The leading blanks, when it is known where they stop. -/
theorem takeWhile_stop {front rest : List α} {x : α} (hfront : ∀ c ∈ front, blank c)
    (hx : blank x = false) : (front ++ x :: rest).takeWhile blank = front := by
  rw [List.takeWhile_append_of_pos hfront, List.takeWhile_cons_of_neg (by simp [hx]),
    List.append_nil]

theorem dropWhile_stop {front rest : List α} {x : α} (hfront : ∀ c ∈ front, blank c)
    (hx : blank x = false) : (front ++ x :: rest).dropWhile blank = x :: rest := by
  rw [List.dropWhile_append_of_pos hfront, List.dropWhile_cons_of_neg (by simp [hx])]

/-- What is left starts with an element that is not blank. -/
theorem head_dropWhile {xs : List α} {x : α} (h : x ∈ (xs.dropWhile blank).head?) :
    blank x = false := by
  have hstop := List.head?_dropWhile_not blank xs
  rw [Option.mem_def.mp h] at hstop
  exact hstop

/-- The last element that is left when the trailing blanks are gone. -/
theorem rdropWhile_snoc {xs front : List α} {x : α} (h : xs.rdropWhile blank = front ++ [x]) :
    blank x = false := by
  have hne : xs.rdropWhile blank ≠ [] := by simp [h]
  have hlast := List.rdropWhile_last_not blank xs hne
  simpa [h] using hlast

theorem rdropWhile_eq_take (xs : List α) :
    xs.rdropWhile blank = xs.take (xs.length - (xs.reverse.takeWhile blank).length) := by
  rw [List.rdropWhile, dropWhile_eq_drop, List.reverse_drop, List.reverse_reverse,
    List.length_reverse]

/-- What is not blank is kept, in its order. -/
theorem filter_strip (xs : List α) :
    (strip blank xs).filter (fun x => !blank x) = xs.filter (fun x => !blank x) := by
  have hfront (ys : List α) :
      (ys.dropWhile blank).filter (fun x => !blank x) = ys.filter (fun x => !blank x) := by
    induction ys with
    | nil => rfl
    | cons y ys ih =>
        cases hy : blank y with
        | true =>
            rw [List.dropWhile_cons_of_pos hy, ih, List.filter_cons_of_neg (by simp [hy])]
        | false => rw [List.dropWhile_cons_of_neg (by simp [hy])]
  rw [strip, List.rdropWhile, List.filter_reverse, hfront, List.filter_reverse,
    List.reverse_reverse, hfront]

theorem strip_eq_nil_iff (xs : List α) : strip blank xs = [] ↔ ∀ x ∈ xs, blank x := by
  constructor
  · intro hnil x hx
    by_contra hblank
    have hmem : x ∈ xs.filter (fun x => !blank x) := List.mem_filter.mpr ⟨hx, by simpa using hblank⟩
    rw [← filter_strip, hnil] at hmem
    exact List.not_mem_nil hmem
  · intro hall
    rw [strip, List.dropWhile_eq_nil_iff.mpr hall, List.rdropWhile_nil]

/-- The stripped list as a slice of the list: some element is not blank, and
the blanks at the two ends do not meet. -/
theorem strip_eq_slice (xs : List α) (h : ∃ x ∈ xs, ¬ blank x) :
    (xs.takeWhile blank).length + (xs.reverse.takeWhile blank).length < xs.length ∧
      strip blank xs = (xs.drop (xs.takeWhile blank).length).take
        (xs.length - (xs.takeWhile blank).length - (xs.reverse.takeWhile blank).length) := by
  obtain ⟨rest, hrest⟩ : ∃ rest, rest = xs.drop (xs.takeWhile blank).length := ⟨_, rfl⟩
  have hlength : rest.length = xs.length - (xs.takeWhile blank).length := by
    rw [hrest, List.length_drop]
  have hkept : ∃ x ∈ rest.reverse, ¬ blank x := by
    by_contra hall
    push Not at hall
    obtain ⟨x, hx, hblank⟩ := h
    have hnil : strip blank xs = [] := by
      rw [strip, dropWhile_eq_drop, ← hrest, List.rdropWhile_eq_nil_iff]
      exact fun y hy => hall y (List.mem_reverse.mpr hy)
    exact hblank ((strip_eq_nil_iff xs).mp hnil x hx)
  have hstop : (rest.reverse.takeWhile blank).length ≠ rest.reverse.length := by
    intro hwhole
    obtain ⟨x, hx, hblank⟩ := hkept
    have hself := (List.takeWhile_prefix blank).eq_of_length hwhole
    exact hblank (List.takeWhile_eq_self_iff.mp hself x hx)
  have hback : xs.reverse.takeWhile blank = rest.reverse.takeWhile blank := by
    have hsplit : xs.reverse = rest.reverse ++ (xs.take (xs.takeWhile blank).length).reverse := by
      rw [← List.reverse_append, hrest, List.take_append_drop]
    rw [hsplit, List.takeWhile_append, if_neg hstop]
  have hle := (List.takeWhile_sublist (l := rest.reverse) blank).length_le
  rw [List.length_reverse] at hstop hle
  constructor
  · rw [hback]
    omega
  · rw [strip, dropWhile_eq_drop, ← hrest, rdropWhile_eq_take, hback, hlength]

theorem rdropWhile_append_of_pos {xs tail : List α} (h : ∀ c ∈ tail, blank c) :
    (xs ++ tail).rdropWhile blank = xs.rdropWhile blank := by
  rw [List.rdropWhile, List.reverse_append, List.dropWhile_append_of_pos, ← List.rdropWhile]
  intro c hc
  exact h c (List.mem_reverse.mp hc)

theorem rtakeWhile_append_of_neg {p : α → Bool} {front xs : List α} (h : ∀ c ∈ front, p c = false) :
    (front ++ xs).rtakeWhile p = xs.rtakeWhile p := by
  have hnone : front.reverse.takeWhile p = [] := by
    cases hback : front.reverse with
    | nil => rfl
    | cons c back =>
        have hc := h c (List.mem_reverse.mp (hback ▸ List.mem_cons_self))
        rw [List.takeWhile_cons_of_neg (by simp [hc])]
  rw [List.rtakeWhile, List.rtakeWhile, List.reverse_append, List.takeWhile_append]
  split
  next hwhole =>
    rw [hnone, List.append_nil, (List.takeWhile_prefix p).eq_of_length hwhole]
  next => rfl

/-- The blanks may be taken away at the end first. -/
theorem strip_eq_dropWhile (xs : List α) :
    strip blank xs = (xs.rdropWhile blank).dropWhile blank := by
  obtain ⟨front, hfront⟩ : ∃ front, front = xs.takeWhile blank := ⟨_, rfl⟩
  have hblank : ∀ c ∈ front, blank c := fun _ hc => List.mem_takeWhile_imp (hfront ▸ hc)
  have hsplit : xs = front ++ xs.dropWhile blank := by
    rw [hfront, List.takeWhile_append_dropWhile]
  rw [strip]
  cases hrest : xs.dropWhile blank with
  | nil =>
      rw [hrest, List.append_nil] at hsplit
      have hnil : xs.rdropWhile blank = [] := List.rdropWhile_eq_nil_iff.mpr (hsplit ▸ hblank)
      rw [hnil, List.rdropWhile_nil, List.dropWhile_nil]
  | cons x rest =>
      have hhead : x ∈ (xs.dropWhile blank).head? := by
        rw [hrest]
        rfl
      have hx : blank x = false := head_dropWhile hhead
      obtain ⟨kept, hkept⟩ : ∃ kept, (x :: rest).rdropWhile blank = x :: kept := by
        obtain ⟨tail, htail⟩ := List.rdropWhile_prefix blank (x :: rest)
        cases hcut : (x :: rest).rdropWhile blank with
        | nil =>
            have hall := List.rdropWhile_eq_nil_iff.mp hcut x List.mem_cons_self
            rw [hx] at hall
            cases hall
        | cons y kept =>
            rw [hcut] at htail
            exact ⟨kept, by rw [(List.cons.inj htail).1]⟩
      have hends : xs.rdropWhile blank = front ++ x :: kept := by
        rw [hsplit, hrest, ← hkept,
          ← List.rdropWhile_append_rtakeWhile (p := blank) (l := x :: rest), ← List.append_assoc,
          rdropWhile_append_of_pos (fun _ => List.mem_rtakeWhile_imp)]
        rw [List.rdropWhile_append_rtakeWhile, hkept]
        apply List.rdropWhile_eq_self_iff.mpr
        intro hne
        rw [List.getLast_append_of_ne_nil _ (List.cons_ne_nil x kept)]
        have hlast := List.rdropWhile_last_not blank (x :: rest) (by simp [hkept])
        simpa [hkept] using hlast
      rw [hends, dropWhile_stop hblank hx, hkept]

theorem strip_strip (xs : List α) : strip blank (strip blank xs) = strip blank xs := by
  have hdrop : (strip blank xs).dropWhile blank = strip blank xs := by
    rw [strip_eq_dropWhile, List.dropWhile_idempotent]
  rw [strip, hdrop]
  exact List.rdropWhile_idempotent blank _

/-- One element is left exactly when only one is not blank. -/
theorem length_strip_eq_one_iff (xs : List α) :
    (strip blank xs).length = 1 ↔ xs.countP (fun x => !blank x) = 1 := by
  have hcount : xs.countP (fun x => !blank x) = (strip blank xs).countP (fun x => !blank x) := by
    rw [List.countP_eq_length_filter, List.countP_eq_length_filter, filter_strip]
  have hfirst : ∀ x ∈ (strip blank xs).head?, blank x = false := by
    rw [strip_eq_dropWhile]
    exact fun x hx => head_dropWhile hx
  have hlast : ∀ front x, strip blank xs = front ++ [x] → blank x = false :=
    fun front x hx => rdropWhile_snoc hx
  rw [hcount]
  generalize strip blank xs = rest at hfirst hlast
  cases rest with
  | nil => simp
  | cons x rest =>
      have hx := hfirst x rfl
      rcases List.eq_nil_or_concat' rest with rfl | ⟨front, y, rfl⟩
      · simp [hx]
      · have hy := hlast (x :: front) y rfl
        simp [hx, hy]

end LearningCpp.Library
