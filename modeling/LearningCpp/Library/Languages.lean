import Mathlib.Data.List.Basic
import Mathlib.Tactic

/-!
Languages with a result, written down from left to right: a letter or a stretch
of letters of a class, and then the rest, which may depend on what was read.
Each form says what is left of it after one letter.
-/

namespace LearningCpp.Library

variable {β ρ : Type*}

/-- The words of a language, each with what it stands for. -/
abbrev Lang (β ρ : Type*) := List β → ρ → Prop

/-- The letter `b`, then a word of `k`. -/
def letter (b : β) (k : Lang β ρ) : Lang β ρ := fun w r => ∃ v, w = b :: v ∧ k v r

/-- Any number of letters of a class, then a word of `k` for them. -/
def many (p : β → Prop) (k : List β → Lang β ρ) : Lang β ρ :=
  fun w r => ∃ xs v, w = xs ++ v ∧ (∀ x ∈ xs, p x) ∧ k xs v r

/-- One or more letters of a class, then a word of `k` for them. -/
def many1 (p : β → Prop) (k : List β → Lang β ρ) : Lang β ρ :=
  fun w r => ∃ x v, w = x :: v ∧ p x ∧ many p (fun xs => k (x :: xs)) v r

@[simp]
theorem letter_nil (b : β) (k : Lang β ρ) (r : ρ) : ¬ letter b k [] r := by
  rintro ⟨v, hv, _⟩
  cases hv

@[simp]
theorem letter_cons (b c : β) (k : Lang β ρ) (w : List β) (r : ρ) :
    letter b k (c :: w) r ↔ c = b ∧ k w r := by
  constructor
  · rintro ⟨v, hv, hk⟩
    cases hv
    exact ⟨rfl, hk⟩
  · rintro ⟨rfl, hk⟩
    exact ⟨w, rfl, hk⟩

@[simp]
theorem many_nil (p : β → Prop) (k : List β → Lang β ρ) (r : ρ) :
    many p k [] r ↔ k [] [] r := by
  constructor
  · rintro ⟨xs, v, hw, _, hk⟩
    obtain ⟨rfl, rfl⟩ := List.append_eq_nil_iff.mp hw.symm
    exact hk
  · intro hk
    exact ⟨[], [], rfl, by simp, hk⟩

/-- The first letter belongs to the stretch or begins the rest. -/
theorem many_cons (p : β → Prop) (k : List β → Lang β ρ) (c : β) (w : List β) (r : ρ) :
    many p k (c :: w) r ↔ (p c ∧ many p (fun xs => k (c :: xs)) w r) ∨ k [] (c :: w) r := by
  constructor
  · rintro ⟨xs, v, hw, hxs, hk⟩
    cases xs with
    | nil =>
        rw [List.nil_append] at hw
        exact Or.inr (hw ▸ hk)
    | cons x xs =>
        obtain ⟨rfl, rfl⟩ := List.cons.inj hw
        rw [List.forall_mem_cons] at hxs
        exact Or.inl ⟨hxs.1, xs, v, rfl, hxs.2, hk⟩
  · rintro (⟨hc, xs, v, rfl, hxs, hk⟩ | hk)
    · exact ⟨c :: xs, v, rfl, List.forall_mem_cons.mpr ⟨hc, hxs⟩, hk⟩
    · exact ⟨[], c :: w, rfl, by simp, hk⟩

/-- A stretch that a letter outside of its class ends. -/
theorem many_letter_cons [DecidableEq β] {p : β → Prop} {e : β} (he : ¬ p e)
    (k : List β → Lang β ρ) (c : β) (w : List β) (r : ρ) :
    many p (fun xs => letter e (k xs)) (c :: w) r ↔
      if c = e then k [] w r else p c ∧ many p (fun xs => letter e (k (c :: xs))) w r := by
  rw [many_cons, letter_cons]
  split
  · next hc =>
    subst hc
    simp [he]
  · next hc => simp [hc]

@[simp]
theorem many1_nil (p : β → Prop) (k : List β → Lang β ρ) (r : ρ) : ¬ many1 p k [] r := by
  rintro ⟨x, v, hv, _⟩
  cases hv

@[simp]
theorem many1_cons (p : β → Prop) (k : List β → Lang β ρ) (c : β) (w : List β) (r : ρ) :
    many1 p k (c :: w) r ↔ p c ∧ many p (fun xs => k (c :: xs)) w r := by
  constructor
  · rintro ⟨x, v, hv, hx, hk⟩
    cases hv
    exact ⟨hx, hk⟩
  · rintro ⟨hc, hk⟩
    exact ⟨c, w, rfl, hc, hk⟩

/-- The stretch as one list. -/
theorem many1_iff (p : β → Prop) (k : List β → Lang β ρ) (w : List β) (r : ρ) :
    many1 p k w r ↔ ∃ xs v, w = xs ++ v ∧ xs ≠ [] ∧ (∀ x ∈ xs, p x) ∧ k xs v r := by
  constructor
  · rintro ⟨x, _, rfl, hx, xs, v, rfl, hxs, hk⟩
    exact ⟨x :: xs, v, rfl, List.cons_ne_nil _ _, List.forall_mem_cons.mpr ⟨hx, hxs⟩, hk⟩
  · rintro ⟨xs, v, rfl, hne, hxs, hk⟩
    cases xs with
    | nil => exact absurd rfl hne
    | cons x xs =>
        rw [List.forall_mem_cons] at hxs
        exact ⟨x, xs ++ v, rfl, hxs.1, xs, v, rfl, hxs.2, hk⟩

/-! A language that has a word keeps one when something is put before it. -/

theorem letter_viable {b : β} {k : Lang β ρ} (hk : ∃ w r, k w r) : ∃ w r, letter b k w r := by
  obtain ⟨w, r, h⟩ := hk
  exact ⟨b :: w, r, w, rfl, h⟩

theorem many_viable {p : β → Prop} {k : List β → Lang β ρ} (hk : ∃ w r, k [] w r) :
    ∃ w r, many p k w r := by
  obtain ⟨w, r, h⟩ := hk
  exact ⟨w, r, [], w, rfl, by simp, h⟩

theorem many1_viable {p : β → Prop} {k : List β → Lang β ρ} {c : β} (hc : p c)
    (hk : ∃ w r, k [c] w r) : ∃ w r, many1 p k w r := by
  obtain ⟨w, r, h⟩ := hk
  exact ⟨c :: w, r, c, w, rfl, hc, [], w, rfl, by simp, h⟩

end LearningCpp.Library
