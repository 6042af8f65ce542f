import LearningCpp.Library.Machine

/-!
Measures that the steps of a machine make smaller, and the weight of a list of parts of
which a step changes one. A run is no longer than its measure, and when only a state that
is done allows no step, a run goes on until one is reached.
-/

namespace LearningCpp.Library

variable {σ α : Type*} {step : σ → α → Option σ} {I : σ → Prop} {μ : σ → Nat}

/-- A run takes no more steps than its measure goes down. -/
theorem length_le_of_decreasing (hstep : ∀ {s s' a}, I s → step s a = some s' → I s')
    (hless : ∀ {s s' a}, I s → step s a = some s' → μ s' < μ s) {s t : σ} {as : List α}
    (hinit : I s) (hrun : runSteps step s as = some t) : as.length + μ t ≤ μ s := by
  induction as generalizing s with
  | nil =>
      simp only [runSteps, Option.some.injEq] at hrun
      simp [hrun]
  | cons a as ih =>
      obtain ⟨s', hfirst, hrest⟩ := runSteps_cons_iff.mp hrun
      have hlater := ih (hstep hinit hfirst) hrest
      have hlt := hless hinit hfirst
      rw [List.length_cons]
      omega

/-- A run whose steps may add to the measure what they are charged. -/
theorem length_le_of_charged {charge : α → Nat}
    (hstep : ∀ {s s' a}, I s → step s a = some s' → I s')
    (hless : ∀ {s s' a}, I s → step s a = some s' → μ s' < μ s + charge a) {s t : σ} {as : List α}
    (hinit : I s) (hrun : runSteps step s as = some t) :
    as.length + μ t ≤ μ s + (as.map charge).sum := by
  induction as generalizing s with
  | nil =>
      simp only [runSteps, Option.some.injEq] at hrun
      simp [hrun]
  | cons a as ih =>
      obtain ⟨s', hfirst, hrest⟩ := runSteps_cons_iff.mp hrun
      have hlater := ih (hstep hinit hfirst) hrest
      have hlt := hless hinit hfirst
      rw [List.length_cons, List.map_cons, List.sum_cons]
      omega

/-- When every state that is not done has a step that makes the measure smaller, it has a run
to one that is done. -/
theorem exists_run_done {done : σ → Prop}
    (hnext : ∀ {s}, I s → ¬ done s → ∃ a s', step s a = some s' ∧ I s' ∧ μ s' < μ s) {s : σ}
    (hinit : I s) :
    ∃ as t, runSteps step s as = some t ∧ I t ∧ done t ∧ as.length ≤ μ s := by
  induction hμ : μ s using Nat.strong_induction_on generalizing s with
  | _ k ih =>
      rcases Classical.em (done s) with hdone | hnot
      · exact ⟨[], s, rfl, hinit, hdone, Nat.zero_le _⟩
      · obtain ⟨a, s', hstep, hkept, hlt⟩ := hnext hinit hnot
        obtain ⟨as, t, hrun, hend, hdone, hlength⟩ := ih (μ s') (hμ ▸ hlt) hkept rfl
        refine ⟨a :: as, t, runSteps_cons_iff.mpr ⟨s', hstep, hrun⟩, hend, hdone, ?_⟩
        rw [List.length_cons]
        omega

variable {β : Type*} {w : β → Nat} {xs : List β} {i : Nat} {x : β}

/-- The weight of a list. -/
def weigh (w : β → Nat) (xs : List β) : Nat := (xs.map w).sum

theorem weigh_set_add (hx : xs[i]? = some x) (y : β) :
    weigh w (xs.set i y) + w x = weigh w xs + w y := by
  induction xs generalizing i with
  | nil => cases hx
  | cons first xs ih =>
      cases i with
      | zero =>
          cases hx
          simp only [weigh, List.set_cons_zero, List.map_cons, List.sum_cons]
          omega
      | succ i =>
          have hrest := ih hx
          simp only [weigh, List.set_cons_succ, List.map_cons, List.sum_cons] at hrest ⊢
          omega

theorem weigh_set_lt (hx : xs[i]? = some x) {y : β} (hlt : w y < w x) :
    weigh w (xs.set i y) < weigh w xs := by
  have hadd := weigh_set_add hx y (w := w)
  omega

theorem weigh_map_le {f : β → β} {k : Nat} (hf : ∀ x, w (f x) ≤ w x + k) (xs : List β) :
    weigh w (xs.map f) ≤ weigh w xs + k * xs.length := by
  induction xs with
  | nil => exact Nat.le_refl _
  | cons first xs ih =>
      have hfirst := hf first
      simp only [weigh, List.map_cons, List.sum_cons, List.length_cons, Nat.mul_succ] at ih ⊢
      omega

theorem weigh_le {n : Nat} (h : ∀ x ∈ xs, w x ≤ n) : weigh w xs ≤ n * xs.length := by
  have hsum := List.sum_le_card_nsmul (xs.map w) n (by simpa using h)
  simpa [weigh, Nat.mul_comm] using hsum

end LearningCpp.Library
