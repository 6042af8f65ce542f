import LearningCpp.Library.Machine

/-!
Simulation of one machine by another one that may take several steps for one. Runs are
matched by runs that are no shorter, and that count as much.
-/

namespace LearningCpp.Library

variable {σ τ α β : Type*} {step : σ → α → Option σ} {step' : τ → β → Option τ}
  {R : σ → τ → Prop} {count : α → Nat} {count' : β → Nat}

/-- From related states every step is matched by one or more steps that count as much. -/
def Simulates (step : σ → α → Option σ) (step' : τ → β → Option τ) (R : σ → τ → Prop)
    (count : α → Nat) (count' : β → Nat) : Prop :=
  ∀ s s' t a, R s t → step s a = some s' →
    ∃ bs t', runSteps step' t bs = some t' ∧ R s' t' ∧ 0 < bs.length ∧
      (bs.map count').sum = count a

theorem Simulates.run (h : Simulates step step' R count count') {s s' : σ} {t : τ} {as : List α}
    (hinit : R s t) (hrun : runSteps step s as = some s') :
    ∃ bs t', runSteps step' t bs = some t' ∧ R s' t' ∧ as.length ≤ bs.length ∧
      (bs.map count').sum = (as.map count).sum := by
  induction as generalizing s t with
  | nil =>
      simp only [runSteps, Option.some.injEq] at hrun
      exact ⟨[], t, rfl, hrun ▸ hinit, Nat.le_refl _, rfl⟩
  | cons a as ih =>
      obtain ⟨s₁, hfirst, hrest⟩ := runSteps_cons_iff.mp hrun
      obtain ⟨bs, t₁, hmatch, hrelated, hlength, hcount⟩ := h s s₁ t a hinit hfirst
      obtain ⟨bs', t', hmatch', hrelated', hlength', hcount'⟩ := ih hrelated hrest
      refine ⟨bs ++ bs', t', ?_, hrelated', ?_, ?_⟩
      · rw [runSteps_append, hmatch]
        exact hmatch'
      · rw [List.length_cons, List.length_append]
        omega
      · rw [List.map_append, List.sum_append, hcount, hcount', List.map_cons, List.sum_cons]

end LearningCpp.Library
