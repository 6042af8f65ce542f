import Mathlib.Tactic

/-!
Machines with labelled steps, of which some may not be possible in a state. What
one step preserves, a whole run preserves; when only the steps that meet a
condition preserve it, the runs that meet the condition at every step do. The same
for the refinement of one machine by another.
-/

namespace LearningCpp.Library

variable {σ α : Type*}

/-- Take the steps one after the other; `none` when one of them is not possible. -/
def runSteps (step : σ → α → Option σ) (s : σ) : List α → Option σ
  | [] => some s
  | a :: as => (step s a).bind (fun s' => runSteps step s' as)

/-- Every step of the run is taken in a state that meets the condition for it. -/
def Along (step : σ → α → Option σ) (ok : σ → α → Prop) : σ → List α → Prop
  | _, [] => True
  | s, a :: as => ok s a ∧ ∀ s', step s a = some s' → Along step ok s' as

variable {step : σ → α → Option σ}

theorem runSteps_cons_iff {s t : σ} {a : α} {as : List α} :
    runSteps step s (a :: as) = some t ↔
      ∃ s', step s a = some s' ∧ runSteps step s' as = some t := by
  rw [runSteps, Option.bind_eq_some_iff]

theorem runSteps_append (s : σ) (as bs : List α) :
    runSteps step s (as ++ bs) = (runSteps step s as).bind fun s' => runSteps step s' bs := by
  induction as generalizing s with
  | nil => rfl
  | cons a as ih =>
      simp only [List.cons_append, runSteps, ih, Option.bind_assoc]

theorem runSteps_snoc_iff {s t : σ} {a : α} {as : List α} :
    runSteps step s (as ++ [a]) = some t ↔
      ∃ s', runSteps step s as = some s' ∧ step s' a = some t := by
  simp only [runSteps_append, Option.bind_eq_some_iff, runSteps, Option.some.injEq,
    exists_eq_right]

/-- An invariant of the steps that meet a condition, along a run that meets it. -/
theorem invariant_along {C : σ → α → Prop} {I : σ → Prop}
    (hstep : ∀ {s s' a}, I s → C s a → step s a = some s' → I s') {s t : σ} {as : List α}
    (hinit : I s) (halong : Along step C s as) (hrun : runSteps step s as = some t) : I t := by
  induction as generalizing s with
  | nil =>
      simp only [runSteps, Option.some.injEq] at hrun
      exact hrun ▸ hinit
  | cons a as ih =>
      obtain ⟨s', hfirst, hrest⟩ := runSteps_cons_iff.mp hrun
      exact ih (hstep hinit halong.1 hfirst) (halong.2 s' hfirst) hrest

theorem along_append_iff {ok : σ → α → Prop} {s : σ} {as bs : List α} :
    Along step ok s (as ++ bs) ↔
      Along step ok s as ∧ ∀ s', runSteps step s as = some s' → Along step ok s' bs := by
  induction as generalizing s with
  | nil => simp [Along, runSteps]
  | cons a as ih =>
      simp only [List.cons_append, Along, ih, runSteps_cons_iff]
      constructor
      · rintro ⟨hok, hrest⟩
        exact ⟨⟨hok, fun s' hs' => (hrest s' hs').1⟩, fun t ⟨s', hs', ht⟩ => (hrest s' hs').2 t ht⟩
      · rintro ⟨⟨hok, hrest⟩, htail⟩
        exact ⟨hok, fun s' hs' => ⟨hrest s' hs', fun t ht => htail t ⟨s', hs', ht⟩⟩⟩

/-- Steps that meet the condition in every state. -/
theorem along_of_forall {ok : σ → α → Prop} {as : List α} (h : ∀ a ∈ as, ∀ s, ok s a) (s : σ) :
    Along step ok s as := by
  induction as generalizing s with
  | nil => trivial
  | cons a as ih =>
      exact ⟨h a List.mem_cons_self s, fun s' _ => ih (fun b hb => h b (List.mem_cons_of_mem a hb)) s'⟩

/-- An invariant of every step, along every run. -/
theorem invariant_run {I : σ → Prop}
    (hstep : ∀ {s s' a}, I s → step s a = some s' → I s') {s t : σ} {as : List α}
    (hinit : I s) (hrun : runSteps step s as = some t) : I t :=
  invariant_along (C := fun _ _ => True) (fun hinv _ => hstep hinv) hinit
    (along_of_forall (fun _ _ _ => trivial) s) hrun

/-- Two conditions that agree on the steps taken, as long as they are met. -/
theorem along_iff_along {C P : σ → α → Prop} {I : σ → Prop}
    (hiff : ∀ {s s' a}, I s → step s a = some s' → (C s a ↔ P s a))
    (hstep : ∀ {s s' a}, I s → C s a → step s a = some s' → I s') {s t : σ} {as : List α}
    (hinit : I s) (hrun : runSteps step s as = some t) :
    Along step C s as ↔ Along step P s as := by
  induction as generalizing s with
  | nil => exact Iff.rfl
  | cons a as ih =>
      obtain ⟨s', hfirst, hrest⟩ := runSteps_cons_iff.mp hrun
      have hhead := hiff hinit hfirst
      constructor
      · rintro ⟨hmet, htail⟩
        refine ⟨hhead.1 hmet, ?_⟩
        intro s'' hs''
        cases hfirst.symm.trans hs''
        exact (ih (hstep hinit hmet hfirst) hrest).1 (htail s' hfirst)
      · rintro ⟨hmet, htail⟩
        refine ⟨hhead.2 hmet, ?_⟩
        intro s'' hs''
        cases hfirst.symm.trans hs''
        exact (ih (hstep hinit (hhead.2 hmet) hfirst) hrest).2 (htail s' hfirst)

/-- Two conditions that agree in every state of a run, as long as they are met. -/
theorem along_congr {C P : σ → α → Prop} {I : σ → Prop} (hiff : ∀ {s a}, I s → (C s a ↔ P s a))
    (hstep : ∀ {s s' a}, I s → C s a → step s a = some s' → I s') {s : σ} {as : List α}
    (hinit : I s) : Along step C s as ↔ Along step P s as := by
  induction as generalizing s with
  | nil => exact Iff.rfl
  | cons a as ih =>
      rw [Along, Along, ← hiff hinit]
      apply and_congr_right
      intro hmet
      apply forall_congr'
      intro s'
      apply imp_congr_right
      intro hfirst
      exact ih (hstep hinit hmet hfirst)

/-- The same for conditions on what is allowed only, when only that is ever done. -/
theorem along_congr_allowed {G C P : σ → α → Prop} {I : σ → Prop}
    (hallowed : ∀ {s s' a}, step s a = some s' → G s a)
    (hiff : ∀ {s a}, I s → G s a → (C s a ↔ P s a))
    (hstep : ∀ {s s' a}, I s → P s a → step s a = some s' → I s') {s : σ} {as : List α}
    (hinit : I s) :
    Along step (fun s a => G s a → C s a) s as ↔ Along step (fun s a => G s a → P s a) s as := by
  apply along_congr (I := I)
  · intro s a hinv
    apply imp_congr_right
    exact fun hallows => hiff hinv hallows
  · intro s s' a hinv hmet hdone
    have hallows := hallowed hdone
    exact hstep hinv ((hiff hinv hallows).1 (hmet hallows)) hdone
  · exact hinit

/-- A condition on the steps that keeps an invariant, and without which the property that
follows from it is lost, is the same in a run as the property after every step. -/
theorem along_iff_after {C : σ → α → Prop} {P I : σ → Prop}
    (hkeeps : ∀ {s s' a}, I s → step s a = some s' → C s a → I s') (hok : ∀ {s}, I s → P s)
    (hbreaks : ∀ {s s' a}, I s → step s a = some s' → P s' → C s a) {s t : σ} {as : List α}
    (hinit : I s) (hrun : runSteps step s as = some t) :
    Along step C s as ↔ Along step (fun s a => ∀ s', step s a = some s' → P s') s as := by
  refine along_iff_along ?_ (fun hinv hmet hstep => hkeeps hinv hstep hmet) hinit hrun
  intro s s' a hinv hstep
  constructor
  · intro hmet s'' hstep'
    exact hok (hkeeps hinv hstep' hmet)
  · intro hafter
    exact hbreaks hinv hstep (hafter s' hstep)

/-- A machine refines another one exactly along the runs of good steps: a good step keeps the
relation `R`, and after another one the states are not even related by `V`. -/
theorem refines_iff {τ : Type*} {step' : τ → α → Option τ} {R V : σ → τ → Prop} {ok : α → Prop}
    (hview : ∀ {s t}, R s t → V s t)
    (hgood : ∀ {s t t' a}, R s t → ok a → step' t a = some t' → ∃ s', step s a = some s' ∧ R s' t')
    (hbad : ∀ {s s' t t' a}, R s t → ¬ok a → step s a = some s' → step' t a = some t' → ¬V s' t')
    {s : σ} {t u : τ} {as : List α} (hinit : R s t) (hrun : runSteps step' t as = some u) :
    (∀ bs, bs <+: as → ∃ s' t', runSteps step s bs = some s' ∧ runSteps step' t bs = some t' ∧
      V s' t') ↔ ∀ a ∈ as, ok a := by
  induction as generalizing s t with
  | nil =>
      refine ⟨fun _ _ hmem => absurd hmem List.not_mem_nil, ?_⟩
      rintro - bs hprefix
      rw [List.prefix_nil.1 hprefix]
      exact ⟨s, t, rfl, rfl, hview hinit⟩
  | cons a as ih =>
      obtain ⟨t', hfirst, hrest⟩ := runSteps_cons_iff.mp hrun
      constructor
      · intro hrefines
        have hok : ok a := by
          by_contra hnot
          obtain ⟨s', t'', hs', ht'', hrelated⟩ := hrefines [a]
            (List.cons_prefix_cons.2 ⟨rfl, List.nil_prefix⟩)
          obtain ⟨s₁, hs₁, hend⟩ := runSteps_cons_iff.mp hs'
          obtain ⟨t₁, ht₁, hend'⟩ := runSteps_cons_iff.mp ht''
          cases hend
          cases hend'
          exact hbad hinit hnot hs₁ ht₁ hrelated
        obtain ⟨s', hs', hkept⟩ := hgood hinit hok hfirst
        rw [List.forall_mem_cons]
        refine ⟨hok, (ih hkept hrest).1 ?_⟩
        intro bs hprefix
        obtain ⟨s'', t'', hs'', ht'', hrelated⟩ := hrefines (a :: bs)
          (List.cons_prefix_cons.2 ⟨rfl, hprefix⟩)
        rw [runSteps, hs', Option.bind_some] at hs''
        rw [runSteps, hfirst, Option.bind_some] at ht''
        exact ⟨s'', t'', hs'', ht'', hrelated⟩
      · intro hok bs hprefix
        rw [List.forall_mem_cons] at hok
        obtain ⟨s', hs', hkept⟩ := hgood hinit hok.1 hfirst
        cases bs with
        | nil => exact ⟨s, t, rfl, rfl, hview hinit⟩
        | cons b bs =>
            obtain ⟨rfl, htail⟩ := List.cons_prefix_cons.1 hprefix
            rw [runSteps, hs', runSteps, hfirst]
            exact (ih hkept hrest).2 hok.2 bs htail

/-- Two folds agree after every element if and only if they take each element the same way
in the state that they have come to. -/
theorem foldl_agree_iff {f g : σ → α → σ} {s : σ} {as : List α} :
    (∀ n, (as.take n).foldl f s = (as.take n).foldl g s) ↔
      ∀ n (hn : n < as.length),
        f ((as.take n).foldl g s) as[n] = g ((as.take n).foldl g s) as[n] := by
  have hnext {h : σ → α → σ} (n : Nat) (hn : n < as.length) :
      (as.take (n + 1)).foldl h s = h ((as.take n).foldl h s) as[n] := by
    rw [List.take_succ_eq_append_getElem hn, List.foldl_append]
    rfl
  constructor
  · intro hagree n hn
    have hsucc := hagree (n + 1)
    rw [hnext n hn, hnext n hn, hagree n] at hsucc
    exact hsucc
  · intro hstep n
    induction n with
    | zero => rfl
    | succ n ih =>
        by_cases hn : n < as.length
        · rw [hnext n hn, hnext n hn, ih, hstep n hn]
        · have htake : as.take (n + 1) = as.take n := by
            rw [List.take_of_length_le (by omega), List.take_of_length_le (by omega)]
          rw [htake, ih]

/-- A machine without choice is done after at most as many steps as a measure says that every
step makes smaller. -/
theorem exists_iterate_done {f : σ → σ} {I : σ → Prop} (done : σ → Prop) (μ : σ → ℕ)
    (hstep : ∀ {s}, I s → I (f s)) (hless : ∀ {s}, I s → ¬ done s → μ (f s) < μ s) {s : σ}
    (hinit : I s) : ∃ n ≤ μ s, done (f^[n] s) := by
  induction hμ : μ s using Nat.strong_induction_on generalizing s with
  | _ k ih =>
      by_cases hdone : done s
      · exact ⟨0, Nat.zero_le k, hdone⟩
      · have hlt := hless hinit hdone
        obtain ⟨n, hn, hend⟩ := ih (μ (f s)) (hμ ▸ hlt) (hstep hinit) rfl
        exact ⟨n + 1, by omega, hend⟩

end LearningCpp.Library
