import LearningCpp.Philosopher.Table

/-!
Nobody waits while holding a permit, so that there is always a child that goes on, and one
that does not wait comes to eat when the others get out of its way.
-/

namespace LearningCpp.Philosopher

open Library

/-- The steps of a child until it has no permit. -/
def Place.stepsHome : Place → Nat
  | .sleeping | .waiting => 0
  | .holding => 3
  | .eating => 2
  | .leaving => 1

/-- Child `i` goes on, and nobody is woken. -/
def Table.next (t : Table) (i : Nat) : Option Table := t.step (.run i)

/-- No child has a permit. -/
def Table.Cleared (t : Table) : Prop := ∀ p ∈ t.places, p = .sleeping ∨ p = .waiting

variable {t t' : Table} {i k : Nat} {p : Place}

/-- A child with a permit takes a step on its way home, and does not come to wait. -/
theorem Sound.homeward (h : Sound t) (hp : t.places[i]? = some p) (hsleeping : p ≠ .sleeping)
    (hwaiting : p ≠ .waiting) :
    ∃ t' p', t.step (.run i) = some t' ∧ t'.places = t.places.set i p' ∧ p' ≠ .waiting ∧
      p'.stepsHome < p.stepsHome := by
  obtain ⟨left, hleft⟩ := h.exists_left hp
  obtain ⟨right, hright⟩ := h.exists_right hp
  have hrun : t.step (.run i) = t.run i p := by
    simp only [Table.step, hp, Option.bind_some]
  rw [hrun]
  cases p with
  | sleeping => exact absurd rfl hsleeping
  | waiting => exact absurd rfl hwaiting
  | holding =>
      cases right with
      | zero =>
          refine ⟨{t with places := t.places.set i .leaving}, .leaving, ?_, rfl,
            fun h => Place.noConfusion h, by decide⟩
          simp only [Table.run, Table.sem_trywait, hright]
      | succ value =>
          refine ⟨⟨t.s.set (r i) value, t.places.set i .eating⟩, .eating, ?_, rfl,
            fun h => Place.noConfusion h, by decide⟩
          simp only [Table.run, Table.sem_trywait, hright]
  | eating =>
      refine ⟨⟨t.s.set (r i) (right + 1), t.places.set i .leaving⟩, .leaving, ?_, rfl,
        fun h => Place.noConfusion h, by decide⟩
      simp only [Table.run, Table.sem_post, hright, Option.map_some]
  | leaving =>
      refine ⟨⟨t.s.set (l i) (left + 1), t.places.set i .sleeping⟩, .sleeping, ?_, rfl,
        fun h => Place.noConfusion h, by decide⟩
      simp only [Table.run, Table.sem_post, hleft, Option.map_some]

/-- From every state the children get home, and none of them comes to wait on the way. -/
theorem Sound.exists_cleared (h : Sound t) (hp : t.places[i]? = some p) (hwaiting : p ≠ .waiting) :
    ∃ steps t', runSteps Table.next t steps = some t' ∧ Sound t' ∧
      t'.places[i]? = some .sleeping ∧ t'.Cleared ∧ steps.length ≤ 15 := by
  have hnext : ∀ {t : Table}, (Sound t ∧ ∃ p, t.places[i]? = some p ∧ p ≠ .waiting) →
      ¬ t.Cleared → ∃ (j : Nat) (t' : Table), t.next j = some t' ∧
        (Sound t' ∧ ∃ p, t'.places[i]? = some p ∧ p ≠ .waiting) ∧
          weigh Place.stepsHome t'.places < weigh Place.stepsHome t.places := by
    rintro t ⟨hsound, p, hp, hwaiting⟩ hnot
    simp only [Table.Cleared, not_forall, not_or] at hnot
    obtain ⟨q, hmem, hsleeping, hawake⟩ := hnot
    obtain ⟨j, hj⟩ := List.mem_iff_getElem?.mp hmem
    obtain ⟨t', q', hstep, hplaces, hq', hless⟩ := hsound.homeward hj hsleeping hawake
    refine ⟨j, t', hstep, ⟨hsound.step hstep, ?_⟩, ?_⟩
    · rw [hplaces]
      rcases eq_or_ne i j with rfl | hne
      · exact ⟨q', (Mutex.getElem?_set_of_some hj i).mpr (Or.inl ⟨rfl, rfl⟩), hq'⟩
      · exact ⟨p, (Mutex.getElem?_set_of_some hj i).mpr (Or.inr ⟨hne, hp⟩), hwaiting⟩
    · rw [hplaces]
      exact weigh_set_lt hj hless
  obtain ⟨steps, t', hrun, ⟨hsound, q, hq, hawake⟩, hcleared, hlength⟩ :=
    @exists_run_done _ _ Table.next (fun t => Sound t ∧ ∃ p, t.places[i]? = some p ∧ p ≠ .waiting)
      (fun t => weigh Place.stepsHome t.places) Table.Cleared hnext _ ⟨h, p, hp, hwaiting⟩
  refine ⟨steps, t', hrun, hsound, ?_, hcleared, ?_⟩
  · have hsleeping := (hcleared q (List.mem_of_getElem? hq)).resolve_right hawake
    rw [← hsleeping]
    exact hq
  · have hweight : weigh Place.stepsHome t.places ≤ 3 * t.places.length := by
      apply weigh_le
      intro q _
      cases q <;> decide
    rw [h.seats] at hweight
    omega

/-- A child that sleeps while nobody has a permit eats after two steps. -/
theorem Sound.eats (h : Sound t) (hcleared : t.Cleared) (hp : t.places[i]? = some .sleeping) :
    ∃ t', runSteps Table.next t [i, i] = some t' ∧
      t'.places[i]? = some .eating := by
  have hfree : ∀ k j, ¬ t.HoldsFork k j := by
    rintro k j ⟨q, hq, hholds⟩
    rcases hcleared q (List.mem_of_getElem? hq) with rfl | rfl <;> exact hholds
  obtain ⟨left, hleft⟩ := h.exists_left hp
  obtain ⟨right, hright⟩ := h.exists_right hp
  obtain rfl := (h.guards hleft).value_of_free (hfree _)
  obtain rfl := (h.guards hright).value_of_free (hfree _)
  have hright' : (t.s.set (l i) 0)[r i]? = some 1 := by
    rw [List.getElem?_set_ne (l_ne_r i)]
    exact hright
  have hp' : (t.places.set i .holding)[i]? = some .holding :=
    (Mutex.getElem?_set_of_some hp i).mpr (Or.inl ⟨rfl, rfl⟩)
  refine ⟨⟨(t.s.set (l i) 0).set (r i) 0, (t.places.set i .holding).set i .eating⟩, ?_,
    (Mutex.getElem?_set_of_some hp' i).mpr (Or.inl ⟨rfl, rfl⟩)⟩
  refine runSteps_cons_iff.mpr ⟨⟨t.s.set (l i) 0, t.places.set i .holding⟩, ?_,
    runSteps_cons_iff.mpr ⟨_, ?_, rfl⟩⟩
  · simp only [Table.next, Table.step, hp, Option.bind_some, Table.run, Table.sem_wait, hleft]
  · simp only [Table.next, Table.step, hp', Option.bind_some, Table.run, Table.sem_trywait, hright']

/-- Some child does not wait. -/
def Table.Awake (t : Table) : Prop := ∃ (i : Nat) (p : Place), t.places[i]? = some p ∧ p ≠ .waiting

/-- A child comes to wait only for one that has a permit. -/
theorem Sound.awake_of_sem_wait (h : Sound t) (hp : t.places[i]? = some p)
    (hfree : ∀ k, ¬ p.Holds i k) (hstep : t.sem_wait i = some t') : t'.Awake := by
  unfold Table.sem_wait at hstep
  split at hstep
  case h_1 => cases hstep
  case h_2 hvalue =>
    cases hstep
    obtain ⟨j, q, hq, hholds⟩ := (h.guards hvalue).exists_holder
    have hne : j ≠ i := by
      rintro rfl
      rw [hp] at hq
      cases hq
      exact hfree _ hholds
    refine ⟨j, q, (Mutex.getElem?_set_of_some hp j).mpr (Or.inr ⟨hne, hq⟩), ?_⟩
    rintro rfl
    exact hholds
  case h_3 value hvalue =>
    cases hstep
    exact ⟨i, .holding, (Mutex.getElem?_set_of_some hp i).mpr (Or.inl ⟨rfl, rfl⟩), nofun⟩

theorem Sound.awake_step (h : Sound t) {a : Act} (hstep : t.step a = some t') : t'.Awake := by
  cases a with
  | run i =>
      obtain ⟨p, hp, hrun⟩ := Option.bind_eq_some_iff.mp hstep
      rcases eq_or_ne p .sleeping with rfl | hsleeping
      · exact h.awake_of_sem_wait hp (fun _ => id) hrun
      · have hwaiting : p ≠ .waiting := by
          rintro rfl
          cases hrun
        obtain ⟨t₁, p', hstep', hplaces, hp', -⟩ := h.homeward hp hsleeping hwaiting
        cases hstep'.symm.trans hstep
        refine ⟨i, p', ?_, hp'⟩
        rw [hplaces]
        exact (Mutex.getElem?_set_of_some hp i).mpr (Or.inl ⟨rfl, rfl⟩)
  | wake i =>
      simp only [Table.step] at hstep
      split at hstep
      case isFalse => cases hstep
      case isTrue hp => exact h.awake_of_sem_wait hp (fun _ => id) hstep

/-- In every state that is reached some child does not wait, and each child that does not can
come to eat within seventeen steps, also when nobody who waits is ever woken. -/
theorem awake_can_eat {as : List Act} (hrun : runSteps Table.step start as = some t) :
    t.Awake ∧ ∀ (i : Nat) (p : Place), t.places[i]? = some p → p ≠ .waiting →
      ∃ steps t', runSteps Table.next t steps = some t' ∧
        t'.places[i]? = some .eating ∧ steps.length ≤ 17 := by
  constructor
  · have hawake : Sound t ∧ t.Awake := by
      refine invariant_run (I := fun t => Sound t ∧ t.Awake) ?_ ?_ hrun
      · exact fun h hstep => ⟨h.1.step hstep, h.1.awake_step hstep⟩
      · exact ⟨start_sound, 0, .sleeping, rfl, nofun⟩
    exact hawake.2
  · intro i p hp hwaiting
    obtain ⟨steps, t₁, hhome, hsound, hsleeping, hcleared, hlength⟩ :=
      (sound_of_run hrun).exists_cleared hp hwaiting
    obtain ⟨t', heats, heating⟩ := hsound.eats hcleared hsleeping
    refine ⟨steps ++ [i, i], t', ?_, heating, ?_⟩
    · rw [runSteps_append, hhome]
      exact heats
    · rw [List.length_append]
      exact Nat.add_le_add_right hlength 2

/-- The second child waits for the first one, and the third one can come to eat. -/
theorem awake_can_eat_third :
    ∃ t, runSteps Table.step start [.run 0, .run 0, .run 1] = some t ∧ t.Awake ∧
      ∃ steps t', runSteps Table.next t steps = some t' ∧
        t'.places[2]? = some .eating ∧ steps.length ≤ 17 := by
  have hrun : runSteps Table.step start [.run 0, .run 0, .run 1] =
      some ⟨[0, 0, 1, 1, 1], [.eating, .waiting, .sleeping, .sleeping, .sleeping]⟩ := by
    decide
  obtain ⟨hawake, hcan⟩ := awake_can_eat hrun
  exact ⟨_, hrun, hawake, hcan 2 .sleeping rfl nofun⟩

end LearningCpp.Philosopher
