import LearningCpp.Library.Measure
import LearningCpp.Library.Mutex
import LearningCpp.Library.Semaphore

/-!
The five processes of `philosopher哲学家就餐/philosopher_process.c`. Each waits for the semaphore
at one hand and only tries the one at the other; the last one waits for the first semaphore.
Nothing is said about whom `sem_post` wakes: a process that waits in `sem_wait` looks at the
semaphore again at some time, or never.
-/

namespace LearningCpp.Philosopher

open Library

/-- Where a child is in its loop: at `sem_wait(&s[l])`, in it since the value was zero, at
`sem_trywait(&s[r])`, at `sem_post(&s[r])`, at `sem_post(&s[l])`. -/
inductive Place where
  | sleeping
  | waiting
  | holding
  | eating
  | leaving
  deriving DecidableEq, Repr

/-- The values of the semaphores, and the children. -/
structure Table where
  s : List Nat
  places : List Place
  deriving DecidableEq, Repr

/-- Child `i` goes on, or it looks at the semaphore again that it waits for. -/
inductive Act where
  | run (i : Nat)
  | wake (i : Nat)
  deriving DecidableEq, Repr

def l (i : Nat) : Nat := if i = 4 then 0 else i

def r (i : Nat) : Nat := if i = 4 then 4 else i + 1

/-- After `sem_init` and `fork`. -/
def start : Table where
  s := List.replicate 5 1
  places := List.replicate 5 .sleeping

namespace Table

def sem_wait (t : Table) (i : Nat) : Option Table :=
  match t.s[l i]? with
  | none => none
  | some 0 => some {t with places := t.places.set i .waiting}
  | some (value + 1) => some ⟨t.s.set (l i) value, t.places.set i .holding⟩

def sem_trywait (t : Table) (i : Nat) : Option Table :=
  match t.s[r i]? with
  | none => none
  | some 0 => some {t with places := t.places.set i .leaving}
  | some (value + 1) => some ⟨t.s.set (r i) value, t.places.set i .eating⟩

def sem_post (t : Table) (i k : Nat) (next : Place) : Option Table :=
  (t.s[k]?).map fun value => ⟨t.s.set k (value + 1), t.places.set i next⟩

def run (t : Table) (i : Nat) : Place → Option Table
  | .sleeping => t.sem_wait i
  | .waiting => none
  | .holding => t.sem_trywait i
  | .eating => t.sem_post i (r i) .leaving
  | .leaving => t.sem_post i (l i) .sleeping

def step (t : Table) : Act → Option Table
  | .run i => (t.places[i]?).bind (t.run i)
  | .wake i => if t.places[i]? = some .waiting then t.sem_wait i else none

end Table

/-- The semaphores whose permits child `i` has. -/
def Place.Holds (i k : Nat) : Place → Prop
  | .sleeping | .waiting => False
  | .holding | .leaving => k = l i
  | .eating => k = l i ∨ k = r i

def Table.HoldsFork (t : Table) (k i : Nat) : Prop :=
  ∃ p, t.places[i]? = some p ∧ p.Holds i k

/-- The permits of all semaphores are accounted for. -/
structure Sound (t : Table) : Prop where
  forks : t.s.length = 5
  seats : t.places.length = 5
  guards : ∀ {k value : Nat}, t.s[k]? = some value → Guards (t.HoldsFork k) value

variable {t t' : Table} {i j k value : Nat} {p p' : Place}

theorem l_ne_r (i : Nat) : l i ≠ r i := by
  unfold l r
  split <;> omega

theorem start_sound : Sound start where
  forks := rfl
  seats := rfl
  guards := by
    intro k value hvalue
    refine Or.inl ⟨List.eq_of_mem_replicate (List.mem_of_getElem? hvalue), ?_⟩
    rintro i ⟨p, hp, hholds⟩
    obtain rfl := List.eq_of_mem_replicate (List.mem_of_getElem? hp)
    exact hholds

theorem holdsFork_set (hp : t.places[i]? = some p) (s : List Nat) (k j : Nat) :
    (Table.mk s (t.places.set i p')).HoldsFork k j ↔
      (j = i ∧ p'.Holds i k) ∨ (j ≠ i ∧ t.HoldsFork k j) := by
  constructor
  · rintro ⟨q, hq, hholds⟩
    rcases (Mutex.getElem?_set_of_some hp j).mp hq with ⟨rfl, rfl⟩ | ⟨hne, hold⟩
    · exact Or.inl ⟨rfl, hholds⟩
    · exact Or.inr ⟨hne, q, hold, hholds⟩
  · rintro (⟨rfl, hholds⟩ | ⟨hne, q, hq, hholds⟩)
    · exact ⟨p', (Mutex.getElem?_set_of_some hp j).mpr (Or.inl ⟨rfl, rfl⟩), hholds⟩
    · exact ⟨q, (Mutex.getElem?_set_of_some hp j).mpr (Or.inr ⟨hne, hq⟩), hholds⟩

/-- A child that keeps or lacks a permit as before. -/
theorem holdsFork_set_same (hp : t.places[i]? = some p) (s : List Nat)
    (hsame : p'.Holds i k ↔ p.Holds i k) (j : Nat) :
    (Table.mk s (t.places.set i p')).HoldsFork k j ↔ t.HoldsFork k j := by
  rw [holdsFork_set hp, hsame]
  rcases eq_or_ne j i with rfl | hne
  · simp only [true_and, ne_eq, not_true_eq_false, false_and, or_false]
    constructor
    · exact fun hholds => ⟨p, hp, hholds⟩
    · rintro ⟨q, hq, hholds⟩
      rw [hp] at hq
      cases hq
      exact hholds
  · simp only [hne, false_and, ne_eq, not_false_eq_true, true_and, false_or]

namespace Sound

theorem lt_of_place (h : Sound t) (hp : t.places[i]? = some p) : i < 5 :=
  h.seats ▸ (List.getElem?_eq_some_iff.mp hp).1

theorem exists_value (h : Sound t) (hk : k < 5) : ∃ value, t.s[k]? = some value :=
  ⟨_, List.getElem?_eq_getElem (h.forks ▸ hk)⟩

theorem exists_left (h : Sound t) (hp : t.places[i]? = some p) : ∃ value, t.s[l i]? = some value := by
  apply h.exists_value
  have hi := h.lt_of_place hp
  unfold l
  split <;> omega

theorem exists_right (h : Sound t) (hp : t.places[i]? = some p) :
    ∃ value, t.s[r i]? = some value := by
  apply h.exists_value
  have hi := h.lt_of_place hp
  unfold r
  split <;> omega

/-- A child moves, and the value of one semaphore changes with what it holds. -/
theorem set (h : Sound t) (hp : t.places[i]? = some p) {value' : Nat}
    (hguards : Guards ((Table.mk t.s (t.places.set i p')).HoldsFork k) value')
    (hothers : ∀ k', k' ≠ k → (p'.Holds i k' ↔ p.Holds i k')) :
    Sound ⟨t.s.set k value', t.places.set i p'⟩ where
  forks := List.length_set.trans h.forks
  seats := List.length_set.trans h.seats
  guards := by
    intro k' value₀ hvalue
    rcases eq_or_ne k' k with rfl | hne
    · obtain ⟨hlt, -⟩ := List.getElem?_eq_some_iff.mp hvalue
      rw [List.length_set] at hlt
      rw [List.getElem?_set_self hlt] at hvalue
      cases hvalue
      exact hguards
    · rw [List.getElem?_set_ne hne.symm] at hvalue
      exact (h.guards hvalue).congr (holdsFork_set_same hp _ (hothers k' hne))

/-- A child takes a permit. -/
theorem acquire (h : Sound t) (hp : t.places[i]? = some p) (hvalue : t.s[k]? = some (value + 1))
    (hnew : p'.Holds i k) (hothers : ∀ k', k' ≠ k → (p'.Holds i k' ↔ p.Holds i k')) :
    Sound ⟨t.s.set k value, t.places.set i p'⟩ := by
  refine h.set hp ((h.guards hvalue).acquire (i := i) ?_) hothers
  intro j
  rw [holdsFork_set hp]
  rcases eq_or_ne j i with rfl | hne
  · simp [hnew]
  · simp [hne]

/-- A child gives a permit back. -/
theorem release (h : Sound t) (hp : t.places[i]? = some p) (hvalue : t.s[k]? = some value)
    (hold : p.Holds i k) (hnew : ¬ p'.Holds i k)
    (hothers : ∀ k', k' ≠ k → (p'.Holds i k' ↔ p.Holds i k')) :
    Sound ⟨t.s.set k (value + 1), t.places.set i p'⟩ := by
  refine h.set hp ((h.guards hvalue).release (i := i) ⟨p, hp, hold⟩ ?_) hothers
  intro j
  rw [holdsFork_set hp]
  rcases eq_or_ne j i with rfl | hne
  · simp [hnew]
  · simp [hne]

/-- A child moves with what it holds. -/
theorem move (h : Sound t) (hp : t.places[i]? = some p)
    (hsame : ∀ k, p'.Holds i k ↔ p.Holds i k) :
    Sound {t with places := t.places.set i p'} where
  forks := h.forks
  seats := List.length_set.trans h.seats
  guards := fun hvalue => (h.guards hvalue).congr (holdsFork_set_same hp _ (hsame _))

theorem sem_wait (h : Sound t) (hp : t.places[i]? = some p) (hfree : ∀ k, ¬ p.Holds i k)
    (hstep : t.sem_wait i = some t') : Sound t' := by
  unfold Table.sem_wait at hstep
  split at hstep
  case h_1 => cases hstep
  case h_2 =>
    cases hstep
    exact h.move hp (fun k => iff_of_false id (hfree k))
  case h_3 value hvalue =>
    cases hstep
    exact h.acquire hp hvalue rfl (fun k hne => iff_of_false hne (hfree k))

theorem sem_trywait (h : Sound t) (hp : t.places[i]? = some .holding)
    (hstep : t.sem_trywait i = some t') : Sound t' := by
  unfold Table.sem_trywait at hstep
  split at hstep
  case h_1 => cases hstep
  case h_2 =>
    cases hstep
    exact h.move hp (fun k => Iff.rfl)
  case h_3 value hvalue =>
    cases hstep
    exact h.acquire hp hvalue (Or.inr rfl) (fun k hne => or_iff_left hne)

theorem sem_post (h : Sound t) (hp : t.places[i]? = some p) (hold : p.Holds i k)
    (hnew : ¬ p'.Holds i k) (hothers : ∀ k', k' ≠ k → (p'.Holds i k' ↔ p.Holds i k'))
    (hstep : t.sem_post i k p' = some t') : Sound t' := by
  obtain ⟨value, hvalue, rfl⟩ := Option.map_eq_some_iff.mp hstep
  exact h.release hp hvalue hold hnew hothers

protected theorem step (h : Sound t) {a : Act} (hstep : t.step a = some t') : Sound t' := by
  cases a with
  | run i =>
      obtain ⟨p, hp, hrun⟩ := Option.bind_eq_some_iff.mp hstep
      cases p with
      | sleeping => exact h.sem_wait hp (fun _ => id) hrun
      | waiting => cases hrun
      | holding => exact h.sem_trywait hp hrun
      | eating =>
          have hnew : ¬ Place.leaving.Holds i (r i) := (l_ne_r i).symm
          exact h.sem_post hp (Or.inr rfl) hnew (fun k hne => (or_iff_left hne).symm) hrun
      | leaving => exact h.sem_post hp rfl id (fun k hne => iff_of_false id hne) hrun
  | wake i =>
      simp only [Table.step] at hstep
      split at hstep
      case isFalse => cases hstep
      case isTrue hp => exact h.sem_wait hp (fun _ => id) hstep

end Sound

theorem sound_of_run {as : List Act} (hrun : runSteps Table.step start as = some t) : Sound t :=
  invariant_run (fun h hstep => Sound.step h hstep) start_sound hrun

/-- Two children that both have a permit of one semaphore are one. -/
theorem Sound.eq_of_holds (h : Sound t) (hp : t.places[i]? = some p) (hp' : t.places[j]? = some p')
    (hk : k < 5) (hi : p.Holds i k) (hj : p'.Holds j k) : i = j := by
  obtain ⟨value, hvalue⟩ := h.exists_value hk
  exact (h.guards hvalue).exclusive ⟨p, hp, hi⟩ ⟨p', hp', hj⟩

/-- The semaphore between two neighbours. -/
theorem shared_of_neighbours (hi : i < 5) :
    Place.eating.Holds i ((i + 1) % 5) ∧ Place.eating.Holds ((i + 1) % 5) ((i + 1) % 5) := by
  interval_cases i <;> simp [Place.Holds, l, r]

/-- Of five that sit in a ring at most two are chosen when no neighbours are. -/
theorem chosen_le_two : ∀ a b c d e : Bool, ¬ (a && b) → ¬ (b && c) → ¬ (c && d) → ¬ (d && e) →
    ¬ (e && a) → [a, b, c, d, e].count true ≤ 2 := by
  decide

private theorem eating_le_two (hseats : t.places.length = 5)
    (hneighbours : ∀ i,
      ¬ (t.places[i]? = some .eating ∧ t.places[(i + 1) % 5]? = some .eating)) :
    t.places.count .eating ≤ 2 := by
  obtain ⟨a, b, c, d, e, hplaces⟩ : ∃ a b c d e, t.places = [a, b, c, d, e] := by
    rcases hlist : t.places with _ | ⟨a, _ | ⟨b, _ | ⟨c, _ | ⟨d, _ | ⟨e, _ | ⟨f, rest⟩⟩⟩⟩⟩⟩
    all_goals simp [hlist] at hseats
    exact ⟨a, b, c, d, e, rfl⟩
  have hpair : ∀ p q : Place, ¬ (some p = some .eating ∧ some q = some .eating) →
      ¬ ((p == .eating) && (q == .eating)) := by
    intro p q hnot hboth
    simp only [Bool.and_eq_true, beq_iff_eq] at hboth
    exact hnot ⟨congrArg some hboth.1, congrArg some hboth.2⟩
  rw [hplaces] at hneighbours ⊢
  have hchosen := chosen_le_two (a == .eating) (b == .eating) (c == .eating) (d == .eating)
    (e == .eating) (hpair _ _ (hneighbours 0)) (hpair _ _ (hneighbours 1))
    (hpair _ _ (hneighbours 2)) (hpair _ _ (hneighbours 3)) (hpair _ _ (hneighbours 4))
  simpa only [List.count_cons, List.count_nil, beq_true] using hchosen

/-- In every run neighbours never eat at the same time, so that at most two children eat. -/
theorem neighbours_never_eat_together {as : List Act}
    (hrun : runSteps Table.step start as = some t) :
    (∀ i, ¬ (t.places[i]? = some .eating ∧ t.places[(i + 1) % 5]? = some .eating)) ∧
      t.places.count .eating ≤ 2 := by
  have hsound := sound_of_run hrun
  have hneighbours : ∀ i,
      ¬ (t.places[i]? = some .eating ∧ t.places[(i + 1) % 5]? = some .eating) := by
    rintro i ⟨hi, hj⟩
    have hlt := hsound.lt_of_place hi
    obtain ⟨hleft, hright⟩ := shared_of_neighbours hlt
    have hsame := hsound.eq_of_holds hi hj (Nat.mod_lt _ (Nat.succ_pos 4)) hleft hright
    omega
  exact ⟨hneighbours, eating_le_two hsound.seats hneighbours⟩

/-- The first and the third child eat, while the second one waits. -/
theorem neighbours_never_eat_together_two :
    ∃ t, runSteps Table.step start [.run 0, .run 0, .run 2, .run 2, .run 1] = some t ∧
      t.places.take 3 = [.eating, .waiting, .eating] ∧
        (∀ i, ¬ (t.places[i]? = some .eating ∧ t.places[(i + 1) % 5]? = some .eating)) ∧
          t.places.count .eating ≤ 2 := by
  have hrun : runSteps Table.step start [.run 0, .run 0, .run 2, .run 2, .run 1] =
      some ⟨[0, 0, 0, 0, 1], [.eating, .waiting, .eating, .sleeping, .sleeping]⟩ := by
    decide
  exact ⟨_, hrun, rfl, neighbours_never_eat_together hrun⟩

end LearningCpp.Philosopher
