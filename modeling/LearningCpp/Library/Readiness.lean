import LearningCpp.Library.Machine

/-!
Readiness notification. One end of a stream is watched, level- or edge-triggered, by a program
that is told when there is something to read and then reads once, or until it finds nothing.
Whoever is told of edges only and reads once falls behind what arrives.
-/

namespace LearningCpp.Library

/-- How a stream is watched and read: whether only edges are told, whether the program reads
until nothing is left, whether a read waits, how much one read takes, and how much fits. -/
structure Discipline where
  edge : Bool
  drains : Bool
  blocking : Bool
  chunk : Nat
  capacity : Nat
  deriving DecidableEq, Repr

inductive Phase where
  | waiting
  | reading
  deriving DecidableEq, Repr

/-- The stream and its reader. It is `ready` when the next wait looks at it. Kept for the
specification: what arrived, in how many pieces, and what was taken. -/
structure Watched (α : Type*) where
  unread : List α
  closed : Bool
  ready : Bool
  phase : Phase
  arrived : List α
  arrivals : Nat
  taken : List α
  deriving DecidableEq, Repr

/-- A piece arrives; the other end is closed; the wait tells of the stream; a read takes `k`
elements, or finds nothing. -/
inductive Signal (α : Type*) where
  | arrive (xs : List α)
  | close
  | wait
  | read (k : Nat)
  deriving DecidableEq, Repr

namespace Watched

variable {α : Type*} (d : Discipline)

def start : Watched α := ⟨[], false, false, .waiting, [], 0, []⟩

/-- A read would not wait. -/
def Readable (w : Watched α) : Prop := w.unread ≠ [] ∨ w.closed = true

instance (w : Watched α) : Decidable w.Readable := by
  unfold Readable
  infer_instance

def step (w : Watched α) : Signal α → Option (Watched α)
  | .arrive xs =>
      if xs ≠ [] ∧ w.closed = false ∧ w.unread.length + xs.length ≤ d.capacity then
        some {w with
          unread := w.unread ++ xs
          ready := true
          arrived := w.arrived ++ xs
          arrivals := w.arrivals + 1 }
      else none
  | .close => if w.closed = false then some {w with closed := true, ready := true} else none
  | .wait =>
      if w.phase = .waiting ∧ w.ready = true ∧ w.Readable then
        some {w with phase := .reading, ready := !d.edge}
      else none
  | .read k =>
      if w.phase = .reading then
        if w.unread = [] then
          if k = 0 ∧ (w.closed = true ∨ d.blocking = false) then some {w with phase := .waiting}
          else none
        else if 0 < k ∧ k ≤ d.chunk ∧ k ≤ w.unread.length then
          some {w with
            unread := w.unread.drop k
            taken := w.taken ++ w.unread.take k
            phase := if d.drains then .reading else .waiting }
        else none
      else none

variable {d} {w w' : Watched α} {a : Signal α}

/-- The program waits, or waits in a read, and nothing that has arrived wakes it. -/
def Asleep (d : Discipline) (w : Watched α) : Prop :=
  w.step d .wait = none ∧ ∀ k, w.step d (.read k) = none

/-- Nothing that arrives is lost or doubled, and what is unread while nobody is told of it is
on the ready list or under the program's eyes. -/
structure Sound (d : Discipline) (w : Watched α) : Prop where
  stream : w.taken ++ w.unread = w.arrived
  fits : w.unread.length ≤ d.capacity
  level : d.edge = false → w.Readable → w.ready = true
  drained : d.drains = true → w.unread ≠ [] → w.ready = true ∨ w.phase = .reading
  told : d.drains = false → w.phase = .reading → w.Readable
  charged : d.edge = true → d.drains = false →
    w.taken.length + d.chunk * (w.ready.toNat + if w.phase = .reading then 1 else 0) ≤
      d.chunk * (w.arrivals + w.closed.toNat)

theorem start_sound (d : Discipline) : Sound d (start : Watched α) where
  stream := rfl
  fits := Nat.zero_le _
  level _ h := by
    rcases h with h | h
    · exact absurd rfl h
    · cases h
  drained _ h := absurd rfl h
  told _ h := by cases h
  charged _ _ := by
    show 0 + d.chunk * (0 + 0) ≤ _
    omega

theorem Sound.arrive {xs : List α} (h : Sound d w)
    (hfits : w.unread.length + xs.length ≤ d.capacity) :
    Sound d {w with
      unread := w.unread ++ xs
      ready := true
      arrived := w.arrived ++ xs
      arrivals := w.arrivals + 1 } where
  stream := by rw [← List.append_assoc, h.stream]
  fits := by
    rw [List.length_append]
    exact hfits
  level _ _ := rfl
  drained _ _ := Or.inl rfl
  told hdrains hphase := by
    refine (h.told hdrains hphase).imp ?_ id
    intro hsome
    simp [hsome]
  charged hedge hdrains := by
    have hold := h.charged hedge hdrains
    simp only [Bool.toNat_true, Nat.mul_add] at hold ⊢
    have hready : d.chunk * w.ready.toNat ≤ d.chunk * 1 := Nat.mul_le_mul_left _ w.ready.toNat_le
    omega

theorem Sound.step (h : Sound d w) (hstep : w.step d a = some w') : Sound d w' := by
  cases a with
  | arrive xs =>
      simp only [Watched.step] at hstep
      split at hstep
      case isFalse hnot => cases hstep
      case isTrue hguard =>
        cases hstep
        exact h.arrive hguard.2.2
  | close =>
      simp only [Watched.step] at hstep
      split at hstep
      case isFalse hnot => cases hstep
      case isTrue hopen =>
        cases hstep
        refine ⟨h.stream, h.fits, fun _ _ => rfl, fun _ _ => Or.inl rfl, fun _ _ => Or.inr rfl, ?_⟩
        intro hedge hdrains
        have hold := h.charged hedge hdrains
        simp only [hopen, Bool.toNat_true, Bool.toNat_false, Nat.mul_add] at hold ⊢
        have hready : d.chunk * w.ready.toNat ≤ d.chunk * 1 :=
          Nat.mul_le_mul_left _ w.ready.toNat_le
        omega
  | wait =>
      simp only [Watched.step] at hstep
      split at hstep
      case isFalse hnot => cases hstep
      case isTrue hguard =>
        obtain ⟨hphase, hready, hreadable⟩ := hguard
        cases hstep
        refine ⟨h.stream, h.fits, ?_, fun _ _ => Or.inr rfl, fun _ _ => hreadable, ?_⟩
        · intro hlevel _
          simp only [hlevel, Bool.not_false]
        · intro hedge hdrains
          have hold := h.charged hedge hdrains
          simpa [hphase, hready, hedge] using hold
  | read k =>
      simp only [Watched.step] at hstep
      split at hstep
      case isFalse hnot => cases hstep
      case isTrue hphase =>
        split at hstep
        case isTrue hempty =>
          split at hstep
          case isFalse hnot => cases hstep
          case isTrue hguard =>
            cases hstep
            refine ⟨h.stream, h.fits, h.level, fun _ hsome => absurd hempty hsome, ?_, ?_⟩
            · intro _ heq
              cases heq
            · intro hedge hdrains
              have hold := h.charged hedge hdrains
              simp only [hphase, if_true, Nat.mul_add] at hold
              simp only [reduceCtorEq, if_false, Nat.mul_add]
              omega
        case isFalse hsome =>
          split at hstep
          case isFalse hnot => cases hstep
          case isTrue hguard =>
            cases hstep
            refine ⟨?_, ?_, ?_, ?_, ?_, ?_⟩
            · rw [List.append_assoc, List.take_append_drop, h.stream]
            · rw [List.length_drop]
              exact Nat.le_trans (Nat.sub_le _ _) h.fits
            · exact fun hlevel _ => h.level hlevel (Or.inl hsome)
            · intro hdrains _
              simp [hdrains]
            · intro hdrains heq
              simp [hdrains] at heq
            · intro hedge hdrains
              have hold := h.charged hedge hdrains
              simp only [hphase, if_true, Nat.mul_add] at hold
              simp only [hdrains, Bool.false_eq_true, reduceCtorEq, if_false, Nat.mul_add,
                List.length_append, List.length_take]
              omega

/-- A read returns when there is something to read, or when it does not wait. -/
theorem exists_read (hchunk : 0 < d.chunk) (hphase : w.phase = .reading)
    (h : w.Readable ∨ d.blocking = false) : ∃ k w', w.step d (.read k) = some w' := by
  rcases Decidable.em (w.unread = []) with hempty | hsome
  · have hguard : 0 = 0 ∧ (w.closed = true ∨ d.blocking = false) := by
      refine ⟨rfl, h.imp ?_ id⟩
      exact fun hreadable => hreadable.resolve_left (not_not_intro hempty)
    refine ⟨0, {w with phase := .waiting}, ?_⟩
    rw [Watched.step, if_pos hphase, if_pos hempty, if_pos hguard]
  · have hguard : 0 < 1 ∧ 1 ≤ d.chunk ∧ 1 ≤ w.unread.length :=
      ⟨Nat.one_pos, hchunk, List.length_pos_iff.mpr hsome⟩
    refine ⟨1, {w with
      unread := w.unread.drop 1
      taken := w.taken ++ w.unread.take 1
      phase := if d.drains then .reading else .waiting }, ?_⟩
    rw [Watched.step, if_pos hphase, if_neg hsome, if_pos hguard]

theorem asleep_iff (hchunk : 0 < d.chunk) :
    w.Asleep d ↔ (w.phase = .waiting ∧ ¬ (w.ready = true ∧ w.Readable)) ∨
      (w.phase = .reading ∧ ¬ w.Readable ∧ d.blocking = true) := by
  cases hphase : w.phase with
  | waiting =>
      simp only [Asleep, Watched.step, hphase, true_and, reduceCtorEq, if_false, false_and, or_false,
        implies_true, and_true, ite_eq_right_iff, imp_false]
  | reading =>
      have hwait : w.step d .wait = none := by
        simp only [Watched.step, hphase, reduceCtorEq, false_and, if_false]
      simp only [Asleep, hwait, true_and, reduceCtorEq, false_and, false_or]
      constructor
      · intro hnone
        by_contra hnot
        rw [not_and_or, not_not, Bool.not_eq_true] at hnot
        obtain ⟨k, w', hstep⟩ := exists_read hchunk hphase hnot
        rw [hnone k] at hstep
        cases hstep
      · rintro ⟨hnot, hblocking⟩ k
        obtain ⟨hempty, hopen⟩ := not_or.mp hnot
        rw [not_not] at hempty
        simp [Watched.step, hphase, hempty, hopen, hblocking]

/-- Who is told of levels, or reads until nothing is left, sleeps only when all is read. -/
theorem Sound.read_of_asleep (h : Sound d w) (hchunk : 0 < d.chunk)
    (hd : d.edge = false ∨ d.drains = true) (hasleep : w.Asleep d) : w.taken = w.arrived := by
  have hempty : w.unread = [] := by
    by_contra hsome
    rcases (asleep_iff hchunk).mp hasleep with ⟨hphase, hnot⟩ | ⟨-, hnot, -⟩
    · have hready : w.ready = true := by
        rcases hd with hlevel | hdrains
        · exact h.level hlevel (Or.inl hsome)
        · refine (h.drained hdrains hsome).resolve_right ?_
          rw [hphase]
          exact Phase.noConfusion
      exact hnot ⟨hready, Or.inl hsome⟩
    · exact hnot (Or.inl hsome)
  rw [← h.stream, hempty, List.append_nil]

/-- Who is told of edges and reads once takes at most one read's worth for each piece. -/
theorem Sound.length_taken_le (h : Sound d w) (hedge : d.edge = true) (hdrains : d.drains = false) :
    w.taken.length ≤ d.chunk * (w.arrivals + w.closed.toNat) :=
  Nat.le_trans (Nat.le_add_right _ _) (h.charged hedge hdrains)

/-- Who reads once after being told never waits in a read. -/
theorem Sound.read_never_waits (h : Sound d w) (hchunk : 0 < d.chunk) (hdrains : d.drains = false)
    (hphase : w.phase = .reading) : ∃ k w', w.step d (.read k) = some w' :=
  exists_read hchunk hphase (Or.inl (h.told hdrains hphase))

/-- The steps of the program alone. -/
def served (d : Discipline) (w : Watched α) : Signal α → Option (Watched α)
  | .arrive _ => none
  | .close => none
  | .wait => w.step d .wait
  | .read k => w.step d (.read k)

/-- What the program has been told, or will be. -/
def pulse (w : Watched α) : Nat := 2 * w.ready.toNat + if w.phase = .reading then 1 else 0

/-- What the program can still do when nothing arrives. -/
def effort (d : Discipline) (w : Watched α) : Nat :=
  3 * w.unread.length +
    if d.edge then w.pulse
    else if w.phase = .reading then 1 else if w.unread = [] then 0 else 2

theorem served_step (h : w.served d a = some w') :
    w.step d a = some w' ∧ w'.closed = w.closed ∧ w'.arrived = w.arrived ∧
      w'.arrivals = w.arrivals := by
  cases a with
  | arrive xs => cases h
  | close => cases h
  | wait =>
      refine ⟨h, ?_⟩
      simp only [served, Watched.step] at h
      split at h
      case isFalse hnot => cases h
      case isTrue hguard =>
        cases h
        exact ⟨rfl, rfl, rfl⟩
  | read k =>
      refine ⟨h, ?_⟩
      simp only [served, Watched.step] at h
      split at h
      case isFalse hnot => cases h
      case isTrue hphase =>
        split at h
        · split at h
          · cases h
            exact ⟨rfl, rfl, rfl⟩
          · cases h
        · split at h
          · cases h
            exact ⟨rfl, rfl, rfl⟩
          · cases h

/-- Who is told of edges and reads once does something for each time that it is told. -/
theorem pulse_served (hedge : d.edge = true) (hdrains : d.drains = false)
    (h : w.served d a = some w') : w'.pulse < w.pulse := by
  cases a with
  | arrive xs => cases h
  | close => cases h
  | wait =>
      simp only [served, Watched.step] at h
      split at h
      case isFalse hnot => cases h
      case isTrue hguard =>
        cases h
        simp [pulse, hedge, hguard.1, hguard.2.1]
  | read k =>
      simp only [served, Watched.step] at h
      split at h
      case isFalse hnot => cases h
      case isTrue hphase =>
        split at h
        · split at h
          · cases h
            simp [pulse, hphase]
          · cases h
        · split at h
          · cases h
            simp [pulse, hphase, hdrains]
          · cases h

theorem effort_served (hd : d.edge = true ∨ w.closed = false) (h : w.served d a = some w') :
    w'.effort d < w.effort d := by
  cases a with
  | arrive xs => cases h
  | close => cases h
  | wait =>
      simp only [served, Watched.step] at h
      split at h
      case isFalse hnot => cases h
      case isTrue hguard =>
        obtain ⟨hphase, hready, hreadable⟩ := hguard
        cases h
        cases hedge : d.edge with
        | true => simp [effort, pulse, hedge, hphase, hready]
        | false =>
            have hopen : w.closed = false := by simpa [hedge] using hd
            have hsome : w.unread ≠ [] := by simpa [Readable, hopen] using hreadable
            simp [effort, hedge, hphase, hsome]
  | read k =>
      simp only [served, Watched.step] at h
      split at h
      case isFalse hnot => cases h
      case isTrue hphase =>
        split at h
        case isTrue hempty =>
          split at h
          case isFalse hnot => cases h
          case isTrue hguard =>
            cases h
            simp only [effort, pulse, hphase, hempty, reduceCtorEq, if_true, if_false]
            split <;> omega
        case isFalse hsome =>
          split at h
          case isFalse hnot => cases h
          case isTrue hguard =>
            cases h
            obtain ⟨hpos, -, hle⟩ := hguard
            cases hedge : d.edge with
            | true =>
                cases hdrains : d.drains with
                | true =>
                    simp only [effort, pulse, hedge, hphase, if_true, List.length_drop]
                    omega
                | false =>
                    simp only [effort, pulse, hedge, hphase, Bool.false_eq_true, reduceCtorEq,
                      if_true, if_false, List.length_drop]
                    omega
            | false =>
                have hlast : (if w.unread.drop k = [] then 0 else 2) ≤ 2 := by
                  split <;> omega
                simp only [effort, hedge, hphase, Bool.false_eq_true, if_true, if_false,
                  List.length_drop]
                cases hdrains : d.drains with
                | true =>
                    simp only [if_true]
                    omega
                | false =>
                    simp only [Bool.false_eq_true, reduceCtorEq, if_false]
                    omega

/-- A piece that arrives gives the program no more to do than its length says. -/
theorem effort_arrive (d : Discipline) (w : Watched α) (xs : List α) :
    effort d {w with
      unread := w.unread ++ xs
      ready := true
      arrived := w.arrived ++ xs
      arrivals := w.arrivals + 1 } ≤ w.effort d + 3 * xs.length + 2 := by
  cases hedge : d.edge with
  | true =>
      simp only [effort, pulse, hedge, if_true, Bool.toNat_true, List.length_append]
      omega
  | false =>
      have hlast : (if w.unread ++ xs = [] then 0 else 2) ≤ 2 := by
        split <;> omega
      cases hphase : w.phase with
      | reading =>
          simp only [effort, hedge, hphase, Bool.false_eq_true, if_true, if_false,
            List.length_append]
          omega
      | waiting =>
          simp only [effort, hedge, hphase, Bool.false_eq_true, reduceCtorEq, if_false,
            List.length_append]
          omega

end Watched

end LearningCpp.Library
