import LearningCpp.Library.Machine
import Mathlib.Algebra.BigOperators.Group.List.Basic

/-!
Workers that copy ranges of one list into another, element by element and in
any interleaving. What a worker has copied stays copied, so when the ranges lie
inside the source and cover it, the copy is complete when no worker can go on.
-/

namespace LearningCpp.Library

variable {α : Type*}

structure Range where
  off : Nat
  size : Nat
  deriving DecidableEq, Repr

def Range.Covers (r : Range) (k : Nat) : Prop := r.off ≤ k ∧ k < r.off + r.size

instance (r : Range) (k : Nat) : Decidable (r.Covers k) :=
  inferInstanceAs (Decidable (r.off ≤ k ∧ k < r.off + r.size))

/-- The destination, and how many elements each worker has copied. -/
structure Copying (α : Type*) where
  dst : List α
  progress : List Nat
  deriving DecidableEq, Repr

/-- Before the first step. -/
def Copying.start (dst : List α) (ranges : List Range) : Copying α :=
  {dst := dst, progress := ranges.map (fun _ => 0)}

/-- Worker `w` copies its next element. -/
def copyStep (src : List α) (ranges : List Range) (s : Copying α) (w : Nat) : Option (Copying α) :=
  match ranges[w]?, s.progress[w]? with
  | some r, some done =>
      match src[r.off + done]? with
      | some b =>
          if done < r.size ∧ r.off + done < s.dst.length then
            some {dst := s.dst.set (r.off + done) b, progress := s.progress.set w (done + 1)}
          else none
      | none => none
  | _, _ => none

theorem copyStep_cases {src : List α} {ranges : List Range} {s s' : Copying α} {w : Nat}
    (h : copyStep src ranges s w = some s') :
    ∃ r done b, ranges[w]? = some r ∧ s.progress[w]? = some done ∧ done < r.size ∧
      src[r.off + done]? = some b ∧ r.off + done < s.dst.length ∧
      s' = {dst := s.dst.set (r.off + done) b, progress := s.progress.set w (done + 1)} := by
  simp only [copyStep] at h
  split at h
  · next r done hr hdone =>
    split at h
    · next b hb =>
      split at h
      · next hbounds => exact ⟨r, done, b, hr, hdone, hbounds.1, hb, hbounds.2, by simpa using h.symm⟩
      · cases h
    · cases h
  · cases h

/-- What holds of a copy in progress. -/
structure Copied (src dst₀ : List α) (ranges : List Range) (s : Copying α) : Prop where
  length_dst : s.dst.length = dst₀.length
  length_progress : s.progress.length = ranges.length
  bound : ∀ {w : Nat} {r : Range} {done : Nat}, ranges[w]? = some r → s.progress[w]? = some done → done ≤ r.size
  copied : ∀ {w : Nat} {r : Range} {done : Nat}, ranges[w]? = some r → s.progress[w]? = some done →
    ∀ j < done, s.dst[r.off + j]? = src[r.off + j]?

theorem start_copied (src dst : List α) (ranges : List Range) :
    Copied src dst ranges (.start dst ranges) where
  length_dst := rfl
  length_progress := List.length_map _
  bound := by
    intro w r done _ hdone
    simp only [Copying.start, List.getElem?_map, Option.map_eq_some_iff] at hdone
    obtain ⟨_, _, rfl⟩ := hdone
    exact Nat.zero_le _
  copied := by
    intro w r done _ hdone j hj
    simp only [Copying.start, List.getElem?_map, Option.map_eq_some_iff] at hdone
    obtain ⟨_, _, rfl⟩ := hdone
    exact absurd hj (Nat.not_lt_zero j)

theorem Copied.step {src dst₀ : List α} {ranges : List Range} {s s' : Copying α} {w : Nat}
    (h : Copied src dst₀ ranges s) (hstep : copyStep src ranges s w = some s') :
    Copied src dst₀ ranges s' := by
  obtain ⟨r, done, b, hr, hdone, hsize, hb, hlt, rfl⟩ := copyStep_cases hstep
  -- an element that agrees with the source still does when one is copied
  have hkeep {k : Nat} (hk : s.dst[k]? = src[k]?) : (s.dst.set (r.off + done) b)[k]? = src[k]? := by
    rw [List.getElem?_set]
    split
    · next heq => rw [← heq, hb]
    · exact hk
  refine ⟨by rw [List.length_set]; exact h.length_dst, by rw [List.length_set]; exact h.length_progress,
    ?_, ?_⟩
  · intro w' r' done' hr' hdone'
    rw [List.getElem?_set] at hdone'
    split at hdone'
    · next heq =>
      subst heq
      obtain rfl := Option.some.inj (hr.symm.trans hr')
      split at hdone'
      · cases hdone'
        exact hsize
      · cases hdone'
    · exact h.bound hr' hdone'
  · intro w' r' done' hr' hdone' j hj
    rw [List.getElem?_set] at hdone'
    split at hdone'
    · next heq =>
      subst heq
      obtain rfl := Option.some.inj (hr.symm.trans hr')
      split at hdone'
      · cases hdone'
        rcases Nat.lt_succ_iff_lt_or_eq.mp hj with hj | rfl
        · exact hkeep (h.copied hr hdone j hj)
        · rw [List.getElem?_set_self hlt, hb]
      · cases hdone'
    · exact hkeep (h.copied hr' hdone' j hj)

theorem Copied.run {src dst : List α} {ranges : List Range} {s : Copying α} {schedule : List Nat}
    (hrun : runSteps (copyStep src ranges) (.start dst ranges) schedule = some s) :
    Copied src dst ranges s :=
  invariant_run (fun h hstep => h.step hstep) (start_copied src dst ranges) hrun

/-- When the ranges lie inside the source, a worker that cannot go on is done. -/
theorem Copied.done_of_stuck {src dst₀ : List α} {ranges : List Range} {s : Copying α}
    (h : Copied src dst₀ ranges s) (hlength : dst₀.length = src.length)
    (hinside : ∀ r ∈ ranges, r.off + r.size ≤ src.length)
    (hstuck : ∀ w, copyStep src ranges s w = none) :
    s.progress = ranges.map Range.size := by
  apply List.ext_getElem?
  intro w
  rw [List.getElem?_map]
  cases hr : ranges[w]? with
  | none =>
      rw [List.getElem?_eq_none_iff] at hr
      rw [Option.map_none, List.getElem?_eq_none_iff, h.length_progress]
      exact hr
  | some r =>
      obtain ⟨hw, -⟩ := List.getElem?_eq_some_iff.mp hr
      obtain ⟨done, hdone⟩ : ∃ done, s.progress[w]? = some done :=
        ⟨_, List.getElem?_eq_getElem (by rw [h.length_progress]; exact hw)⟩
      have hr' := hinside r (List.mem_of_getElem? hr)
      have hbound := h.bound hr hdone
      have hnot := hstuck w
      rcases Nat.lt_or_ge done r.size with hlt | hge
      · have hsrc : r.off + done < src.length := by omega
        simp only [copyStep, hr, hdone, List.getElem?_eq_getElem hsrc] at hnot
        rw [if_pos ⟨hlt, by rw [h.length_dst, hlength]; exact hsrc⟩] at hnot
        cases hnot
      · rw [hdone, Option.map_some, Nat.le_antisymm hbound hge]

/-- A covered element that the workers have all got past agrees with the source. -/
theorem Copied.eq_of_done {src dst₀ : List α} {ranges : List Range} {s : Copying α}
    (h : Copied src dst₀ ranges s) (hlength : dst₀.length = src.length)
    (hcover : ∀ k < src.length, ∃ r ∈ ranges, r.Covers k)
    (hdone : s.progress = ranges.map Range.size) : s.dst = src := by
  apply List.ext_getElem?
  intro k
  rcases Nat.lt_or_ge k src.length with hk | hk
  · obtain ⟨r, hr, hlow, hhigh⟩ := hcover k hk
    obtain ⟨w, hw⟩ := List.mem_iff_getElem?.mp hr
    have hprogress : s.progress[w]? = some r.size := by rw [hdone, List.getElem?_map, hw]; rfl
    have hcopied := h.copied hw hprogress (k - r.off) (by omega)
    rwa [Nat.add_sub_cancel' hlow] at hcopied
  · rw [List.getElem?_eq_none hk, List.getElem?_eq_none (by rw [h.length_dst, hlength]; exact hk)]

/-- However the steps interleave, the copy is the source once no worker can go on. -/
theorem copy_complete {src dst : List α} {ranges : List Range} {s : Copying α} {schedule : List Nat}
    (hlength : dst.length = src.length) (hinside : ∀ r ∈ ranges, r.off + r.size ≤ src.length)
    (hcover : ∀ k < src.length, ∃ r ∈ ranges, r.Covers k)
    (hrun : runSteps (copyStep src ranges) (.start dst ranges) schedule = some s)
    (hstuck : ∀ w, copyStep src ranges s w = none) :
    s.dst = src ∧ s.progress = ranges.map Range.size := by
  have hcopied := Copied.run hrun
  have hdone := hcopied.done_of_stuck hlength hinside hstuck
  exact ⟨hcopied.eq_of_done hlength hcover hdone, hdone⟩

/-- Ranges of the given sizes, one behind the other. -/
def tiled (off : Nat) : List Nat → List Range
  | [] => []
  | size :: sizes => {off := off, size := size} :: tiled (off + size) sizes

end LearningCpp.Library
