import LearningCpp.Library.Occurrences

/-!
A text that arrives in pieces. What has arrived and was not taken is kept in a buffer,
to which pieces are added until it holds a given word.
-/

namespace LearningCpp.Library

variable {α : Type*}

/-- The buffer, and the pieces that are still to come. -/
structure Pieces (α : Type*) where
  buffer : List α
  arriving : List (List α)
  deriving DecidableEq, Repr

namespace Pieces

/-- What is left of the text. -/
def text (p : Pieces α) : List α := p.buffer ++ p.arriving.flatten

/-- A word begins first where its first letter does. -/
theorem first_of_notMem {front back : List α} {x : α} (hx : x ∉ front) {w : List α}
    (before after : List α)
    (h : front ++ x :: w ++ back = before ++ x :: w ++ after) : front.length ≤ before.length := by
  by_contra hlt
  rw [not_le] at hlt
  rw [List.append_assoc, List.append_assoc] at h
  have hget := congrArg (fun text => text[before.length]?) h
  simp only [List.getElem?_append_left hlt, List.getElem?_append_right le_rfl, Nat.sub_self,
    List.cons_append, List.getElem?_cons_zero] at hget
  exact hx (List.mem_of_getElem? hget)

/-- A word is found behind what does not hold its first letter. -/
theorem infix_of_notMem {front back : List α} {x : α} (hx : x ∉ front) {w : List α}
    (h : x :: w <:+: front ++ back) : x :: w <:+: back := by
  induction front with
  | nil => exact h
  | cons y front ih =>
      rw [List.mem_cons, not_or] at hx
      rcases List.infix_cons_iff.mp h with hfirst | hlater
      · exact absurd (List.cons_prefix_cons.mp hfirst).1 hx.1
      · exact ih hx.2 hlater

variable [DecidableEq α]

/-- Add pieces to the buffer until it holds the word `d`; none when the text ends first. -/
def readUntil (d : List α) (buffer : List α) : List (List α) → Option (Pieces α)
  | [] => if d <:+: buffer then some ⟨buffer, []⟩ else none
  | piece :: arriving =>
      if d <:+: buffer then some ⟨buffer, piece :: arriving⟩
      else readUntil d (buffer ++ piece) arriving

variable {d buffer front back : List α} {arriving : List (List α)}

/-- Nothing of the text is lost, and the buffer holds the word. -/
theorem readUntil_eq_some {p : Pieces α} (h : readUntil d buffer arriving = some p) :
    p.text = buffer ++ arriving.flatten ∧ d <:+: p.buffer := by
  induction arriving generalizing buffer with
  | nil =>
      rw [readUntil] at h
      split at h
      · next hholds =>
        cases h
        exact ⟨rfl, hholds⟩
      · cases h
  | cons piece arriving ih =>
      rw [readUntil] at h
      split at h
      · next hholds =>
        cases h
        exact ⟨rfl, hholds⟩
      · obtain ⟨htext, hholds⟩ := ih h
        refine ⟨?_, hholds⟩
        rw [htext, List.flatten_cons, List.append_assoc]

theorem readUntil_isSome (h : d <:+: buffer ++ arriving.flatten) :
    ∃ p, readUntil d buffer arriving = some p := by
  induction arriving generalizing buffer with
  | nil =>
      rw [List.flatten_nil, List.append_nil] at h
      exact ⟨_, if_pos h⟩
  | cons piece arriving ih =>
      rw [readUntil]
      split
      · exact ⟨_, rfl⟩
      · apply ih
        rwa [List.append_assoc, ← List.flatten_cons]

theorem readUntil_eq_none (h : ¬ d <:+: buffer ++ arriving.flatten) :
    readUntil d buffer arriving = none := by
  rw [Option.eq_none_iff_forall_ne_some]
  intro p hread
  obtain ⟨htext, hholds⟩ := readUntil_eq_some hread
  exact h (htext ▸ hholds.trans (List.prefix_append _ _).isInfix)

/-- A text whose first occurrence of the word is known is read up to that one, at least. -/
theorem readUntil_of_first (htext : buffer ++ arriving.flatten = front ++ d ++ back)
    (hfirst : ∀ before after, front ++ d ++ back = before ++ d ++ after →
      front.length ≤ before.length) :
    ∃ p, readUntil d buffer arriving = some p ∧
      ∃ more, p.buffer = front ++ d ++ more ∧ more ++ p.arriving.flatten = back := by
  have hinfix : d <:+: buffer ++ arriving.flatten := ⟨front, back, htext.symm⟩
  obtain ⟨p, hp⟩ := readUntil_isSome hinfix
  obtain ⟨hkept, before, after, hholds⟩ := readUntil_eq_some hp
  refine ⟨p, hp, ?_⟩
  rw [htext, text] at hkept
  have hlength : (front ++ d).length ≤ p.buffer.length := by
    have hle := hfirst before (after ++ p.arriving.flatten)
      (by rw [← hkept, ← hholds, List.append_assoc])
    rw [← hholds]
    simp only [List.length_append]
    omega
  obtain ⟨more, hmore⟩ := List.prefix_of_prefix_length_le ⟨back, rfl⟩
    (⟨p.arriving.flatten, hkept⟩ : p.buffer <+: front ++ d ++ back) hlength
  refine ⟨more, hmore.symm, ?_⟩
  rw [← hmore, List.append_assoc] at hkept
  exact List.append_cancel_left hkept

end Pieces

end LearningCpp.Library
