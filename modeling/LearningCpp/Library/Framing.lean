import Mathlib.Data.List.Basic
import Mathlib.Tactic

/-!
Lines that end in a pair of letters, an empty line, and a body. When no line is
empty and none contains the first letter of the pair, the first empty line of
the text is the one before the body, whatever the body holds.
-/

namespace LearningCpp.Library

variable {α : Type*} {cr lf : α}

/-- The lines of a text, each with its end. -/
def terminated (cr lf : α) (lines : List (List α)) : List α :=
  lines.flatMap (fun line => line ++ [cr, lf])

/-- `text` is `head`, the first empty line of the text, and `body`. -/
def SplitsAtEmptyLine (cr lf : α) (text head body : List α) : Prop :=
  text = head ++ [cr, lf, cr, lf] ++ body ∧
    ∀ before after, text = before ++ [cr, lf, cr, lf] ++ after → head.length ≤ before.length

@[simp]
theorem terminated_nil : terminated cr lf [] = [] := rfl

@[simp]
theorem terminated_cons (line : List α) (lines : List (List α)) :
    terminated cr lf (line :: lines) = line ++ cr :: lf :: terminated cr lf lines := by
  simp only [terminated, List.flatMap_cons, List.append_assoc, List.cons_append, List.nil_append]

/-- A line does not start with the letter that ends lines. -/
def IsLine (cr : α) (line : List α) : Prop := line ≠ [] ∧ cr ∉ line

theorem not_isLine_cons (line : List α) : ¬ IsLine cr (cr :: line) := by
  intro h
  exact h.2 List.mem_cons_self

/-- An empty line found in the text is not one of the line ends before the body. -/
theorem terminated_length_le (hne : cr ≠ lf) {lines : List (List α)}
    (hlines : ∀ line ∈ lines, IsLine cr line) {body before after : List α}
    (h : terminated cr lf lines ++ cr :: lf :: body = before ++ cr :: lf :: cr :: lf :: after) :
    (terminated cr lf lines).length ≤ before.length + 2 := by
  induction lines generalizing before with
  | nil => exact Nat.zero_le _
  | cons line lines ih =>
      obtain ⟨hline, hlines⟩ := List.forall_mem_cons.mp hlines
      rw [terminated_cons, List.append_assoc] at h
      -- the empty line starts after `line`: at its end, in the middle of it, or later
      have hafter : ∀ more, before = line ++ more →
          cr :: lf :: terminated cr lf lines ++ cr :: lf :: body =
            more ++ cr :: lf :: cr :: lf :: after →
          (terminated cr lf (line :: lines)).length ≤ before.length + 2 := by
        intro more hbefore hmore
        match more with
        | [] =>
            cases lines with
            | nil => simp [hbefore]
            | cons next lines =>
                obtain ⟨hnext, _⟩ := List.forall_mem_cons.mp hlines
                obtain ⟨c, next, rfl⟩ := List.exists_cons_of_ne_nil hnext.1
                simp only [terminated_cons, List.cons_append, List.nil_append,
                  List.cons.injEq] at hmore
                exact absurd (hmore.2.2.1 ▸ hnext) (not_isLine_cons next)
        | [_] =>
            simp only [List.cons_append, List.nil_append, List.cons.injEq] at hmore
            exact absurd hmore.2.1.symm hne
        | _ :: _ :: more =>
            simp only [List.cons_append, List.cons.injEq] at hmore
            have hlength := ih hlines hmore.2.2
            simp only [terminated_cons, hbefore, List.length_append, List.length_cons]
            omega
      rcases List.append_eq_append_iff.mp h with ⟨more, hbefore, hmore⟩ | ⟨more, hcut, hmore⟩
      · exact hafter more hbefore hmore
      · cases more with
        | nil =>
            rw [List.append_nil] at hcut
            exact hafter [] (by rw [hcut, List.append_nil]) hmore.symm
        | cons c more =>
            simp only [List.cons_append, List.cons.injEq] at hmore
            obtain ⟨rfl, _⟩ := hmore
            exact absurd (hcut ▸ List.mem_append_right before List.mem_cons_self) hline.2

/-- Lines that are not empty, an empty line, and any body at all: the first empty
line of the text is that one. -/
theorem terminated_splits (hne : cr ≠ lf) {lines : List (List α)} (hsome : lines ≠ [])
    (hlines : ∀ line ∈ lines, IsLine cr line) (body : List α) :
    ∃ head, terminated cr lf lines = head ++ [cr, lf] ∧
      SplitsAtEmptyLine cr lf (terminated cr lf lines ++ [cr, lf] ++ body) head body := by
  obtain ⟨lines, line, rfl⟩ := List.eq_nil_or_concat lines |>.resolve_left hsome
  have hend : terminated cr lf (lines.concat line) =
      terminated cr lf lines ++ line ++ [cr, lf] := by
    simp only [terminated, List.concat_eq_append, List.flatMap_append, List.flatMap_cons,
      List.flatMap_nil, List.append_nil, List.append_assoc]
  refine ⟨terminated cr lf lines ++ line, hend, ?_, ?_⟩
  · rw [hend]
    simp only [List.append_assoc, List.cons_append, List.nil_append]
  · intro before after h
    have htwice : terminated cr lf (lines.concat line) ++ cr :: lf :: body =
        before ++ cr :: lf :: cr :: lf :: after := by
      simpa using h
    have hlength := terminated_length_le hne hlines htwice
    rw [hend, List.length_append] at hlength
    simp only [List.length_cons, List.length_nil] at hlength
    omega

end LearningCpp.Library
