import Mathlib.Data.List.Basic
import Mathlib.Tactic

/-!
Texts with an escape letter. The escape letter and the two letters after it are
one piece of the text, any other letter is a piece by itself; a text falls into
pieces in one way, up to an escape that is cut off at its end.
-/

namespace LearningCpp.Library

variable {α : Type*} {esc : α}

/-- A letter that stands for itself, or the two letters of an escape. -/
inductive Piece (esc : α) where
  | plain (c : α) (proper : c ≠ esc)
  | escape (first second : α)

namespace Piece

def text : Piece esc → List α
  | plain c _ => [c]
  | escape first second => [esc, first, second]

/-- The letters of the piece's escape, if it is one, satisfy `ok`. -/
def Escapes (ok : α → α → Prop) : Piece esc → Prop
  | plain _ _ => True
  | escape first second => ok first second

theorem text_length_pos (p : Piece esc) : 0 < p.text.length := by
  cases p <;> simp [text]

theorem text_length_le (p : Piece esc) : p.text.length ≤ 3 := by
  cases p <;> simp [text]

end Piece

def spell (ps : List (Piece esc)) : List α := ps.flatMap Piece.text

@[simp]
theorem spell_nil : spell ([] : List (Piece esc)) = [] := rfl

@[simp]
theorem spell_cons (p : Piece esc) (ps : List (Piece esc)) :
    spell (p :: ps) = p.text ++ spell ps := rfl

/-- A text is empty, starts with a piece, or is an escape that is cut off. -/
theorem text_induction [DecidableEq α] (esc : α) {motive : List α → Prop} (nil : motive [])
    (plain : ∀ c rest, c ≠ esc → motive rest → motive (c :: rest))
    (escape : ∀ first second rest, motive rest → motive (esc :: first :: second :: rest))
    (cut : ∀ tail, tail.length < 2 → motive (esc :: tail)) : ∀ text, motive text
  | [] => nil
  | c :: rest => by
      by_cases hc : c = esc
      · subst hc
        match rest with
        | [] => exact cut [] Nat.zero_lt_two
        | [a] => exact cut [a] (Nat.lt_add_one 1)
        | a :: b :: tail =>
            exact escape a b tail (text_induction c nil plain escape cut tail)
      · exact plain c rest hc (text_induction esc nil plain escape cut rest)

/-- The pieces of a text, and what an escape cut off at its end leaves. -/
theorem exists_pieces [DecidableEq α] (esc : α) (text : List α) :
    ∃ (ps : List (Piece esc)) (tail : List α), text = spell ps ++ tail ∧
      (tail = [] ∨ ∃ rest, tail = esc :: rest ∧ rest.length < 2) := by
  induction text using text_induction esc with
  | nil => exact ⟨[], [], rfl, Or.inl rfl⟩
  | plain c rest hc ih =>
      obtain ⟨ps, tail, rfl, htail⟩ := ih
      exact ⟨.plain c hc :: ps, tail, rfl, htail⟩
  | escape a b rest ih =>
      obtain ⟨ps, tail, rfl, htail⟩ := ih
      exact ⟨.escape a b :: ps, tail, rfl, htail⟩
  | cut tail htail => exact ⟨[], esc :: tail, rfl, Or.inr ⟨tail, rfl, htail⟩⟩

theorem text_append_inj {p q : Piece esc} {xs ys : List α} (h : p.text ++ xs = q.text ++ ys) :
    p = q ∧ xs = ys := by
  cases p with
  | plain c hc =>
      cases q with
      | plain d hd =>
          injection h with hcd hxs
          subst hcd
          exact ⟨rfl, hxs⟩
      | escape a b =>
          injection h with hcd _
          exact absurd hcd hc
  | escape a b =>
      cases q with
      | plain d hd =>
          injection h with hcd _
          exact absurd hcd.symm hd
      | escape a' b' =>
          simp only [Piece.text, List.cons_append, List.nil_append, List.cons.injEq] at h
          obtain ⟨_, rfl, rfl, hxs⟩ := h
          exact ⟨rfl, hxs⟩

/-- A text falls into pieces in at most one way. -/
theorem spell_injective {ps qs : List (Piece esc)} (h : spell ps = spell qs) : ps = qs := by
  induction ps generalizing qs with
  | nil =>
      cases qs with
      | nil => rfl
      | cons q qs =>
          have hq := q.text_length_pos
          have hlength := congrArg List.length h
          simp only [spell_nil, spell_cons, List.length_nil, List.length_append] at hlength
          omega
  | cons p ps ih =>
      cases qs with
      | nil =>
          have hp := p.text_length_pos
          have hlength := congrArg List.length h
          simp only [spell_nil, spell_cons, List.length_nil, List.length_append] at hlength
          omega
      | cons q qs =>
          obtain ⟨rfl, hrest⟩ := text_append_inj h
          rw [ih hrest]

/-- Every escape letter of the text is followed by two letters that satisfy `ok`. -/
def Followed (esc : α) (ok : α → Prop) (text : List α) : Prop :=
  ∀ before rest, text = before ++ esc :: rest →
    ∃ first second after, rest = first :: second :: after ∧ ok first ∧ ok second

theorem Followed.of_append {ok : α → Prop} (front : List α) {text : List α}
    (h : Followed esc ok (front ++ text)) : Followed esc ok text := by
  intro before rest htext
  apply h (front ++ before) rest
  rw [htext, List.append_assoc]

/-- When the escape letter itself is not `ok`, the escapes of a text that is
`Followed` are the escapes of its pieces. -/
theorem followed_iff_spell [DecidableEq α] {ok : α → Prop} (hesc : ¬ ok esc) (text : List α) :
    Followed esc ok text ↔
      ∃ ps : List (Piece esc), text = spell ps ∧
        ∀ p ∈ ps, p.Escapes (fun first second => ok first ∧ ok second) := by
  constructor
  · intro h
    induction text using text_induction esc with
    | nil => exact ⟨[], rfl, by simp⟩
    | plain c rest hc ih =>
        obtain ⟨ps, rfl, hps⟩ := ih (h.of_append [c])
        exact ⟨.plain c hc :: ps, rfl, List.forall_mem_cons.mpr ⟨trivial, hps⟩⟩
    | escape a b rest ih =>
        obtain ⟨ps, rfl, hps⟩ := ih (h.of_append [esc, a, b])
        obtain ⟨a', b', after, hrest, ha, hb⟩ := h [] _ rfl
        injection hrest with haa hrest
        injection hrest with hbb _
        subst haa hbb
        exact ⟨.escape a b :: ps, rfl, List.forall_mem_cons.mpr ⟨⟨ha, hb⟩, hps⟩⟩
    | cut tail htail =>
        obtain ⟨a, b, after, rfl, _⟩ := h [] tail rfl
        simp only [List.length_cons] at htail
        omega
  · rintro ⟨ps, rfl, hps⟩
    induction ps with
    | nil =>
        intro before rest htext
        simp at htext
    | cons p ps ih =>
        obtain ⟨hp, hrest⟩ := List.forall_mem_cons.mp hps
        intro before rest htext
        cases p with
        | plain c hc =>
            cases before with
            | nil =>
                injection htext with hcesc _
                exact absurd hcesc hc
            | cons d before =>
                injection htext with _ htext
                exact ih hrest before rest htext
        | escape a b =>
            obtain ⟨ha, hb⟩ := hp
            match before with
            | [] =>
                injection htext with _ htext
                exact ⟨a, b, spell ps, htext.symm, ha, hb⟩
            | [_] =>
                injection htext with _ htext
                injection htext with haesc _
                exact absurd (haesc ▸ ha) hesc
            | [_, _] =>
                injection htext with _ htext
                injection htext with _ htext
                injection htext with hbesc _
                exact absurd (hbesc ▸ hb) hesc
            | _ :: _ :: _ :: before =>
                injection htext with _ htext
                injection htext with _ htext
                injection htext with _ htext
                exact ih hrest before rest htext

end LearningCpp.Library
