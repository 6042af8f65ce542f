import Mathlib.Data.List.Basic
import Mathlib.Tactic

/-!
Machines that read a word letter by letter until they have a verdict, and the
languages they decide. A language gives every state the words that still lead
to acceptance, each with what is then reported. When it agrees with the
machine on one letter, it agrees with it on whole words: the machine accepts at
the letter that completes a word and refuses at the first letter after which
no word can be completed.
-/

namespace LearningCpp.Library

variable {σ β ρ : Type*}

/-- Read letters until the first verdict; what is left of the word is returned. -/
def feed (step : σ → β → Option Bool × σ) (s : σ) : List β → Option Bool × σ × List β
  | [] => (none, s, [])
  | b :: bs =>
      match step s b with
      | (none, s') => feed step s' bs
      | (some verdict, s') => (some verdict, s', bs)

variable {step : σ → β → Option Bool × σ}

theorem feed_cons_none {s s' : σ} {b : β} {bs : List β} (h : step s b = (none, s')) :
    feed step s (b :: bs) = feed step s' bs := by
  simp only [feed, h]

theorem feed_cons_some {s s' : σ} {b : β} {bs : List β} {verdict : Bool}
    (h : step s b = (some verdict, s')) :
    feed step s (b :: bs) = (some verdict, s', bs) := by
  simp only [feed, h]

/-- Nothing is left over while there is no verdict. -/
theorem feed_rest_of_none {s s' : σ} {bs rest : List β} (h : feed step s bs = (none, s', rest)) :
    rest = [] := by
  fun_induction feed step s bs with
  | case1 s =>
      cases h
      rfl
  | case2 s b bs t hstep ih => exact ih h
  | case3 s b bs verdict t hstep => cases h

/-- Two words one after the other are read as the first one, and then as the second
one if there is no verdict yet. -/
theorem feed_append (s : σ) (bs more : List β) :
    feed step s (bs ++ more) =
      match feed step s bs with
      | (none, s', _) => feed step s' more
      | (some verdict, s', rest) => (some verdict, s', rest ++ more) := by
  fun_induction feed step s bs with
  | case1 s => rfl
  | case2 s b bs t hstep ih => rw [List.cons_append, feed_cons_none hstep, ih]
  | case3 s b bs verdict t hstep => rw [List.cons_append, feed_cons_some hstep]

/-- Without a verdict on the first part, reading goes on in the state reached. -/
theorem feed_append_of_none {s s' : σ} {bs : List β} (more : List β)
    (h : feed step s bs = (none, s', [])) : feed step s (bs ++ more) = feed step s' more := by
  rw [feed_append, h]

/-- What follows a verdict is left unread. -/
theorem feed_append_of_some {s s' : σ} {bs rest : List β} {verdict : Bool} (more : List β)
    (h : feed step s bs = (some verdict, s', rest)) :
    feed step s (bs ++ more) = (some verdict, s', rest ++ more) := by
  rw [feed_append, h]

/-- A verdict is the one on some letter, and there was none before it. -/
theorem exists_split_of_feed_some {s s' : σ} {bs rest : List β} {verdict : Bool}
    (h : feed step s bs = (some verdict, s', rest)) :
    ∃ w b t, bs = w ++ b :: rest ∧ feed step s w = (none, t, []) ∧
      step t b = (some verdict, s') := by
  fun_induction feed step s bs with
  | case1 s => cases h
  | case2 s b bs t hstep ih =>
      obtain ⟨w, c, t', rfl, hread, hlast⟩ := ih h
      exact ⟨b :: w, c, t', rfl, (feed_cons_none hstep).trans hread, hlast⟩
  | case3 s b bs verdict' t hstep =>
      cases h
      exact ⟨[], b, s, rfl, rfl, hstep⟩

/-- The language of a machine, letter by letter: `L s w r` when reading `w` from
`s` is accepted and `r` is reported. -/
structure Decides (step : σ → β → Option Bool × σ) (out : σ → ρ)
    (L : σ → List β → ρ → Prop) : Prop where
  nil : ∀ s r, ¬ L s [] r
  more : ∀ {s s' b}, step s b = (none, s') → ∀ w r, L s (b :: w) r ↔ L s' w r
  accept : ∀ {s s' b}, step s b = (some true, s') → ∀ w r, L s (b :: w) r ↔ w = [] ∧ r = out s'
  refuse : ∀ {s s' b}, step s b = (some false, s') → ∀ w r, ¬ L s (b :: w) r
  viable : ∀ s, ∃ w r, L s w r

namespace Decides

variable {out : σ → ρ} {L : σ → List β → ρ → Prop} (h : Decides step out L)

include h

/-- A word is accepted at its last letter, and nothing after it is read. -/
theorem feed_of_mem {s : σ} {w : List β} {r : ρ} (hw : L s w r) (rest : List β) :
    ∃ s', feed step s (w ++ rest) = (some true, s', rest) ∧ out s' = r := by
  induction w generalizing s with
  | nil => exact absurd hw (h.nil s r)
  | cons b w ih =>
      cases hstep : step s b with
      | mk verdict s' =>
          cases verdict with
          | none =>
              rw [List.cons_append, feed_cons_none hstep]
              exact ih ((h.more hstep w r).mp hw)
          | some verdict =>
              cases verdict with
              | true =>
                  obtain ⟨rfl, rfl⟩ := (h.accept hstep w r).mp hw
                  exact ⟨s', feed_cons_some hstep, rfl⟩
              | false => exact absurd hw (h.refuse hstep w r)

/-- Reading letters without a verdict takes them off the words. -/
theorem mem_append_iff {s t : σ} {w : List β} (hread : feed step s w = (none, t, []))
    (more : List β) (r : ρ) : L s (w ++ more) r ↔ L t more r := by
  fun_induction feed step s w with
  | case1 s =>
      cases hread
      exact Iff.rfl
  | case2 s b w s' hstep ih => rw [List.cons_append, h.more hstep, ih hread]
  | case3 s b w verdict s' hstep => cases hread

theorem mem_of_feed {s s' : σ} {input rest : List β}
    (hfeed : feed step s input = (some true, s', rest)) :
    ∃ w, input = w ++ rest ∧ L s w (out s') := by
  obtain ⟨w, b, t, rfl, hread, hlast⟩ := exists_split_of_feed_some hfeed
  refine ⟨w ++ [b], by rw [List.append_assoc, List.singleton_append], ?_⟩
  rw [h.mem_append_iff hread, h.accept hlast]
  exact ⟨rfl, rfl⟩

/-- A word that is not complete but can be leaves the machine without a verdict. -/
theorem feed_eq_none_of_incomplete {s : σ} {w more : List β} {r : ρ} (hnot : ¬ ∃ r, L s w r)
    (hmore : L s (w ++ more) r) : ∃ t, feed step s w = (none, t, []) := by
  obtain ⟨verdict, t, rest, hfeed⟩ : ∃ verdict t rest, feed step s w = (verdict, t, rest) :=
    ⟨_, _, _, rfl⟩
  cases verdict with
  | none =>
      obtain rfl := feed_rest_of_none hfeed
      exact ⟨t, hfeed⟩
  | some verdict =>
      -- the longer word would have got the verdict `true` before its end
      obtain ⟨t', hlong, -⟩ := h.feed_of_mem hmore []
      rw [List.append_nil, feed_append_of_some more hfeed, Prod.mk.injEq, Prod.mk.injEq] at hlong
      obtain ⟨hverdict, -, hrest⟩ := hlong
      obtain rfl := Option.some.inj hverdict
      obtain ⟨rfl, -⟩ := List.append_eq_nil_iff.mp hrest
      obtain ⟨w', rfl, hw⟩ := h.mem_of_feed hfeed
      rw [List.append_nil] at hnot
      exact absurd ⟨_, hw⟩ hnot

/-- Where there is no verdict the word is not complete, but it can be. -/
theorem incomplete_of_feed_eq_none {s t : σ} {w : List β} (hread : feed step s w = (none, t, [])) :
    (¬ ∃ r, L s w r) ∧ ∃ more r, L s (w ++ more) r := by
  constructor
  · rintro ⟨r, hw⟩
    rw [← List.append_nil w, h.mem_append_iff hread] at hw
    exact h.nil t r hw
  · obtain ⟨more, r, hmore⟩ := h.viable t
    exact ⟨more, r, (h.mem_append_iff hread more r).mpr hmore⟩

/-- Refusal comes at the letter after which no word can be completed. -/
theorem feed_refuses_iff {s : σ} {input rest : List β} :
    (∃ s', feed step s input = (some false, s', rest)) ↔
      ∃ w b, input = w ++ b :: rest ∧ (¬ ∃ r, L s w r) ∧ (∃ more r, L s (w ++ more) r) ∧
        ¬ ∃ more r, L s (w ++ b :: more) r := by
  constructor
  · rintro ⟨s', hfeed⟩
    obtain ⟨w, b, t, rfl, hread, hlast⟩ := exists_split_of_feed_some hfeed
    obtain ⟨hnot, hmore⟩ := h.incomplete_of_feed_eq_none hread
    refine ⟨w, b, rfl, hnot, hmore, ?_⟩
    rintro ⟨more, r, hw⟩
    rw [h.mem_append_iff hread] at hw
    exact h.refuse hlast more r hw
  · rintro ⟨w, b, rfl, hnot, ⟨more, r, hmore⟩, hdead⟩
    obtain ⟨t, hread⟩ := h.feed_eq_none_of_incomplete hnot hmore
    cases hstep : step t b with
    | mk verdict s' =>
        cases verdict with
        | none =>
            obtain ⟨more, r, hviable⟩ := h.viable s'
            refine absurd ⟨more, r, ?_⟩ hdead
            rw [h.mem_append_iff hread, h.more hstep]
            exact hviable
        | some verdict =>
            cases verdict with
            | true =>
                refine absurd ⟨[], out s', ?_⟩ hdead
                rw [h.mem_append_iff hread, h.accept hstep]
                exact ⟨rfl, rfl⟩
            | false =>
                exact ⟨s', (feed_append_of_none _ hread).trans (feed_cons_some hstep)⟩

/-- There is no verdict exactly on the words that are not complete but can be. -/
theorem feed_undecided_iff {s : σ} {input : List β} :
    (feed step s input).1 = none ↔
      (¬ ∃ r, L s input r) ∧ ∃ more r, L s (input ++ more) r := by
  constructor
  · intro hnone
    obtain ⟨t, rest, hread⟩ : ∃ t rest, feed step s input = (none, t, rest) :=
      ⟨_, _, Prod.ext hnone rfl⟩
    obtain rfl := feed_rest_of_none hread
    exact h.incomplete_of_feed_eq_none hread
  · rintro ⟨hnot, more, r, hmore⟩
    obtain ⟨t, hread⟩ := h.feed_eq_none_of_incomplete hnot hmore
    rw [hread]

end Decides

end LearningCpp.Library
