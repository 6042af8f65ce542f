import Mathlib.Data.List.Basic
import Mathlib.Tactic

/-!
Expressions in Perl's manner that are a sequence of parts: single letters, repeats
of a class of letters and conditions on the place in the text. A match gives every
part a piece of the text. The pieces are tried in Perl's order, and the match that
is reported is the first one from the leftmost place that has any.
-/

namespace LearningCpp.Library

variable {α β : Type*}

/-- A part of an expression. `greedy` and `lazy` repeat a class of letters and prefer
a long or a short piece; `assertion` sees the letters before and after its place. -/
inductive RegexPart (α : Type*) where
  | one (p : α → Bool)
  | greedy (p : α → Bool)
  | lazy (p : α → Bool)
  | assertion (holds : Option α → Option α → Bool)

/-- The pieces of one class of letters at the front of a text, the shortest first, each
with what is left. -/
def shortest (p : α → Bool) : List α → List (List α × List α)
  | [] => [([], [])]
  | c :: text =>
      ([], c :: text) ::
        if p c then (shortest p text).map (fun cut => (c :: cut.1, cut.2)) else []

/-- The pieces that a part can take from a text, in the order in which they are tried. -/
def RegexPart.choices (last : Option α) (text : List α) : RegexPart α → List (List α × List α)
  | .one p => match text with
      | [] => []
      | c :: rest => if p c then [([c], rest)] else []
  | .greedy p => (shortest p text).reverse
  | .lazy p => shortest p text
  | .assertion holds => if holds last text.head? then [([], text)] else []

/-- The letter before what is left, when `last` was the one before the piece. -/
def lastAfter (last : Option α) (piece : List α) : Option α := piece.getLast?.or last

/-- The first match of the parts at the front of a text of which `accept` admits the
rest. -/
def matchFrom (accept : List α → Bool) : List (RegexPart α) → Option α → List α →
    Option (List (List α))
  | [], _, text => if accept text then some [] else none
  | part :: parts, last, text =>
      (part.choices last text).findSome? fun cut =>
        (matchFrom accept parts (lastAfter last cut.1) cut.2).map (fun pieces => cut.1 :: pieces)

/-- The first match at the leftmost place that has one. -/
def search (parts : List (RegexPart α)) : Option α → List α → Option (List (List α))
  | last, [] => matchFrom (fun _ => true) parts last []
  | last, c :: text =>
      match matchFrom (fun _ => true) parts last (c :: text) with
      | some pieces => some pieces
      | none => search parts (some c) text

/-- The first match of the whole text. -/
def matchWhole (parts : List (RegexPart α)) (text : List α) : Option (List (List α)) :=
  matchFrom List.isEmpty parts none text

theorem lastAfter_cons {last : Option α} (c : α) (s : List α) :
    lastAfter last (c :: s) = lastAfter (some c) s := by
  simp [lastAfter, List.getLast?_cons]

theorem lastAfter_append {last : Option α} (s t : List α) :
    lastAfter (lastAfter last s) t = lastAfter last (s ++ t) := by
  rw [lastAfter, lastAfter, lastAfter, List.getLast?_append, Option.or_assoc]

theorem mem_shortest {p : α → Bool} {text piece rest : List α} :
    (piece, rest) ∈ shortest p text ↔ text = piece ++ rest ∧ ∀ c ∈ piece, p c := by
  induction text generalizing piece with
  | nil =>
      cases piece with
      | nil =>
          rw [shortest, List.mem_singleton, Prod.mk.injEq, List.nil_append, eq_comm (a := rest)]
          simp
      | cons d piece => simp [shortest]
  | cons c text ih =>
      rw [shortest, List.mem_cons]
      cases piece with
      | nil =>
          have hnot : ([], rest) ∉
              if p c then (shortest p text).map (fun cut => (c :: cut.1, cut.2)) else [] := by
            split <;> simp
          rw [or_iff_left hnot, Prod.mk.injEq, List.nil_append, eq_comm (a := rest)]
          simp
      | cons d piece =>
          rw [Prod.mk.injEq, List.cons_append, List.cons.injEq, List.forall_mem_cons]
          cases hp : p c with
          | false =>
              simp only [reduceCtorEq, false_and, Bool.false_eq_true, if_false, List.not_mem_nil,
                or_false, false_iff, not_and]
              rintro ⟨rfl, -⟩ hd
              rw [hp] at hd
              cases hd
          | true =>
              simp only [reduceCtorEq, false_and, false_or, if_true, List.mem_map, Prod.mk.injEq,
                List.cons.injEq, Prod.exists]
              constructor
              · rintro ⟨piece', rest', hmem, ⟨rfl, rfl⟩, rfl⟩
                obtain ⟨htext, hall⟩ := ih.mp hmem
                exact ⟨⟨rfl, htext⟩, hp, hall⟩
              · rintro ⟨⟨rfl, htext⟩, -, hall⟩
                exact ⟨piece, rest, ih.mpr ⟨htext, hall⟩, ⟨rfl, rfl⟩, rfl⟩

/-- The shortest piece with which the rest succeeds. -/
theorem findSome_shortest {p : α → Bool} {f : List α × List α → Option β} {u v : List α} {b : β}
    (hall : ∀ c ∈ u, p c) (hfail : ∀ s t, u = s ++ t → t ≠ [] → f (s, t ++ v) = none)
    (hsome : f (u, v) = some b) : (shortest p (u ++ v)).findSome? f = some b := by
  induction u generalizing f with
  | nil =>
      cases v with
      | nil => simp [shortest, hsome]
      | cons c v => simp [shortest, hsome]
  | cons c u ih =>
      obtain ⟨hc, hall⟩ := List.forall_mem_cons.mp hall
      have hfirst : f ([], c :: u ++ v) = none := hfail [] (c :: u) rfl (List.cons_ne_nil c u)
      rw [List.cons_append] at hfirst ⊢
      rw [shortest, if_pos hc, List.findSome?_cons_of_isNone (by rw [hfirst]; rfl),
        List.findSome?_map]
      refine ih hall ?_ hsome
      intro s t hsplit hne
      exact hfail (c :: s) t (by rw [hsplit, List.cons_append]) hne

/-- The longest piece, when the rest succeeds with it. -/
theorem findSome_longest {p : α → Bool} {f : List α × List α → Option β} {u v : List α} {b : β}
    (hall : ∀ c ∈ u, p c) (hstop : ∀ c ∈ v.head?, p c = false) (hsome : f (u, v) = some b) :
    (shortest p (u ++ v)).reverse.findSome? f = some b := by
  induction u generalizing f with
  | nil =>
      cases v with
      | nil => simp [shortest, hsome]
      | cons c v => simp [shortest, hstop c rfl, hsome]
  | cons c u ih =>
      obtain ⟨hc, hall⟩ := List.forall_mem_cons.mp hall
      have hlonger := ih (f := f ∘ fun cut => (c :: cut.1, cut.2)) hall hsome
      rw [List.cons_append, shortest, if_pos hc, List.reverse_cons, List.findSome?_append,
        ← List.map_reverse, List.findSome?_map, hlonger]
      rfl

section

variable {accept : List α → Bool} {parts : List (RegexPart α)} {p : α → Bool} {last : Option α}

theorem matchFrom_one {c : α} {text : List α} {pieces : List (List α)} (hc : p c)
    (hmatch : matchFrom accept parts (some c) text = some pieces) :
    matchFrom accept (.one p :: parts) last (c :: text) = some ([c] :: pieces) := by
  simp [matchFrom, RegexPart.choices, hc, lastAfter, hmatch]

theorem matchFrom_one_of_neg {c : α} (text : List α) (hc : p c = false) :
    matchFrom accept (.one p :: parts) last (c :: text) = none := by
  simp [matchFrom, RegexPart.choices, hc]

theorem matchFrom_lazy {u v : List α} {pieces : List (List α)} (hall : ∀ c ∈ u, p c)
    (hfail : ∀ s t, u = s ++ t → t ≠ [] →
      matchFrom accept parts (lastAfter last s) (t ++ v) = none)
    (hmatch : matchFrom accept parts (lastAfter last u) v = some pieces) :
    matchFrom accept (.lazy p :: parts) last (u ++ v) = some (u :: pieces) := by
  rw [matchFrom]
  apply findSome_shortest hall
  · intro s t hsplit hne
    rw [hfail s t hsplit hne]
    rfl
  · rw [hmatch]
    rfl

theorem matchFrom_greedy {u v : List α} {pieces : List (List α)} (hall : ∀ c ∈ u, p c)
    (hstop : ∀ c ∈ v.head?, p c = false)
    (hmatch : matchFrom accept parts (lastAfter last u) v = some pieces) :
    matchFrom accept (.greedy p :: parts) last (u ++ v) = some (u :: pieces) := by
  rw [matchFrom]
  apply findSome_longest hall hstop
  rw [hmatch]
  rfl

theorem isSome_matchFrom_nil {text : List α} :
    (matchFrom accept [] last text).isSome ↔ accept text := by
  rw [matchFrom]
  cases accept text <;> simp

theorem isSome_matchFrom_cons {part : RegexPart α} {text : List α} :
    (matchFrom accept (part :: parts) last text).isSome ↔
      ∃ cut ∈ part.choices last text,
        (matchFrom accept parts (lastAfter last cut.1) cut.2).isSome := by
  simp only [matchFrom, List.findSome?_isSome_iff, Option.isSome_map]

theorem isSome_matchFrom_one {text : List α} :
    (matchFrom accept (.one p :: parts) last text).isSome ↔
      ∃ c rest, text = c :: rest ∧ p c ∧ (matchFrom accept parts (some c) rest).isSome := by
  cases text with
  | nil => simp [isSome_matchFrom_cons, RegexPart.choices]
  | cons c text =>
      cases hp : p c <;> simp [isSome_matchFrom_cons, RegexPart.choices, hp, lastAfter]

theorem isSome_matchFrom_lazy {text : List α} :
    (matchFrom accept (.lazy p :: parts) last text).isSome ↔
      ∃ u v, text = u ++ v ∧ (∀ c ∈ u, p c) ∧
        (matchFrom accept parts (lastAfter last u) v).isSome := by
  simp only [isSome_matchFrom_cons, RegexPart.choices, mem_shortest, Prod.exists, and_assoc]

/-- Which piece a repeat prefers does not matter for whether there is a match. -/
theorem isSome_matchFrom_greedy {text : List α} :
    (matchFrom accept (.greedy p :: parts) last text).isSome ↔
      ∃ u v, text = u ++ v ∧ (∀ c ∈ u, p c) ∧
        (matchFrom accept parts (lastAfter last u) v).isSome := by
  simp only [isSome_matchFrom_cons, RegexPart.choices, List.mem_reverse, mem_shortest, Prod.exists,
    and_assoc]

theorem isSome_matchFrom_assertion {holds : Option α → Option α → Bool} {text : List α} :
    (matchFrom accept (.assertion holds :: parts) last text).isSome ↔
      holds last text.head? ∧ (matchFrom accept parts last text).isSome := by
  cases hholds : holds last text.head? <;>
    simp [isSome_matchFrom_cons, RegexPart.choices, hholds, lastAfter]

end

section

variable {parts : List (RegexPart α)} {last : Option α}

/-- The leftmost place that has a match. -/
theorem search_leftmost {u v : List α} {pieces : List (List α)}
    (hfail : ∀ s t, u = s ++ t → t ≠ [] →
      matchFrom (fun _ => true) parts (lastAfter last s) (t ++ v) = none)
    (hmatch : matchFrom (fun _ => true) parts (lastAfter last u) v = some pieces) :
    search parts last (u ++ v) = some pieces := by
  induction u generalizing last with
  | nil => cases v <;> simp_all [search, lastAfter]
  | cons c u ih =>
      have hfirst := hfail [] (c :: u) rfl (List.cons_ne_nil c u)
      rw [List.cons_append] at hfirst ⊢
      rw [search, show lastAfter last [] = last from rfl] at *
      rw [hfirst]
      refine ih ?_ (by rwa [lastAfter_cons] at hmatch)
      intro s t hsplit hne
      rw [← lastAfter_cons]
      exact hfail (c :: s) t (by rw [hsplit, List.cons_append]) hne

theorem isSome_search {text : List α} :
    (search parts last text).isSome ↔
      ∃ s t, text = s ++ t ∧
        (matchFrom (fun _ => true) parts (lastAfter last s) t).isSome := by
  induction text generalizing last with
  | nil => simp [search, lastAfter]
  | cons c text ih =>
      rw [search]
      cases hfirst : matchFrom (fun _ => true) parts last (c :: text) with
      | some pieces =>
          simp only [Option.isSome_some, true_iff]
          exact ⟨[], c :: text, rfl, by simp [lastAfter, hfirst]⟩
      | none =>
          simp only [ih]
          constructor
          · rintro ⟨s, t, rfl, hmatch⟩
            exact ⟨c :: s, t, rfl, by rwa [lastAfter_cons]⟩
          · rintro ⟨s, t, hsplit, hmatch⟩
            cases s with
            | nil =>
                rw [List.nil_append] at hsplit
                subst hsplit
                simp [lastAfter, hfirst] at hmatch
            | cons d s =>
                cases hsplit
                exact ⟨s, t, rfl, by rwa [lastAfter_cons] at hmatch⟩

end

end LearningCpp.Library
