import Mathlib.Tactic

/-!
Doubly linked lists. The links of an item name its neighbours in the list; an item is
put in front and taken out of any place by changing the links of its neighbours.
-/

namespace LearningCpp.Library

universe u

/-- The links of every item; `none` is the null pointer. -/
structure Links (ι : Type u) where
  next : ι → Option ι
  prev : ι → Option ι

/-- Following `next` from `p` visits exactly these items. -/
def Visits {ι : Type u} (next : ι → Option ι) : Option ι → List ι → Prop
  | p, [] => p = none
  | p, x :: xs => p = some x ∧ Visits next (next x) xs

/-- Every item of the list is linked to the one after it and to the one before it. -/
def Linked {ι : Type u} (l : Links ι) (xs : List ι) : Prop :=
  ∀ as x bs, xs = as ++ x :: bs → l.next x = bs.head? ∧ l.prev x = as.getLast?

namespace Linked

variable {ι : Type u} {l l' : Links ι} {xs as bs : List ι} {x y : ι}

theorem nil (l : Links ι) : Linked l [] := by
  intro as x bs heq
  cases as <;> cases heq

theorem next_eq (h : Linked l (as ++ x :: bs)) : l.next x = bs.head? := (h as x bs rfl).1

theorem prev_eq (h : Linked l (as ++ x :: bs)) : l.prev x = as.getLast? := (h as x bs rfl).2

/-- From any item on, `next` visits the rest of the list. -/
theorem visits_from (h : Linked l (as ++ bs)) : Visits l.next bs.head? bs := by
  induction bs generalizing as with
  | nil => rfl
  | cons x bs ih =>
      refine ⟨rfl, ?_⟩
      rw [h.next_eq]
      rw [List.append_cons] at h
      exact ih h

theorem visits (h : Linked l xs) : Visits l.next xs.head? xs := by
  rw [← List.nil_append xs] at h
  exact h.visits_from

theorem prev_head (h : Linked l xs) (hhead : xs.head? = some x) : l.prev x = none := by
  obtain ⟨bs, rfl⟩ := List.head?_eq_some_iff.1 hhead
  rw [← List.nil_append (x :: bs)] at h
  exact h.prev_eq

/-- The successor of an item has that item as its predecessor. -/
theorem prev_of_next (h : Linked l xs) (hx : x ∈ xs) (hnext : l.next x = some y) :
    y ∈ xs ∧ l.prev y = some x := by
  obtain ⟨as, bs, rfl⟩ := List.append_of_mem hx
  rw [h.next_eq] at hnext
  obtain ⟨cs, rfl⟩ := List.head?_eq_some_iff.1 hnext
  rw [List.append_cons] at h ⊢
  refine ⟨List.mem_append_right _ List.mem_cons_self, ?_⟩
  rw [h.prev_eq]
  exact List.getLast?_concat

theorem next_of_prev (h : Linked l xs) (hy : y ∈ xs) (hprev : l.prev y = some x) :
    x ∈ xs ∧ l.next x = some y := by
  obtain ⟨as, bs, rfl⟩ := List.append_of_mem hy
  rw [h.prev_eq] at hprev
  obtain ⟨cs, rfl⟩ := List.getLast?_eq_some_iff.1 hprev
  rw [List.append_assoc, List.singleton_append] at h ⊢
  exact ⟨List.mem_append_right _ List.mem_cons_self, h.next_eq⟩

/-- An item that another one stands before is not the first one. -/
theorem head_ne (hnodup : (as ++ x :: bs).Nodup) (has : as ≠ []) :
    (as ++ x :: bs).head? ≠ some x := by
  cases as with
  | nil => exact absurd rfl has
  | cons a as =>
      rw [List.cons_append, List.head?_cons, Ne, Option.some.injEq]
      rintro rfl
      rw [List.cons_append, List.nodup_cons] at hnodup
      exact hnodup.1 (List.mem_append_right _ List.mem_cons_self)

/-- An item that another one stands after is not the last one. -/
theorem getLast_ne (hnodup : (as ++ x :: bs).Nodup) (hbs : bs ≠ []) :
    (as ++ x :: bs).getLast? ≠ some x := by
  intro hlast
  rw [List.getLast?_append_of_ne_nil _ (List.cons_ne_nil x bs)] at hlast
  have hrest := (List.nodup_append.1 hnodup).2.1
  cases bs with
  | nil => exact hbs rfl
  | cons b bs =>
      rw [List.getLast?_cons_cons] at hlast
      exact (List.nodup_cons.1 hrest).1 (List.mem_of_getLast? hlast)

/-- An item is put in front of the list. -/
theorem push (h : Linked l xs) (hnodup : xs.Nodup) (hfirst : l'.next x = xs.head?)
    (hnone : l'.prev x = none) (hnext : ∀ y ∈ xs, l'.next y = l.next y)
    (hhead : ∀ y, xs.head? = some y → l'.prev y = some x)
    (hprev : ∀ y ∈ xs, xs.head? ≠ some y → l'.prev y = l.prev y) : Linked l' (x :: xs) := by
  intro as y bs heq
  cases as with
  | nil =>
      rw [List.nil_append, List.cons.injEq] at heq
      obtain ⟨rfl, rfl⟩ := heq
      exact ⟨hfirst, hnone⟩
  | cons a as =>
      rw [List.cons_append, List.cons.injEq] at heq
      obtain ⟨rfl, rfl⟩ := heq
      have hy : y ∈ as ++ y :: bs := List.mem_append_right _ List.mem_cons_self
      refine ⟨(hnext y hy).trans h.next_eq, ?_⟩
      cases as with
      | nil => exact hhead y rfl
      | cons b as =>
          rw [hprev y hy (head_ne hnodup (List.cons_ne_nil b as)), h.prev_eq,
            List.getLast?_cons_cons]

/-- An item of two lists in a row is in the second or in the first. -/
theorem append_eq_cases {cs ds : List ι} (heq : as ++ bs = cs ++ y :: ds) :
    (∃ es, cs = as ++ es ∧ bs = es ++ y :: ds) ∨ ∃ es, as = cs ++ y :: es ∧ ds = es ++ bs := by
  rcases List.append_eq_append_iff.1 heq with ⟨es, rfl, rfl⟩ | ⟨es, rfl, hes⟩
  · exact Or.inl ⟨es, rfl, rfl⟩
  · cases es with
    | nil => exact Or.inl ⟨[], by rw [List.append_nil, List.append_nil], hes.symm⟩
    | cons e es =>
        rw [List.cons_append, List.cons.injEq] at hes
        obtain ⟨rfl, rfl⟩ := hes
        exact Or.inr ⟨es, rfl, rfl⟩

/-- An item is taken out by linking its two neighbours. -/
theorem unlink [DecidableEq ι] (h : Linked l (as ++ x :: bs)) (hnodup : (as ++ bs).Nodup)
    (hnext : ∀ y ∈ as ++ bs, l'.next y = if as.getLast? = some y then bs.head? else l.next y)
    (hprev : ∀ y ∈ as ++ bs, l'.prev y = if bs.head? = some y then as.getLast? else l.prev y) :
    Linked l' (as ++ bs) := by
  obtain ⟨has, hbs, hdisjoint⟩ := List.nodup_append.1 hnodup
  intro cs y ds heq
  have hy : y ∈ as ++ bs := heq ▸ List.mem_append_right _ List.mem_cons_self
  rw [hnext y hy, hprev y hy]
  rcases append_eq_cases heq with ⟨es, rfl, rfl⟩ | ⟨es, rfl, rfl⟩
  · -- behind the item that is taken out; its predecessor changes when it was next to it
    have hmem : y ∈ es ++ y :: ds := List.mem_append_right _ List.mem_cons_self
    have hlinked : Linked l ((as ++ x :: es) ++ y :: ds) := by
      rw [List.append_assoc, List.cons_append]
      exact h
    rw [if_neg fun hlast => hdisjoint y (List.mem_of_getLast? hlast) y hmem rfl]
    refine ⟨hlinked.next_eq, ?_⟩
    cases es with
    | nil => rw [List.nil_append, List.head?_cons, if_pos rfl, List.append_nil]
    | cons e es =>
        rw [if_neg (head_ne hbs (List.cons_ne_nil e es)), hlinked.prev_eq,
          List.getLast?_append_of_ne_nil _ (List.cons_ne_nil x _), List.getLast?_cons_cons,
          List.getLast?_append_of_ne_nil _ (List.cons_ne_nil e es)]
  · -- before it; its successor changes when it was next to it
    have hmem : y ∈ cs ++ y :: es := List.mem_append_right _ List.mem_cons_self
    have hlinked : Linked l (cs ++ y :: (es ++ x :: bs)) := by
      rw [← List.cons_append, ← List.append_assoc]
      exact h
    rw [if_neg fun hhead => hdisjoint y hmem y (List.mem_of_head? hhead) rfl]
    refine ⟨?_, hlinked.prev_eq⟩
    cases es with
    | nil => rw [List.getLast?_concat, if_pos rfl, List.nil_append]
    | cons e es =>
        rw [if_neg (getLast_ne has (List.cons_ne_nil e es)), hlinked.next_eq, List.cons_append,
          List.cons_append, List.head?_cons, List.head?_cons]

end Linked

end LearningCpp.Library
