import Mathlib.Tactic
import LearningCpp.Library.DoublyLinked
import LearningCpp.Library.Machine

/-!
The list macros of `zl_threadpool/01_simple_threadPool`, assignment by assignment. The
jobs and the workers of a pool carry their links themselves, and these hold anything
before an item is first inserted.
-/

namespace LearningCpp.SimplePool

open LearningCpp.Library

universe u

/-- The head of a list, and the links of all items there are. -/
structure LinkedList (ι : Type u) extends Links ι where
  list : Option ι

variable {ι : Type u} [DecidableEq ι]

/-- `LL_INSERT(item, list)` -/
def LL_INSERT (item : ι) (l : LinkedList ι) : LinkedList ι :=
  let l := {l with prev := Function.update l.prev item none}
  let l := {l with next := Function.update l.next item l.list}
  let l :=
    match l.list with
    | some first => {l with prev := Function.update l.prev first (some item)}
    | none => l
  {l with list := some item}

/-- `LL_REMOVE(item, list)` -/
def LL_REMOVE (item : ι) (l : LinkedList ι) : LinkedList ι :=
  let l :=
    match l.prev item with
    | some before => {l with next := Function.update l.next before (l.next item)}
    | none => l
  let l :=
    match l.next item with
    | some after => {l with prev := Function.update l.prev after (l.prev item)}
    | none => l
  let l := if l.list = some item then {l with list := l.next item} else l
  let l := {l with next := Function.update l.next item none}
  {l with prev := Function.update l.prev item none}

section Assignments

variable (item y : ι) (l : LinkedList ι)

private theorem LL_INSERT_list : (LL_INSERT item l).list = some item := rfl

theorem LL_INSERT_next :
    (LL_INSERT item l).next y = if y = item then l.list else l.next y := by
  cases hlist : l.list <;> simp [LL_INSERT, hlist, Function.update_apply]

theorem LL_INSERT_prev :
    (LL_INSERT item l).prev y =
      if l.list = some y then some item else if y = item then none else l.prev y := by
  cases hlist : l.list <;> simp [LL_INSERT, hlist, Function.update_apply, eq_comm]

private theorem LL_REMOVE_list :
    (LL_REMOVE item l).list = if l.list = some item then l.next item else l.list := by
  by_cases hlist : l.list = some item <;> cases hprev : l.prev item <;>
    cases hnext : l.next item <;> simp [LL_REMOVE, hlist, hprev, hnext, Function.update_apply]

theorem LL_REMOVE_next :
    (LL_REMOVE item l).next y =
      if y = item then none else if l.prev item = some y then l.next item else l.next y := by
  by_cases hlist : l.list = some item <;> cases hprev : l.prev item <;>
    cases hnext : l.next item <;>
    simp [LL_REMOVE, hlist, hprev, hnext, Function.update_apply, @eq_comm _ y]

theorem LL_REMOVE_prev :
    (LL_REMOVE item l).prev y =
      if y = item then none else if l.next item = some y then l.prev item else l.prev y := by
  by_cases hlist : l.list = some item <;> cases hprev : l.prev item <;>
    cases hnext : l.next item <;>
    simp [LL_REMOVE, hlist, hprev, hnext, Function.update_apply, @eq_comm _ y]

end Assignments

/-- The items of the list, in its order. -/
structure Represents (l : LinkedList ι) (xs : List ι) : Prop where
  nodup : xs.Nodup
  list_eq : l.list = xs.head?
  linked : Linked l.toLinks xs

/-- An item that is not in the list is linked to nothing. -/
def Cleared (l : LinkedList ι) (xs : List ι) (x : ι) : Prop :=
  x ∉ xs → l.next x = none ∧ l.prev x = none

namespace Represents

variable {l : LinkedList ι} {xs : List ι} {x item : ι}

omit [DecidableEq ι] in
theorem empty (hlist : l.list = none) : Represents l [] where
  nodup := List.nodup_nil
  list_eq := hlist
  linked := Linked.nil l.toLinks

omit [DecidableEq ι] in
theorem list_eq_none_iff (h : Represents l xs) : l.list = none ↔ xs = [] := by
  rw [h.list_eq, List.head?_eq_none_iff]

theorem insert (h : Represents l xs) (hnew : item ∉ xs) :
    Represents (LL_INSERT item l) (item :: xs) where
  nodup := List.nodup_cons.2 ⟨hnew, h.nodup⟩
  list_eq := LL_INSERT_list item l
  linked := by
    have hne : ∀ y ∈ xs, y ≠ item := fun y hy heq => hnew (heq ▸ hy)
    apply h.linked.push h.nodup
    · rw [LL_INSERT_next, if_pos rfl, h.list_eq]
    · rw [LL_INSERT_prev, h.list_eq, if_neg fun hhead => hnew (List.mem_of_head? hhead),
        if_pos rfl]
    · intro y hy
      rw [LL_INSERT_next, if_neg (hne y hy)]
    · intro y hhead
      rw [LL_INSERT_prev, h.list_eq, if_pos hhead]
    · intro y hy hhead
      rw [LL_INSERT_prev, h.list_eq, if_neg hhead, if_neg (hne y hy)]

theorem remove (h : Represents l xs) (hitem : item ∈ xs) :
    Represents (LL_REMOVE item l) (xs.erase item) := by
  obtain ⟨as, bs, rfl⟩ := List.append_of_mem hitem
  have hnodup := h.nodup.erase item
  obtain ⟨has, hrest, hdisjoint⟩ := List.nodup_append.1 h.nodup
  have hnotin : item ∉ as := fun hmem => hdisjoint item hmem item List.mem_cons_self rfl
  rw [List.erase_append_right _ hnotin, List.erase_cons_head] at hnodup ⊢
  have hne : ∀ y ∈ as ++ bs, y ≠ item := by
    rintro y hy rfl
    rcases List.mem_append.1 hy with hmem | hmem
    · exact hnotin hmem
    · exact (List.nodup_cons.1 hrest).1 hmem
  refine ⟨hnodup, ?_, ?_⟩
  · rw [LL_REMOVE_list, h.list_eq, h.linked.next_eq]
    cases as with
    | nil => rw [List.nil_append, List.head?_cons, if_pos rfl, List.nil_append]
    | cons a as =>
        rw [if_neg (Linked.head_ne h.nodup (List.cons_ne_nil a as))]
        rfl
  · apply h.linked.unlink hnodup
    · intro y hy
      rw [LL_REMOVE_next, if_neg (hne y hy), h.linked.prev_eq, h.linked.next_eq]
    · intro y hy
      rw [LL_REMOVE_prev, if_neg (hne y hy), h.linked.prev_eq, h.linked.next_eq]

/-- The links of what is not in the list are left alone. -/
theorem insert_cleared (h : Represents l xs) (hcleared : Cleared l xs x) :
    Cleared (LL_INSERT item l) (item :: xs) x := by
  intro hx
  obtain ⟨hne, hout⟩ := not_or.1 (List.mem_cons.not.1 hx)
  obtain ⟨hnext, hprev⟩ := hcleared hout
  constructor
  · rw [LL_INSERT_next, if_neg hne, hnext]
  · rw [LL_INSERT_prev, h.list_eq, if_neg fun hhead => hout (List.mem_of_head? hhead),
      if_neg hne, hprev]

omit [DecidableEq ι] in
/-- The neighbours of an item of the list are in the list. -/
theorem neighbours (h : Represents l xs) (hitem : item ∈ xs) (hout : x ∉ xs) :
    l.prev item ≠ some x ∧ l.next item ≠ some x :=
  ⟨fun hprev => hout (h.linked.next_of_prev hitem hprev).1,
    fun hnext => hout (h.linked.prev_of_next hitem hnext).1⟩

theorem remove_cleared (h : Represents l xs) (hitem : item ∈ xs)
    (hcleared : x = item ∨ Cleared l xs x) : Cleared (LL_REMOVE item l) (xs.erase item) x := by
  intro hx
  rw [LL_REMOVE_next, LL_REMOVE_prev]
  rcases eq_or_ne x item with rfl | hne
  · rw [if_pos rfl, if_pos rfl]
    exact ⟨rfl, rfl⟩
  · have hout : x ∉ xs := fun hmem => hx ((List.mem_erase_of_ne hne).2 hmem)
    obtain ⟨hprev, hnext⟩ := h.neighbours hitem hout
    rw [if_neg hne, if_neg hne, if_neg hprev, if_neg hnext]
    exact hcleared.resolve_left hne hout

end Represents

/-- An item is inserted or removed. -/
inductive Op (ι : Type u) where
  | insert (item : ι)
  | remove (item : ι)
  deriving DecidableEq, Repr

def LinkedList.apply (l : LinkedList ι) : Op ι → LinkedList ι
  | .insert item => LL_INSERT item l
  | .remove item => LL_REMOVE item l

/-- What the macros are for: the items inserted and not removed, newest first. An item is
inserted only when it is not in the list, and removed only when it is. -/
def items (xs : List ι) : Op ι → Option (List ι)
  | .insert item => if item ∈ xs then none else some (item :: xs)
  | .remove item => if item ∈ xs then some (xs.erase item) else none

/-- One macro. -/
theorem Represents.apply {l : LinkedList ι} {xs ys : List ι} (h : Represents l xs) (op : Op ι)
    (hitems : items xs op = some ys) :
    Represents (l.apply op) ys ∧
      ∀ x, op = .remove x ∨ Cleared l xs x → Cleared (l.apply op) ys x := by
  cases op with
  | insert item =>
      rw [items, Option.ite_none_left_eq_some, Option.some.injEq] at hitems
      obtain ⟨hnew, rfl⟩ := hitems
      refine ⟨h.insert hnew, ?_⟩
      rintro x (hremove | hcleared)
      · cases hremove
      · exact h.insert_cleared hcleared
  | remove item =>
      rw [items, Option.ite_none_right_eq_some, Option.some.injEq] at hitems
      obtain ⟨hitem, rfl⟩ := hitems
      refine ⟨h.remove hitem, ?_⟩
      rintro x (hremove | hcleared)
      · cases hremove
        exact h.remove_cleared hitem (Or.inl rfl)
      · exact h.remove_cleared hitem (Or.inr hcleared)

/-- A run of them. -/
theorem Represents.run {l : LinkedList ι} {xs ys : List ι} (h : Represents l xs) (ops : List (Op ι))
    (hitems : runSteps items xs ops = some ys) :
    Represents (ops.foldl LinkedList.apply l) ys ∧
      ∀ x, .remove x ∈ ops ∨ Cleared l xs x → Cleared (ops.foldl LinkedList.apply l) ys x := by
  induction ops generalizing l xs with
  | nil =>
      cases hitems
      refine ⟨h, ?_⟩
      rintro x (hremove | hcleared)
      · cases hremove
      · exact hcleared
  | cons op ops ih =>
      obtain ⟨xs', hfirst, hrest⟩ := runSteps_cons_iff.1 hitems
      obtain ⟨hrep, hclears⟩ := h.apply op hfirst
      obtain ⟨hend, hcleared⟩ := ih hrep hrest
      refine ⟨hend, ?_⟩
      rintro x (hremove | hbefore)
      · rcases List.mem_cons.1 hremove with rfl | hremove
        · exact hcleared x (Or.inr (hclears x (Or.inl rfl)))
        · exact hcleared x (Or.inl hremove)
      · exact hcleared x (Or.inr (hclears x (Or.inr hbefore)))

/-- Following `next` from the head visits the items, `prev` is the inverse of `next`, and
nothing is before the head. -/
structure WellFormed (l : LinkedList ι) (xs : List ι) : Prop where
  visits : Visits l.next l.list xs
  inverse : ∀ x y, x ∈ xs ∧ l.next x = some y ↔ y ∈ xs ∧ l.prev y = some x
  head : ∀ x, l.list = some x → l.prev x = none

omit [DecidableEq ι] in
theorem Represents.wellFormed {l : LinkedList ι} {xs : List ι} (h : Represents l xs) :
    WellFormed l xs where
  visits := h.list_eq ▸ h.linked.visits
  inverse := fun _ _ =>
    ⟨fun ⟨hx, hnext⟩ => h.linked.prev_of_next hx hnext,
      fun ⟨hy, hprev⟩ => h.linked.next_of_prev hy hprev⟩
  head := fun _ hhead => h.linked.prev_head (h.list_eq ▸ hhead)

end LearningCpp.SimplePool
