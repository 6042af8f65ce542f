import LearningCpp.Library.CString
import LearningCpp.Library.Machine

/-!
The class `String` of `stl/String.cpp`: its members as they work on `m_string` and the heap,
and programs that use them on named objects. `String()` leaves `m_string` null, and `x += x`
appends the new buffer to itself; a program without these two does on its objects what it
says on mathematical strings.
-/

namespace LearningCpp.Stl

open Library

/-- A program, with the objects that exist and what their `m_string` is, and what the
comparisons have given so far. -/
structure Program where
  heap : Heap
  objects : Nat → Option Pointer
  answers : List Bool

/-- An argument of type `const char*`, which may be null. -/
abbrev CharPtr := Option {w : List UInt8 // 0 ∉ w}

/-- `String x(str)`, `String x(y)`, `x = y`, `x += y`, `String x = y + z`, `x == y`, and the end
of the life of `x`. -/
inductive Operation where
  | construct (x : Nat) (str : CharPtr)
  | copy (x y : Nat)
  | assign (x y : Nat)
  | append (x y : Nat)
  | plus (x y z : Nat)
  | equal (x y : Nat)
  | destroy (x : Nat)

namespace Program

def store (p : Program) (x : Nat) (h : Heap) (m_string : Pointer) : Program :=
  {p with heap := h, objects := Function.update p.objects x (some m_string)}

/-- `String::String(const char* str)`; `m_string = '\0'` makes the pointer null. -/
def construct (p : Program) (x : Nat) (str : CharPtr) : Option Program :=
  match str with
  | none => some (p.store x (p.heap.allocate 1) none)
  | some str => do
      let h ← (p.heap.allocate (str.val.length + 1)).write p.heap.next 0 str.val
      return p.store x h (some p.heap.next)

/-- `String::String(const String& other)` -/
def copy (p : Program) (x y : Nat) : Option Program := do
  let other ← p.objects y
  let n ← p.heap.strlen other
  let h ← (p.heap.allocate (n + 1)).strcpy (some p.heap.next) other
  return p.store x h (some p.heap.next)

/-- `operator=`, which does nothing on the object itself. -/
def assign (p : Program) (x y : Nat) : Option Program := do
  let m_string ← p.objects x
  let other ← p.objects y
  if x = y then
    return p
  let freed ← p.heap.free m_string
  let n ← freed.strlen other
  let h ← (freed.allocate (n + 1)).strcpy (some freed.next) other
  return p.store x h (some freed.next)

/-- `operator+=`; `other.m_string` is read again after `m_string` was replaced. -/
def append (p : Program) (x y : Nat) : Option Program := do
  let tmp ← p.objects x
  let other ← p.objects y
  let n ← p.heap.strlen tmp
  let k ← p.heap.strlen other
  let copied ← (p.heap.allocate (n + k + 1)).strcpy (some p.heap.next) tmp
  let freed ← copied.free tmp
  let other' ← (p.store x freed (some p.heap.next)).objects y
  let h ← freed.strcat (some p.heap.next) other'
  return p.store x h (some p.heap.next)

/-- `operator+`, whose result `tmp` is the new object. -/
def plus (p : Program) (x y z : Nat) : Option Program := do
  let m_string ← p.objects y
  let other ← p.objects z
  let tmp ← p.construct x none
  let n ← tmp.heap.strlen m_string
  let k ← tmp.heap.strlen other
  let copied ← (tmp.heap.allocate (n + k + 1)).strcpy (some tmp.heap.next) m_string
  let h ← copied.strcat (some tmp.heap.next) other
  return tmp.store x h (some tmp.heap.next)

/-- `operator==` -/
def equal (p : Program) (x y : Nat) : Option Program := do
  let m_string ← p.objects x
  let other ← p.objects y
  let c ← p.heap.strcmp m_string other
  return {p with answers := p.answers ++ [decide (c = .eq)]}

/-- `String::~String()` -/
def destroy (p : Program) (x : Nat) : Option Program := do
  let m_string ← p.objects x
  let h ← p.heap.free m_string
  return {p with heap := h, objects := Function.update p.objects x none}

/-- The next operation; `none` when it is undefined. A constructed object is a new one. -/
def step (p : Program) : Operation → Option Program
  | .construct x str => if p.objects x = none then p.construct x str else none
  | .copy x y => if p.objects x = none then p.copy x y else none
  | .assign x y => p.assign x y
  | .append x y => p.append x y
  | .plus x y z => if p.objects x = none then p.plus x y z else none
  | .equal x y => p.equal x y
  | .destroy x => p.destroy x

def start : Program := {heap := ⟨[]⟩, objects := fun _ => none, answers := []}

end Program

/-- The same program on mathematical strings. -/
structure Texts where
  contents : Nat → Option (List UInt8)
  answers : List Bool

namespace Texts

def store (t : Texts) (x : Nat) (w : List UInt8) : Texts :=
  {t with contents := Function.update t.contents x (some w)}

/-- The next operation; `none` when it names an object that does not exist, or constructs one
that does. -/
def step (t : Texts) : Operation → Option Texts
  | .construct x none => if t.contents x = none then some (t.store x []) else none
  | .construct x (some str) => if t.contents x = none then some (t.store x str.val) else none
  | .copy x y => if t.contents x = none then (t.contents y).map (t.store x) else none
  | .assign x y => do
      let _ ← t.contents x
      let w ← t.contents y
      return t.store x w
  | .append x y => do
      let v ← t.contents x
      let w ← t.contents y
      return t.store x (v ++ w)
  | .plus x y z =>
      if t.contents x = none then do
        let v ← t.contents y
        let w ← t.contents z
        return t.store x (v ++ w)
      else none
  | .equal x y => do
      let v ← t.contents x
      let w ← t.contents y
      return {t with answers := t.answers ++ [decide (v = w)]}
  | .destroy x => do
      let _ ← t.contents x
      return {t with contents := Function.update t.contents x none}

def start : Texts := {contents := fun _ => none, answers := []}

end Texts

/-- Every `m_string` is a pointer to a terminated string, which is the mathematical one, and
the comparisons gave the same. -/
structure Represents (p : Program) (t : Texts) : Prop where
  absent : ∀ {x}, t.contents x = none → p.objects x = none
  text : ∀ {x w}, t.contents x = some w →
    ∃ m_string, p.objects x = some m_string ∧ p.heap.string m_string = some w
  answers : p.answers = t.answers

/-- No two objects share a buffer. -/
structure Refines (p : Program) (t : Texts) : Prop extends Represents p t where
  apart : ∀ {x y m_string}, p.objects x = some m_string → p.objects y = some m_string → x = y

/-- The operation is neither `String()` nor `x += x`. -/
def Operation.Proper : Operation → Prop
  | .construct _ none => False
  | .append x y => x ≠ y
  | _ => True

namespace Refines

variable {p : Program} {t : Texts} {x y : Nat} {w : List UInt8}

/-- An object gets a fresh buffer, and its old one may have been freed. -/
theorem store (h : Refines p t) {heap : Heap} {freed : Pointer} {a n : Nat}
    (hstored : p.heap.Stored heap freed a n w)
    (hfreed : freed = none ∨ p.objects x = some freed) :
    Refines (p.store x heap (some a)) (t.store x w) := by
  have hother {y : Nat} {m_string : Pointer} {v : List UInt8} (hne : y ≠ x)
      (hobject : p.objects y = some m_string) (hstring : p.heap.string m_string = some v) :
      m_string ≠ freed := by
    rintro rfl
    obtain rfl | hsame := hfreed
    · cases hstring
    · exact hne (h.apart hobject hsame)
  refine ⟨⟨?_, ?_, h.answers⟩, ?_⟩
  · intro y habsent
    simp only [Texts.store, Program.store, Function.update_apply] at habsent ⊢
    split at habsent
    next => cases habsent
    next hne =>
      rw [if_neg hne]
      exact h.absent habsent
  · intro y v hcontents
    simp only [Texts.store, Program.store, Function.update_apply] at hcontents ⊢
    split at hcontents
    next heq =>
      cases hcontents
      exact ⟨some a, if_pos heq, hstored.string⟩
    next hne =>
      obtain ⟨m_string, hobject, hstring⟩ := h.text hcontents
      refine ⟨m_string, (if_neg hne).trans hobject, ?_⟩
      exact hstored.keeps m_string (hother hne hobject hstring) v hstring
  · have hfresh {y : Nat} : p.objects y ≠ some (some a) := by
      intro hobject
      cases hcontents : t.contents y with
      | none => exact absurd ((h.absent hcontents).symm.trans hobject) nofun
      | some v =>
        obtain ⟨m_string, hobject', hstring⟩ := h.text hcontents
        cases hobject.symm.trans hobject'
        exact Heap.ne_of_fresh hstring hstored.fresh rfl
    intro y z m_string hobject hobject'
    simp only [Program.store, Function.update_apply] at hobject hobject'
    split at hobject
    next heq =>
      cases hobject
      split at hobject'
      next heq' =>
        exact heq.trans heq'.symm
      next => exact absurd hobject' hfresh
    next =>
      split at hobject'
      · cases hobject'
        exact absurd hobject hfresh
      · exact h.apart hobject hobject'

theorem construct (h : Refines p t) (str : {w : List UInt8 // 0 ∉ w}) :
    ∃ p', p.construct x (some str) = some p' ∧ Refines p' (t.store x str.val) := by
  obtain ⟨heap, hwrite, hstored⟩ := Heap.stored_write (h := p.heap) str.2 (Nat.lt_succ_self _)
  refine ⟨_, ?_, h.store hstored (Or.inl rfl)⟩
  simp [Program.construct, hwrite]

theorem copy (h : Refines p t) (hy : t.contents y = some w) :
    ∃ p', p.copy x y = some p' ∧ Refines p' (t.store x w) := by
  obtain ⟨other, hobject, hstring⟩ := h.text hy
  obtain ⟨heap, hcopy, hstored⟩ := Heap.stored_strcpy hstring (Nat.lt_succ_self _)
  refine ⟨_, ?_, h.store hstored (Or.inl rfl)⟩
  simp [Program.copy, hobject, Heap.strlen_eq hstring, hcopy]

theorem assign (h : Refines p t) {v : List UInt8} (hx : t.contents x = some v)
    (hy : t.contents y = some w) :
    ∃ p', p.assign x y = some p' ∧ Refines p' (t.store x w) := by
  obtain ⟨m_string, hobject, hstring⟩ := h.text hx
  obtain ⟨other, hobject', hstring'⟩ := h.text hy
  by_cases heq : x = y
  · have hsame : t.store x w = t := by
      rw [heq, Texts.store, ← hy, Function.update_eq_self]
    exact ⟨p, by simp [Program.assign, hobject', heq], hsame.symm ▸ h⟩
  · have hother : other ≠ m_string := by
      rintro rfl
      exact heq (h.apart hobject hobject')
    obtain ⟨freed, hfree, hkeeps, hnext⟩ := Heap.free_of_string hstring
    have hstring'' := hkeeps other hother w hstring'
    obtain ⟨heap, hcopy, hstored⟩ := Heap.stored_strcpy hstring'' (Nat.lt_succ_self _)
    refine ⟨_, ?_, h.store (hstored.after hkeeps hnext.ge) (Or.inr hobject)⟩
    simp [Program.assign, hobject, hobject', heq, hfree, Heap.strlen_eq hstring'', hcopy]

theorem append (h : Refines p t) {v : List UInt8} (hx : t.contents x = some v)
    (hy : t.contents y = some w) (hne : x ≠ y) :
    ∃ p', p.append x y = some p' ∧ Refines p' (t.store x (v ++ w)) := by
  obtain ⟨tmp, hobject, hstring⟩ := h.text hx
  obtain ⟨other, hobject', hstring'⟩ := h.text hy
  have hother : other ≠ tmp := by
    rintro rfl
    exact hne (h.apart hobject hobject')
  obtain ⟨copied, hcopy, hstored⟩ :=
    Heap.stored_strcpy (n := v.length + w.length + 1) hstring (by omega)
  obtain ⟨freed, hfree, hstored'⟩ := hstored.free hstring
  obtain ⟨heap, hcat, hstored''⟩ := hstored'.strcat hstring' hother (by omega)
  refine ⟨_, ?_, h.store hstored'' (Or.inr hobject)⟩
  simp [Program.append, Program.store, Function.update_of_ne hne.symm, hobject, hobject',
    Heap.strlen_eq hstring, Heap.strlen_eq hstring', hcopy, hfree, hcat]

theorem plus (h : Refines p t) {z : Nat} {v : List UInt8} (hy : t.contents y = some v)
    (hz : t.contents z = some w) :
    ∃ p', p.plus x y z = some p' ∧ Refines p' (t.store x (v ++ w)) := by
  obtain ⟨m_string, hobject, hstring⟩ := h.text hy
  obtain ⟨other, hobject', hstring'⟩ := h.text hz
  have hkeeps : p.heap.Keeps (p.heap.allocate 1) none := by
    intro q _ u hold
    exact Heap.string_allocate hold
  have hnext : p.heap.next ≤ (p.heap.allocate 1).next := by
    simp [Heap.next, Heap.allocate]
  have hfirst := Heap.string_allocate (n := 1) hstring
  have hsecond := Heap.string_allocate (n := 1) hstring'
  obtain ⟨copied, hcopy, hstored⟩ :=
    Heap.stored_strcpy (n := v.length + w.length + 1) hfirst (by omega)
  have hnotnull : other ≠ none := by
    rintro rfl
    cases hstring'
  obtain ⟨heap, hcat, hstored'⟩ := hstored.strcat hsecond hnotnull (by omega)
  have hfinal := h.store (x := x) (hstored'.after hkeeps hnext) (Or.inl rfl)
  refine ⟨_, ?_, hfinal⟩
  simp [Program.plus, Program.construct, Program.store, hobject, hobject', Heap.strlen_eq hfirst,
    Heap.strlen_eq hsecond, hcopy, hcat]

theorem equal (h : Refines p t) {v : List UInt8} (hx : t.contents x = some v)
    (hy : t.contents y = some w) :
    ∃ p', p.equal x y = some p' ∧
      Refines p' {t with answers := t.answers ++ [decide (v = w)]} := by
  obtain ⟨m_string, hobject, hstring⟩ := h.text hx
  obtain ⟨other, hobject', hstring'⟩ := h.text hy
  obtain ⟨c, hcompare, hanswer⟩ :=
    Option.map_eq_some_iff.1 (Heap.strcmp_eq_iff hstring hstring')
  refine ⟨{p with answers := p.answers ++ [decide (c = .eq)]}, ?_, ?_⟩
  · simp [Program.equal, hobject, hobject', hcompare]
  refine ⟨⟨h.absent, h.text, ?_⟩, h.apart⟩
  rw [h.answers, hanswer]

theorem destroy (h : Refines p t) (hx : t.contents x = some w) :
    ∃ p', p.destroy x = some p' ∧
      Refines p' {t with contents := Function.update t.contents x none} := by
  obtain ⟨m_string, hobject, hstring⟩ := h.text hx
  obtain ⟨heap, hfree, hkeeps, -⟩ := Heap.free_of_string hstring
  refine ⟨{p with heap := heap, objects := Function.update p.objects x none}, ?_, ?_⟩
  · simp [Program.destroy, hobject, hfree]
  refine ⟨⟨?_, ?_, h.answers⟩, ?_⟩
  · intro y habsent
    simp only [Function.update_apply] at habsent ⊢
    split
    next => rfl
    next hne =>
      rw [if_neg hne] at habsent
      exact h.absent habsent
  · intro y v hcontents
    simp only [Function.update_apply] at hcontents ⊢
    split at hcontents
    next => cases hcontents
    next hne =>
      obtain ⟨other, hobject', hstring'⟩ := h.text hcontents
      refine ⟨other, (if_neg hne).trans hobject', hkeeps other ?_ v hstring'⟩
      rintro rfl
      exact hne (h.apart hobject' hobject)
  · intro y z other hobject' hobject''
    simp only [Function.update_apply] at hobject' hobject''
    split at hobject'
    · cases hobject'
    · split at hobject''
      · cases hobject''
      · exact h.apart hobject' hobject''

/-- A proper operation is defined and does what it does on mathematical strings. -/
theorem step (h : Refines p t) {t' : Texts} {a : Operation} (hproper : a.Proper)
    (hstep : t.step a = some t') : ∃ p', p.step a = some p' ∧ Refines p' t' := by
  cases a with
  | construct x str =>
    cases str with
    | none => exact hproper.elim
    | some str =>
      simp only [Texts.step, Option.ite_none_right_eq_some, Option.some.injEq] at hstep
      obtain ⟨habsent, rfl⟩ := hstep
      rw [Program.step, if_pos (h.absent habsent)]
      exact h.construct str
  | copy x y =>
    simp only [Texts.step, Option.ite_none_right_eq_some, Option.map_eq_some_iff] at hstep
    obtain ⟨habsent, w, hy, rfl⟩ := hstep
    rw [Program.step, if_pos (h.absent habsent)]
    exact h.copy hy
  | assign x y =>
    simp only [Texts.step, Option.bind_eq_bind, Option.bind_eq_some_iff, Option.pure_def,
      Option.some.injEq] at hstep
    obtain ⟨v, hx, w, hy, rfl⟩ := hstep
    exact h.assign hx hy
  | append x y =>
    simp only [Texts.step, Option.bind_eq_bind, Option.bind_eq_some_iff, Option.pure_def,
      Option.some.injEq] at hstep
    obtain ⟨v, hx, w, hy, rfl⟩ := hstep
    exact h.append hx hy hproper
  | plus x y z =>
    simp only [Texts.step, Option.ite_none_right_eq_some, Option.bind_eq_bind,
      Option.bind_eq_some_iff, Option.pure_def, Option.some.injEq] at hstep
    obtain ⟨habsent, v, hy, w, hz, rfl⟩ := hstep
    rw [Program.step, if_pos (h.absent habsent)]
    exact h.plus hy hz
  | equal x y =>
    simp only [Texts.step, Option.bind_eq_bind, Option.bind_eq_some_iff, Option.pure_def,
      Option.some.injEq] at hstep
    obtain ⟨v, hx, w, hy, rfl⟩ := hstep
    exact h.equal hx hy
  | destroy x =>
    simp only [Texts.step, Option.bind_eq_bind, Option.bind_eq_some_iff, Option.pure_def,
      Option.some.injEq] at hstep
    obtain ⟨w, hx, rfl⟩ := hstep
    exact h.destroy hx

end Refines

/-- After `String()` the pointer is null, and `x += x` is not defined: `strcat` is called on one
buffer. -/
theorem not_represents_of_not_proper {p p' : Program} {t t' : Texts} {a : Operation}
    (hnot : ¬a.Proper) (hstep : p.step a = some p') (hstep' : t.step a = some t') :
    ¬Represents p' t' := by
  intro h
  cases a with
  | construct x str =>
    cases str with
    | some str => exact hnot trivial
    | none =>
      simp only [Texts.step, Option.ite_none_right_eq_some, Option.some.injEq] at hstep'
      obtain ⟨-, rfl⟩ := hstep'
      simp only [Program.step, Program.construct, Option.ite_none_right_eq_some,
        Option.some.injEq] at hstep
      obtain ⟨-, rfl⟩ := hstep
      obtain ⟨m_string, hobject, hstring⟩ := h.text (x := x) (Function.update_self ..)
      have hnull : (p.store x (p.heap.allocate 1) none).objects x = some none :=
        Function.update_self ..
      cases hnull.symm.trans hobject
      cases hstring
  | append x y =>
    have heq : x = y := by simpa [Operation.Proper] using hnot
    rw [heq] at hstep
    simp [Program.step, Program.append, Program.store, Heap.strcat] at hstep
  | copy => exact hnot trivial
  | assign => exact hnot trivial
  | plus => exact hnot trivial
  | equal => exact hnot trivial
  | destroy => exact hnot trivial

/-- A sequence of operations on objects that exist does on them, at each of its operations,
what it does on mathematical strings, if and only if it has no `String()` and no `x += x`. -/
theorem string_operations_iff (ops : List Operation) (t : Texts)
    (hnamed : runSteps Texts.step Texts.start ops = some t) :
    (∀ pre, pre <+: ops → ∃ p u, runSteps Program.step Program.start pre = some p ∧
      runSteps Texts.step Texts.start pre = some u ∧ Represents p u) ↔ ∀ a ∈ ops, a.Proper := by
  refine refines_iff (R := Refines) (V := Represents) Refines.toRepresents ?_ ?_ ?_ hnamed
  · intro p u u' a h hproper hstep
    exact h.step hproper hstep
  · intro p p' u u' a _ hnot hstep hstep'
    exact not_represents_of_not_proper hnot hstep hstep'
  · exact ⟨⟨fun _ => rfl, nofun, rfl⟩, nofun⟩

/-- `String a("hi"); String b(a); b += a; a = a; String c = a + b; a == b` -/
theorem string_operations_iff_six :
    ∃ p, runSteps Program.step Program.start [Operation.construct 0 (some ⟨[104, 105], by decide⟩),
        Operation.copy 1 0, Operation.append 1 0, Operation.assign 0 0, Operation.plus 2 0 1,
        Operation.equal 0 1] = some p ∧ p.answers = [false] := by
  have hnamed : runSteps Texts.step Texts.start
      [Operation.construct 0 (some ⟨[104, 105], by decide⟩), Operation.copy 1 0,
        Operation.append 1 0, Operation.assign 0 0, Operation.plus 2 0 1,
        Operation.equal 0 1] = some _ := rfl
  obtain ⟨p, u, hrun, hnamed', h⟩ :=
    (string_operations_iff _ _ hnamed).2 (by simp [Operation.Proper]) _ (List.prefix_refl _)
  refine ⟨p, hrun, h.answers.trans ?_⟩
  cases hnamed.symm.trans hnamed'
  rfl

/-- `String c;` leaves the pointer null, so that `String d(c);` is not defined; and
`String a("h"); a += a;` is not. On mathematical strings both are. -/
theorem string_default_and_self_append :
    (runSteps Program.step Program.start [Operation.construct 0 none]).map (fun p => p.objects 0) =
        some (some none) ∧
      runSteps Program.step Program.start [Operation.construct 0 none, Operation.copy 1 0] =
        none ∧
      (runSteps Texts.step Texts.start [Operation.construct 0 none, Operation.copy 1 0]).map
        (fun t => t.contents 1) = some (some []) ∧
      runSteps Program.step Program.start [Operation.construct 0 (some ⟨[104], by decide⟩),
        Operation.append 0 0] = none ∧
      (runSteps Texts.step Texts.start [Operation.construct 0 (some ⟨[104], by decide⟩),
        Operation.append 0 0]).map (fun t => t.contents 0) = some (some [104, 104]) :=
  ⟨rfl, rfl, rfl, rfl, rfl⟩

end LearningCpp.Stl
