import Mathlib.Tactic

/-!
Strings in the blocks of a heap, as the C library works on them. A string is what stands
before the first null byte of a block. Every function is undefined on a pointer to no
string, `strcpy` and `strcat` also where the two strings overlap or the block they write to
is too small.
-/

namespace LearningCpp.Library

/-- The bytes of a block; those that were never written are `none`. -/
abbrev Block := List (Option UInt8)

/-- A pointer that is null or points to the first byte of a block. -/
abbrev Pointer := Option Nat

/-- All blocks that were allocated, in this order; `none` for one that was freed. -/
structure Heap where
  blocks : List (Option Block)
  deriving DecidableEq, Repr

/-- The bytes before the first null byte, when all of them were written. -/
def textOf : Block → Option (List UInt8)
  | [] => none
  | none :: _ => none
  | some c :: rest => if c = 0 then some [] else (textOf rest).map fun w => c :: w

theorem textOf_append {w : List UInt8} (hw : 0 ∉ w) (rest : Block) :
    textOf (w.map some ++ some 0 :: rest) = some w := by
  induction w with
  | nil => rfl
  | cons c w ih =>
    rw [List.mem_cons, not_or] at hw
    simp [textOf, ih hw.2, Ne.symm hw.1]

/-- Text that was written with a null byte behind it is read up to its first one. -/
theorem textOf_terminated (w : List UInt8) (rest : Block) :
    textOf ((w ++ [0]).map some ++ rest) = some (w.takeWhile (fun c => c ≠ 0)) := by
  induction w with
  | nil => rfl
  | cons c w ih =>
    by_cases hc : c = 0
    · simp [textOf, hc]
    · simp only [List.cons_append, List.map_cons, textOf, if_neg hc, ih]
      simp [hc]

theorem eq_of_textOf {b : Block} {w : List UInt8} (h : textOf b = some w) :
    0 ∉ w ∧ ∃ rest, b = w.map some ++ some 0 :: rest := by
  induction b generalizing w with
  | nil => cases h
  | cons c rest ih =>
    cases c with
    | none => cases h
    | some c =>
      rw [textOf] at h
      split at h
      next hzero =>
        cases h
        exact ⟨List.not_mem_nil, rest, by simp [hzero]⟩
      next hzero =>
        obtain ⟨v, hv, rfl⟩ := Option.map_eq_some_iff.1 h
        obtain ⟨hnot, tail, rfl⟩ := ih hv
        exact ⟨by simp [hnot, Ne.symm hzero], tail, rfl⟩

namespace Heap

/-- The block that a pointer points to, if it was not freed. -/
def block (h : Heap) (p : Pointer) : Option Block :=
  p.bind fun a => h.blocks[a]?.join

/-- The string that a pointer points to. -/
def string (h : Heap) (p : Pointer) : Option (List UInt8) :=
  (h.block p).bind textOf

/-- `new char[size]` -/
def allocate (h : Heap) (size : Nat) : Heap :=
  ⟨h.blocks ++ [some (List.replicate size none)]⟩

/-- Where the next block will be. -/
def next (h : Heap) : Nat := h.blocks.length

/-- `delete[]` takes null, or a block that was not freed. -/
def free (h : Heap) (p : Pointer) : Option Heap :=
  match p with
  | none => some h
  | some a => (h.block (some a)).map fun _ => ⟨h.blocks.set a none⟩

/-- A string is written into a block with its null byte. -/
def write (h : Heap) (a offset : Nat) (w : List UInt8) : Option Heap :=
  (h.block (some a)).bind fun b =>
    if offset + w.length < b.length then
      some ⟨h.blocks.set a (some (b.take offset ++ (w.map some ++ some 0 ::
        b.drop (offset + w.length + 1))))⟩
    else none

def strlen (h : Heap) (p : Pointer) : Option Nat :=
  (h.string p).map List.length

def strcmp (h : Heap) (p q : Pointer) : Option Ordering :=
  (h.string p).bind fun v => (h.string q).map fun w => compare v w

def strcpy (h : Heap) (dst src : Pointer) : Option Heap :=
  if dst = src then none
  else dst.bind fun a => (h.string src).bind fun w => h.write a 0 w

def strcat (h : Heap) (dst src : Pointer) : Option Heap :=
  if dst = src then none
  else dst.bind fun a => (h.string dst).bind fun v =>
    (h.string src).bind fun w => h.write a v.length w

variable {h h' : Heap} {p q : Pointer} {a n : Nat} {v w : List UInt8}

theorem lt_next_of_string (hstring : h.string (some a) = some w) : a < h.next := by
  by_contra hge
  have hnone : h.blocks[a]? = none := List.getElem?_eq_none (Nat.le_of_not_lt hge)
  simp [string, block, hnone] at hstring

theorem strlen_eq (hstring : h.string p = some w) : h.strlen p = some w.length := by
  rw [strlen, hstring, Option.map_some]

theorem strcmp_eq_iff (hstring : h.string p = some v) (hstring' : h.string q = some w) :
    (h.strcmp p q).map (fun o => decide (o = .eq)) = some (decide (v = w)) := by
  simp [strcmp, hstring, hstring']

/-- The strings at other addresses are still there. -/
def Keeps (h h' : Heap) (p : Pointer) : Prop :=
  ∀ q, q ≠ p → ∀ w, h.string q = some w → h'.string q = some w

theorem string_allocate (hstring : h.string p = some w) :
    (h.allocate n).string p = some w := by
  cases p with
  | none => cases hstring
  | some a =>
    have hlt : a < h.blocks.length := lt_next_of_string hstring
    simp only [string, block, allocate, Option.bind_some] at hstring ⊢
    rwa [List.getElem?_append_left hlt]

theorem block_allocate : (h.allocate n).block (some h.next) = some (List.replicate n none) := by
  simp [block, allocate, next]

theorem keeps_set (b : Option Block) : h.Keeps ⟨h.blocks.set a b⟩ (some a) := by
  intro q hne w hstring
  cases q with
  | none => cases hstring
  | some c =>
    have hother : a ≠ c := by
      rintro rfl
      exact hne rfl
    simp only [string, block, Option.bind_some] at hstring ⊢
    rwa [List.getElem?_set_ne hother]

/-- A string can be freed, and the others stay. -/
theorem free_of_string (hstring : h.string p = some w) :
    ∃ h', h.free p = some h' ∧ h.Keeps h' p ∧ h'.next = h.next := by
  cases p with
  | none => cases hstring
  | some a =>
    obtain ⟨b, hblock, -⟩ := Option.bind_eq_some_iff.1 hstring
    refine ⟨_, by rw [free, hblock, Option.map_some], keeps_set none, ?_⟩
    simp [next]

/-- What is written behind a string of a block goes on with it. -/
theorem string_write {b : Block} (hblock : h.block (some a) = some b) (hv : 0 ∉ v) (hw : 0 ∉ w)
    (hstart : b.take v.length = v.map some) (hroom : v.length + w.length < b.length) :
    ∃ h', h.write a v.length w = some h' ∧ h'.string (some a) = some (v ++ w) ∧
      (∃ b', h'.block (some a) = some b' ∧ b'.length = b.length) ∧ h.Keeps h' (some a) := by
  have hlt : a < h.blocks.length := by
    by_contra hge
    have hnone : h.blocks[a]? = none := List.getElem?_eq_none (Nat.le_of_not_lt hge)
    simp [block, hnone] at hblock
  refine ⟨_, by rw [write, hblock, Option.bind_some, if_pos hroom], ?_, ?_, keeps_set _⟩
  · simp only [string, block, Option.bind_some, List.getElem?_set_self hlt, Option.join_some]
    rw [hstart, ← List.append_assoc, ← List.map_append]
    refine textOf_append ?_ _
    rw [List.mem_append, not_or]
    exact ⟨hv, hw⟩
  · simp only [block, Option.bind_some, List.getElem?_set_self hlt, Option.join_some]
    refine ⟨_, rfl, ?_⟩
    simp only [List.length_append, List.length_take, List.length_map, List.length_cons,
      List.length_drop]
    omega

/-- A string stands in a block of `n` bytes that was allocated, and the strings that were there
before are, but for one that was freed. -/
structure Stored (h h' : Heap) (freed : Pointer) (a n : Nat) (w : List UInt8) : Prop where
  fresh : h.next ≤ a
  string : h'.string (some a) = some w
  room : ∃ b, h'.block (some a) = some b ∧ b.length = n
  keeps : h.Keeps h' freed

theorem ne_of_fresh (hstring : h.string p = some w) (hfresh : h.next ≤ a) : p ≠ some a := by
  rintro rfl
  exact absurd (lt_next_of_string hstring) (Nat.not_lt.2 hfresh)

theorem stored_write (hw : 0 ∉ w) (hroom : w.length < n) :
    ∃ h', (h.allocate n).write h.next 0 w = some h' ∧ Stored h h' none h.next n w := by
  obtain ⟨h', hwrite, hstring, ⟨b, hblock, hlength⟩, hkeeps⟩ :=
    string_write (h := h.allocate n) (v := []) block_allocate List.not_mem_nil hw rfl
      (by simpa using hroom)
  refine ⟨h', hwrite, Nat.le_refl _, hstring, ⟨b, hblock, by simpa using hlength⟩, ?_⟩
  intro q _ u hold
  exact hkeeps q (ne_of_fresh hold (Nat.le_refl _)) u (string_allocate hold)

theorem stored_strcpy (hsrc : h.string p = some w) (hroom : w.length < n) :
    ∃ h', (h.allocate n).strcpy (some h.next) p = some h' ∧ Stored h h' none h.next n w := by
  have hw : 0 ∉ w := by
    obtain ⟨b, -, htext⟩ := Option.bind_eq_some_iff.1 hsrc
    exact (eq_of_textOf htext).1
  obtain ⟨h', hwrite, hstored⟩ := stored_write (h := h) hw hroom
  refine ⟨h', ?_, hstored⟩
  rw [strcpy, if_neg (ne_of_fresh hsrc (Nat.le_refl _)).symm, Option.bind_some,
    string_allocate hsrc, Option.bind_some, hwrite]

namespace Stored

/-- Before the allocation another string may have been freed. -/
theorem after {h₀ : Heap} (hstored : Stored h₀ h' none a n w) (hkeeps : h.Keeps h₀ p)
    (hnext : h.next ≤ h₀.next) : Stored h h' p a n w := by
  refine ⟨hnext.trans hstored.fresh, hstored.string, hstored.room, ?_⟩
  intro q hne u hold
  refine hstored.keeps q ?_ u (hkeeps q hne u hold)
  rintro rfl
  cases hold

theorem free (hstored : Stored h h' none a n w) (hstring : h.string p = some v) :
    ∃ h'', h'.free p = some h'' ∧ Stored h h'' p a n w := by
  have hne : p ≠ none := by
    rintro rfl
    cases hstring
  obtain ⟨h'', hfree, hkeeps, -⟩ := free_of_string (hstored.keeps p hne v hstring)
  have hother : some a ≠ p := (ne_of_fresh hstring hstored.fresh).symm
  refine ⟨h'', hfree, hstored.fresh, hkeeps _ hother w hstored.string, ?_, ?_⟩
  · obtain ⟨b, hblock, hlength⟩ := hstored.room
    refine ⟨b, ?_, hlength⟩
    cases p with
    | none => cases hstring
    | some c =>
      obtain ⟨b', -, rfl⟩ := Option.map_eq_some_iff.1 hfree
      have hac : c ≠ a := by
        rintro rfl
        exact hother rfl
      simpa only [block, Option.bind_some, List.getElem?_set_ne hac] using hblock
  · intro q hq u hold
    refine hkeeps q hq u (hstored.keeps q ?_ u hold)
    rintro rfl
    cases hold

theorem strcat (hstored : Stored h h' q a n v) (hsrc : h.string p = some w) (hne : p ≠ q)
    (hroom : v.length + w.length < n) :
    ∃ h'', h'.strcat (some a) p = some h'' ∧ Stored h h'' q a n (v ++ w) := by
  obtain ⟨b, hblock, hlength⟩ := hstored.room
  have hsrc' := hstored.keeps p hne w hsrc
  obtain ⟨b', hblock', htext⟩ := Option.bind_eq_some_iff.1 hstored.string
  cases hblock.symm.trans hblock'
  obtain ⟨hv, rest, hb⟩ := eq_of_textOf htext
  have hw : 0 ∉ w := by
    obtain ⟨b'', -, htext'⟩ := Option.bind_eq_some_iff.1 hsrc
    exact (eq_of_textOf htext').1
  obtain ⟨h'', hwrite, hstring, ⟨c, hc, hlength'⟩, hkeeps⟩ :=
    string_write hblock hv hw (by simp [hb]) (by omega)
  refine ⟨h'', ?_, hstored.fresh, hstring, ⟨c, hc, hlength'.trans hlength⟩, ?_⟩
  · rw [Heap.strcat, if_neg (ne_of_fresh hsrc hstored.fresh).symm, Option.bind_some,
      hstored.string, Option.bind_some, hsrc', Option.bind_some, hwrite]
  · intro q' hq u hold
    exact hkeeps q' (ne_of_fresh hold hstored.fresh) u (hstored.keeps q' hq u hold)

end Stored

end Heap

end LearningCpp.Library
