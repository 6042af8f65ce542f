import LearningCpp.Library.Machine
import LearningCpp.Library.Mutex
import Mathlib.Data.Finset.Basic

/-!
`handler_memory` of `boost/1.异步分配内存.cpp`: one block that is given out when it is free and
large enough, and the global heap for every other request. Many of these share one heap.
-/

namespace LearningCpp.AsyncEcho

open Library

/-- What an allocation returns: the address of the `storage_` of one of the memories, or a block
that `operator new` found. -/
inductive Pointer where
  | storage (owner : Nat)
  | heap (block : Nat)
  deriving DecidableEq, Repr

/-- `sizeof(storage_)` -/
def sizeof_storage : Nat := 1024

/-- Of the storage only its address is used. -/
structure handler_memory where
  storage_ : Nat
  in_use_ : Bool
  deriving DecidableEq, Repr

/-- The blocks of the global heap that are allocated. -/
abbrev Heap := Finset Nat

/-- `::operator new`, which may choose any block that is not allocated. -/
def Heap.operator_new (heap : Heap) (block : Nat) : Option Heap :=
  if block ∈ heap then none else some (insert block heap)

/-- `::operator delete`, undefined on what is not an allocated block. -/
def Heap.operator_delete (heap : Heap) : Pointer → Option Heap
  | .storage _ => none
  | .heap block => if block ∈ heap then some (heap.erase block) else none

namespace handler_memory

/-- `allocate(size)`, where `block` is what the heap would give. -/
def allocate (m : handler_memory) (heap : Heap) (size block : Nat) :
    Option (Pointer × handler_memory × Heap) :=
  if m.in_use_ = false ∧ size < sizeof_storage then
    some (.storage m.storage_, {m with in_use_ := true}, heap)
  else (heap.operator_new block).map fun heap => (.heap block, m, heap)

def deallocate (m : handler_memory) (heap : Heap) (pointer : Pointer) :
    Option (handler_memory × Heap) :=
  if pointer = .storage m.storage_ then some ({m with in_use_ := false}, heap)
  else (heap.operator_delete pointer).map fun heap => (m, heap)

end handler_memory

/-- The memories, each at the address of its position, and the heap they share. -/
structure Store where
  memories : List handler_memory
  heap : Heap
  deriving DecidableEq

namespace Store

/-- Memory `i` allocates. -/
def allocate (s : Store) (i size block : Nat) : Option (Pointer × Store) :=
  s.memories[i]?.bind fun m =>
    (m.allocate s.heap size block).map fun result =>
      (result.1, ⟨s.memories.set i result.2.1, result.2.2⟩)

/-- Memory `i` deallocates. -/
def deallocate (s : Store) (i : Nat) (pointer : Pointer) : Option Store :=
  s.memories[i]?.bind fun m =>
    (m.deallocate s.heap pointer).map fun result => ⟨s.memories.set i result.1, result.2⟩

/-- A memory is constructed. -/
def construct (s : Store) : Store :=
  {s with memories := s.memories ++ [⟨s.memories.length, false⟩]}

/-- What the flags and the heap say of an address. -/
def InUse (s : Store) : Pointer → Prop
  | .storage i => s.memories[i]?.map handler_memory.in_use_ = some true
  | .heap block => block ∈ s.heap

instance (s : Store) (p : Pointer) : Decidable (s.InUse p) := by
  cases p <;> unfold InUse <;> infer_instance

/-- Every memory is at its own address. -/
def Placed (s : Store) : Prop :=
  ∀ (i : Nat) (m : handler_memory), s.memories[i]? = some m → m.storage_ = i

/-- What may be given back to memory `i`. -/
def Takes (i : Nat) : Pointer → Prop
  | .storage j => j = i
  | .heap _ => True

variable {s s' : Store} {i size block : Nat} {p : Pointer}

theorem inUse_set {m m' : handler_memory} (hm : s.memories[i]? = some m) (q : Pointer) :
    InUse ⟨s.memories.set i m', s.heap⟩ q ↔
      if q = .storage i then m'.in_use_ = true else s.InUse q := by
  cases q with
  | heap b => rfl
  | storage j =>
      obtain ⟨hi, -⟩ := List.getElem?_eq_some_iff.mp hm
      simp only [InUse, Pointer.storage.injEq]
      rcases eq_or_ne j i with rfl | hne
      · simp only [List.getElem?_set_self hi, Option.map_some, Option.some.injEq, if_pos]
      · rw [List.getElem?_set_ne hne.symm, if_neg hne]

theorem set_same {m : handler_memory} (hm : s.memories[i]? = some m) :
    s.memories.set i m = s.memories := by
  obtain ⟨hi, rfl⟩ := List.getElem?_eq_some_iff.mp hm
  exact List.set_getElem_self hi

theorem placed_set {m : handler_memory} (h : s.Placed) (hm : s.memories[i]? = some m)
    (m' : handler_memory) (hat : m'.storage_ = i) (heap : Heap) :
    Placed ⟨s.memories.set i m', heap⟩ := by
  intro j n hn
  rcases (Mutex.getElem?_set_of_some hm j).mp hn with ⟨rfl, rfl⟩ | ⟨-, hold⟩
  · exact hat
  · exact h j n hold

/-- What an allocation does: the address was free, it alone is taken, and the block of the memory
is only given to a request that fits. -/
theorem allocate_spec (hplaced : s.Placed) (h : s.allocate i size block = some (p, s')) :
    ¬ s.InUse p ∧ (∀ q, s'.InUse q ↔ q = p ∨ s.InUse q) ∧ s'.Placed ∧ Takes i p ∧
      s'.memories.length = s.memories.length ∧ (p = .storage i → size < sizeof_storage) := by
  obtain ⟨m, hm, hrest⟩ := Option.bind_eq_some_iff.mp h
  obtain ⟨⟨p₀, m', heap⟩, halloc, heq⟩ := Option.map_eq_some_iff.mp hrest
  cases heq
  have hat := hplaced i m hm
  unfold handler_memory.allocate at halloc
  split at halloc
  case isTrue hfree =>
    cases halloc
    rw [hat]
    refine ⟨?_, ?_, placed_set hplaced hm ⟨i, true⟩ rfl s.heap, rfl, List.length_set, ?_⟩
    rotate_left 2
    · exact fun _ => hfree.2
    · simp only [InUse, hm, Option.map_some, Option.some.injEq, hfree.1, Bool.false_eq_true,
        not_false_eq_true]
    · intro q
      rw [inUse_set hm]
      split
      case isTrue hq => exact iff_of_true rfl (Or.inl hq)
      case isFalse hq => exact (or_iff_right hq).symm
  case isFalse hnot =>
    obtain ⟨heap', hnew, heq⟩ := Option.map_eq_some_iff.mp halloc
    cases heq
    unfold Heap.operator_new at hnew
    split at hnew
    case isTrue hin => cases hnew
    case isFalse hout =>
      cases hnew
      have hsame := set_same hm
      refine ⟨hout, ?_, placed_set hplaced hm _ hat _, trivial, List.length_set, ?_⟩
      · rw [hsame]
        intro q
        cases q with
        | storage j => simp only [InUse, reduceCtorEq, false_or]
        | heap b => simp only [InUse, Finset.mem_insert, Pointer.heap.injEq]
      · intro heq
        cases heq

/-- The block of a memory that is free is given to a request that fits. -/
theorem allocate_storage (hplaced : s.Placed) (h : s.allocate i size block = some (p, s'))
    (hfree : ¬ s.InUse (.storage i)) (hsize : size < sizeof_storage) : p = .storage i := by
  obtain ⟨m, hm, hrest⟩ := Option.bind_eq_some_iff.mp h
  obtain ⟨⟨p₀, m', heap⟩, halloc, heq⟩ := Option.map_eq_some_iff.mp hrest
  cases heq
  have hnot : m.in_use_ = false := by
    simpa only [InUse, hm, Option.map_some, Option.some.injEq, Bool.not_eq_true] using hfree
  unfold handler_memory.allocate at halloc
  rw [if_pos ⟨hnot, hsize⟩] at halloc
  cases halloc
  rw [hplaced i m hm]

/-- What a memory may be given back is freed, and nothing else. -/
theorem deallocate_spec (hplaced : s.Placed) (htakes : Takes i p)
    (h : s.deallocate i p = some s') :
    (∀ q, s'.InUse q ↔ q ≠ p ∧ s.InUse q) ∧ s'.Placed ∧
      s'.memories.length = s.memories.length := by
  obtain ⟨m, hm, hrest⟩ := Option.bind_eq_some_iff.mp h
  obtain ⟨⟨m', heap⟩, hfree, heq⟩ := Option.map_eq_some_iff.mp hrest
  cases heq
  have hat := hplaced i m hm
  unfold handler_memory.deallocate at hfree
  split at hfree
  case isTrue hp =>
    cases hfree
    refine ⟨?_, placed_set hplaced hm ⟨m.storage_, false⟩ hat s.heap, List.length_set⟩
    intro q
    rw [inUse_set hm, hp, hat]
    split
    case isTrue hq => simp [hq]
    case isFalse hq => simp [hq]
  case isFalse hp =>
    obtain ⟨heap', hdelete, heq⟩ := Option.map_eq_some_iff.mp hfree
    cases heq
    cases p with
    | storage j => cases hdelete
    | heap b =>
        simp only [Heap.operator_delete] at hdelete
        split at hdelete
        case isFalse hout => cases hdelete
        case isTrue hin =>
          cases hdelete
          have hsame := set_same hm
          refine ⟨?_, placed_set hplaced hm _ hat _, List.length_set⟩
          simp only [hsame]
          intro q
          cases q with
          | storage j => simp [InUse]
          | heap c => simp [InUse]

theorem deallocate_heap (h : s.deallocate i p = some s') : s'.heap ⊆ s.heap := by
  obtain ⟨m, hm, hrest⟩ := Option.bind_eq_some_iff.mp h
  obtain ⟨⟨m', heap⟩, hfree, heq⟩ := Option.map_eq_some_iff.mp hrest
  cases heq
  unfold handler_memory.deallocate at hfree
  split at hfree
  case isTrue hp =>
    cases hfree
    exact Finset.Subset.refl _
  case isFalse hp =>
    obtain ⟨heap', hdelete, heq⟩ := Option.map_eq_some_iff.mp hfree
    cases heq
    cases p with
    | storage j => cases hdelete
    | heap b =>
        simp only [Heap.operator_delete] at hdelete
        split at hdelete
        case isFalse hout => cases hdelete
        case isTrue hin =>
          cases hdelete
          exact Finset.erase_subset b s.heap

/-- An allocation from a memory that exists succeeds when the heap has a block. -/
theorem exists_allocate (hi : i < s.memories.length) (size : Nat) (hblock : block ∉ s.heap) :
    ∃ p s', s.allocate i size block = some (p, s') := by
  have hnew : s.heap.operator_new block = some (insert block s.heap) := if_neg hblock
  simp only [allocate, List.getElem?_eq_getElem hi, Option.bind_some, handler_memory.allocate]
  split
  · exact ⟨_, _, rfl⟩
  · rw [hnew]
    exact ⟨_, _, rfl⟩

/-- Giving back what is in use is defined. -/
theorem exists_deallocate (hplaced : s.Placed) (hi : i < s.memories.length) (htakes : Takes i p)
    (huse : s.InUse p) : ∃ s', s.deallocate i p = some s' := by
  have hm := List.getElem?_eq_getElem hi
  have hat := hplaced i _ hm
  simp only [deallocate, hm, Option.bind_some, handler_memory.deallocate]
  cases p with
  | storage j =>
      have hj : j = i := htakes
      rw [if_pos (by rw [hat, hj])]
      exact ⟨_, rfl⟩
  | heap b =>
      have hdelete : s.heap.operator_delete (.heap b) = some (s.heap.erase b) := if_pos huse
      rw [if_neg (by intro heq; cases heq), hdelete]
      exact ⟨_, rfl⟩

theorem inUse_construct (s : Store) (q : Pointer) : s.construct.InUse q ↔ s.InUse q := by
  cases q with
  | heap b => rfl
  | storage j =>
      simp only [InUse, construct]
      rcases Nat.lt_trichotomy j s.memories.length with hlt | rfl | hgt
      · rw [List.getElem?_append_left hlt]
      · simp
      · rw [List.getElem?_eq_none (by simp; omega), List.getElem?_eq_none (by omega)]

private theorem placed_construct (h : s.Placed) : s.construct.Placed := by
  intro j n hn
  simp only [construct] at hn
  rcases Nat.lt_or_ge j s.memories.length with hlt | hge
  · rw [List.getElem?_append_left hlt] at hn
    exact h j n hn
  · rw [List.getElem?_append_right hge] at hn
    obtain ⟨hj, rfl⟩ := List.getElem?_eq_some_iff.mp hn
    simp only [List.length_singleton] at hj
    simp only [List.getElem_singleton]
    omega

/-- The addresses that are held are those in use, each held once. -/
def Owes (s : Store) (held : List Pointer) : Prop :=
  s.Placed ∧ ∀ q, held.count q = if s.InUse q then 1 else 0

variable {held held' : List Pointer}

theorem Owes.nodup (h : s.Owes held) : held.Nodup := by
  rw [List.nodup_iff_count_le_one]
  intro q
  rw [h.2 q]
  split <;> omega

theorem Owes.mem_iff (h : s.Owes held) (q : Pointer) : q ∈ held ↔ s.InUse q := by
  rw [← List.count_pos_iff, h.2 q]
  split
  case isTrue huse => simp [huse]
  case isFalse hfree => simp [hfree]

theorem Owes.allocate (h : s.Owes held) (halloc : s.allocate i size block = some (p, s'))
    (hheld : ∀ q, held'.count q = held.count q + if p = q then 1 else 0) : s'.Owes held' := by
  obtain ⟨hfree, huse, hplaced, -⟩ := allocate_spec h.1 halloc
  refine ⟨hplaced, ?_⟩
  intro q
  rw [hheld, h.2 q]
  rcases eq_or_ne p q with rfl | hne
  · rw [if_neg hfree, if_pos rfl, if_pos ((huse p).mpr (Or.inl rfl))]
  · simp only [huse q, if_neg hne, hne.symm, false_or, Nat.add_zero]

theorem Owes.deallocate (h : s.Owes held) (htakes : Takes i p) (hmem : p ∈ held)
    (hfree : s.deallocate i p = some s')
    (hheld : ∀ q, held'.count q + (if p = q then 1 else 0) = held.count q) : s'.Owes held' := by
  obtain ⟨huse, hplaced, -⟩ := deallocate_spec h.1 htakes hfree
  refine ⟨hplaced, ?_⟩
  intro q
  have hcount := hheld q
  rw [h.2 q] at hcount
  rcases eq_or_ne p q with rfl | hne
  · rw [if_pos rfl, if_pos ((h.mem_iff p).mp hmem)] at hcount
    rw [if_neg (fun hin => ((huse p).mp hin).1 rfl)]
    omega
  · rw [if_neg hne, Nat.add_zero] at hcount
    simp only [hcount, huse q, ne_eq, hne.symm, not_false_eq_true, true_and]

theorem Owes.construct (h : s.Owes held) : s.construct.Owes held := by
  refine ⟨placed_construct h.1, ?_⟩
  intro q
  simp only [h.2 q, inUse_construct]

end Store

/-- An allocation that was not given back. -/
structure Allocation where
  owner : Nat
  pointer : Pointer
  size : Nat
  deriving DecidableEq, Repr

/-- The memories with all that is allocated through them. -/
structure Calls where
  store : Store
  held : List Allocation
  deriving DecidableEq

inductive Call where
  | construct
  | allocate (i size block : Nat)
  | deallocate (a : Allocation)
  deriving DecidableEq, Repr

namespace Calls

def start : Calls := ⟨⟨[], ∅⟩, []⟩

/-- Only what is allocated is given back, to the memory that it is from. -/
def step (c : Calls) : Call → Option Calls
  | .construct => some {c with store := c.store.construct}
  | .allocate i size block =>
      (c.store.allocate i size block).map fun result =>
        ⟨result.2, ⟨i, result.1, size⟩ :: c.held⟩
  | .deallocate a =>
      if a ∈ c.held then
        (c.store.deallocate a.owner a.pointer).map fun store => ⟨store, c.held.erase a⟩
      else none

structure Sound (c : Calls) : Prop where
  owes : c.store.Owes (c.held.map Allocation.pointer)
  owned : ∀ a ∈ c.held, a.owner < c.store.memories.length ∧ Store.Takes a.owner a.pointer
  fits : ∀ a ∈ c.held, a.pointer = .storage a.owner → a.size < sizeof_storage

theorem start_sound : Sound start where
  owes := by
    constructor
    · intro i m hm
      cases hm
    · intro q
      cases q <;> rfl
  owned a ha := by cases ha
  fits a ha := by cases ha

theorem Sound.step {c c' : Calls} {call : Call} (h : Sound c) (hstep : c.step call = some c') :
    Sound c' := by
  cases call with
  | construct =>
      cases hstep
      refine ⟨h.owes.construct, ?_, h.fits⟩
      intro a ha
      obtain ⟨hlt, htakes⟩ := h.owned a ha
      refine ⟨?_, htakes⟩
      simp only [Store.construct, List.length_append]
      omega
  | allocate i size block =>
      obtain ⟨⟨p, store⟩, halloc, heq⟩ := Option.map_eq_some_iff.mp hstep
      cases heq
      obtain ⟨-, -, -, htakes, hlength, hfits⟩ := Store.allocate_spec h.owes.1 halloc
      obtain ⟨m, hm, -⟩ := Option.bind_eq_some_iff.mp halloc
      obtain ⟨hi, -⟩ := List.getElem?_eq_some_iff.mp hm
      refine ⟨h.owes.allocate halloc ?_, ?_, ?_⟩
      · intro q
        simp only [List.map_cons, List.count_cons, beq_iff_eq]
      · intro a ha
        rw [hlength]
        rcases List.mem_cons.mp ha with rfl | hold
        · exact ⟨hi, htakes⟩
        · exact h.owned a hold
      · intro a ha
        rcases List.mem_cons.mp ha with rfl | hold
        · exact hfits
        · exact h.fits a hold
  | deallocate a =>
      simp only [Calls.step] at hstep
      split at hstep
      case isFalse hnot => cases hstep
      case isTrue hmem =>
        obtain ⟨store, hfree, heq⟩ := Option.map_eq_some_iff.mp hstep
        cases heq
        obtain ⟨hlt, htakes⟩ := h.owned a hmem
        obtain ⟨-, -, hlength⟩ := Store.deallocate_spec h.owes.1 htakes hfree
        refine ⟨h.owes.deallocate htakes (List.mem_map_of_mem hmem) hfree ?_, ?_, ?_⟩
        · intro q
          have hperm := ((List.perm_cons_erase hmem).map Allocation.pointer).count_eq q
          simp only [List.map_cons, List.count_cons, beq_iff_eq] at hperm
          exact hperm.symm
        · intro b hb
          rw [hlength]
          exact h.owned b (List.mem_of_mem_erase hb)
        · intro b hb
          exact h.fits b (List.mem_of_mem_erase hb)

theorem Sound.run {c c' : Calls} {calls : List Call} (h : Sound c)
    (hrun : runSteps Calls.step c calls = some c') : Sound c' :=
  invariant_run (fun hsound hstep => hsound.step hstep) h hrun

/-- Whatever is allocated and given back, and in which order: no address is out twice, the flag
of a memory says whether its block is out, the heap has allocated what is out of it and nothing
else, a block that is out is large enough, and all that is out can be given back. -/
theorem allocations_disjoint (calls : List Call) (c : Calls)
    (hrun : runSteps step start calls = some c) :
    (c.held.map Allocation.pointer).Nodup ∧
      (∀ i, c.store.memories[i]?.map handler_memory.in_use_ = some true ↔
        .storage i ∈ c.held.map Allocation.pointer) ∧
      (∀ b, b ∈ c.store.heap ↔ .heap b ∈ c.held.map Allocation.pointer) ∧
      ∀ a ∈ c.held, (∀ i, a.pointer = .storage i → a.owner = i ∧ a.size < sizeof_storage) ∧
        ∃ c', c.step (.deallocate a) = some c' := by
  have h : Sound c := start_sound.run hrun
  refine ⟨h.owes.nodup, ?_, ?_, ?_⟩
  · intro i
    exact (h.owes.mem_iff (.storage i)).symm
  · intro b
    exact (h.owes.mem_iff (.heap b)).symm
  · intro a ha
    obtain ⟨hlt, htakes⟩ := h.owned a ha
    constructor
    · intro i hi
      have howner : i = a.owner := by
        rw [hi] at htakes
        exact htakes
      exact ⟨howner.symm, h.fits a ha (howner ▸ hi)⟩
    · have huse := (h.owes.mem_iff a.pointer).mp (List.mem_map_of_mem ha)
      obtain ⟨store, hfree⟩ := Store.exists_deallocate h.owes.1 hlt htakes huse
      refine ⟨⟨store, c.held.erase a⟩, ?_⟩
      simp only [Calls.step, if_pos ha, hfree, Option.map_some]

/-- The second request finds the block in use and goes to the heap. -/
theorem allocations_disjoint_two :
    runSteps step start [.construct, .allocate 0 100 7, .allocate 0 100 7] =
        some ⟨⟨[⟨0, true⟩], {7}⟩, [⟨0, .heap 7, 100⟩, ⟨0, .storage 0, 100⟩]⟩ ∧
      [Pointer.heap 7, .storage 0].Nodup := by
  have hrun : runSteps step start [.construct, .allocate 0 100 7, .allocate 0 100 7] =
      some ⟨⟨[⟨0, true⟩], {7}⟩, [⟨0, .heap 7, 100⟩, ⟨0, .storage 0, 100⟩]⟩ := rfl
  exact ⟨hrun, (allocations_disjoint _ _ hrun).1⟩

end Calls

end LearningCpp.AsyncEcho
