import Mathlib.Tactic

/-!
Threads, each with its program counter, and a mutex. The lock names a thread
exactly when that thread is at a place where it holds it.
-/

namespace LearningCpp.Library

variable {Pc : Type*}

/-- The lock is held by the thread that is at a place where it is held. -/
def Mutex (threads : List Pc) (holding : Pc → Prop) (lock : Option Nat) : Prop :=
  ∀ i, lock = some i ↔ ∃ pc, threads[i]? = some pc ∧ holding pc

namespace Mutex

variable {threads : List Pc} {holding : Pc → Prop} {lock : Option Nat} {i : Nat} {pc pc' : Pc}

theorem held (h : Mutex threads holding lock) (hpc : threads[i]? = some pc) (hholding : holding pc) :
    lock = some i := (h i).mpr ⟨pc, hpc, hholding⟩

theorem holder (h : Mutex threads holding lock) (hlock : lock = some i) :
    ∃ pc, threads[i]? = some pc ∧ holding pc := (h i).mp hlock

theorem not_holding_of_free (h : Mutex threads holding lock) (hfree : lock = none)
    (hpc : threads[i]? = some pc) : ¬ holding pc := by
  intro hholding
  rw [h.held hpc hholding] at hfree
  cases hfree

/-- Only one thread is at a place where the lock is held. -/
theorem not_holding_of_ne {j : Nat} (h : Mutex threads holding lock) (hpc : threads[i]? = some pc)
    (hholding : holding pc) (hpc' : threads[j]? = some pc') (hne : i ≠ j) : ¬ holding pc' := by
  intro hholding'
  have hlock := h.held hpc hholding
  rw [h.held hpc' hholding', Option.some.injEq] at hlock
  exact hne hlock.symm

theorem getElem?_set_of_some {pc₀ : Pc} (hpc : threads[i]? = some pc) (j : Nat) :
    (threads.set i pc')[j]? = some pc₀ ↔ (j = i ∧ pc' = pc₀) ∨ (j ≠ i ∧ threads[j]? = some pc₀) := by
  obtain ⟨hi, -⟩ := List.getElem?_eq_some_iff.mp hpc
  rcases eq_or_ne j i with rfl | hne
  · rw [List.getElem?_set_self hi, Option.some.injEq]
    simp
  · rw [List.getElem?_set_ne hne.symm]
    simp [hne]

/-- What holds of every thread when one of them has moved. -/
theorem forall_set {P : Pc → Prop} (hpc : threads[i]? = some pc) (hnew : P pc')
    (hothers : ∀ {j : Nat} {pc₀ : Pc}, j ≠ i → threads[j]? = some pc₀ → P pc₀) {j : Nat} {pc₀ : Pc}
    (hpc₀ : (threads.set i pc')[j]? = some pc₀) : P pc₀ := by
  rcases (getElem?_set_of_some hpc j).mp hpc₀ with ⟨-, rfl⟩ | ⟨hne, hold⟩
  · exact hnew
  · exact hothers hne hold

theorem mem_set (hpc : threads[i]? = some pc) (pc' : Pc) : pc' ∈ threads.set i pc' :=
  List.mem_of_getElem? ((getElem?_set_of_some hpc i).2 (Or.inl ⟨rfl, rfl⟩))

/-- A thread that moves and keeps a property leaves one that has it. -/
theorem exists_set {P : Pc → Prop} (hpc : threads[i]? = some pc) (hkeeps : P pc → P pc')
    (h : ∃ pc₀ ∈ threads, P pc₀) : ∃ pc₀ ∈ threads.set i pc', P pc₀ := by
  obtain ⟨pc₀, hmem, hold⟩ := h
  obtain ⟨j, hj⟩ := List.getElem?_of_mem hmem
  rcases eq_or_ne j i with rfl | hne
  · obtain rfl := Option.some.inj (hpc.symm.trans hj)
    exact ⟨pc', mem_set hpc pc', hkeeps hold⟩
  · exact ⟨pc₀, List.mem_of_getElem? ((getElem?_set_of_some hpc j).2 (Or.inr ⟨hne, hj⟩)), hold⟩

/-- A thread moves without taking or giving back the lock. -/
theorem move (h : Mutex threads holding lock) (hpc : threads[i]? = some pc)
    (hsame : holding pc' ↔ holding pc) : Mutex (threads.set i pc') holding lock := by
  intro j
  rw [h j]
  simp only [getElem?_set_of_some hpc]
  constructor
  · rintro ⟨pc₀, hpc₀, hholding⟩
    rcases eq_or_ne j i with rfl | hne
    · obtain rfl := Option.some.inj (hpc.symm.trans hpc₀)
      exact ⟨pc', Or.inl ⟨rfl, rfl⟩, hsame.mpr hholding⟩
    · exact ⟨pc₀, Or.inr ⟨hne, hpc₀⟩, hholding⟩
  · rintro ⟨pc₀, ⟨rfl, rfl⟩ | ⟨-, hpc₀⟩, hholding⟩
    · exact ⟨pc, hpc, hsame.mp hholding⟩
    · exact ⟨pc₀, hpc₀, hholding⟩

theorem acquire (h : Mutex threads holding lock) (hfree : lock = none)
    (hpc : threads[i]? = some pc) (hnew : holding pc') :
    Mutex (threads.set i pc') holding (some i) := by
  intro j
  simp only [getElem?_set_of_some hpc, Option.some.injEq]
  constructor
  · rintro rfl
    exact ⟨pc', Or.inl ⟨rfl, rfl⟩, hnew⟩
  · rintro ⟨pc₀, ⟨rfl, -⟩ | ⟨-, hpc₀⟩, hholding⟩
    · rfl
    · exact absurd hholding (h.not_holding_of_free hfree hpc₀)

theorem release (h : Mutex threads holding lock) (hpc : threads[i]? = some pc) (hold : holding pc)
    (hnew : ¬ holding pc') : Mutex (threads.set i pc') holding none := by
  intro j
  simp only [getElem?_set_of_some hpc, reduceCtorEq, false_iff]
  rintro ⟨pc₀, ⟨rfl, rfl⟩ | ⟨hne, hpc₀⟩, hholding⟩
  · exact hnew hholding
  · exact h.not_holding_of_ne hpc hold hpc₀ hne.symm hholding

/-- All threads are moved, none of them taking or giving back the lock. -/
theorem map (h : Mutex threads holding lock) {f : Pc → Pc} (hsame : ∀ pc, holding (f pc) ↔ holding pc) :
    Mutex (threads.map f) holding lock := by
  intro j
  rw [h j]
  simp only [List.getElem?_map, Option.map_eq_some_iff]
  constructor
  · rintro ⟨pc, hpc, hholding⟩
    exact ⟨f pc, ⟨pc, hpc, rfl⟩, (hsame pc).mpr hholding⟩
  · rintro ⟨_, ⟨pc, hpc, rfl⟩, hholding⟩
    exact ⟨pc, hpc, (hsame pc).mp hholding⟩

/-- A thread is created that does not hold the lock. -/
theorem append (h : Mutex threads holding lock) (hnew : ¬ holding pc) :
    Mutex (threads ++ [pc]) holding lock := by
  intro j
  rw [h j]
  constructor
  · rintro ⟨pc₀, hpc₀, hholding⟩
    obtain ⟨hj, -⟩ := List.getElem?_eq_some_iff.mp hpc₀
    exact ⟨pc₀, by rw [List.getElem?_append_left hj, hpc₀], hholding⟩
  · rintro ⟨pc₀, hpc₀, hholding⟩
    rw [List.getElem?_append] at hpc₀
    split at hpc₀
    · exact ⟨pc₀, hpc₀, hholding⟩
    · rw [List.getElem?_singleton] at hpc₀
      split at hpc₀
      · exact absurd (Option.some.inj hpc₀ ▸ hholding) hnew
      · cases hpc₀

/-- Before any thread has moved. -/
theorem free (h : ∀ pc ∈ threads, ¬ holding pc) : Mutex threads holding none := by
  intro j
  simp only [reduceCtorEq, false_iff]
  rintro ⟨pc, hpc, hholding⟩
  exact h pc (List.mem_of_getElem? hpc) hholding

end Mutex

end LearningCpp.Library
