import LearningCpp.Library.MapFold
import LearningCpp.Library.Runs

/-!
An index over a list: each key is bound to a value made from its run. A key
that occurs is found with one of its runs, and when the list is ordered by key
the slice of that run is the whole class of the key.
-/

namespace LearningCpp.Library

variable {α κ ν : Type*} [DecidableEq κ] {key : α → κ}

def indexRuns (key : α → κ) (val : Run κ → ν) (m : Map κ ν) (xs : List α) : Map κ ν :=
  insertAll Run.key val m (runs key xs)

theorem lookup_indexRuns_of_notMem (val : Run κ → ν) (m : Map κ ν) {xs : List α} {k : κ}
    (h : k ∉ xs.map key) : (indexRuns key val m xs).lookup k = m.lookup k := by
  apply lookup_insertAll_of_notMem
  intro hmem
  obtain ⟨run, hrun, hkey⟩ := List.mem_map.mp hmem
  exact h ((exists_run_iff _ _).mp ⟨run, hrun, hkey⟩)

theorem lookup_indexRuns_of_mem (val : Run κ → ν) (m : Map κ ν) {xs : List α} {k : κ}
    (h : k ∈ xs.map key) :
    ∃ run ∈ runs key xs, run.key = k ∧ (indexRuns key val m xs).lookup k = some (val run) := by
  obtain ⟨run, hrun, hkey⟩ := (exists_run_iff _ _).mpr h
  exact exists_lookup_insertAll val m _ (List.mem_map.mpr ⟨run, hrun, hkey⟩)

/-- A binding of an index comes from a run, under the run's key. -/
theorem exists_of_lookup_indexRuns {val : Run κ → ν} {xs : List α} {k : κ} {v : ν}
    (h : (indexRuns key val ∅ xs).lookup k = some v) :
    ∃ run ∈ runs key xs, run.key = k ∧ val run = v :=
  exists_of_lookup_insertAll h

theorem indexRuns_entries_length_le (key : α → κ) (val : Run κ → ν) (xs : List α) :
    (indexRuns key val ∅ xs).entries.length ≤ xs.length := by
  have hentries := insertAll_entries_length_le Run.key val (∅ : Map κ ν) (runs key xs)
  have hruns := (runs_tiles key xs).length_le
  simp only [AList.empty_entries, List.length_nil] at hentries
  rw [indexRuns]
  omega

end LearningCpp.Library
