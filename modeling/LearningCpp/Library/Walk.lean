import Mathlib.Tactic
import Mathlib.Logic.Relation
import Mathlib.Data.Fintype.EquivFin

/-!
A loop over the indices below a bound whose body says where to go next. On an index
it has not visited before it goes where a function of the index says; what it does
on a second visit is left open. Such a loop passes every index exactly once if and
only if every index but 0 has a predecessor and no way leads back.
-/

namespace LearningCpp.Library

variable {m : ℕ} {next : List ℕ → ℕ → Option ℕ} {f : ℕ → ℕ}

/-- The indices a loop visits, until it leaves the bound. The body may get stuck. -/
def walk (m : ℕ) (next : List ℕ → ℕ → Option ℕ) : ℕ → List ℕ → ℕ → Option (List ℕ)
  | 0, _, _ => none
  | fuel + 1, visited, i =>
      if i < m then
        (next visited i).bind fun i' => walk m next fuel (visited ++ [i]) i'
      else some visited

/-- One index below the bound follows another one. -/
def Follows (f : ℕ → ℕ) (m i j : ℕ) : Prop := i < m ∧ j < m ∧ f i = j

/-- The first indices of a way through a function. -/
def steps (f : ℕ → ℕ) (i n : ℕ) : List ℕ := (List.range n).map fun k => f^[k] i

@[simp]
theorem steps_zero (i : ℕ) : steps f i 0 = [] := rfl

@[simp]
theorem length_steps (i n : ℕ) : (steps f i n).length = n := by simp [steps]

theorem steps_succ (i n : ℕ) : steps f i (n + 1) = steps f i n ++ [f^[n] i] := by
  simp [steps, List.range_succ]

theorem steps_cons (i n : ℕ) : steps f i (n + 1) = i :: steps f (f i) n := by
  simp [steps, List.range_succ_eq_map, Function.comp_def]

theorem mem_steps_iff {i n j : ℕ} : j ∈ steps f i n ↔ ∃ k < n, f^[k] i = j := by
  simp [steps, eq_comm]

/-- What a way that comes back to where it was looks like in steps. -/
theorem iterate_of_transGen {i j : ℕ} (h : Relation.TransGen (Follows f m) i j) :
    ∃ p, 0 < p ∧ f^[p] i = j ∧ ∀ q ≤ p, f^[q] i < m := by
  induction h with
  | single hfollows =>
    obtain ⟨hi, hj, heq⟩ := hfollows
    refine ⟨1, Nat.one_pos, heq, ?_⟩
    intro q hq
    interval_cases q
    · exact hi
    · rw [Function.iterate_one, heq]
      exact hj
  | tail _ hfollows ih =>
    obtain ⟨p, hpos, hp, hbelow⟩ := ih
    obtain ⟨_, hj, heq⟩ := hfollows
    have hlast : f^[p + 1] i = f (f^[p] i) := Function.iterate_succ_apply' f p i
    rw [hp, heq] at hlast
    refine ⟨p + 1, Nat.succ_pos p, hlast, ?_⟩
    intro q hq
    rcases Nat.lt_or_eq_of_le hq with hless | rfl
    · exact hbelow q (Nat.le_of_lt_succ hless)
    · rw [hlast]
      exact hj

theorem transGen_iterate {i p : ℕ} (hpos : 0 < p) (hbelow : ∀ q ≤ p, f^[q] i < m) :
    Relation.TransGen (Follows f m) i (f^[p] i) := by
  induction p, hpos using Nat.le_induction with
  | base => exact .single ⟨hbelow 0 (by omega), hbelow 1 le_rfl, rfl⟩
  | succ p hp ih =>
    refine .tail (ih fun q hq => hbelow q (by omega)) ⟨hbelow p (by omega), hbelow _ le_rfl, ?_⟩
    rw [Function.iterate_succ_apply']

/-- As long as no index comes a second time the loop takes the steps of the function. -/
theorem walk_steps (hnext : ∀ visited i, i ∉ visited → next visited i = some (f i))
    {i n : ℕ} (hbelow : ∀ k < n, f^[k] i < m) (hnodup : (steps f i n).Nodup) (fuel : ℕ) :
    walk m next (n + fuel) [] i = walk m next fuel (steps f i n) (f^[n] i) := by
  induction n generalizing fuel with
  | zero => simp
  | succ n ih =>
    rw [steps_succ, List.nodup_append] at hnodup
    obtain ⟨hfirst, -, hnew⟩ := hnodup
    have hunvisited : f^[n] i ∉ steps f i n := fun hmem => hnew _ hmem _ (by simp) rfl
    rw [show n + 1 + fuel = n + (fuel + 1) by omega, ih (fun k hk => hbelow k (by omega)) hfirst,
      walk, if_pos (hbelow n (by omega)), hnext _ _ hunvisited, steps_succ,
      Function.iterate_succ_apply']
    rfl

/-- What the loop has visited at its end is a way through the function if no index
came a second time. -/
theorem eq_steps_of_walk (hnext : ∀ visited i, i ∉ visited → next visited i = some (f i))
    {fuel i : ℕ} {visited final : List ℕ} (h : walk m next fuel visited i = some final)
    (hnodup : final.Nodup) :
    ∃ n, final = visited ++ steps f i n ∧ (∀ k < n, f^[k] i < m) ∧ m ≤ f^[n] i := by
  induction fuel generalizing visited i with
  | zero => cases h
  | succ fuel ih =>
    rw [walk] at h
    split at h
    next hi =>
      obtain ⟨i', hi', hrest⟩ := Option.bind_eq_some_iff.1 h
      obtain ⟨n, hfinal, hbelow, hexit⟩ := ih hrest
      have hunvisited : i ∉ visited := by
        intro hmem
        rw [hfinal, List.append_assoc] at hnodup
        exact (List.nodup_append.1 hnodup).2.2 i hmem i (by simp) rfl
      rw [hnext _ _ hunvisited, Option.some.injEq] at hi'
      subst hi'
      refine ⟨n + 1, ?_, ?_, ?_⟩
      · rw [hfinal, steps_cons, List.append_assoc, List.singleton_append]
      · intro k hk
        cases k with
        | zero => exact hi
        | succ k => exact hbelow k (by omega)
      · exact hexit
    next hi =>
      cases h
      exact ⟨0, by simp, by omega, by simpa using hi⟩

theorem nodup_steps (hacyclic : ∀ i, ¬ Relation.TransGen (Follows f m) i i) {i n : ℕ}
    (hbelow : ∀ k < n, f^[k] i < m) : (steps f i n).Nodup := by
  induction n with
  | zero => simp
  | succ n ih =>
    rw [steps_succ, List.nodup_append]
    refine ⟨ih fun k hk => hbelow k (by omega), by simp, ?_⟩
    intro j hj j' hj' heq
    obtain ⟨k, hk, hkj⟩ := mem_steps_iff.1 hj
    rw [List.mem_singleton] at hj'
    have hback : f^[n - k] j = j := by
      rw [← hkj, ← Function.iterate_add_apply, show n - k + k = n by omega, hkj, heq, hj']
    apply hacyclic j
    have hcycle := transGen_iterate (f := f) (m := m) (i := j) (p := n - k) (by omega) (by
      intro q hq
      rw [← hkj, ← Function.iterate_add_apply]
      exact hbelow (q + k) (by omega))
    rwa [hback] at hcycle

theorem lt_of_mem_walk {fuel i : ℕ} {visited final : List ℕ}
    (h : walk m next fuel visited i = some final) (hvisited : ∀ j ∈ visited, j < m) :
    ∀ j ∈ final, j < m := by
  induction fuel generalizing visited i with
  | zero => cases h
  | succ fuel ih =>
    rw [walk] at h
    split at h
    next hi =>
      obtain ⟨i', -, hrest⟩ := Option.bind_eq_some_iff.1 h
      apply ih hrest
      intro j hj
      rcases List.mem_append.1 hj with hj | hj
      · exact hvisited j hj
      · exact List.mem_singleton.1 hj ▸ hi
    next =>
      cases h
      exact hvisited

/-- Without a way back the loop leaves the bound. -/
theorem exists_exit (hacyclic : ∀ i, ¬ Relation.TransGen (Follows f m) i i) (i : ℕ) :
    ∃ n, (∀ k < n, f^[k] i < m) ∧ m ≤ f^[n] i := by
  by_contra hnever
  push Not at hnever
  have hbelow : ∀ n, f^[n] i < m := by
    intro n
    induction n using Nat.strong_induction_on with
    | _ n ih => exact hnever n ih
  have hnodup := nodup_steps (n := m + 1) hacyclic (i := i) (fun k _ => hbelow k)
  have hsubset : steps f i (m + 1) ⊆ List.range m := by
    intro j hj
    obtain ⟨k, _, rfl⟩ := mem_steps_iff.1 hj
    exact List.mem_range.2 (hbelow k)
  have hlength := (List.subperm_of_subset hnodup hsubset).length_le
  simp at hlength

/-- Every index with predecessors all the way down lies on the way from 0. -/
theorem mem_steps_of_covered (hcovered : ∀ j, 0 < j → j < m → ∃ i < m, f i = j)
    (hacyclic : ∀ i, ¬ Relation.TransGen (Follows f m) i i) {n : ℕ}
    (hexit : m ≤ f^[n] 0) (j : Fin m) : (j : ℕ) ∈ steps f 0 n := by
  have hirrefl : Std.Irrefl (Relation.TransGen fun i j : Fin m => Follows f m i j) :=
    ⟨fun i hback => hacyclic i (Relation.TransGen.lift Fin.val (fun _ _ hij => hij) i i hback)⟩
  have hwf : WellFounded (Relation.TransGen fun i j : Fin m => Follows f m i j) :=
    Finite.wellFounded_of_trans_of_irrefl _
  -- backwards along the predecessors, until 0
  induction j using hwf.induction with
  | _ j ih =>
    by_cases hzero : (j : ℕ) = 0
    · have hn : n ≠ 0 := by
        rintro rfl
        have hj := j.isLt
        simp only [Function.iterate_zero, id_eq] at hexit
        omega
      exact mem_steps_iff.2 ⟨0, Nat.pos_of_ne_zero hn, hzero.symm⟩
    · obtain ⟨i, hi, hij⟩ := hcovered j (Nat.pos_of_ne_zero hzero) j.isLt
      obtain ⟨k, hk, hki⟩ := mem_steps_iff.1 (ih ⟨i, hi⟩ (.single ⟨hi, j.isLt, hij⟩))
      have hnext : f^[k + 1] 0 = j := by rw [Function.iterate_succ_apply', hki, hij]
      have hsucc : k + 1 ≠ n := by
        rintro rfl
        rw [hnext] at hexit
        exact absurd j.isLt (by omega)
      exact mem_steps_iff.2 ⟨k + 1, by omega, hnext⟩

/-- The exact condition under which the loop passes every index once and ends. -/
theorem walk_once_iff (hnext : ∀ visited i, i ∉ visited → next visited i = some (f i)) :
    (∃ fuel final, walk m next fuel [] 0 = some final ∧ ∀ i < m, final.count i = 1) ↔
      (∀ j, 0 < j → j < m → ∃ i < m, f i = j) ∧
        ∀ i, ¬ Relation.TransGen (Follows f m) i i := by
  constructor
  · rintro ⟨fuel, final, hwalk, honce⟩
    have hnodup : final.Nodup := by
      rw [List.nodup_iff_count_le_one]
      intro j
      by_cases hj : j ∈ final
      · exact (honce j (lt_of_mem_walk hwalk (by simp) j hj)).le
      · rw [List.count_eq_zero_of_not_mem hj]
        exact Nat.zero_le 1
    obtain ⟨n, rfl, hbelow, hexit⟩ := eq_steps_of_walk hnext hwalk hnodup
    rw [List.nil_append] at honce hnodup
    have hpassed : ∀ j < m, ∃ k < n, f^[k] 0 = j := by
      intro j hj
      rw [← mem_steps_iff, ← List.count_pos_iff, honce j hj]
      exact Nat.one_pos
    constructor
    · intro j hpos hj
      obtain ⟨k, hk, hkj⟩ := hpassed j hj
      cases k with
      | zero => simp only [Function.iterate_zero, id_eq] at hkj; omega
      | succ k =>
        rw [Function.iterate_succ_apply'] at hkj
        exact ⟨f^[k] 0, hbelow k (by omega), hkj⟩
    · intro i hback
      obtain ⟨p, hpos, hp, hcycle⟩ := iterate_of_transGen hback
      obtain ⟨k, hk, hki⟩ := hpassed i (by simpa using hcycle 0 (Nat.zero_le p))
      have hshift : ∀ q, f^[q] i = f^[k + q] 0 := by
        intro q
        rw [← hki, ← Function.iterate_add_apply, Nat.add_comm]
      have hinside : k + p < n := by
        by_contra hle
        have hlast := hcycle (n - k) (by omega)
        rw [hshift, show k + (n - k) = n by omega] at hlast
        omega
      -- the index would come a second time
      have htwice : f^[k] 0 = f^[k + p] 0 := by rw [← hshift, hp, hki]
      have hsame : (steps f 0 n)[k]? = (steps f 0 n)[k + p]? := by
        simpa [steps, hk, hinside] using htwice
      have heq := (List.getElem?_inj (by simpa using hk) hnodup).1 hsame
      omega
  · rintro ⟨hcovered, hacyclic⟩
    obtain ⟨n, hbelow, hexit⟩ := exists_exit hacyclic 0
    have hnodup := nodup_steps hacyclic hbelow
    refine ⟨n + 1, steps f 0 n, ?_, ?_⟩
    · rw [walk_steps hnext hbelow hnodup, walk, if_neg (by omega)]
    · intro i hi
      exact List.count_eq_one_of_mem hnodup (mem_steps_of_covered hcovered hacyclic hexit ⟨i, hi⟩)

end LearningCpp.Library
