import Mathlib.Data.List.Nodup
import Mathlib.Tactic

/-!
Run-length indexing of a list by a key. A run records where a block of
consecutive elements with one key begins and how long it is. The runs of a
list tile its positions, and when the list is ordered by key each run is the
whole class of its key.
-/

namespace LearningCpp.Library

variable {α κ : Type*}

structure Run (κ : Type*) where
  key : κ
  offset : Nat
  count : Nat
  deriving DecidableEq, Repr

/-- The positions a run covers. -/
def Run.Covers (run : Run κ) (position : Nat) : Prop :=
  run.offset ≤ position ∧ position < run.offset + run.count

/-- The part of a list a run stands for. -/
def Run.slice (run : Run κ) (xs : List α) : List α :=
  (xs.drop run.offset).take run.count

section Definitions

variable [DecidableEq κ] (key : α → κ)

/-- The runs of the elements from position `i` on, `current` being the run
still growing. A run is emitted when the next one begins. -/
def runsFrom (current : Run κ) (i : Nat) : List α → List (Run κ)
  | [] => [current]
  | x :: xs =>
      if current.key = key x then
        runsFrom {current with count := current.count + 1} (i + 1) xs
      else
        current :: runsFrom ⟨key x, i, 1⟩ (i + 1) xs

def runs : List α → List (Run κ)
  | [] => []
  | x :: xs => runsFrom key ⟨key x, 0, 1⟩ 1 xs

end Definitions

/-- Consecutive non-empty runs from position `first` up to position `last`. -/
def Tiles (first last : Nat) : List (Run κ) → Prop
  | [] => first = last
  | run :: rest => run.offset = first ∧ 0 < run.count ∧ Tiles (first + run.count) last rest

theorem Tiles.le {first last : Nat} {rs : List (Run κ)} (h : Tiles first last rs) :
    first ≤ last := by
  induction rs generalizing first with
  | nil => exact Nat.le_of_eq h
  | cons run rest ih =>
      have hrest := ih h.2.2
      omega

/-- Every run of a tiling lies inside the tiled interval. -/
theorem Tiles.bounds {first last : Nat} {rs : List (Run κ)} (h : Tiles first last rs)
    {run : Run κ} (hmem : run ∈ rs) :
    first ≤ run.offset ∧ 0 < run.count ∧ run.offset + run.count ≤ last := by
  induction rs generalizing first with
  | nil => simp at hmem
  | cons head rest ih =>
      obtain ⟨hoffset, hcount, htail⟩ := h
      rcases List.mem_cons.mp hmem with rfl | hrest
      · have hle := htail.le
        omega
      · have hbounds := ih htail hrest
        omega

theorem Tiles.length_le {first last : Nat} {rs : List (Run κ)} (h : Tiles first last rs) :
    first + rs.length ≤ last := by
  induction rs generalizing first with
  | nil => exact Nat.le_of_eq h
  | cons run rest ih =>
      have hrest := ih h.2.2
      have hcount := h.2.1
      rw [List.length_cons]
      omega

/-- A tiled position belongs to exactly one run. -/
theorem Tiles.existsUnique {first last : Nat} {rs : List (Run κ)} (h : Tiles first last rs)
    {position : Nat} (hlow : first ≤ position) (hhigh : position < last) :
    ∃! run, run ∈ rs ∧ run.Covers position := by
  induction rs generalizing first with
  | nil =>
      have hempty : first = last := h
      omega
  | cons head rest ih =>
      obtain ⟨hoffset, hcount, htail⟩ := h
      by_cases hhead : position < first + head.count
      · refine ⟨head, ⟨by simp, by constructor <;> omega⟩, ?_⟩
        rintro other ⟨hmem, hcovers⟩
        rcases List.mem_cons.mp hmem with rfl | hrest
        · rfl
        · have hbounds := htail.bounds hrest
          have := hcovers.1
          omega
      · obtain ⟨run, ⟨hrun, hcovers⟩, hunique⟩ := ih htail (by omega)
        refine ⟨run, ⟨by simp [hrun], hcovers⟩, ?_⟩
        rintro other ⟨hmem, hother⟩
        rcases List.mem_cons.mp hmem with rfl | hrest
        · have := hother.2
          omega
        · exact hunique other ⟨hrest, hother⟩

variable [DecidableEq κ] {key : α → κ}

theorem runsFrom_tiles (key : α → κ) (current : Run κ) (i : Nat) (xs : List α)
    (hend : current.offset + current.count = i) (hcount : 0 < current.count) :
    Tiles current.offset (i + xs.length) (runsFrom key current i xs) := by
  induction xs generalizing current i with
  | nil => exact ⟨rfl, hcount, by simpa [Tiles] using hend⟩
  | cons x xs ih =>
      rw [List.length_cons, show i + (xs.length + 1) = i + 1 + xs.length by omega, runsFrom]
      split
      · exact ih {current with count := current.count + 1} (i + 1)
          (by dsimp only; omega) (by simp)
      · refine ⟨rfl, hcount, ?_⟩
        rw [hend]
        exact ih ⟨key x, i, 1⟩ (i + 1) rfl Nat.one_pos

theorem runs_tiles (key : α → κ) (xs : List α) : Tiles 0 xs.length (runs key xs) := by
  cases xs with
  | nil => rfl
  | cons x xs =>
      simpa [runs, Nat.add_comm] using
        runsFrom_tiles key ⟨key x, 0, 1⟩ 1 xs rfl Nat.one_pos

/-- The runs of a list carry only keys of the list. -/
theorem runsFrom_key (current : Run κ) (i : Nat) (xs : List α) {run : Run κ}
    (hmem : run ∈ runsFrom key current i xs) :
    run.key = current.key ∨ run.key ∈ xs.map key := by
  induction xs generalizing current i with
  | nil =>
      rw [List.mem_singleton.mp hmem]
      exact Or.inl rfl
  | cons x xs ih =>
      rw [runsFrom] at hmem
      split at hmem
      · rcases ih _ _ hmem with hcurrent | hrest
        · exact Or.inl hcurrent
        · exact Or.inr (List.mem_cons_of_mem _ hrest)
      · rcases List.mem_cons.mp hmem with rfl | htail
        · exact Or.inl rfl
        · rcases ih _ _ htail with hnew | hrest
          · exact Or.inr (by simp [hnew])
          · exact Or.inr (List.mem_cons_of_mem _ hrest)

/-- Every key met after `current` has a run, and so has the key of `current`. -/
theorem exists_runsFrom (current : Run κ) (i : Nat) (xs : List α) {k : κ}
    (hk : k = current.key ∨ k ∈ xs.map key) :
    ∃ run ∈ runsFrom key current i xs, run.key = k := by
  induction xs generalizing current i with
  | nil =>
      refine ⟨current, by simp [runsFrom], ?_⟩
      simpa [eq_comm] using hk
  | cons x xs ih =>
      rw [runsFrom]
      split
      · next hsame =>
        apply ih
        rcases hk with hcurrent | hrest
        · exact Or.inl hcurrent
        · rcases List.mem_cons.mp hrest with hx | hxs
          · exact Or.inl (hx.trans hsame.symm)
          · exact Or.inr hxs
      · rcases hk with hcurrent | hrest
        · exact ⟨current, by simp, hcurrent.symm⟩
        · obtain ⟨run, hrun, hkey⟩ := ih ⟨key x, i, 1⟩ (i + 1) (List.mem_cons.mp hrest)
          exact ⟨run, by simp [hrun], hkey⟩

theorem exists_run_iff (xs : List α) (k : κ) :
    (∃ run ∈ runs key xs, run.key = k) ↔ k ∈ xs.map key := by
  cases xs with
  | nil => simp [runs]
  | cons x xs =>
      constructor
      · rintro ⟨run, hrun, rfl⟩
        exact List.mem_cons.mpr (runsFrom_key _ _ _ hrun)
      · intro hk
        exact exists_runsFrom _ _ _ (List.mem_cons.mp hk)

omit [DecidableEq κ] in
theorem Run.slice_getElem? (run : Run κ) (xs : List α) {position : Nat}
    (h : run.Covers position) : (run.slice xs)[position - run.offset]? = xs[position]? := by
  obtain ⟨hlow, hhigh⟩ := h
  rw [Run.slice, List.getElem?_take_of_lt (by omega), List.getElem?_drop]
  congr 1
  omega

omit [DecidableEq κ] in
/-- Two lists with the same slices of a tiling agree on the tiled positions. -/
theorem Tiles.getElem?_eq {first last : Nat} {rs : List (Run κ)} (h : Tiles first last rs)
    {xs ys : List α} (hslices : ∀ run ∈ rs, run.slice xs = run.slice ys)
    {position : Nat} (hlow : first ≤ position) (hhigh : position < last) :
    xs[position]? = ys[position]? := by
  obtain ⟨run, ⟨hrun, hcovers⟩, _⟩ := h.existsUnique hlow hhigh
  rw [← run.slice_getElem? xs hcovers, ← run.slice_getElem? ys hcovers, hslices run hrun]

omit [DecidableEq κ] in
/-- Elements after the end of a run do not change its slice. -/
theorem Run.slice_append (run : Run κ) (xs ys : List α)
    (hbound : run.offset + run.count ≤ xs.length) :
    run.slice (xs ++ ys) = run.slice xs := by
  rw [Run.slice, List.drop_append_of_le_length (by omega),
    List.take_append_of_le_length (by rw [List.length_drop]; omega), Run.slice]

omit [DecidableEq κ] in
/-- A run that reaches the end of a list grows by the next element. -/
theorem Run.slice_snoc (run : Run κ) (xs : List α) (x : α)
    (hend : run.offset + run.count = xs.length) :
    Run.slice {run with count := run.count + 1} (xs ++ [x]) = run.slice xs ++ [x] := by
  simp only [Run.slice]
  rw [List.drop_append_of_le_length (by omega), List.take_of_length_le (by simp; omega),
    List.take_of_length_le (by simp; omega)]

theorem filter_key_eq_nil {xs : List α} {k : κ} (hk : k ∉ xs.map key) :
    xs.filter (fun x => key x = k) = [] := by
  apply List.filter_eq_nil_iff.mpr
  intro x hx hkey
  apply hk
  rw [← of_decide_eq_true hkey]
  exact List.mem_map_of_mem hx

section Ordered

variable {R : κ → κ → Prop} (hanti : ∀ a b, R a b → R b a → a = b)
include hanti

omit [DecidableEq κ] in
/-- Once a key-ordered list has moved past a key, the key does not return. -/
private theorem key_not_mem_of_past {x : α} {xs : List α} {k : κ}
    (hordered : (k :: (x :: xs).map key).Pairwise R) (hne : k ≠ key x) :
    k ∉ (x :: xs).map key := by
  intro hmem
  rcases List.mem_cons.mp hmem with hx | hxs
  · exact hne hx
  · have hkx : R k (key x) := List.rel_of_pairwise_cons hordered (by simp)
    have htail : (key x :: xs.map key).Pairwise R := (List.pairwise_cons.mp hordered).2
    exact hne (hanti _ _ hkx (List.rel_of_pairwise_cons htail hxs))

theorem runsFrom_keys_nodup (current : Run κ) (i : Nat) (xs : List α)
    (hordered : (current.key :: xs.map key).Pairwise R) :
    ((runsFrom key current i xs).map Run.key).Nodup := by
  induction xs generalizing current i with
  | nil => simp [runsFrom]
  | cons x xs ih =>
      have htail : (key x :: xs.map key).Pairwise R := (List.pairwise_cons.mp hordered).2
      rw [runsFrom]
      split
      · next hsame =>
        apply ih
        simpa only [hsame] using htail
      · next hne =>
        rw [List.map_cons, List.nodup_cons]
        refine ⟨?_, ih _ _ htail⟩
        intro hmem
        obtain ⟨run, hrun, hkey⟩ := List.mem_map.mp hmem
        have hback := runsFrom_key _ _ _ hrun
        rw [hkey] at hback
        exact key_not_mem_of_past hanti hordered hne (List.mem_cons.mpr hback)

theorem runs_keys_nodup (xs : List α) (hordered : (xs.map key).Pairwise R) :
    ((runs key xs).map Run.key).Nodup := by
  cases xs with
  | nil => simp [runs]
  | cons x xs => exact runsFrom_keys_nodup hanti _ _ _ hordered

/-- The growing run and the elements before it determine every later class:
`done` is what has been read, and its elements with the current key are
exactly the current run. -/
private theorem runsFrom_slice (current : Run κ) (done xs : List α)
    (hend : current.offset + current.count = done.length)
    (hclass : done.filter (fun x => key x = current.key) = current.slice done)
    (hordered : (done.map key ++ xs.map key).Pairwise R)
    (hlast : current.key ∈ done.map key)
    (hmax : ∀ k ∈ done.map key, k = current.key ∨ R k current.key)
    {run : Run κ} (hmem : run ∈ runsFrom key current done.length xs) :
    (done ++ xs).filter (fun x => key x = run.key) = run.slice (done ++ xs) := by
  induction xs generalizing current done with
  | nil =>
      rw [List.mem_singleton.mp hmem, List.append_nil]
      exact hclass
  | cons x xs ih =>
      have hsplit : done ++ x :: xs = (done ++ [x]) ++ xs := by simp
      have hordered' : ((done ++ [x]).map key ++ xs.map key).Pairwise R := by
        simpa using hordered
      have hlater : ∀ k ∈ done.map key, R k (key x) := fun k hk =>
        (List.pairwise_append.mp hordered).2.2 k hk (key x) (by simp)
      rw [runsFrom] at hmem
      split at hmem
      · next hsame =>
        rw [hsplit]
        refine ih {current with count := current.count + 1} (done ++ [x]) ?_ ?_ hordered' ?_ ?_ ?_
        · simp only [List.length_append, List.length_singleton]
          omega
        · rw [List.filter_append, hclass, Run.slice_snoc current done x hend]
          simp [hsame]
        · simp [hsame]
        · intro k hk
          simp only [List.map_append, List.mem_append] at hk
          rcases hk with hold | hnew
          · exact hmax k hold
          · exact Or.inl (by simpa [hsame] using hnew)
        · simpa using hmem
      · next hne =>
        rcases List.mem_cons.mp hmem with rfl | htail
        · have hpast : run.key ∉ (x :: xs).map key := by
            apply key_not_mem_of_past hanti _ hne
            apply List.pairwise_cons.mpr
            exact ⟨fun k hk => (List.pairwise_append.mp hordered).2.2 _ hlast k hk,
              (List.pairwise_append.mp hordered).2.1⟩
          rw [List.filter_append, filter_key_eq_nil hpast, List.append_nil, hclass,
            Run.slice_append run done _ (by omega)]
        · have hfresh : key x ∉ done.map key := by
            intro hk
            rcases hmax _ hk with hsame | hbefore
            · exact hne hsame.symm
            · exact hne (hanti _ _ (hlater _ hlast) hbefore)
          rw [hsplit]
          refine ih ⟨key x, done.length, 1⟩ (done ++ [x]) ?_ ?_ hordered' ?_ ?_ ?_
          · simp
          · simp [List.filter_append, filter_key_eq_nil hfresh, Run.slice]
          · simp
          · intro k hk
            simp only [List.map_append, List.mem_append] at hk
            rcases hk with hold | hnew
            · exact Or.inr (hlater k hold)
            · exact Or.inl (by simpa using hnew)
          · simpa using htail

/-- In a list ordered by key, each run is the class of its key. -/
theorem runs_slice (xs : List α) (hordered : (xs.map key).Pairwise R) {run : Run κ}
    (hmem : run ∈ runs key xs) :
    xs.filter (fun x => key x = run.key) = run.slice xs := by
  cases xs with
  | nil => simp [runs] at hmem
  | cons x xs =>
      refine runsFrom_slice hanti ⟨key x, 0, 1⟩ [x] xs rfl ?_ (by simpa using hordered) ?_ ?_ hmem
      · simp [Run.slice]
      · simp
      · intro k hk
        exact Or.inl (by simpa using hk)

end Ordered

end LearningCpp.Library
