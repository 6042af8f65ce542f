import LearningCpp.Fjp.Build

/-!
The total weight of a run while `createInvertTable` sums it up in an `int`,
before the square root is taken. A vector in which the keys ascend has one run
for each key.
-/

namespace LearningCpp.Fjp

open Library

/-- The sum of the squares of the weights, as a number. -/
def squares (infos : List STPidKidInfo2) : Int :=
  (infos.map (fun info => info.m_nWeight.toInt ^ 2)).sum

/-- The quadruples of a key. -/
def ofPid (pid : Int32) (infos : List STPidKidInfo2) : List STPidKidInfo2 :=
  infos.filter (fun info => info.m_nPid = pid)

namespace InvertTable

/-- `m_nTotalWeight` after the first `k` rounds of the loop. -/
def accumulated (t : InvertTable) (vec : List STPidKidInfo2) (k : Nat) : Int32 :=
  (createLoop 0 ((laid vec).take k)
    ⟨⟨0, 0, 0, 0⟩, t.index_map, t.invert_vec⟩).index_node.m_nTotalWeight

/-- In no round a product or a partial sum leaves the range of an `int`, and after the
last round of a run the total weight is the sum of the squares of the run. -/
structure ExactWeights (t : InvertTable) (vec : List STPidKidInfo2) : Prop where
  product : ∀ info ∈ laid vec,
    (info.m_nWeight * info.m_nWeight).toInt = info.m_nWeight.toInt ^ 2
  partialSum : ∀ k info, (laid vec)[k]? = some info →
    (t.accumulated vec (k + 1)).toInt = squares (ofPid info.m_nPid ((laid vec).take (k + 1)))
  total : ∀ k info, (laid vec)[k]? = some info →
    (∀ later ∈ (laid vec).drop (k + 1), later.m_nPid ≠ info.m_nPid) →
      (t.accumulated vec (k + 1)).toInt = squares (ofPid info.m_nPid (laid vec))

end InvertTable

/-! ## Sums of squares -/

@[simp]
theorem squares_nil : squares [] = 0 := rfl

theorem squares_append (xs ys : List STPidKidInfo2) :
    squares (xs ++ ys) = squares xs + squares ys := by
  rw [squares, List.map_append, List.sum_append, squares, squares]

theorem squares_nonneg (infos : List STPidKidInfo2) : 0 ≤ squares infos := by
  apply List.sum_nonneg
  intro x hx
  obtain ⟨info, _, rfl⟩ := List.mem_map.mp hx
  exact sq_nonneg _

theorem ofPid_append (pid : Int32) (xs ys : List STPidKidInfo2) :
    ofPid pid (xs ++ ys) = ofPid pid xs ++ ofPid pid ys :=
  List.filter_append xs ys

theorem ofPid_eq_nil {pid : Int32} {infos : List STPidKidInfo2}
    (h : ∀ info ∈ infos, info.m_nPid ≠ pid) : ofPid pid infos = [] := by
  apply List.filter_eq_nil_iff.mpr
  intro info hinfo hpid
  exact h info hinfo (of_decide_eq_true hpid)

theorem sumSquares_snoc (infos : List STPidKidInfo2) (info : STPidKidInfo2) :
    sumSquares (infos ++ [info]) = sumSquares infos + info.m_nWeight * info.m_nWeight := by
  rw [sumSquares, List.foldl_append]
  rfl

/-- The `int` holds the sum up to multiples of 2 ^ 32. -/
theorem sumSquares_eq (infos : List STPidKidInfo2) :
    sumSquares infos = Int32.ofInt (squares infos) := by
  induction infos using List.reverseRecOn with
  | nil => rfl
  | append_singleton infos info ih =>
      have hone : squares [info] = info.m_nWeight.toInt * info.m_nWeight.toInt := by
        simp [squares, sq]
      rw [sumSquares_snoc, squares_append, Int32.ofInt_add, ih, hone, Int32.ofInt_mul,
        Int32.ofInt_toInt]

theorem toInt_ofInt_eq_iff {n : Int} (h : 0 ≤ n) : (Int32.ofInt n).toInt = n ↔ n < 2 ^ 31 := by
  have hmod : (Int32.ofInt n).toInt = n.bmod (2 ^ 32) := Int32.toInt_ofInt
  rw [hmod, Int.bmod_def]
  omega

theorem toInt_sumSquares_iff (infos : List STPidKidInfo2) :
    (sumSquares infos).toInt = squares infos ↔ squares infos < 2 ^ 31 := by
  rw [sumSquares_eq, toInt_ofInt_eq_iff (squares_nonneg infos)]

private theorem product_eq_iff (info : STPidKidInfo2) :
    (info.m_nWeight * info.m_nWeight).toInt = info.m_nWeight.toInt ^ 2 ↔ squares [info] < 2 ^ 31 := by
  have hone : squares [info] = info.m_nWeight.toInt ^ 2 := by simp [squares]
  have hproduct : info.m_nWeight * info.m_nWeight = sumSquares [info] := by simp [sumSquares]
  rw [hproduct, ← hone, toInt_sumSquares_iff]

theorem squares_ofPid_le (pid : Int32) {xs ys : List STPidKidInfo2} (h : xs <:+: ys) :
    squares (ofPid pid xs) ≤ squares (ofPid pid ys) := by
  obtain ⟨front, back, rfl⟩ := h
  have hfront := squares_nonneg (ofPid pid front)
  have hback := squares_nonneg (ofPid pid back)
  simp only [ofPid_append, squares_append]
  omega

/-! ## The loop -/

namespace InvertTable

private theorem createLoop_snoc (i : Nat) (infos : List STPidKidInfo2) (info : STPidKidInfo2)
    (b : Building) :
    createLoop i (infos ++ [info]) b =
      createRound (i + infos.length) info (createLoop i infos b) := by
  induction infos generalizing i b with
  | nil => rfl
  | cons x infos ih =>
      rw [List.cons_append, createLoop, ih, createLoop, List.length_cons]
      congr 1
      omega

/-- In a vector in which the keys ascend, a key other than the last one does not come again. -/
theorem ofPid_snoc_of_ne {front : List STPidKidInfo2} {prev info : STPidKidInfo2}
    (hsorted : (front ++ [prev] ++ [info]).Pairwise (fun a b => a.m_nPid ≤ b.m_nPid))
    (hne : prev.m_nPid ≠ info.m_nPid) :
    ofPid info.m_nPid (front ++ [prev] ++ [info]) = [info] := by
  obtain ⟨hfront, _, hlast⟩ := List.pairwise_append.mp hsorted
  obtain ⟨_, _, hprev⟩ := List.pairwise_append.mp hfront
  have hle : prev.m_nPid ≤ info.m_nPid := hlast prev (by simp) info (by simp)
  have hnone : ofPid info.m_nPid (front ++ [prev]) = [] := by
    apply ofPid_eq_nil
    intro x hx hpid
    rcases List.mem_append.mp hx with hx | hx
    · have hback : info.m_nPid ≤ prev.m_nPid := hpid ▸ hprev x hx prev (by simp)
      exact hne (Int32.le_antisymm hle hback)
    · rw [List.mem_singleton.mp hx] at hpid
      exact hne hpid
  rw [ofPid_append, hnone]
  simp [ofPid]

/-- After a round the index node has the key of its quadruple, and has summed up all of
that key. -/
theorem createLoop_node {done : List STPidKidInfo2} {info : STPidKidInfo2}
    (hsorted : (done ++ [info]).Pairwise (fun a b => a.m_nPid ≤ b.m_nPid)) (b : Building) :
    (createLoop 0 (done ++ [info]) b).index_node.m_nID = info.m_nPid ∧
      (createLoop 0 (done ++ [info]) b).index_node.m_nTotalWeight =
        sumSquares (ofPid info.m_nPid (done ++ [info])) := by
  induction done using List.reverseRecOn generalizing info with
  | nil => simp [createLoop, createRound, resetIndexNode, ofPid, sumSquares]
  | append_singleton front prev ih =>
      obtain ⟨hid, htotal⟩ := ih (List.pairwise_append.mp hsorted).1
      rw [createLoop_snoc]
      by_cases hsame : prev.m_nPid = info.m_nPid
      · have hclass : ofPid info.m_nPid (front ++ [prev] ++ [info]) =
            ofPid prev.m_nPid (front ++ [prev]) ++ [info] := by
          rw [ofPid_append, hsame]
          simp [ofPid]
        rw [hclass, sumSquares_snoc, ← htotal]
        simp [createRound, hid, hsame]
      · rw [ofPid_snoc_of_ne hsorted hsame]
        simp [createRound, hid, hsame, resetIndexNode, sumSquares]

section

variable {vec : List STPidKidInfo2}

private theorem laid_sorted (hsorted : vec.Pairwise (fun a b => a.m_nPid ≤ b.m_nPid)) :
    (laid vec).Pairwise (fun a b => a.m_nPid ≤ b.m_nPid) :=
  hsorted.sublist (List.take_sublist _ _)

theorem accumulated_eq (hsorted : vec.Pairwise (fun a b => a.m_nPid ≤ b.m_nPid))
    (t : InvertTable) {k : Nat} {info : STPidKidInfo2} (hinfo : (laid vec)[k]? = some info) :
    t.accumulated vec (k + 1) = sumSquares (ofPid info.m_nPid ((laid vec).take (k + 1))) := by
  have htake : (laid vec).take (k + 1) = (laid vec).take k ++ [info] := by
    rw [List.take_add_one, hinfo]
    rfl
  have hstart := (laid_sorted hsorted).sublist (List.take_sublist (k + 1) _)
  rw [htake] at hstart
  rw [accumulated, htake]
  exact (createLoop_node hstart _).2

/-- The last quadruple of a key. -/
theorem exists_last {infos : List STPidKidInfo2} {pid : Int32}
    (h : ∃ info ∈ infos, info.m_nPid = pid) :
    ∃ k info, infos[k]? = some info ∧ info.m_nPid = pid ∧
      ofPid pid (infos.take (k + 1)) = ofPid pid infos := by
  induction infos using List.reverseRecOn with
  | nil =>
      obtain ⟨info, hinfo, _⟩ := h
      cases hinfo
  | append_singleton front info ih =>
      by_cases hpid : info.m_nPid = pid
      · refine ⟨front.length, info, List.getElem?_concat_length, hpid, ?_⟩
        rw [List.take_of_length_le (by simp)]
      · have hfront : ∃ x ∈ front, x.m_nPid = pid := by
          obtain ⟨x, hx, hxpid⟩ := h
          rcases List.mem_append.mp hx with hx | hx
          · exact ⟨x, hx, hxpid⟩
          · rw [List.mem_singleton.mp hx] at hxpid
            exact absurd hxpid hpid
        obtain ⟨k, x, hget, hxpid, htake⟩ := ih hfront
        have hk : k < front.length := (List.getElem?_eq_some_iff.mp hget).1
        refine ⟨k, x, ?_, hxpid, ?_⟩
        · rw [List.getElem?_append_left hk, hget]
        · rw [List.take_append_of_le_length (by omega), htake, ofPid_append]
          simp [ofPid, hpid]

/-- Behind the last quadruple of a key nothing is added to its sum. -/
theorem ofPid_take_of_last {infos : List STPidKidInfo2} {k : Nat} {pid : Int32}
    (h : ∀ later ∈ infos.drop k, later.m_nPid ≠ pid) :
    ofPid pid (infos.take k) = ofPid pid infos := by
  conv_rhs => rw [← List.take_append_drop k infos]
  rw [ofPid_append, ofPid_eq_nil h, List.append_nil]

/-- When the whole sum of a key is in range, so is every product. -/
theorem product_eq {infos : List STPidKidInfo2} {info : STPidKidInfo2} (hinfo : info ∈ infos)
    (hbound : squares (ofPid info.m_nPid infos) < 2 ^ 31) :
    (info.m_nWeight * info.m_nWeight).toInt = info.m_nWeight.toInt ^ 2 := by
  obtain ⟨front, back, hsplit⟩ := List.append_of_mem hinfo
  have hinfix : [info] <:+: infos := ⟨front, back, by simp [hsplit]⟩
  have hone : ofPid info.m_nPid [info] = [info] := by simp [ofPid]
  have hle := squares_ofPid_le info.m_nPid hinfix
  rw [hone] at hle
  apply (product_eq_iff info).mpr
  exact hle.trans_lt hbound

/-- And every partial sum. -/
theorem partialSum_eq (hsorted : vec.Pairwise (fun a b => a.m_nPid ≤ b.m_nPid))
    (t : InvertTable) {k : Nat} {info : STPidKidInfo2} (hinfo : (laid vec)[k]? = some info)
    (hbound : squares (ofPid info.m_nPid (laid vec)) < 2 ^ 31) :
    (t.accumulated vec (k + 1)).toInt =
      squares (ofPid info.m_nPid ((laid vec).take (k + 1))) := by
  rw [accumulated_eq hsorted t hinfo, toInt_sumSquares_iff]
  exact (squares_ofPid_le _ (List.take_prefix _ _).isInfix).trans_lt hbound

/-- The total weights are exact for a vector in which the keys ascend exactly when, for
every key, the squares of its weights add up to less than 2 ^ 31. -/
theorem exactWeights_iff (hsorted : vec.Pairwise (fun a b => a.m_nPid ≤ b.m_nPid))
    (t : InvertTable) :
    t.ExactWeights vec ↔ ∀ pid, squares (ofPid pid (laid vec)) < 2 ^ 31 := by
  constructor
  · intro hexact pid
    by_cases hpid : ∃ info ∈ laid vec, info.m_nPid = pid
    · obtain ⟨k, info, hget, rfl, hall⟩ := exists_last hpid
      have hrunning := hexact.partialSum k info hget
      rwa [accumulated_eq hsorted t hget, toInt_sumSquares_iff, hall] at hrunning
    · have hnone : ofPid pid (laid vec) = [] := by
        apply ofPid_eq_nil
        intro info hinfo hkey
        exact hpid ⟨info, hinfo, hkey⟩
      rw [hnone, squares_nil]
      decide
  · intro hbound
    refine ⟨?_, ?_, ?_⟩
    · intro info hinfo
      exact product_eq hinfo (hbound _)
    · intro k info hget
      exact partialSum_eq hsorted t hget (hbound _)
    · intro k info hget hlater
      rw [partialSum_eq hsorted t hget (hbound _), ofPid_take_of_last hlater]

end

/-- Two runs whose sums are small. -/
theorem exactWeights_small :
    (InvertTable.new true).ExactWeights [⟨1, 10, 3, 0⟩, ⟨1, 11, 4, 0⟩, ⟨2, 10, 5, 0⟩] := by
  refine (exactWeights_iff (by decide) _).mpr ?_
  intro pid
  have hlaid : laid [⟨1, 10, 3, 0⟩, ⟨1, 11, 4, 0⟩, ⟨2, 10, 5, 0⟩] =
      [⟨1, 10, 3, 0⟩, ⟨1, 11, 4, 0⟩, ⟨2, 10, 5, 0⟩] := by decide
  rw [hlaid]
  by_cases hone : (1 : Int32) = pid
  · subst hone
    decide
  · by_cases htwo : (2 : Int32) = pid
    · subst htwo
      decide
    · simp [ofPid, hone, htwo]

/-- The square of 46341 is no `int`. -/
theorem not_exactWeights_square : ¬ (InvertTable.new true).ExactWeights [⟨1, 10, 46341, 0⟩] := by
  intro h
  exact absurd (h.product ⟨1, 10, 46341, 0⟩ (by decide)) (by decide)

end InvertTable

end LearningCpp.Fjp
