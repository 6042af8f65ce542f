import LearningCpp.Invert.Table
import LearningCpp.Library.RunIndex

/-!
What `createInvertTable` leaves behind. The grouping loop saves a run only when
the next one starts and saves the last run after the loop; the lemmas here show
that the saved index nodes are exactly the runs of the sorted triples.
-/

namespace LearningCpp.Invert

open Library

theorem cmpPidKidInfoByPidWeight_strictWeak : StrictWeak cmpPidKidInfoByPidWeight where
  asymm a b h := by
    simp only [cmpPidKidInfoByPidWeight] at h ⊢
    split at h <;> split <;> grind
  not_lt_trans a b c hba hcb := by
    simp only [cmpPidKidInfoByPidWeight] at hba hcb ⊢
    grind

/-- Triples the comparator cannot tell apart are equal. -/
theorem cmpPidKidInfoByPidWeight_tie (a b : PidKidInfo)
    (hab : cmpPidKidInfoByPidWeight a b = false)
    (hba : cmpPidKidInfoByPidWeight b a = false) : a = b := by
  obtain ⟨aPid, aKid, aWeight⟩ := a
  obtain ⟨bPid, bKid, bWeight⟩ := b
  simp only [cmpPidKidInfoByPidWeight] at hab hba
  grind

/-- So `sort` has no choice: every arrangement it may give is this one. -/
theorem sort_eq {vec ys : List PidKidInfo} (hperm : ys.Perm vec)
    (hys : ys.Pairwise (fun a b => cmpPidKidInfoByPidWeight b a = false)) :
    ys = sortBy cmpPidKidInfoByPidWeight vec :=
  eq_sortBy cmpPidKidInfoByPidWeight_strictWeak
    (fun a _ b _ hab hba => cmpPidKidInfoByPidWeight_tie a b hab hba) hperm hys

/-- The triples a build reads: all of the sorted vector, unless its size does
not fit an `int`. -/
def laidOut (vec : List PidKidInfo) : List PidKidInfo :=
  (sortBy cmpPidKidInfoByPidWeight vec).take (rounds (sizeToInt vec.length))

/-- The postings a build lays out, in order. -/
def laidOutNodes (vec : List PidKidInfo) : List InvertNode :=
  (laidOut vec).map InvertNode.copy

theorem laidOut_length (vec : List PidKidInfo) :
    (laidOut vec).length = rounds (sizeToInt vec.length) := by
  have h := rounds_sizeToInt_le vec.length
  rw [laidOut, List.length_take, sortBy_length, Nat.min_eq_left h]

theorem laidOut_eq_nil_iff (vec : List PidKidInfo) :
    laidOut vec = [] ↔ sizeToInt vec.length = 0 ∨ sizeToInt vec.length < 0 := by
  rw [← List.length_eq_zero_iff, laidOut_length, rounds_eq_zero_iff]

theorem laidOut_length_lt (vec : List PidKidInfo) : (laidOut vec).length < 2 ^ 31 := by
  rw [laidOut_length]
  exact rounds_lt _

theorem laidOut_of_length_lt {vec : List PidKidInfo} (h : vec.length < 2 ^ 31) :
    laidOut vec = sortBy cmpPidKidInfoByPidWeight vec := by
  rw [laidOut, rounds_sizeToInt h, List.take_of_length_le (sortBy_length vec).le]

theorem laidOut_pairwise (vec : List PidKidInfo) :
    (laidOut vec).Pairwise (fun a b => cmpPidKidInfoByPidWeight b a = false) :=
  (sortBy_pairwise cmpPidKidInfoByPidWeight_strictWeak vec).sublist (List.take_sublist _ _)

theorem laidOut_ordered (vec : List PidKidInfo) :
    ((laidOut vec).map PidKidInfo.nPid).Pairwise (· ≤ ·) := by
  apply List.pairwise_map.mpr
  apply (laidOut_pairwise vec).imp
  intro a b h
  simp only [cmpPidKidInfoByPidWeight] at h
  grind

/-- The index node the loop saves for a run. -/
def IndexNode.ofRun (run : Run Int32) : IndexNode :=
  {nID := run.key, nOffset := sizeToInt run.offset, nCount := sizeToInt run.count}

/-- The index of a build over an index that is already there. -/
def indexOf (m : IndexMap) (vec : List PidKidInfo) : IndexMap :=
  insertAll Run.key IndexNode.ofRun m (runs PidKidInfo.nPid (laidOut vec))

namespace InvertTable

/-- After round 0 the loop's index node is the growing run, and saving the last
node after the loop saves the last run. -/
theorem createLoop_spec (i : Nat) (hi : i ≠ 0) (infos : List PidKidInfo) (run : Run Int32)
    (b : Building) (hnode : b.indexNode = IndexNode.ofRun run) :
    let last := createLoop i infos b
    last.mIndexMap.insert last.indexNode.nID last.indexNode =
        insertAll Run.key IndexNode.ofRun b.mIndexMap (runsFrom PidKidInfo.nPid run i infos) ∧
      last.mInvertVec = b.mInvertVec ++ infos.map InvertNode.copy := by
  induction infos generalizing i run b with
  | nil => simp [createLoop, runsFrom, hnode, IndexNode.ofRun]
  | cons info infos ih =>
      have hcopy (vec : List InvertNode) :
          (vec ++ [InvertNode.copy info]) ++ infos.map InvertNode.copy =
            vec ++ (info :: infos).map InvertNode.copy := by simp
      by_cases hsame : run.key = info.nPid
      · have hround : createRound i info b =
            { indexNode := IndexNode.ofRun {run with count := run.count + 1}
              mIndexMap := b.mIndexMap
              mInvertVec := b.mInvertVec ++ [InvertNode.copy info] } := by
          simp [createRound, hi, hnode, IndexNode.ofRun, hsame, sizeToInt]
        have hrest := ih (i + 1) (by omega) {run with count := run.count + 1}
          (createRound i info b) (by rw [hround])
        simp only [hround, hcopy] at hrest
        simpa only [createLoop, runsFrom, hsame, ↓reduceIte, hround] using hrest
      · have hround : createRound i info b =
            { indexNode := IndexNode.ofRun ⟨info.nPid, i, 1⟩
              mIndexMap := b.mIndexMap.insert run.key (IndexNode.ofRun run)
              mInvertVec := b.mInvertVec ++ [InvertNode.copy info] } := by
          simp [createRound, hi, hnode, IndexNode.ofRun, hsame, sizeToInt, resetIndexNode]
        have hrest := ih (i + 1) (by omega) ⟨info.nPid, i, 1⟩
          (createRound i info b) (by rw [hround])
        simp only [hround, hcopy] at hrest
        simpa only [createLoop, runsFrom, hsame, ↓reduceIte, insertAll_cons, hround] using hrest

/-- Round 0 opens the first run whatever the index node held. -/
theorem createLoop_zero (info : PidKidInfo) (infos : List PidKidInfo) (b : Building) :
    let last := createLoop 0 (info :: infos) b
    last.mIndexMap.insert last.indexNode.nID last.indexNode =
        insertAll Run.key IndexNode.ofRun b.mIndexMap (runs PidKidInfo.nPid (info :: infos)) ∧
      last.mInvertVec = b.mInvertVec ++ (info :: infos).map InvertNode.copy := by
  have hround : createRound 0 info b =
      { indexNode := IndexNode.ofRun ⟨info.nPid, 0, 1⟩
        mIndexMap := b.mIndexMap
        mInvertVec := b.mInvertVec ++ [InvertNode.copy info] } := by
    simp [createRound, resetIndexNode, IndexNode.ofRun, sizeToInt]
  have hrest := createLoop_spec 1 one_ne_zero infos ⟨info.nPid, 0, 1⟩
    (createRound 0 info b) (by rw [hround])
  simp only [hround] at hrest
  simpa only [createLoop, hround, runs, List.map_cons, List.append_assoc,
    List.singleton_append] using hrest

/-- What `createInvertTable` does to the table, for a vector of any size. -/
theorem createInvertTable_table (t : InvertTable) (vec : List PidKidInfo) :
    (createInvertTable t vec).table =
      {t with mIndexMap := indexOf t.mIndexMap vec
              mInvertVec := t.mInvertVec ++ laidOutNodes vec} := by
  have hnothing (h : sizeToInt vec.length = 0 ∨ sizeToInt vec.length < 0) :
      t = {t with mIndexMap := indexOf t.mIndexMap vec
                  mInvertVec := t.mInvertVec ++ laidOutNodes vec} := by
    simp [indexOf, laidOutNodes, (laidOut_eq_nil_iff vec).mpr h, runs]
  simp only [createInvertTable]
  split
  · next hzero => exact hnothing (Or.inl hzero)
  · next hzero =>
    split
    · next hneg => exact hnothing (Or.inr hneg)
    · next hneg =>
      cases hlaid : laidOut vec with
      | nil => exact (((laidOut_eq_nil_iff vec).mp hlaid).elim hzero hneg).elim
      | cons info infos =>
          have hloop := createLoop_zero info infos ⟨⟨0, 0, 0⟩, t.mIndexMap, t.mInvertVec⟩
          rw [← hlaid] at hloop
          simp only [indexOf, laidOutNodes]
          exact congrArg₂ (fun map vec => {t with mIndexMap := map, mInvertVec := vec})
            hloop.1 hloop.2

theorem createInvertTable_outcome (t : InvertTable) (vec : List PidKidInfo) :
    (createInvertTable t vec).outcome =
      if sizeToInt vec.length < 0 then .error .lengthError else .ok () := by
  simp only [createInvertTable]
  split
  · next hzero => simp [hzero]
  · split <;> rfl

end InvertTable

end LearningCpp.Invert
