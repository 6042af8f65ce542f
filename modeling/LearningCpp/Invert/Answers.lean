import LearningCpp.Invert.Build

/-!
What `getInvertInfo` answers. A key of the index yields the slice its node
describes, from memory or from the invert file; over an index built from a
vector that slice is the class of the key, in posting order.
-/

namespace LearningCpp.Invert

open Library

/-- The postings of one key among the triples a build lays out. -/
def postingsOf (vec : List PidKidInfo) (pid : Int32) : List InvertNode :=
  ((laidOut vec).filter (fun info => info.nPid = pid)).map InvertNode.copy

/-- The answer that carries a posting list: it is found unless it is empty. -/
def reply (nodes : List InvertNode) : Bool × List InvertNode := (!nodes.isEmpty, nodes)

/-- Descending weight, then ascending id. -/
def PostingOrder (a b : InvertNode) : Prop :=
  b.nWeight < a.nWeight ∨ a.nWeight = b.nWeight ∧ a.nID ≤ b.nID

private theorem indexOf_lookup_of_notMem (m : IndexMap) {vec : List PidKidInfo} {pid : Int32}
    (h : pid ∉ (laidOut vec).map PidKidInfo.nPid) : (indexOf m vec).lookup pid = m.lookup pid :=
  lookup_indexRuns_of_notMem IndexNode.ofRun m h

/-- A key that was laid out is bound to its run. -/
theorem indexOf_lookup_of_mem (m : IndexMap) {vec : List PidKidInfo} {pid : Int32}
    (h : pid ∈ (laidOut vec).map PidKidInfo.nPid) :
    ∃ run ∈ runs PidKidInfo.nPid (laidOut vec), run.key = pid ∧
      (indexOf m vec).lookup pid = some (IndexNode.ofRun run) :=
  lookup_indexRuns_of_mem IndexNode.ofRun m h

theorem laidOut_run_bounds {vec : List PidKidInfo} {run : Run Int32}
    (h : run ∈ runs PidKidInfo.nPid (laidOut vec)) :
    0 < run.count ∧ run.offset + run.count ≤ (laidOut vec).length :=
  ((runs_tiles _ (laidOut vec)).bounds h).2

/-- The slice of a run is the posting list of its key. -/
theorem laidOut_run_slice {vec : List PidKidInfo} {run : Run Int32}
    (h : run ∈ runs PidKidInfo.nPid (laidOut vec)) :
    run.slice (laidOutNodes vec) = postingsOf vec run.key := by
  have hclass := runs_slice (fun _ _ => Std.le_antisymm) (laidOut vec) (laidOut_ordered vec) h
  rw [postingsOf, hclass]
  simp [Run.slice, laidOutNodes, List.map_take, List.map_drop]

theorem postingsOf_eq_nil_iff (vec : List PidKidInfo) (pid : Int32) :
    postingsOf vec pid = [] ↔ pid ∉ (laidOut vec).map PidKidInfo.nPid := by
  simp [postingsOf, List.filter_eq_nil_iff]

theorem reply_of_mem {vec : List PidKidInfo} {pid : Int32}
    (h : pid ∈ (laidOut vec).map PidKidInfo.nPid) :
    reply (postingsOf vec pid) = (true, postingsOf vec pid) := by
  have hne : postingsOf vec pid ≠ [] := fun hnil => (postingsOf_eq_nil_iff vec pid).mp hnil h
  simp [reply, hne]

theorem reply_of_notMem {vec : List PidKidInfo} {pid : Int32}
    (h : pid ∉ (laidOut vec).map PidKidInfo.nPid) : reply (postingsOf vec pid) = (false, []) := by
  simp [reply, (postingsOf_eq_nil_iff vec pid).mpr h]

/-- Equal nodes within the posting order are ordered copies of the sorted triples. -/
theorem postingsOf_pairwise (vec : List PidKidInfo) (pid : Int32) :
    (postingsOf vec pid).Pairwise PostingOrder := by
  apply List.pairwise_map.mpr
  apply List.Pairwise.imp_of_mem _
    ((laidOut_pairwise vec).sublist List.filter_sublist)
  intro a b ha hb hab
  have hapid := of_decide_eq_true (List.mem_filter.mp ha).2
  have hbpid := of_decide_eq_true (List.mem_filter.mp hb).2
  simp only [cmpPidKidInfoByPidWeight] at hab
  simp only [PostingOrder, InvertNode.copy]
  grind

namespace InvertTable

theorem getInvertInfoVec_of_none (t : InvertTable) (disk : Disk) {pid : Int32}
    (h : t.mIndexMap.lookup pid = none) : t.getInvertInfoVec disk pid = .ok (false, []) := by
  simp [getInvertInfoVec, getInvertInfo, h]

/-- A cached table serves a run from the postings it holds. -/
theorem getInvertInfoVec_cached (t : InvertTable) (disk : Disk) {pid : Int32} {run : Run Int32}
    (hcached : t.mUseCached = true)
    (hlookup : t.mIndexMap.lookup pid = some (IndexNode.ofRun run))
    (hcount : 0 < run.count) (hheld : run.offset + run.count ≤ t.mInvertVec.length)
    (hint : run.offset + run.count < 2 ^ 31) :
    t.getInvertInfoVec disk pid = .ok (true, run.slice t.mInvertVec) := by
  have hoffset : intToSize (sizeToInt run.offset) = run.offset :=
    intToSize_sizeToInt (by omega)
  have hrounds : rounds (sizeToInt run.count) = run.count := rounds_sizeToInt (by omega)
  have hcnt : ¬ sizeToInt run.count < 0 := not_sizeToInt_neg (by omega)
  have hheldOffset : ¬ run.offset ≥ t.mInvertVec.length := by omega
  simp only [getInvertInfoVec, getInvertInfo, hlookup, hcached, IndexNode.ofRun, hoffset,
    Bool.not_true, Bool.false_eq_true, ↓reduceIte, hheldOffset]
  simp only [nodesFrom, hcnt, ↓reduceIte, hrounds, hheld, Run.slice]

/-- An uncached table serves a run from the file behind its stream. -/
theorem getInvertInfoVec_uncached (t : InvertTable) (disk : Disk) {pid : Int32} {run : Run Int32}
    {path : String} {nodes : List InvertNode}
    (huncached : t.mUseCached = false) (hfp : t.mFp = some path)
    (hfile : disk.contents path = InvertNode.codec.writeArray nodes)
    (hlookup : t.mIndexMap.lookup pid = some (IndexNode.ofRun run))
    (hcount : 0 < run.count) (hheld : run.offset + run.count ≤ nodes.length)
    (hint : run.offset + run.count < 2 ^ 31) :
    t.getInvertInfoVec disk pid = .ok (true, run.slice nodes) := by
  have hoffset : (sizeToInt run.offset).toInt = run.offset := sizeToInt_toInt (by omega)
  have hrounds : rounds (sizeToInt run.count) = run.count := rounds_sizeToInt (by omega)
  have hcnt : ¬ sizeToInt run.count < 0 := not_sizeToInt_neg (by omega)
  have haddr : ¬ (run.offset : Int) * (InvertNode.codec.width : Int) < 0 := by
    have hpos : (0 : Int) ≤ (run.offset : Int) * (InvertNode.codec.width : Int) := by positivity
    omega
  have hread : freadAt InvertNode.codec (disk.contents path)
      ((run.offset : Int) * (InvertNode.codec.width : Int)).toNat run.count = run.slice nodes := by
    rw [hfile, ← Nat.cast_mul, Int.toNat_natCast, freadAt_writeArray _ _ _ _ hheld, Run.slice]
  have hlength : (run.slice nodes).length = run.count := by
    rw [Run.slice, List.length_take, List.length_drop]
    omega
  simp only [getInvertInfoVec, getInvertInfo, hlookup, huncached, IndexNode.ofRun, Bool.not_false,
    ↓reduceIte, readInvertAt, hfp, hoffset, haddr, hcnt, hrounds, hread, hlength,
    ne_eq, not_true_eq_false]
  simp only [nodesFrom, hcnt, ↓reduceIte, hrounds, hlength, Nat.le_refl,
    List.take_of_length_le]

/-- A table that binds a key as a build does, and serves the run of the key from the
postings of the build, answers the key with its posting list. -/
theorem getInvertInfoVec_of_runs (t : InvertTable) (disk : Disk) (vec : List PidKidInfo)
    (pid : Int32) (hindex : t.mIndexMap.lookup pid = (indexOf ∅ vec).lookup pid)
    (hserve : ∀ run : Run Int32, t.mIndexMap.lookup pid = some (IndexNode.ofRun run) →
      0 < run.count → run.offset + run.count ≤ (laidOutNodes vec).length →
      run.offset + run.count < 2 ^ 31 →
      t.getInvertInfoVec disk pid = .ok (true, run.slice (laidOutNodes vec))) :
    t.getInvertInfoVec disk pid = .ok (reply (postingsOf vec pid)) := by
  by_cases hmem : pid ∈ (laidOut vec).map PidKidInfo.nPid
  · obtain ⟨run, hrun, hkey, hlookup⟩ := indexOf_lookup_of_mem ∅ hmem
    obtain ⟨hcount, hbound⟩ := laidOut_run_bounds hrun
    have hnodes : run.offset + run.count ≤ (laidOutNodes vec).length := by
      simpa [laidOutNodes] using hbound
    have hint := laidOut_length_lt vec
    rw [hserve run (hindex.trans hlookup) hcount hnodes (by omega), laidOut_run_slice hrun, hkey,
      reply_of_mem hmem]
  · rw [reply_of_notMem hmem]
    apply getInvertInfoVec_of_none
    rw [hindex, indexOf_lookup_of_notMem _ hmem, AList.lookup_empty]

/-- A cached table does so when its postings begin with those of the build. -/
theorem getInvertInfoVec_of_build (t : InvertTable) (disk : Disk) (vec : List PidKidInfo)
    (pid : Int32) (rest : List InvertNode) (hcached : t.mUseCached = true)
    (hindex : t.mIndexMap.lookup pid = (indexOf ∅ vec).lookup pid)
    (hvec : t.mInvertVec = laidOutNodes vec ++ rest) :
    t.getInvertInfoVec disk pid = .ok (reply (postingsOf vec pid)) := by
  apply getInvertInfoVec_of_runs t disk vec pid hindex
  intro run hlookup hcount hnodes hint
  have hheld : run.offset + run.count ≤ t.mInvertVec.length := by
    rw [hvec, List.length_append]
    omega
  rw [getInvertInfoVec_cached t disk hcached hlookup hcount hheld hint, hvec,
    Run.slice_append run _ _ hnodes]

/-- The same for an uncached table whose stream is open on the build's postings. -/
theorem getInvertInfoVec_of_file (t : InvertTable) (disk : Disk) (vec : List PidKidInfo)
    (pid : Int32) {path : String} (huncached : t.mUseCached = false) (hfp : t.mFp = some path)
    (hindex : t.mIndexMap.lookup pid = (indexOf ∅ vec).lookup pid)
    (hfile : disk.contents path = InvertNode.codec.writeArray (laidOutNodes vec)) :
    t.getInvertInfoVec disk pid = .ok (reply (postingsOf vec pid)) := by
  apply getInvertInfoVec_of_runs t disk vec pid hindex
  intro run hlookup hcount hnodes hint
  exact getInvertInfoVec_uncached t disk huncached hfp hfile hlookup hcount hnodes hint

end InvertTable

end LearningCpp.Invert
