import LearningCpp.Fjp.Table
import LearningCpp.Library.RunIndex

/-!
What `createInvertTable` leaves behind: one index node for each run of the
vector it reads, and the postings in the order of the vector. A cached table
built from a vector in which the keys ascend answers each key with its class.
-/

namespace LearningCpp.Fjp

open Library

/-- The quadruples a build reads: all of the vector, unless its size does not
fit an `int`. -/
def laid (vec : List STPidKidInfo2) : List STPidKidInfo2 :=
  vec.take (rounds (sizeToInt vec.length))

theorem laid_length (vec : List STPidKidInfo2) :
    (laid vec).length = rounds (sizeToInt vec.length) := by
  rw [laid, List.length_take, Nat.min_eq_left (rounds_sizeToInt_le vec.length)]

theorem laid_length_lt (vec : List STPidKidInfo2) : (laid vec).length < 2 ^ 31 := by
  rw [laid_length]
  exact rounds_lt _

theorem laid_eq_nil_iff (vec : List STPidKidInfo2) :
    laid vec = [] ↔ sizeToInt vec.length = 0 ∨ sizeToInt vec.length < 0 := by
  rw [← List.length_eq_zero_iff, laid_length, rounds_eq_zero_iff]

theorem laid_of_length_lt {vec : List STPidKidInfo2} (h : vec.length < 2 ^ 31) :
    laid vec = vec := by
  rw [laid, rounds_sizeToInt h, List.take_length]

def sumSquares (infos : List STPidKidInfo2) : Int32 :=
  infos.foldl (fun total info => total + info.m_nWeight * info.m_nWeight) 0

namespace IndexNode

/-- The index node of a run while the run is still growing. -/
def growing (vec : List STPidKidInfo2) (run : Run Int32) : IndexNode :=
  { m_nID := run.key
    m_nOffset := sizeToInt run.offset
    m_nCount := sizeToInt run.count
    m_nTotalWeight := sumSquares (run.slice vec) }

/-- The index node that is saved for a run. -/
def ofRun (vec : List STPidKidInfo2) (run : Run Int32) : IndexNode :=
  {growing vec run with m_nTotalWeight := scaledRoot (sumSquares (run.slice vec))}

private theorem growing_snoc (vec : List STPidKidInfo2) (info : STPidKidInfo2) (run : Run Int32)
    (hend : run.offset + run.count = vec.length) :
    growing (vec ++ [info]) {run with count := run.count + 1} =
      {growing vec run with
        m_nTotalWeight :=
          (growing vec run).m_nTotalWeight + info.m_nWeight * info.m_nWeight
        m_nCount := (growing vec run).m_nCount + 1} := by
  rw [growing, Run.slice_snoc run vec info hend, sumSquares, List.foldl_append]
  simp [growing, sumSquares, sizeToInt]

private theorem growing_new (vec : List STPidKidInfo2) (info : STPidKidInfo2) :
    growing (vec ++ [info]) ⟨info.m_nPid, vec.length, 1⟩ =
      { m_nID := info.m_nPid
        m_nOffset := sizeToInt vec.length
        m_nCount := 1
        m_nTotalWeight := info.m_nWeight * info.m_nWeight } := by
  simp [growing, Run.slice, sumSquares, sizeToInt]

private theorem ofRun_append (vec rest : List STPidKidInfo2) (run : Run Int32)
    (hbound : run.offset + run.count ≤ vec.length) : ofRun (vec ++ rest) run = ofRun vec run := by
  rw [ofRun, growing, Run.slice_append run vec rest hbound, ofRun, growing]

end IndexNode

def indexOf (m : IndexMap) (vec : List STPidKidInfo2) : IndexMap :=
  indexRuns STPidKidInfo2.m_nPid (IndexNode.ofRun (laid vec)) m (laid vec)

/-- The answer that carries a posting list: it is found unless it is empty. -/
def reply (nodes : List InvertNode2) : Bool × List InvertNode2 := (!nodes.isEmpty, nodes)

/-- The postings of one key, in the order of the vector. -/
def postingsOf (vec : List STPidKidInfo2) (pid : Int32) : List InvertNode2 :=
  (vec.filter (fun info => info.m_nPid = pid)).map InvertNode2.copy

theorem postingsOf_eq_nil_iff (vec : List STPidKidInfo2) (pid : Int32) :
    postingsOf vec pid = [] ↔ pid ∉ vec.map STPidKidInfo2.m_nPid := by
  simp [postingsOf, List.filter_eq_nil_iff]

namespace InvertTable

theorem save_growing (m : IndexMap) (vec : List STPidKidInfo2) (run : Run Int32) :
    save m (IndexNode.growing vec run) = m.insert run.key (IndexNode.ofRun vec run) := rfl

/-- The loop after `done`: its index node is the run that `done` ends with, and
saving the last node after the loop saves the last run. -/
theorem createLoop_spec (done rest : List STPidKidInfo2) (hdone : done ≠ []) (run : Run Int32)
    (hend : run.offset + run.count = done.length) (b : Building)
    (hnode : b.index_node = IndexNode.growing done run) :
    let last := createLoop done.length rest b
    save last.index_map last.index_node =
        insertAll Run.key (IndexNode.ofRun (done ++ rest)) b.index_map
          (runsFrom STPidKidInfo2.m_nPid run done.length rest) ∧
      last.invert_vec = b.invert_vec ++ rest.map InvertNode2.copy := by
  induction rest generalizing done run b with
  | nil => simp [createLoop, runsFrom, hnode, save_growing]
  | cons info rest ih =>
      have hlength : done.length ≠ 0 := by simpa using hdone
      have hsplit : done ++ info :: rest = (done ++ [info]) ++ rest := by simp
      have hcopy : (b.invert_vec ++ [InvertNode2.copy info]) ++ rest.map InvertNode2.copy =
          b.invert_vec ++ (info :: rest).map InvertNode2.copy := by simp
      by_cases hsame : run.key = info.m_nPid
      · have hround : createRound done.length info b =
            { index_node := IndexNode.growing (done ++ [info]) {run with count := run.count + 1}
              index_map := b.index_map
              invert_vec := b.invert_vec ++ [InvertNode2.copy info] } := by
          rw [IndexNode.growing_snoc done info run hend]
          simp [createRound, hlength, hnode, IndexNode.growing, hsame]
        have hrest := ih (done ++ [info]) (by simp) {run with count := run.count + 1}
          (by simp; omega) (createRound done.length info b) (by rw [hround])
        rw [hround, hcopy, ← hsplit, List.length_append, List.length_singleton] at hrest
        simpa only [createLoop, runsFrom, hsame, ↓reduceIte, hround] using hrest
      · have hround : createRound done.length info b =
            { index_node := IndexNode.growing (done ++ [info]) ⟨info.m_nPid, done.length, 1⟩
              index_map := b.index_map.insert run.key (IndexNode.ofRun (done ++ info :: rest) run)
              invert_vec := b.invert_vec ++ [InvertNode2.copy info] } := by
          rw [IndexNode.growing_new, IndexNode.ofRun_append done _ run hend.le, ← save_growing]
          simp [createRound, hlength, hnode, IndexNode.growing, hsame, resetIndexNode]
        have hrest := ih (done ++ [info]) (by simp) ⟨info.m_nPid, done.length, 1⟩
          (by simp) (createRound done.length info b) (by rw [hround])
        rw [hround, hcopy, ← hsplit, List.length_append, List.length_singleton] at hrest
        simpa only [createLoop, runsFrom, hsame, ↓reduceIte, insertAll_cons, hround] using hrest

/-- Round 0 opens the first run whatever the index node held. -/
theorem createLoop_zero (info : STPidKidInfo2) (infos : List STPidKidInfo2) (b : Building) :
    let last := createLoop 0 (info :: infos) b
    save last.index_map last.index_node =
        indexRuns STPidKidInfo2.m_nPid (IndexNode.ofRun (info :: infos)) b.index_map
          (info :: infos) ∧
      last.invert_vec = b.invert_vec ++ (info :: infos).map InvertNode2.copy := by
  have hround : createRound 0 info b =
      { index_node := IndexNode.growing [info] ⟨info.m_nPid, 0, 1⟩
        index_map := b.index_map
        invert_vec := b.invert_vec ++ [InvertNode2.copy info] } := by
    simp [createRound, resetIndexNode, IndexNode.growing, Run.slice, sumSquares, sizeToInt]
  have hrest := createLoop_spec [info] infos (by simp) ⟨info.m_nPid, 0, 1⟩ rfl
    (createRound 0 info b) (by rw [hround])
  simp only [hround] at hrest
  simpa only [createLoop, hround, indexRuns, runs, List.map_cons, List.append_assoc,
    List.singleton_append, List.length_singleton] using hrest

theorem createInvertTable_eq (t : InvertTable) (vec : List STPidKidInfo2) :
    createInvertTable t vec =
      (if sizeToInt vec.length < 0 then .error .lengthError else .ok (),
        {t with
          index_map := indexOf t.index_map vec
          invert_vec := t.invert_vec ++ (laid vec).map InvertNode2.copy}) := by
  have hnothing (h : sizeToInt vec.length = 0 ∨ sizeToInt vec.length < 0) :
      t = {t with
        index_map := indexOf t.index_map vec
        invert_vec := t.invert_vec ++ (laid vec).map InvertNode2.copy} := by
    simp [indexOf, indexRuns, (laid_eq_nil_iff vec).mpr h, runs]
  simp only [createInvertTable]
  split
  next hzero =>
    rw [if_neg (by simp [hzero])]
    exact congrArg (Prod.mk _) (hnothing (Or.inl hzero))
  next hzero =>
    split
    next hneg => exact congrArg (Prod.mk _) (hnothing (Or.inr hneg))
    next hneg =>
      cases hlaid : laid vec with
      | nil => exact (((laid_eq_nil_iff vec).mp hlaid).elim hzero hneg).elim
      | cons info infos =>
          have hloop := createLoop_zero info infos ⟨⟨0, 0, 0, 0⟩, t.index_map, t.invert_vec⟩
          rw [← hlaid] at hloop
          rw [indexOf, ← hlaid]
          exact congrArg₂ (fun map vec => (Except.ok (), {t with index_map := map, invert_vec := vec}))
            hloop.1 hloop.2

section Create

variable (t : InvertTable) (order : HashOrder Int32 IndexNode) (disk : Disk)
  (vec : List STPidKidInfo2) (dir : String) (is_persistent : Bool)

/-- The table that `create` builds in memory, before it is cached or written. -/
def built : InvertTable :=
  { is_cached := t.is_cached, fp := none, index_file_name := dir ++ "/index.idx"
    invert_file_name := dir ++ "/invert.idx", index_map := indexOf ∅ vec
    invert_vec := (laid vec).map InvertNode2.copy, spare := [] }

theorem create_of_neg (h : sizeToInt vec.length < 0) :
    t.create order disk vec dir is_persistent = ⟨t.built vec dir, disk, .error .lengthError⟩ := by
  rw [create, createInvertTable_eq, if_pos h]
  rfl

theorem create_of_nonneg (h : ¬ sizeToInt vec.length < 0) :
    t.create order disk vec dir is_persistent =
      let table := t.built vec dir
      let written :=
        if is_persistent then table.writeInvert (table.writeIndex order disk)
        else if !t.is_cached then table.writeInvert disk
        else disk
      let opened :=
        if !t.is_cached then
          {table with fp := written.fopen (dir ++ "/invert.idx"), invert_vec := []}
        else table
      ⟨opened, written, .ok ()⟩ := by
  rw [create, createInvertTable_eq, if_neg h]
  rfl

theorem create_outcome :
    (t.create order disk vec dir is_persistent).outcome =
      if sizeToInt vec.length < 0 then .error .lengthError else .ok () := by
  by_cases h : sizeToInt vec.length < 0
  · rw [create_of_neg t order disk vec dir is_persistent h, if_pos h]
  · rw [create_of_nonneg t order disk vec dir is_persistent h, if_neg h]

theorem create_outcome_of_length_lt (h : vec.length < 2 ^ 31) :
    (t.create order disk vec dir is_persistent).outcome = .ok () := by
  rw [create_outcome, if_neg (not_sizeToInt_neg h)]

/-- A cached table keeps what was built in memory, whatever is written. -/
theorem create_cached (hcached : t.is_cached = true) :
    (t.create order disk vec dir is_persistent).table = t.built vec dir := by
  by_cases h : sizeToInt vec.length < 0
  · rw [create_of_neg t order disk vec dir is_persistent h]
  · rw [create_of_nonneg t order disk vec dir is_persistent h, hcached]
    rfl

end Create

theorem getPostList_of_none {t : InvertTable} (disk : Disk) {pid : Int32}
    (h : t.index_map.lookup pid = none) : t.getPostList disk pid = .ok (false, []) := by
  simp only [getPostList, h]

theorem getPostListAt_of_none {t : InvertTable} (disk : Disk) {pid : Int32} (start : NodePtr)
    (h : t.index_map.lookup pid = none) :
    t.getPostListAt disk pid start = .ok ⟨false, [], .null, 0⟩ := by
  simp only [getPostListAt, h]

theorem built_lookup_of_notMem (t : InvertTable) {vec : List STPidKidInfo2} (dir : String)
    {pid : Int32} (hsize : vec.length < 2 ^ 31) (h : pid ∉ vec.map STPidKidInfo2.m_nPid) :
    (t.built vec dir).index_map.lookup pid = none := by
  change (indexOf ∅ vec).lookup pid = none
  rw [indexOf, laid_of_length_lt hsize, lookup_indexRuns_of_notMem _ _ h, AList.lookup_empty]

/-- In a vector whose keys ascend a key that occurs has one run, and the slice
of it is the key's posting list. -/
theorem built_lookup_of_mem (t : InvertTable) {vec : List STPidKidInfo2} (dir : String)
    {pid : Int32} (hsize : vec.length < 2 ^ 31)
    (hordered : (vec.map STPidKidInfo2.m_nPid).Pairwise (· ≤ ·))
    (h : pid ∈ vec.map STPidKidInfo2.m_nPid) :
    ∃ run : Run Int32, 0 < run.count ∧ run.offset + run.count ≤ vec.length ∧
      (t.built vec dir).index_map.lookup pid = some (IndexNode.ofRun vec run) ∧
      run.slice (vec.map InvertNode2.copy) = postingsOf vec pid := by
  obtain ⟨run, hrun, rfl, hlookup⟩ :=
    lookup_indexRuns_of_mem (IndexNode.ofRun vec) ∅ h
  have hbounds := ((runs_tiles STPidKidInfo2.m_nPid vec).bounds hrun).2
  have hclass := runs_slice (fun _ _ => Std.le_antisymm) vec hordered hrun
  refine ⟨run, hbounds.1, hbounds.2, ?_, ?_⟩
  · change (indexOf ∅ vec).lookup run.key = _
    rw [indexOf, laid_of_length_lt hsize, hlookup]
  · rw [postingsOf, hclass]
    simp [Run.slice, List.map_take, List.map_drop]

private theorem elements_of_run (t : InvertTable) (run : Run Int32)
    (hheld : run.offset + run.count ≤ t.invert_vec.length)
    (hint : run.offset + run.count < 2 ^ 31) :
    t.elements (sizeToInt run.offset) (sizeToInt run.count) =
      .ok (run.slice t.invert_vec) := by
  have hoffset : ¬ sizeToInt run.offset < 0 := not_sizeToInt_neg (by omega)
  have hcount : ¬ sizeToInt run.count < 0 := not_sizeToInt_neg (by omega)
  have hend : ¬ run.offset + run.count > t.invert_vec.length := by omega
  rw [elements, rounds_sizeToInt (by omega), rounds_sizeToInt (by omega),
    if_neg (not_or.mpr ⟨hoffset, not_or.mpr ⟨hcount, hend⟩⟩), Run.slice]

/-- A cached table built from a vector in which the keys ascend answers each
key with its postings, in the order of the vector. -/
theorem getPostList_built (t : InvertTable) (disk : Disk) {vec : List STPidKidInfo2}
    (dir : String) (pid : Int32) (hcached : t.is_cached = true) (hsize : vec.length < 2 ^ 31)
    (hordered : (vec.map STPidKidInfo2.m_nPid).Pairwise (· ≤ ·)) :
    (t.built vec dir).getPostList disk pid = .ok (reply (postingsOf vec pid)) := by
  have hvec : (t.built vec dir).invert_vec = vec.map InvertNode2.copy := by
    rw [built, laid_of_length_lt hsize]
  have hserved : (t.built vec dir).is_cached = true := hcached
  by_cases hmem : pid ∈ vec.map STPidKidInfo2.m_nPid
  · obtain ⟨run, hcount, hbound, hlookup, hslice⟩ :=
      built_lookup_of_mem t dir hsize hordered hmem
    have hheld : run.offset + run.count ≤ (t.built vec dir).invert_vec.length := by
      rwa [hvec, List.length_map]
    have helements := elements_of_run (t.built vec dir) run hheld (by omega)
    rw [hvec, hslice] at helements
    have hne : postingsOf vec pid ≠ [] := fun hnil => (postingsOf_eq_nil_iff vec pid).mp hnil hmem
    simp only [getPostList, hlookup, hserved, if_true, IndexNode.ofRun, IndexNode.growing,
      helements, reply]
    simp [hne]
  · rw [(postingsOf_eq_nil_iff vec pid).mpr hmem]
    exact getPostList_of_none disk (built_lookup_of_notMem t dir hsize hmem)

/-- The pointer and the count that a key yields, and the nodes behind them. -/
theorem getPostListAt_built (t : InvertTable) (disk : Disk) {vec : List STPidKidInfo2}
    (dir : String) (pid : Int32) (start : NodePtr) (hcached : t.is_cached = true)
    (hsize : vec.length < 2 ^ 31)
    (hordered : (vec.map STPidKidInfo2.m_nPid).Pairwise (· ≤ ·)) :
    ∃ post, (t.built vec dir).getPostListAt disk pid start = .ok post ∧
      post.found = !(postingsOf vec pid).isEmpty ∧
      post.cnt = sizeToInt (postingsOf vec pid).length ∧
      (t.built vec dir).nodesOf post = .ok (postingsOf vec pid) := by
  have hvec : (t.built vec dir).invert_vec = vec.map InvertNode2.copy := by
    rw [built, laid_of_length_lt hsize]
  have hserved : (t.built vec dir).is_cached = true := hcached
  by_cases hmem : pid ∈ vec.map STPidKidInfo2.m_nPid
  · obtain ⟨run, hcount, hbound, hlookup, hslice⟩ :=
      built_lookup_of_mem t dir hsize hordered hmem
    have hne : postingsOf vec pid ≠ [] := fun hnil => (postingsOf_eq_nil_iff vec pid).mp hnil hmem
    have hlength : (postingsOf vec pid).length = run.count := by
      rw [← hslice, Run.slice, List.length_take, List.length_drop, List.length_map]
      omega
    have hoffset : rounds (sizeToInt run.offset) = run.offset := rounds_sizeToInt (by omega)
    have hcnt : rounds (sizeToInt run.count) = run.count := rounds_sizeToInt (by omega)
    have hin : ¬ (sizeToInt run.offset < 0 ∨ run.offset ≥ vec.length) :=
      not_or.mpr ⟨not_sizeToInt_neg (by omega), by omega⟩
    have hall : ¬ (sizeToInt run.count < 0 ∨ run.offset + run.count > vec.length) :=
      not_or.mpr ⟨not_sizeToInt_neg (by omega), by omega⟩
    refine ⟨⟨true, [], .inVec run.offset, sizeToInt run.count⟩, ?_, ?_, ?_, ?_⟩
    · simp only [getPostListAt, hlookup, hserved, if_true, IndexNode.ofRun, IndexNode.growing,
        hvec, List.length_map, hoffset, if_neg hin]
    · simp [hne]
    · rw [hlength]
    · simp only [nodesOf, hvec, List.length_map, hcnt, if_neg hall]
      rw [← hslice, Run.slice]
  · have hnil := (postingsOf_eq_nil_iff vec pid).mpr hmem
    have hpost := getPostListAt_of_none disk start (built_lookup_of_notMem t dir hsize hmem)
    rw [hnil]
    exact ⟨⟨false, [], .null, 0⟩, hpost, rfl, rfl, rfl⟩

/-- A table that could not be built has no key. -/
theorem built_lookup_of_neg (t : InvertTable) {vec : List STPidKidInfo2} (dir : String)
    (pid : Int32) (h : sizeToInt vec.length < 0) :
    (t.built vec dir).index_map.lookup pid = none := by
  change (indexOf ∅ vec).lookup pid = none
  rw [indexOf, (laid_eq_nil_iff vec).mpr (Or.inr h)]
  rfl

end InvertTable

end LearningCpp.Fjp
