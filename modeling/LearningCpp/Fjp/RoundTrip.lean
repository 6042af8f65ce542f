import LearningCpp.Fjp.Build
import LearningCpp.Runtime.MapFile

/-!
Loading the two files of a persistent build into a cached table. The index
comes back whole, but the postings go to storage that the vector does not hold,
so that no key which is found can be served.
-/

namespace LearningCpp.Fjp

open Library

namespace InvertTable

theorem indexFile_ne_invertFile (dir : String) : dir ++ "/index.idx" ≠ dir ++ "/invert.idx" := by
  intro h
  have hsuffix := congrArg String.toList h
  simp at hsuffix

/-- A persistent build writes both files. -/
theorem create_persistent (t : InvertTable) (order : HashOrder Int32 IndexNode) (disk : Disk)
    (vec : List STPidKidInfo2) (dir : String) (h : ¬ sizeToInt vec.length < 0) :
    let created := t.create order disk vec dir true
    created.disk (dir ++ "/index.idx") =
        some (IndexNode.codec.writeArray (order.walk (indexOf ∅ vec))) ∧
      created.disk (dir ++ "/invert.idx") =
        some (InvertNode2.codec.writeArray ((laid vec).map InvertNode2.copy)) := by
  have hne := indexFile_ne_invertFile dir
  rw [create_of_nonneg t order disk vec dir true h]
  simp [built, writeInvert, writeIndex, hne]

theorem ofRun_m_nCount_spec {vec : List STPidKidInfo2} {run : Run Int32}
    (h : run ∈ runs STPidKidInfo2.m_nPid (laid vec)) :
    rounds (IndexNode.ofRun (laid vec) run).m_nCount = run.count ∧
      (IndexNode.ofRun (laid vec) run).m_nCount ≠ 0 := by
  have hbounds := ((runs_tiles STPidKidInfo2.m_nPid (laid vec)).bounds h).2
  have hlaid := laid_length_lt vec
  exact ⟨rounds_sizeToInt (by omega), sizeToInt_ne_zero hbounds.1 (by omega)⟩

/-- An empty index file is refused by `mmap`, which amounts to reading nothing. -/
theorem readIndex_index_map (t : InvertTable) (disk : Disk) :
    (t.readIndex disk).index_map =
      readMap IndexNode.codec IndexNode.m_nID (fun p => p.m_nCount ≠ 0) t.index_map
        (disk.contents t.index_file_name) := by
  simp only [readIndex]
  split
  next hzero =>
    rw [readMap, hzero, Nat.zero_div]
    rfl
  next => rfl

/-- Loading the index file of a build into an empty index. -/
theorem readIndex_lookup (t : InvertTable) (order : HashOrder Int32 IndexNode) (disk : Disk)
    (vec : List STPidKidInfo2) (pid : Int32) (hempty : t.index_map = ∅)
    (hfile : disk.contents t.index_file_name =
      IndexNode.codec.writeArray (order.walk (indexOf ∅ vec))) :
    (t.readIndex disk).index_map.lookup pid = (indexOf ∅ vec).lookup pid := by
  rw [readIndex_index_map, hempty, hfile]
  apply readMap_writeArray
  · intro k node hnode
    obtain ⟨run, _, hkey, rfl⟩ := exists_of_lookup_indexRuns hnode
    exact hkey
  · intro k node hnode
    obtain ⟨run, hrun, _, rfl⟩ := exists_of_lookup_indexRuns hnode
    exact decide_eq_true (ofRun_m_nCount_spec hrun).2
  · exact (indexRuns_entries_length_le _ _ _).trans_lt (laid_length_lt vec)

theorem readIndex_frame (t : InvertTable) (disk : Disk) :
    (t.readIndex disk).is_cached = t.is_cached ∧ (t.readIndex disk).invert_vec = t.invert_vec ∧
      (t.readIndex disk).invert_file_name = t.invert_file_name := by
  simp only [readIndex]
  split <;> exact ⟨rfl, rfl, rfl⟩

/-- The postings of a build end up behind the vector, which stays as it was. -/
theorem readInvert_written (t : InvertTable) (disk : Disk) (vec : List STPidKidInfo2)
    (hfile : disk.contents t.invert_file_name =
      InvertNode2.codec.writeArray ((laid vec).map InvertNode2.copy)) :
    t.readInvert disk = (.ok (), {t with spare := (laid vec).map InvertNode2.copy}) := by
  have hlength : ((laid vec).map InvertNode2.copy).length < 2 ^ 31 := by
    rw [List.length_map]
    exact laid_length_lt vec
  simp only [readInvert, hfile, RecordCodec.writeArray_length,
    Nat.mul_div_cancel _ InvertNode2.codec.width_pos, if_neg (not_sizeToInt_neg hlength),
    rounds_sizeToInt hlength]
  rw [RecordCodec.readArray_writeArray _ _ _ (Nat.le_refl _), List.take_length]

/-- Loading two files that exist into a cached table reads both. -/
theorem load_cached (u : InvertTable) (disk : Disk) {index_fn invert_fn : String}
    {cleared table : InvertTable} (hcached : u.is_cached = true)
    (hindex : disk.fileExists index_fn = true) (hinvert : disk.fileExists invert_fn = true)
    (hcleared : cleared = InvertTable.clear
      {u with index_file_name := index_fn, invert_file_name := invert_fn})
    (hread : (cleared.readIndex disk).readInvert disk = (.ok (), table)) :
    u.load disk index_fn invert_fn = (.ok true, table) := by
  have hserved : (cleared.readIndex disk).is_cached = true := by
    rw [(readIndex_frame cleared disk).1, hcleared]
    exact hcached
  rw [load, hindex, hinvert]
  simp only [Bool.not_true, Bool.or_self, Bool.false_eq_true, if_false, ← hcleared, hserved, hread]

section RoundTrip

variable (order : HashOrder Int32 IndexNode) (disk : Disk) (t u : InvertTable)
  (vec : List STPidKidInfo2) (dir : String)

/-- `u` after loading the files that a persistent build of `t` has written. -/
def loadCreated : Except Fault Bool × InvertTable :=
  u.load (t.create order disk vec dir true).disk (dir ++ "/index.idx") (dir ++ "/invert.idx")

/-- The loaded table has the writer's index, no posting in its vector, and the
postings in the storage behind it. -/
theorem loadCreated_eq (hcached : u.is_cached = true) (h : ¬ sizeToInt vec.length < 0) :
    let loaded := loadCreated order disk t u vec dir
    loaded.1 = .ok true ∧ loaded.2.is_cached = true ∧ loaded.2.invert_vec = [] ∧
      loaded.2.spare = (laid vec).map InvertNode2.copy ∧
      ∀ pid, loaded.2.index_map.lookup pid = (indexOf ∅ vec).lookup pid := by
  obtain ⟨hindex, hinvert⟩ := create_persistent t order disk vec dir h
  obtain ⟨written, hwritten⟩ : ∃ written, written = (t.create order disk vec dir true).disk :=
    ⟨_, rfl⟩
  rw [← hwritten] at hindex hinvert
  obtain ⟨cleared, hcleared⟩ : ∃ cleared, cleared = InvertTable.clear
      {u with
        index_file_name := dir ++ "/index.idx"
        invert_file_name := dir ++ "/invert.idx"} := ⟨_, rfl⟩
  obtain ⟨hframeCached, hframeVec, hframeFile⟩ := readIndex_frame cleared written
  have hread := readInvert_written (cleared.readIndex written) written vec (by
    rw [hframeFile, hcleared, Disk.contents]
    exact congrArg (fun file => file.getD []) hinvert)
  have hlookup := fun pid => readIndex_lookup cleared order written vec pid (by rw [hcleared]; rfl) (by
    rw [hcleared, Disk.contents]
    exact congrArg (fun file => file.getD []) hindex)
  have hload := load_cached u written hcached (by rw [Disk.fileExists, hindex]; rfl)
    (by rw [Disk.fileExists, hinvert]; rfl) hcleared hread
  rw [loadCreated, ← hwritten, hload]
  refine ⟨rfl, hframeCached.trans ?_, hframeVec.trans ?_, rfl, hlookup⟩
  · rw [hcleared]
    exact hcached
  · rw [hcleared]
    rfl

/-- Every pid is served alike by the table that wrote the files and by the
table that loads them. -/
def RoundTrips : Prop :=
  let created := t.create order disk vec dir true
  let loaded := loadCreated order disk t u vec dir
  created.outcome = .ok () ∧ loaded.1 = .ok true ∧
    ∀ pid, ∃ answer, created.table.getPostList created.disk pid = .ok answer ∧
      loaded.2.getPostList created.disk pid = .ok answer

/-- The first key of the vector is found after loading, and serving it reads
behind the end of the vector. -/
theorem loadCreated_faults (hcached : u.is_cached = true) (info : STPidKidInfo2)
    (hmem : info ∈ laid vec) (h : ¬ sizeToInt vec.length < 0) (disk' : Disk) :
    (loadCreated order disk t u vec dir).2.getPostList disk' info.m_nPid =
      .error .outOfRange := by
  obtain ⟨_, hserved, hvec, _, hindex⟩ := loadCreated_eq order disk t u vec dir hcached h
  obtain ⟨run, hrun, hkey, hlookup⟩ := lookup_indexRuns_of_mem (IndexNode.ofRun (laid vec)) ∅
    (List.mem_map_of_mem (f := STPidKidInfo2.m_nPid) hmem)
  have hbounds := ((runs_tiles STPidKidInfo2.m_nPid (laid vec)).bounds hrun).2
  have hcount := (ofRun_m_nCount_spec hrun).1
  have helements : (loadCreated order disk t u vec dir).2.elements
      (IndexNode.ofRun (laid vec) run).m_nOffset (IndexNode.ofRun (laid vec) run).m_nCount =
        .error .outOfRange := by
    rw [elements, if_pos]
    right
    right
    rw [hvec, hcount, List.length_nil]
    omega
  have hfound := (hindex info.m_nPid).trans hlookup
  simp only [getPostList, hfound, hserved, if_true, helements]

/-- The round trip holds exactly when the size of the vector, kept in an `int`,
is zero: nothing is written then, and nothing is found. -/
theorem round_trips_iff (hcached : u.is_cached = true) :
    RoundTrips order disk t u vec dir ↔ sizeToInt vec.length = 0 := by
  have houtcome := create_outcome t order disk vec dir true
  constructor
  · rintro ⟨hok, _, hserved⟩
    by_contra hsize
    have hneg : ¬ sizeToInt vec.length < 0 := by
      intro hneg
      rw [houtcome, if_pos hneg] at hok
      simp at hok
    cases hlaid : laid vec with
    | nil => exact ((laid_eq_nil_iff vec).mp hlaid).elim hsize hneg
    | cons info infos =>
        obtain ⟨answer, _, hloaded⟩ := hserved info.m_nPid
        have hfault := loadCreated_faults order disk t u vec dir hcached info
          (hlaid ▸ List.mem_cons_self) hneg (t.create order disk vec dir true).disk
        rw [hfault] at hloaded
        simp at hloaded
  · intro hzero
    have hneg : ¬ sizeToInt vec.length < 0 := by
      rw [hzero]
      decide
    obtain ⟨hload, _, _, _, hindex⟩ := loadCreated_eq order disk t u vec dir hcached hneg
    have hnone (pid : Int32) : (indexOf ∅ vec).lookup pid = none := by
      rw [indexOf, (laid_eq_nil_iff vec).mpr (Or.inl hzero)]
      rfl
    have hwriter (pid : Int32) :
        (t.create order disk vec dir true).table.index_map.lookup pid = none := by
      rw [create_of_nonneg t order disk vec dir true hneg]
      simp only
      split <;> exact hnone pid
    refine ⟨by rw [houtcome, if_neg hneg], hload, ?_⟩
    intro pid
    exact ⟨(false, []), getPostList_of_none _ (hwriter pid),
      getPostList_of_none _ ((hindex pid).trans (hnone pid))⟩

end RoundTrip

/-- An empty vector. -/
theorem round_trips_iff_of_empty :
    RoundTrips (HashOrder.ofEntries Int32 IndexNode) (fun _ => none) (.new true) (.new true) []
      "./" ↔ sizeToInt 0 = 0 :=
  round_trips_iff _ _ _ _ [] _ rfl

/-- One quadruple: the loaded table finds its pid and reads behind its vector. -/
theorem round_trip_fails_on_one :
    ¬ RoundTrips (HashOrder.ofEntries Int32 IndexNode) (fun _ => none) (.new true) (.new true)
      [⟨1, 10, 5, 0⟩] "./" := by
  rintro ⟨_, _, hserved⟩
  obtain ⟨answer, _, hloaded⟩ := hserved 1
  have hfault := loadCreated_faults (HashOrder.ofEntries Int32 IndexNode) (fun _ => none)
    (.new true) (.new true) [⟨1, 10, 5, 0⟩] "./" rfl ⟨1, 10, 5, 0⟩ (by decide) (by decide)
  rw [hfault] at hloaded
  simp at hloaded

end InvertTable

end LearningCpp.Fjp
