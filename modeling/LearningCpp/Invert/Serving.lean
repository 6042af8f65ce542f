import LearningCpp.Invert.Answers
import LearningCpp.Runtime.MapFile

/-!
Building a table and serving it. A build can be answered from memory or from
the invert file it wrote, and the two files of a persistent build can be loaded
into another table; all of these give the posting lists of the vector.
-/

namespace LearningCpp.Invert

open Library

namespace InvertTable

variable (t : InvertTable) (order : HashOrder Int32 IndexNode) (disk : Disk)
  (vec : List PidKidInfo) (dir : String) (isPersistent : Bool)

theorem create_outcome :
    (t.create order disk vec dir isPersistent).outcome =
      if sizeToInt vec.length < 0 then .error .lengthError else .ok () := by
  simp only [create, createInvertTable_outcome]
  split
  · next fault hfault => exact hfault.symm
  · next hok => exact hok.symm

theorem create_outcome_eq_ok_iff :
    (t.create order disk vec dir isPersistent).outcome = .ok () ↔ ¬ sizeToInt vec.length < 0 := by
  rw [create_outcome]
  split <;> simp [*]

theorem create_mIndexMap :
    (t.create order disk vec dir isPersistent).table.mIndexMap = indexOf ∅ vec := by
  simp only [create, createInvertTable_outcome, createInvertTable_table, clear]
  split
  · rfl
  · split <;> rfl

theorem create_mUseCached :
    (t.create order disk vec dir isPersistent).table.mUseCached = t.mUseCached := by
  simp only [create, createInvertTable_outcome, createInvertTable_table, clear]
  split
  · rfl
  · split <;> rfl

/-- A cached build appends to the postings that are already held. -/
theorem create_mInvertVec (hcached : t.mUseCached = true) :
    (t.create order disk vec dir isPersistent).table.mInvertVec =
      t.mInvertVec ++ laidOutNodes vec := by
  simp only [create, createInvertTable_outcome, createInvertTable_table, clear, hcached]
  split <;> rfl

theorem indexFile_ne_invertFile : dir ++ "/Index.dict" ≠ dir ++ "/Invert.dict" := by
  intro h
  have hsuffix := congrArg String.toList h
  simp at hsuffix

/-- An uncached build leaves its postings in the invert file and opens it. -/
theorem create_uncached (huncached : t.mUseCached = false)
    (hok : (t.create order disk vec dir isPersistent).outcome = .ok ()) :
    let created := t.create order disk vec dir isPersistent
    created.table.mFp = some (dir ++ "/Invert.dict") ∧
      created.disk.contents (dir ++ "/Invert.dict") =
        InvertNode.codec.writeArray (t.mInvertVec ++ laidOutNodes vec) := by
  have hsize := (create_outcome_eq_ok_iff t order disk vec dir _).mp hok
  simp only [create, createInvertTable_outcome, createInvertTable_table, clear, huncached, hsize,
    ↓reduceIte]
  cases isPersistent <;>
    simp [writeInvert, writeIndex, Disk.fopen, Disk.fileExists, Disk.contents]

/-- A persistent build writes both files. -/
theorem create_persistent (hok : (t.create order disk vec dir true).outcome = .ok ()) :
    let created := t.create order disk vec dir true
    created.disk (dir ++ "/Index.dict") =
        some (IndexNode.codec.writeArray (order.walk (indexOf ∅ vec))) ∧
      created.disk (dir ++ "/Invert.dict") =
        some (InvertNode.codec.writeArray (t.mInvertVec ++ laidOutNodes vec)) := by
  have hsize := (create_outcome_eq_ok_iff t order disk vec dir _).mp hok
  have hne := indexFile_ne_invertFile dir
  simp only [create, createInvertTable_outcome, createInvertTable_table, clear, hsize, ↓reduceIte]
  simp [writeInvert, writeIndex, hne]

end InvertTable

/-- The bindings of a built index: each is a run bound under its own key. -/
theorem indexOf_binding {vec : List PidKidInfo} {pid : Int32} {node : IndexNode}
    (h : (indexOf ∅ vec).lookup pid = some node) :
    ∃ run ∈ runs PidKidInfo.nPid (laidOut vec), run.key = pid ∧ IndexNode.ofRun run = node :=
  exists_of_lookup_indexRuns h

/-- Every node of a built index counts something. -/
theorem ofRun_nCount_ne_zero {vec : List PidKidInfo} {run : Run Int32}
    (h : run ∈ runs PidKidInfo.nPid (laidOut vec)) : (IndexNode.ofRun run).nCount ≠ 0 := by
  have hbounds := laidOut_run_bounds h
  have hlaid := laidOut_length_lt vec
  exact sizeToInt_ne_zero hbounds.1 (by omega)

namespace InvertTable

/-- An empty index file is refused by `mmap`, which amounts to reading nothing. -/
theorem readIndex_mIndexMap (t : InvertTable) (disk : Disk) :
    (t.readIndex disk).mIndexMap =
      readMap IndexNode.codec IndexNode.nID (fun p => p.nCount ≠ 0) t.mIndexMap
        (disk.contents t.mIndexFileName) := by
  simp only [readIndex]
  split
  next hzero =>
    rw [readMap, hzero, Nat.zero_div]
    rfl
  next => rfl

/-- Loading the index file of a build into an empty index. -/
theorem readIndex_lookup (t : InvertTable) (order : HashOrder Int32 IndexNode) (disk : Disk)
    (vec : List PidKidInfo) (pid : Int32) (hempty : t.mIndexMap = ∅)
    (hfile : disk.contents t.mIndexFileName =
      IndexNode.codec.writeArray (order.walk (indexOf ∅ vec))) :
    (t.readIndex disk).mIndexMap.lookup pid = (indexOf ∅ vec).lookup pid := by
  rw [readIndex_mIndexMap, hempty, hfile]
  apply readMap_writeArray
  · intro k node hnode
    obtain ⟨run, _, hkey, rfl⟩ := indexOf_binding hnode
    exact hkey
  · intro k node hnode
    obtain ⟨run, hrun, _, rfl⟩ := indexOf_binding hnode
    exact decide_eq_true (ofRun_nCount_ne_zero hrun)
  · exact (indexRuns_entries_length_le _ _ _).trans_lt (laidOut_length_lt vec)

theorem readIndex_frame (t : InvertTable) (disk : Disk) :
    (t.readIndex disk).mInvertVec = t.mInvertVec ∧
      (t.readIndex disk).mUseCached = t.mUseCached ∧
      (t.readIndex disk).mInvertFileName = t.mInvertFileName := by
  simp only [readIndex]
  split <;> exact ⟨rfl, rfl, rfl⟩

/-- Loading two files that exist reads the index and then, if the postings are
cached, the invert file. -/
theorem load_of_exists (t : InvertTable) (disk : Disk) (indexFile invertFile : String)
    (hindex : disk.fileExists indexFile = true) (hinvert : disk.fileExists invertFile = true) :
    let indexed :=
      {t with mIndexFileName := indexFile, mInvertFileName := invertFile : InvertTable}.readIndex disk
    t.load disk indexFile invertFile =
      if t.mUseCached then indexed.readInvert disk
      else (.ok true, {indexed with mFp := some invertFile}) := by
  obtain ⟨_, hcache, hname⟩ := readIndex_frame
    {t with mIndexFileName := indexFile, mInvertFileName := invertFile} disk
  simp only [load, hindex, hinvert, Bool.not_true, Bool.or_self, Bool.false_eq_true, ↓reduceIte,
    hcache, hname, Disk.fopen]

/-- Reading back the invert file of a build; an empty one is refused by `mmap`. -/
theorem readInvert_written (t : InvertTable) (disk : Disk) (vec : List PidKidInfo)
    (hfile : disk.contents t.mInvertFileName =
      InvertNode.codec.writeArray (laidOutNodes vec)) :
    t.readInvert disk = (.ok (!(laidOutNodes vec).isEmpty),
      {t with mInvertVec := laidOutNodes vec ++ t.mInvertVec}) := by
  have hlength : (laidOutNodes vec).length < 2 ^ 31 := by
    simpa [laidOutNodes] using laidOut_length_lt vec
  have hwidth := InvertNode.codec.width_pos
  simp only [readInvert, hfile, RecordCodec.writeArray_length,
    Nat.mul_div_cancel _ hwidth]
  split
  · next hzero =>
    have hnil : laidOutNodes vec = [] := by
      rcases Nat.mul_eq_zero.mp hzero with hlen | hw
      · exact List.eq_nil_of_length_eq_zero hlen
      · omega
    rw [hnil]
    rfl
  · next hne =>
    have hnonempty : laidOutNodes vec ≠ [] := by
      intro hnil
      simp [hnil] at hne
    rw [if_neg (not_sizeToInt_neg hlength), rounds_sizeToInt hlength,
      RecordCodec.readArray_writeArray _ _ _ (Nat.le_refl _), List.take_length]
    simp [hnonempty]

end InvertTable

/-- The postings of a key are those of its triples, when the vector's size fits
an `int`. -/
theorem postingsOf_perm {vec : List PidKidInfo} (hsize : vec.length < 2 ^ 31) (pid : Int32) :
    (postingsOf vec pid).Perm
      ((vec.filter (fun info => info.nPid = pid)).map InvertNode.copy) := by
  rw [postingsOf, laidOut_of_length_lt hsize]
  exact ((sortBy_perm vec).filter _).map _

theorem mem_laidOut_nPid {vec : List PidKidInfo} (hsize : vec.length < 2 ^ 31) (pid : Int32) :
    pid ∈ (laidOut vec).map PidKidInfo.nPid ↔ ∃ info ∈ vec, info.nPid = pid := by
  simp [laidOut_of_length_lt hsize, mem_sortBy]

/-- Each run of a build stays bound: no later run has its key. -/
theorem indexOf_lookup_run {vec : List PidKidInfo} {run : Run Int32}
    (h : run ∈ runs PidKidInfo.nPid (laidOut vec)) :
    (indexOf ∅ vec).lookup run.key = some (IndexNode.ofRun run) :=
  lookup_insertAll_of_nodup _ _
    (runs_keys_nodup (fun _ _ => Std.le_antisymm) _ (laidOut_ordered vec)) h

/-- The positions of `mInvertVec` that an index node points to. -/
def IndexNode.Covers (node : IndexNode) (position : Nat) : Prop :=
  node.nOffset.toInt ≤ position ∧ position < node.nOffset.toInt + node.nCount.toInt

theorem ofRun_covers {vec : List PidKidInfo} {run : Run Int32}
    (h : run ∈ runs PidKidInfo.nPid (laidOut vec)) (position : Nat) :
    (IndexNode.ofRun run).Covers position ↔ run.Covers position := by
  have hbounds := laidOut_run_bounds h
  have hlaid := laidOut_length_lt vec
  rw [IndexNode.Covers, Run.Covers, IndexNode.ofRun, sizeToInt_toInt (by omega),
    sizeToInt_toInt (by omega)]
  omega

/-- A node bound by the index map. -/
def InvertTable.Binds (t : InvertTable) (node : IndexNode) : Prop :=
  ∃ pid, t.mIndexMap.lookup pid = some node

/-- The nodes of a built index partition the laid out positions. -/
theorem indexOf_existsUnique (vec : List PidKidInfo) {position : Nat}
    (h : position < (laidOut vec).length) :
    ∃! node, (∃ pid, (indexOf ∅ vec).lookup pid = some node) ∧ node.Covers position := by
  obtain ⟨run, ⟨hrun, hcovers⟩, hunique⟩ :=
    (runs_tiles PidKidInfo.nPid (laidOut vec)).existsUnique (Nat.zero_le _) h
  refine ⟨IndexNode.ofRun run,
    ⟨⟨run.key, indexOf_lookup_run hrun⟩, (ofRun_covers hrun position).mpr hcovers⟩, ?_⟩
  rintro node ⟨⟨pid, hlookup⟩, hnode⟩
  obtain ⟨other, hother, _, rfl⟩ := indexOf_binding hlookup
  rw [hunique other ⟨hother, (ofRun_covers hother position).mp hnode⟩]

theorem create_outcome_of_length_lt (t : InvertTable) (order : HashOrder Int32 IndexNode)
    (disk : Disk) {vec : List PidKidInfo} (dir : String) (isPersistent : Bool)
    (hsize : vec.length < 2 ^ 31) :
    (t.create order disk vec dir isPersistent).outcome = .ok () := by
  rw [InvertTable.create_outcome, if_neg (not_sizeToInt_neg hsize)]

/-- A fresh cached table answers with the posting lists of what was laid out,
also when the build ended in an exception and nothing was. -/
theorem getInvertInfoVec_created (order : HashOrder Int32 IndexNode) (disk disk' : Disk)
    (vec : List PidKidInfo) (dir : String) (isPersistent : Bool) (pid : Int32) :
    ((InvertTable.new true).create order disk vec dir isPersistent).table.getInvertInfoVec
      disk' pid = .ok (reply (postingsOf vec pid)) := by
  apply InvertTable.getInvertInfoVec_of_build _ _ _ _ []
    (InvertTable.create_mUseCached _ _ _ _ _ _) (by rw [InvertTable.create_mIndexMap])
  rw [InvertTable.create_mInvertVec _ _ _ _ _ _ rfl, List.append_nil]
  rfl

/-- A build on a fresh cached table: every key of the vector is found with
exactly its postings in order, any other key is not found, and the ranges of
the index map partition the positions of the vector. -/
theorem create_groups_vector (order : HashOrder Int32 IndexNode) (disk disk' : Disk)
    (vec : List PidKidInfo) (dir : String) (isPersistent : Bool) (hsize : vec.length < 2 ^ 31) :
    let created := (InvertTable.new true).create order disk vec dir isPersistent
    created.outcome = .ok () ∧
      (∀ pid, (∃ info ∈ vec, info.nPid = pid) →
        ∃ out, created.table.getInvertInfoVec disk' pid = .ok (true, out) ∧
          out.Perm ((vec.filter (fun info => info.nPid = pid)).map InvertNode.copy) ∧
          out.Pairwise PostingOrder) ∧
      (∀ pid, (¬ ∃ info ∈ vec, info.nPid = pid) →
        created.table.getInvertInfoVec disk' pid = .ok (false, [])) ∧
      (∀ node, created.table.Binds node →
        0 ≤ node.nOffset.toInt ∧ 0 < node.nCount.toInt ∧
          node.nOffset.toInt + node.nCount.toInt ≤ vec.length) ∧
      ∀ position < vec.length, ∃! node, created.table.Binds node ∧ node.Covers position := by
  have hlength : (laidOut vec).length = vec.length := by
    rw [laidOut_of_length_lt hsize, sortBy_length]
  have hindex := InvertTable.create_mIndexMap (.new true) order disk vec dir isPersistent
  refine ⟨create_outcome_of_length_lt _ _ _ _ _ hsize, ?_, ?_, ?_, ?_⟩
  · intro pid hpid
    refine ⟨postingsOf vec pid, ?_, postingsOf_perm hsize pid, postingsOf_pairwise vec pid⟩
    rw [getInvertInfoVec_created, reply_of_mem ((mem_laidOut_nPid hsize pid).mpr hpid)]
  · intro pid hpid
    rw [getInvertInfoVec_created, reply_of_notMem (fun h => hpid ((mem_laidOut_nPid hsize pid).mp h))]
  · rintro node ⟨pid, hlookup⟩
    rw [hindex] at hlookup
    obtain ⟨run, hrun, _, rfl⟩ := indexOf_binding hlookup
    have hbounds := laidOut_run_bounds hrun
    rw [IndexNode.ofRun, sizeToInt_toInt (by omega), sizeToInt_toInt (by omega)]
    omega
  · intro position hposition
    simp only [InvertTable.Binds, hindex]
    exact indexOf_existsUnique vec (hlength.symm ▸ hposition)

/-- Two keys, one of them met twice. -/
theorem create_groups_mixed_vector :
    ∃ out, ((InvertTable.new true).create (HashOrder.ofEntries Int32 IndexNode) (fun _ => none)
        [⟨7, 1, 5⟩, ⟨3, 9, 9⟩, ⟨7, 2, 8⟩] "." true).table.getInvertInfoVec (fun _ => none) 7 =
          .ok (true, out) ∧
      out.Perm [⟨1, 5⟩, ⟨2, 8⟩] ∧ out.Pairwise PostingOrder :=
  (create_groups_vector (HashOrder.ofEntries Int32 IndexNode) (fun _ => none) (fun _ => none)
    [⟨7, 1, 5⟩, ⟨3, 9, 9⟩, ⟨7, 2, 8⟩] "." true (by decide)).2.1 7 (by decide)

/-- `create` on a fresh table, then `getInvertInfo`. -/
def serveCreated (useCache : Bool) (order : HashOrder Int32 IndexNode) (disk : Disk)
    (vec : List PidKidInfo) (dir : String) (isPersistent : Bool) (pid : Int32) :
    Except Fault (Bool × List InvertNode) :=
  let created := (InvertTable.new useCache).create order disk vec dir isPersistent
  match created.outcome with
  | .error fault => .error fault
  | .ok () => created.table.getInvertInfoVec created.disk pid

/-- A persistent `create` on a fresh table, `load` of the two files into another
fresh table, then `getInvertInfo` there, whatever `load` returned. -/
def serveLoaded (writerCache useCache : Bool) (order : HashOrder Int32 IndexNode) (disk : Disk)
    (vec : List PidKidInfo) (dir : String) (pid : Int32) :
    Except Fault (Bool × List InvertNode) :=
  let created := (InvertTable.new writerCache).create order disk vec dir true
  match created.outcome with
  | .error fault => .error fault
  | .ok () =>
      match (InvertTable.new useCache).load created.disk (dir ++ "/Index.dict")
          (dir ++ "/Invert.dict") with
      | (.error fault, _) => .error fault
      | (.ok _, table) => table.getInvertInfoVec created.disk pid

/-- What every way of serving a vector answers. -/
def served (vec : List PidKidInfo) (pid : Int32) : Except Fault (Bool × List InvertNode) :=
  if sizeToInt vec.length < 0 then .error .lengthError else .ok (reply (postingsOf vec pid))

theorem served_of_outcome {t : InvertTable} {order : HashOrder Int32 IndexNode} {disk : Disk}
    {vec : List PidKidInfo} {dir : String} {isPersistent : Bool}
    {answer : Except Fault (Bool × List InvertNode)} (pid : Int32)
    (hanswer : (t.create order disk vec dir isPersistent).outcome = .ok () →
      answer = .ok (reply (postingsOf vec pid))) :
    (match (t.create order disk vec dir isPersistent).outcome with
      | .error fault => .error fault
      | .ok () => answer) = served vec pid := by
  rw [InvertTable.create_outcome] at hanswer ⊢
  by_cases hneg : sizeToInt vec.length < 0
  · simp [hneg, served]
  · simp only [hneg, ↓reduceIte, served] at hanswer ⊢
    exact hanswer trivial

section Serving

variable (order : HashOrder Int32 IndexNode) (disk : Disk) (vec : List PidKidInfo)
  (dir : String) (pid : Int32)

private theorem serveCreated_eq (useCache isPersistent : Bool) :
    serveCreated useCache order disk vec dir isPersistent pid = served vec pid := by
  apply served_of_outcome pid
  intro hok
  have hindex := InvertTable.create_mIndexMap (.new useCache) order disk vec dir isPersistent
  have hcache := InvertTable.create_mUseCached (.new useCache) order disk vec dir isPersistent
  cases useCache with
  | true => exact getInvertInfoVec_created order disk _ vec dir isPersistent pid
  | false =>
      obtain ⟨hfp, hfile⟩ := InvertTable.create_uncached (.new false) order disk vec dir
        isPersistent rfl hok
      exact InvertTable.getInvertInfoVec_of_file _ _ _ _ hcache hfp (by rw [hindex]) hfile

private theorem serveLoaded_eq (writerCache useCache : Bool) :
    serveLoaded writerCache useCache order disk vec dir pid = served vec pid := by
  apply served_of_outcome pid
  intro hok
  obtain ⟨hindexFile, hinvertFile⟩ := InvertTable.create_persistent (.new writerCache) order disk
    vec dir hok
  generalize ((InvertTable.new writerCache).create order disk vec dir true).disk = written
    at hindexFile hinvertFile ⊢
  have hpostings : written.contents (dir ++ "/Invert.dict") =
      InvertNode.codec.writeArray (laidOutNodes vec) := by
    rw [Disk.contents, hinvertFile]
    rfl
  let named : InvertTable :=
    { InvertTable.new useCache with
      mIndexFileName := dir ++ "/Index.dict"
      mInvertFileName := dir ++ "/Invert.dict" }
  have hlookup : (named.readIndex written).mIndexMap.lookup pid = (indexOf ∅ vec).lookup pid := by
    apply InvertTable.readIndex_lookup named order written vec pid rfl
    change written.contents (dir ++ "/Index.dict") = _
    rw [Disk.contents, hindexFile]
    rfl
  obtain ⟨hvec, hcache, hname⟩ := InvertTable.readIndex_frame named written
  have hload := InvertTable.load_of_exists (.new useCache) written (dir ++ "/Index.dict")
    (dir ++ "/Invert.dict") (by simp [Disk.fileExists, hindexFile])
    (by simp [Disk.fileExists, hinvertFile])
  cases useCache with
  | true =>
      have hread := InvertTable.readInvert_written (named.readIndex written) written vec
        (by rw [hname]; exact hpostings)
      rw [hload.trans hread]
      refine InvertTable.getInvertInfoVec_of_build
        {named.readIndex written with
          mInvertVec := laidOutNodes vec ++ (named.readIndex written).mInvertVec}
        written vec pid [] hcache hlookup ?_
      rw [hvec]
      rfl
  | false =>
      rw [hload]
      exact InvertTable.getInvertInfoVec_of_file
        {named.readIndex written with mFp := some (dir ++ "/Invert.dict")}
        written vec pid hcache rfl hlookup hpostings

/-- The four ways of serving a vector agree on every key: from memory or from
the invert file, by the table that was built or by one that loaded the files a
persistent build wrote, in whatever order its index map was walked. -/
theorem serving_agrees (order' : HashOrder Int32 IndexNode) (disk' : Disk) (dir' : String)
    (isPersistent isPersistent' writerCache : Bool) :
    let answer := serveCreated true order disk vec dir isPersistent pid
    serveCreated false order' disk' vec dir' isPersistent' pid = answer ∧
      serveLoaded writerCache true order' disk' vec dir' pid = answer ∧
      serveLoaded writerCache false order' disk' vec dir' pid = answer := by
  simp only [serveCreated_eq, serveLoaded_eq, and_self]

example : serveLoaded true false (HashOrder.ofEntries Int32 IndexNode) (fun _ => none)
    [⟨1, 20, 9⟩, ⟨3, 2, 2⟩, ⟨1, 2, 30⟩] "." 1 = .ok (true, [⟨2, 30⟩, ⟨20, 9⟩]) := by rfl

end Serving

end LearningCpp.Invert
