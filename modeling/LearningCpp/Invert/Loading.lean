import LearningCpp.Invert.Rebuild
import LearningCpp.Library.Machine

/-!
Loading files that no table has written. The ranges of their index need not lie
among the postings, and a load that cannot map the postings has already merged
the index.
-/

namespace LearningCpp.Invert

open Library

namespace InvertTable

/-- The elements that `getInvertInfo(pid, out)` copies are elements of `mInvertVec`. -/
def CopiesInside (t : InvertTable) (pid : Int32) : Prop :=
  ∀ disk start cnt, t.getInvertInfo disk pid .null = .ok (true, start, cnt) →
    ∃ index, start = .inVec index ∧ 0 ≤ cnt ∧ index + rounds cnt ≤ t.mInvertVec.length

/-- What a cached table finds: where the range of a node starts, unless that is
behind the postings, and how much it counts. -/
theorem getInvertInfo_cached {t : InvertTable} (hcached : t.mUseCached = true) (disk : Disk)
    (pid : Int32) (start : NodePtr) :
    t.getInvertInfo disk pid start =
      match t.mIndexMap.lookup pid with
      | none => .ok (false, .null, 0)
      | some node =>
          if t.mInvertVec.length ≤ intToSize node.nOffset then .ok (false, .null, 0)
          else .ok (true, .inVec (intToSize node.nOffset), node.nCount) := by
  rw [getInvertInfo]
  cases t.mIndexMap.lookup pid with
  | none => rfl
  | some node => simp [hcached]

theorem reach_eq_torn_iff (node : IndexNode) (size : Nat) :
    node.reach size = .torn ↔
      intToSize node.nOffset < size ∧
        ¬ (0 ≤ node.nCount ∧ intToSize node.nOffset + rounds node.nCount ≤ size) := by
  rw [IndexNode.reach]
  split
  · next houtside =>
    simp only [reduceCtorEq, false_iff]
    omega
  · next hstart =>
    split
    · next hinside => simp [hinside]
    · next htorn =>
      simp only [true_iff]
      exact ⟨Nat.lt_of_not_le hstart, htorn⟩

/-- A cached table copies inside its postings unless the range of the key's node is torn. -/
theorem copiesInside_iff {t : InvertTable} (hcached : t.mUseCached = true) (pid : Int32) :
    t.CopiesInside pid ↔
      ∀ node, t.mIndexMap.lookup pid = some node → node.reach t.mInvertVec.length ≠ .torn := by
  simp only [CopiesInside, getInvertInfo_cached hcached]
  cases hnode : t.mIndexMap.lookup pid with
  | none => simp
  | some node =>
      by_cases houtside : t.mInvertVec.length ≤ intToSize node.nOffset
      · simp [houtside, reach_eq_torn_iff]
      · have hstart : intToSize node.nOffset < t.mInvertVec.length := Nat.lt_of_not_le houtside
        simp [houtside, reach_eq_torn_iff, hstart]

/-- What a fresh cached table holds when it has loaded two files. -/
theorem load_fresh {t : InvertTable} {disk : Disk} {indexFile invertFile : String}
    (h : (InvertTable.new true).load disk indexFile invertFile = (.ok true, t)) :
    t.mUseCached = true ∧
      t.mIndexMap = insertAll IndexNode.nID id ∅ (fileNodes (disk.contents indexFile)) ∧
      t.mInvertVec = filePostings (disk.contents invertFile) := by
  have hstep : (InvertTable.new true).step
      ⟨HashOrder.ofEntries Int32 IndexNode, disk, .load indexFile invertFile⟩ = some t := by
    simp only [step, h]
  obtain ⟨hcached, hindex, hvec⟩ := step_spec rfl hstep
  exact ⟨hcached, hindex, hvec.trans (List.append_nil _)⟩

/-- A fresh cached table that has loaded two files copies inside its postings for exactly
the keys whose last live record in the index file starts behind the postings of the
invert file, or counts no negative number and ends among them. -/
theorem load_copiesInside_iff {t : InvertTable} {disk : Disk} {indexFile invertFile : String}
    (h : (InvertTable.new true).load disk indexFile invertFile = (.ok true, t)) (pid : Int32) :
    t.CopiesInside pid ↔
      ∀ node,
        (insertAll IndexNode.nID id ∅ (fileNodes (disk.contents indexFile))).lookup pid =
          some node →
        (filePostings (disk.contents invertFile)).length ≤ intToSize node.nOffset ∨
          0 ≤ node.nCount ∧
            intToSize node.nOffset + rounds node.nCount ≤
              (filePostings (disk.contents invertFile)).length := by
  obtain ⟨hcached, hindex, hvec⟩ := load_fresh h
  rw [copiesInside_iff hcached, hindex, hvec]
  apply forall_congr'
  intro node
  rw [Ne, reach_eq_torn_iff, not_and_or, not_not, Nat.not_lt]

/-- An index file with one record, and an invert file with some postings. -/
def twoFiles (node : IndexNode) (postings : List InvertNode) : Disk :=
  (Disk.write (fun _ => none) "Index.dict" (IndexNode.codec.writeArray [node])).write
    "Invert.dict" (InvertNode.codec.writeArray postings)

/-- A record that counts the one posting there is. -/
theorem load_copiesInside_one :
    ∃ t, (InvertTable.new true).load (twoFiles ⟨1, 0, 1⟩ [⟨10, 5⟩]) "Index.dict" "Invert.dict" =
        (.ok true, t) ∧ t.CopiesInside 1 := by
  have hload : ((InvertTable.new true).load (twoFiles ⟨1, 0, 1⟩ [⟨10, 5⟩]) "Index.dict"
      "Invert.dict").1 = .ok true := by decide +kernel
  have hindex : (insertAll IndexNode.nID id ∅ (fileNodes
      ((twoFiles ⟨1, 0, 1⟩ [⟨10, 5⟩]).contents "Index.dict"))).lookup 1 = some ⟨1, 0, 1⟩ := by
    decide +kernel
  have hsize : (filePostings ((twoFiles ⟨1, 0, 1⟩ [⟨10, 5⟩]).contents "Invert.dict")).length = 1 := by
    decide +kernel
  refine ⟨_, Prod.ext hload rfl, (load_copiesInside_iff (Prod.ext hload rfl) 1).mpr ?_⟩
  intro node hnode
  rw [hindex, Option.some_inj] at hnode
  rw [hsize, ← hnode]
  decide

/-- A record that counts two postings where there is one. -/
theorem not_load_copiesInside_two :
    ∃ t, (InvertTable.new true).load (twoFiles ⟨1, 0, 2⟩ [⟨10, 5⟩]) "Index.dict" "Invert.dict" =
        (.ok true, t) ∧ ¬ t.CopiesInside 1 := by
  obtain ⟨t, ht⟩ : ∃ t, t = ((InvertTable.new true).load (twoFiles ⟨1, 0, 2⟩ [⟨10, 5⟩])
      "Index.dict" "Invert.dict").2 := ⟨_, rfl⟩
  have hload : ((InvertTable.new true).load (twoFiles ⟨1, 0, 2⟩ [⟨10, 5⟩]) "Index.dict"
      "Invert.dict").1 = .ok true := by decide +kernel
  have hanswer : t.getInvertInfo (fun _ => none) 1 .null = .ok (true, .inVec 0, 2) := by
    rw [ht]
    decide +kernel
  have hsize : t.mInvertVec.length = 1 := by
    rw [ht]
    decide +kernel
  refine ⟨t, Prod.ext hload ht.symm, ?_⟩
  intro hinside
  obtain ⟨index, _, _, hend⟩ := hinside _ _ _ hanswer
  rw [hsize] at hend
  have htwo : rounds 2 = 2 := by decide
  omega

/-! ## Loads that return false -/

/-- The table after a call, whatever the call returned. -/
def after (t : InvertTable) (request : Request) : Option InvertTable :=
  match request.call with
  | .create vec dir isPersistent =>
      some (t.create request.order request.disk vec dir isPersistent).table
  | .load indexFile invertFile => some (t.load request.disk indexFile invertFile).2

/-- A `load` that returns false leaves every answer as it was. -/
def KeepsAnswers (t : InvertTable) (request : Request) : Prop :=
  ∀ indexFile invertFile, request.call = .load indexFile invertFile →
    (t.load request.disk indexFile invertFile).1 = .ok false →
      (∀ disk pid start,
        (t.load request.disk indexFile invertFile).2.getInvertInfo disk pid start =
          t.getInvertInfo disk pid start) ∧
      ∀ disk pid,
        (t.load request.disk indexFile invertFile).2.getInvertInfoVec disk pid =
          t.getInvertInfoVec disk pid

/-- A node changes nothing for a key: it starts behind the held postings as the key's
node does, if there is one, or it has the same range. -/
def Idle (t : InvertTable) (pid : Int32) (node : IndexNode) : Prop :=
  (t.mInvertVec.length ≤ intToSize node.nOffset ∧
    ∀ held, t.mIndexMap.lookup pid = some held →
      t.mInvertVec.length ≤ intToSize held.nOffset) ∨
  ∃ held, t.mIndexMap.lookup pid = some held ∧ held.nOffset = node.nOffset ∧
    held.nCount = node.nCount

/-- When a cached table loads an empty invert file, no record of the index file
changes anything. -/
def Harmless (t : InvertTable) (request : Request) : Prop :=
  match request.call with
  | .create _ _ _ => True
  | .load indexFile invertFile =>
      t.mUseCached = true → request.disk.fileExists indexFile = true →
        request.disk invertFile = some [] →
          ∀ pid node,
            (insertAll IndexNode.nID id ∅
              (fileNodes (request.disk.contents indexFile))).lookup pid = some node →
            t.Idle pid node

private theorem intToSize_injective {m n : Int32} (h : intToSize m = intToSize n) : m = n := by
  have hm := m.le_toInt
  have hm' := m.toInt_lt
  have hn := n.le_toInt
  have hn' := n.toInt_lt
  rw [intToSize, intToSize] at h
  rw [← Int32.toInt_inj]
  omega

variable {t : InvertTable} {disk : Disk} {indexFile invertFile : String}

/-- The table with the new file names. -/
def named (t : InvertTable) (indexFile invertFile : String) : InvertTable :=
  {t with mIndexFileName := indexFile, mInvertFileName := invertFile}

theorem load_missing
    (h : disk.fileExists indexFile = false ∨ disk.fileExists invertFile = false) :
    t.load disk indexFile invertFile = (.ok false, t.named indexFile invertFile) := by
  have hmissing : (!disk.fileExists indexFile || !disk.fileExists invertFile) = true := by
    rcases h with h | h
    · rw [h]
      rfl
    · rw [h, Bool.not_false, Bool.or_true]
  simp only [load, hmissing, if_true]
  rfl

private theorem readInvert_eq_false_iff (t : InvertTable) (disk : Disk) :
    (t.readInvert disk).1 = .ok false ↔ disk.contents t.mInvertFileName = [] := by
  simp only [readInvert, List.length_eq_zero_iff]
  split
  · next hempty => simp [hempty]
  · next hne =>
    split
    · simp [hne]
    · simp [hne]

theorem eq_some_nil_iff (disk : Disk) (path : String) :
    disk path = some [] ↔ disk.fileExists path = true ∧ disk.contents path = [] := by
  rw [Disk.fileExists, Disk.contents]
  cases disk path with
  | none => simp
  | some bytes => simp

/-- `load` returns false for a file that is missing, and for an empty invert file in a
cached table, when it has merged the index already. -/
theorem load_eq_false_iff :
    (t.load disk indexFile invertFile).1 = .ok false ↔
      (disk.fileExists indexFile = false ∨ disk.fileExists invertFile = false) ∨
        t.mUseCached = true ∧ disk.fileExists indexFile = true ∧ disk invertFile = some [] := by
  by_cases hmissing : disk.fileExists indexFile = false ∨ disk.fileExists invertFile = false
  · simp [load_missing hmissing, hmissing]
  · rw [not_or, Bool.not_eq_false, Bool.not_eq_false] at hmissing
    obtain ⟨hindex, hinvert⟩ := hmissing
    obtain ⟨_, _, hname⟩ := readIndex_frame (t.named indexFile invertFile) disk
    have hname' : ((t.named indexFile invertFile).readIndex disk).mInvertFileName = invertFile :=
      hname
    have hread := readInvert_eq_false_iff ((t.named indexFile invertFile).readIndex disk) disk
    have hload := load_of_exists t disk indexFile invertFile hindex hinvert
    simp only at hload
    rw [hname'] at hread
    rw [eq_some_nil_iff]
    by_cases hcached : t.mUseCached = true
    · rw [if_pos hcached] at hload
      have hresult : (t.load disk indexFile invertFile).1 = .ok false ↔
          disk.contents invertFile = [] := by
        rw [hload]
        exact hread
      simp [hresult, hindex, hinvert, hcached]
    · rw [if_neg hcached] at hload
      simp [hload, hindex, hinvert, hcached]

/-- What a cached table keeps when the invert file is empty. -/
theorem load_empty (hcached : t.mUseCached = true) (hindex : disk.fileExists indexFile = true)
    (hempty : disk invertFile = some []) :
    (t.load disk indexFile invertFile).2.mUseCached = true ∧
      (t.load disk indexFile invertFile).2.mInvertVec = t.mInvertVec ∧
      (t.load disk indexFile invertFile).2.mIndexMap =
        insertAll IndexNode.nID id t.mIndexMap (fileNodes (disk.contents indexFile)) := by
  obtain ⟨hinvert, hcontents⟩ := (eq_some_nil_iff disk invertFile).mp hempty
  obtain ⟨hvec, hcache, hname⟩ := readIndex_frame (t.named indexFile invertFile) disk
  have hcache' : ((t.named indexFile invertFile).readIndex disk).mUseCached = true :=
    hcache.trans hcached
  have hread : ((t.named indexFile invertFile).readIndex disk).readInvert disk =
      (.ok false, (t.named indexFile invertFile).readIndex disk) := by
    have hlength : (disk.contents
        ((t.named indexFile invertFile).readIndex disk).mInvertFileName).length = 0 := by
      rw [hname]
      exact List.length_eq_zero_iff.mpr hcontents
    simp only [readInvert, if_pos hlength]
  have hload : t.load disk indexFile invertFile =
      (.ok false, (t.named indexFile invertFile).readIndex disk) := by
    rw [load_of_exists t disk indexFile invertFile hindex hinvert, if_pos hcached]
    exact hread
  rw [hload]
  exact ⟨hcache', hvec, readIndex_mIndexMap _ disk⟩

/-- A node that is found in place of what a cached table has for the key answers the same
exactly when it is idle. -/
theorem answer_eq_iff_idle (t : InvertTable) (pid : Int32) (node : IndexNode) :
    ((if t.mInvertVec.length ≤ intToSize node.nOffset then .ok (false, .null, 0)
      else .ok (true, .inVec (intToSize node.nOffset), node.nCount) :
        Except Fault (Bool × NodePtr × Int32)) =
      match t.mIndexMap.lookup pid with
      | none => .ok (false, .null, 0)
      | some held =>
          if t.mInvertVec.length ≤ intToSize held.nOffset then .ok (false, .null, 0)
          else .ok (true, .inVec (intToSize held.nOffset), held.nCount)) ↔
      t.Idle pid node := by
  have hoffset (held : IndexNode) :
      intToSize node.nOffset = intToSize held.nOffset ↔ held.nOffset = node.nOffset := by
    constructor
    · intro h
      exact (intToSize_injective h).symm
    · intro h
      rw [h]
  cases hlookup : t.mIndexMap.lookup pid with
  | none =>
      by_cases hnode : t.mInvertVec.length ≤ intToSize node.nOffset
      · simp [Idle, hlookup, hnode]
      · simp [Idle, hlookup, hnode]
  | some held =>
      by_cases hnode : t.mInvertVec.length ≤ intToSize node.nOffset
      · by_cases hheld : t.mInvertVec.length ≤ intToSize held.nOffset
        · simp [Idle, hlookup, hnode, hheld]
        · have hne : held.nOffset ≠ node.nOffset := by
            intro h
            rw [h] at hheld
            exact hheld hnode
          simp [Idle, hlookup, hnode, hheld, hne]
      · by_cases hheld : t.mInvertVec.length ≤ intToSize held.nOffset
        · have hne : held.nOffset ≠ node.nOffset := by
            intro h
            rw [h] at hheld
            exact hnode hheld
          simp [Idle, hlookup, hnode, hheld, hne]
        · simp [Idle, hlookup, hnode, hheld, hoffset, eq_comm]

/-- Merging the nodes of a file into the index of a cached table leaves its answers alone
exactly when every node found afterwards is idle. -/
theorem answers_merged_iff {t' : InvertTable} {nodes : List IndexNode}
    (hcached : t.mUseCached = true) (hcached' : t'.mUseCached = true)
    (hvec : t'.mInvertVec = t.mInvertVec)
    (hindex : t'.mIndexMap = insertAll IndexNode.nID id t.mIndexMap nodes) :
    (∀ disk pid start, t'.getInvertInfo disk pid start = t.getInvertInfo disk pid start) ↔
      ∀ pid node, (insertAll IndexNode.nID id ∅ nodes).lookup pid = some node → t.Idle pid node := by
  simp only [getInvertInfo_cached hcached, getInvertInfo_cached hcached', hvec, hindex]
  constructor
  · intro h pid node hnode
    have hanswer := h (fun _ => none) pid .null
    rw [lookup_insertAll_or, hnode, Option.some_or] at hanswer
    exact (answer_eq_iff_idle t pid node).mp hanswer
  · intro h disk pid start
    rw [lookup_insertAll_or]
    cases hnode : (insertAll IndexNode.nID id ∅ nodes).lookup pid with
    | none => rw [Option.none_or]
    | some node =>
        rw [Option.some_or]
        exact (answer_eq_iff_idle t pid node).mpr (h pid node hnode)

/-- The answers as vectors follow from the answers as pointers into the same postings. -/
theorem getInvertInfoVec_congr {t' : InvertTable} (hvec : t'.mInvertVec = t.mInvertVec)
    {disk : Disk} {pid : Int32}
    (h : t'.getInvertInfo disk pid .null = t.getInvertInfo disk pid .null) :
    t'.getInvertInfoVec disk pid = t.getInvertInfoVec disk pid := by
  have hnodes : t'.nodesFrom = t.nodesFrom := by
    funext start cnt
    simp only [nodesFrom, hvec]
  simp only [getInvertInfoVec, h, hnodes]

private theorem keepsAnswers_iff (t : InvertTable) (request : Request) :
    t.KeepsAnswers request ↔ t.Harmless request := by
  obtain ⟨order, disk, call⟩ := request
  cases call with
  | create vec dir isPersistent =>
      have hkeeps : t.KeepsAnswers ⟨order, disk, .create vec dir isPersistent⟩ := by
        intro indexFile invertFile hcall
        cases hcall
      exact ⟨fun _ => trivial, fun _ => hkeeps⟩
  | load indexFile invertFile =>
      constructor
      · intro hkeeps hcached hindex hempty
        obtain ⟨hcached', hvec, hmap⟩ := load_empty hcached hindex hempty
        have hfalse := load_eq_false_iff.mpr (Or.inr ⟨hcached, hindex, hempty⟩)
        exact (answers_merged_iff hcached hcached' hvec hmap).mp
          (hkeeps indexFile invertFile rfl hfalse).1
      · intro hharmless indexFile' invertFile' hcall hfalse
        obtain ⟨rfl, rfl⟩ := Call.load.inj hcall
        rcases load_eq_false_iff.mp hfalse with hmissing | ⟨hcached, hindex, hempty⟩
        · rw [load_missing hmissing]
          exact ⟨fun _ _ _ => rfl, fun _ _ => rfl⟩
        · obtain ⟨hcached', hvec, hmap⟩ := load_empty hcached hindex hempty
          have hanswers := (answers_merged_iff hcached hcached' hvec hmap).mpr
            (hharmless hcached hindex hempty)
          refine ⟨hanswers, ?_⟩
          intro disk' pid
          exact getInvertInfoVec_congr hvec (hanswers disk' pid .null)

/-- In a run of calls on one table, those that return false leave its answers as they were
exactly when all of them are harmless. -/
theorem failed_loads_keep_answers_iff (useCache : Bool) (requests : List Request) :
    Along after KeepsAnswers (InvertTable.new useCache) requests ↔
      Along after Harmless (InvertTable.new useCache) requests := by
  have hsame : KeepsAnswers = Harmless := by
    funext t request
    exact propext (keepsAnswers_iff t request)
  rw [hsame]

/-- A build of key 1, and then an index file for key 2 with an empty invert file: `load`
returns false and the table answers for key 2. -/
theorem failed_load_answers :
    ¬ Along after KeepsAnswers (InvertTable.new true)
      [createRequest [⟨1, 10, 5⟩],
        { order := HashOrder.ofEntries Int32 IndexNode
          disk := twoFiles ⟨2, 0, 1⟩ []
          call := .load "Index.dict" "Invert.dict" }] := by
  intro h
  have hload := (h.2 _ rfl).1 "Index.dict" "Invert.dict" rfl (by decide +kernel)
  have hanswer := hload.2 (fun _ => none) 2
  revert hanswer
  decide +kernel

end InvertTable

end LearningCpp.Invert
