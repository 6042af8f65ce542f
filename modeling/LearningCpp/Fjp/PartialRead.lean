import LearningCpp.Fjp.RoundTrip

/-!
Reading postings back from the invert file of an uncached table. The vector is
resized before the file is read, and a short read leaves it so.
-/

namespace LearningCpp.Fjp

open Library

namespace InvertTable

/-- When `getPostList(pid, result_vec)` returns false, `result_vec` is empty. -/
def FailsEmpty (t : InvertTable) (disk : Disk) (pid : Int32) : Prop :=
  ∀ nodes, t.getPostList disk pid = .ok (false, nodes) → nodes = []

/-- The seek fails, no element is asked for, or all of them are in the file. -/
def Served (node : IndexNode) (fileSize : Nat) : Prop :=
  node.m_nOffset < 0 ∨ node.m_nCount ≤ 0 ∨
    (rounds node.m_nOffset + rounds node.m_nCount) * InvertNode2.codec.width ≤ fileSize

/-- A node whose range can be sought is served when the file gives all its records. -/
theorem served_iff {node : IndexNode} (hoffset : 0 ≤ node.m_nOffset) (bytes : List UInt8) :
    Served node bytes.length ↔
      (freadAt InvertNode2.codec bytes (rounds node.m_nOffset * InvertNode2.codec.width)
        (rounds node.m_nCount)).length = rounds node.m_nCount := by
  have hseek : ¬ node.m_nOffset < 0 := Int32.not_lt.mpr hoffset
  rcases Nat.eq_zero_or_pos (rounds node.m_nCount) with hzero | hpos
  · have hnone : node.m_nCount ≤ 0 := by
      rcases (rounds_eq_zero_iff _).mp hzero with hcount | hcount
      · exact Int32.le_of_eq hcount
      · exact Int32.le_of_lt hcount
    simp [Served, hnone, hzero, freadAt, RecordCodec.readArray]
  · have hsome : ¬ node.m_nCount ≤ 0 := by
      intro hle
      rw [Int32.le_iff_toInt_le, Int32.toInt_zero] at hle
      rw [rounds] at hpos
      omega
    rw [freadAt_length_eq_iff _ _ _ hpos, ← Nat.add_mul]
    simp [Served, hseek, hsome]

/-- What an uncached table reads for a node, at an address that can be sought. -/
theorem readInvertPart_eq {t : InvertTable} {disk : Disk} {node : IndexNode} {path : String}
    (hfp : t.fp = some path) (hoffset : 0 ≤ node.m_nOffset) (hcount : 0 ≤ node.m_nCount) :
    ∃ nodes, nodes = freadAt InvertNode2.codec (disk.contents path)
        (rounds node.m_nOffset * InvertNode2.codec.width) (rounds node.m_nCount) ∧
      t.readInvertPart disk node = .ok (nodes.length = rounds node.m_nCount,
        nodes ++ List.replicate (rounds node.m_nCount - nodes.length) ⟨0, 0, 0⟩) := by
  have haddr : node.m_nOffset.toInt * (InvertNode2.codec.width : Int) =
      ((rounds node.m_nOffset * InvertNode2.codec.width : Nat) : Int) := by
    rw [Int32.le_iff_toInt_le, Int32.toInt_zero] at hoffset
    rw [Nat.cast_mul, rounds, Int.toNat_of_nonneg hoffset]
  refine ⟨_, rfl, ?_⟩
  have hseek : ¬ ((rounds node.m_nOffset * InvertNode2.codec.width : Nat) : Int) < 0 := by omega
  have hresize : ¬ node.m_nCount < 0 := Int32.not_lt.mpr hcount
  simp only [readInvertPart, hfp, haddr, if_neg hseek, if_neg hresize, Int.toNat_natCast]

/-- A node whose range cannot be sought, or that counts a negative number, leaves no nodes. -/
theorem readInvertPart_of_neg {t : InvertTable} {disk : Disk} {node : IndexNode} {path : String}
    (hfp : t.fp = some path) (h : node.m_nOffset < 0 ∨ node.m_nCount < 0) :
    t.readInvertPart disk node = .ok (false, []) ∨
      t.readInvertPart disk node = .error .lengthError := by
  have hwidth : (0 : Int) < InvertNode2.codec.width := by exact_mod_cast InvertNode2.codec.width_pos
  rcases Int32.lt_or_le node.m_nOffset 0 with hoffset | hoffset
  · have hseek : node.m_nOffset.toInt * (InvertNode2.codec.width : Int) < 0 := by
      rw [Int32.lt_iff_toInt_lt, Int32.toInt_zero] at hoffset
      exact Int.mul_neg_of_neg_of_pos hoffset hwidth
    left
    simp only [readInvertPart, hfp, if_pos hseek]
  · have hseek : ¬ node.m_nOffset.toInt * (InvertNode2.codec.width : Int) < 0 := by
      rw [Int32.le_iff_toInt_le, Int32.toInt_zero] at hoffset
      exact Int.not_lt.mpr (Int.mul_nonneg hoffset hwidth.le)
    have hcount : node.m_nCount < 0 := h.resolve_left (Int32.not_lt.mpr hoffset)
    right
    simp only [readInvertPart, hfp, if_neg hseek, if_pos hcount]

/-- An uncached table fails with an empty vector exactly for the nodes that the file serves. -/
theorem readInvertPart_failsEmpty_iff {t : InvertTable} {disk : Disk} (node : IndexNode)
    {path : String} (hfp : t.fp = some path) :
    (∀ nodes, t.readInvertPart disk node = .ok (false, nodes) → nodes = []) ↔
      Served node (disk.contents path).length := by
  by_cases hneg : node.m_nOffset < 0 ∨ node.m_nCount < 0
  · have hserved : Served node (disk.contents path).length := by
      rcases hneg with h | h
      · exact Or.inl h
      · exact Or.inr (Or.inl (Int32.le_of_lt h))
    rcases @readInvertPart_of_neg t disk node path hfp hneg with hread | hread
    · simp [hread, hserved]
    · simp [hread, hserved]
  · rw [not_or, Int32.not_lt, Int32.not_lt] at hneg
    obtain ⟨hoffset, hcount⟩ := hneg
    obtain ⟨nodes, hnodes, hread⟩ := @readInvertPart_eq t disk node path hfp hoffset hcount
    rw [served_iff hoffset, ← hnodes, hread]
    by_cases hall : nodes.length = rounds node.m_nCount
    · simp [hall]
    · have hle : nodes.length ≤ rounds node.m_nCount := by
        rw [hnodes, freadAt, RecordCodec.readArray_length]
        exact Nat.min_le_left _ _
      have hzeros : rounds node.m_nCount - nodes.length ≠ 0 := by omega
      simp [hall, hzeros]

/-- What an uncached table holds after a load: the index of the file, and the stream. -/
theorem load_uncached {t t' : InvertTable} {disk : Disk} {index_fn invert_fn : String}
    (huncached : t.is_cached = false) (h : t.load disk index_fn invert_fn = (.ok true, t')) :
    t'.is_cached = false ∧ t'.fp = some invert_fn ∧
      t'.index_map = readMap IndexNode.codec IndexNode.m_nID (fun p => p.m_nCount ≠ 0) ∅
        (disk.contents index_fn) := by
  obtain ⟨cleared, hcleared⟩ : ∃ cleared, cleared = InvertTable.clear
      {t with index_file_name := index_fn, invert_file_name := invert_fn} := ⟨_, rfl⟩
  obtain ⟨hcache, _, hname⟩ := readIndex_frame cleared disk
  have huncached' : (cleared.readIndex disk).is_cached = false := by
    rw [hcache, hcleared]
    exact huncached
  have hname' : (cleared.readIndex disk).invert_file_name = invert_fn := by
    rw [hname, hcleared]
    rfl
  have hindex := readIndex_index_map cleared disk
  rw [load] at h
  split at h
  · cases h
  · next hpresent =>
    simp only [← hcleared, huncached', Bool.not_false, if_true] at h
    obtain rfl := (Prod.mk.inj h).2
    have hexists : disk.fileExists invert_fn = true := by
      cases hinvert : disk.fileExists invert_fn with
      | true => rfl
      | false => simp [hinvert] at hpresent
    refine ⟨rfl, ?_, ?_⟩
    · simp only [hname', Disk.fopen, hexists, if_true]
    · rw [hindex, hcleared]
      rfl

/-- An uncached table that has loaded two files leaves no nodes in the vector when it
returns false, for exactly the keys whose last live record in the index file is served
by the invert file that is there when it is read. -/
theorem load_failsEmpty_iff {t t' : InvertTable} {disk : Disk} {index_fn invert_fn : String}
    (huncached : t.is_cached = false) (h : t.load disk index_fn invert_fn = (.ok true, t'))
    (disk' : Disk) (pid : Int32) :
    t'.FailsEmpty disk' pid ↔
      ∀ node, (readMap IndexNode.codec IndexNode.m_nID (fun p => p.m_nCount ≠ 0) ∅
        (disk.contents index_fn)).lookup pid = some node →
          Served node (disk'.contents invert_fn).length := by
  obtain ⟨huncached', hfp, hindex⟩ := load_uncached huncached h
  rw [FailsEmpty, ← hindex]
  cases hnode : t'.index_map.lookup pid with
  | none => simp [getPostList_of_none disk' hnode]
  | some node =>
      have hread : t'.getPostList disk' pid = t'.readInvertPart disk' node := by
        simp only [getPostList, hnode, huncached', Bool.false_eq_true, if_false]
      rw [hread, readInvertPart_failsEmpty_iff node hfp]
      simp

/-- An index file with one record, and an invert file with some postings. -/
def twoFiles (node : IndexNode) (postings : List InvertNode2) : Disk :=
  (Disk.write (fun _ => none) "index.idx" (IndexNode.codec.writeArray [node])).write
    "invert.idx" (InvertNode2.codec.writeArray postings)

/-- A record that counts the one posting there is. -/
theorem load_failsEmpty_one :
    ∃ t', (InvertTable.new false).load (twoFiles ⟨1, 0, 1, 5000⟩ [⟨10, 5, 0⟩]) "index.idx"
        "invert.idx" = (.ok true, t') ∧
      t'.FailsEmpty (twoFiles ⟨1, 0, 1, 5000⟩ [⟨10, 5, 0⟩]) 1 := by
  have hload : ((InvertTable.new false).load (twoFiles ⟨1, 0, 1, 5000⟩ [⟨10, 5, 0⟩]) "index.idx"
      "invert.idx").1 = .ok true := by decide +kernel
  have hindex : (readMap IndexNode.codec IndexNode.m_nID (fun p => p.m_nCount ≠ 0) ∅
      ((twoFiles ⟨1, 0, 1, 5000⟩ [⟨10, 5, 0⟩]).contents "index.idx")).lookup 1 =
        some ⟨1, 0, 1, 5000⟩ := by decide +kernel
  have hsize : ((twoFiles ⟨1, 0, 1, 5000⟩ [⟨10, 5, 0⟩]).contents "invert.idx").length = 12 := by
    decide +kernel
  refine ⟨_, Prod.ext hload rfl, (load_failsEmpty_iff rfl (Prod.ext hload rfl) _ 1).mpr ?_⟩
  intro node hnode
  rw [hindex, Option.some_inj] at hnode
  rw [hsize, ← hnode]
  exact Or.inr (Or.inr (by decide +kernel))

/-- A record that counts two postings where there is one: the vector keeps both. -/
theorem not_load_failsEmpty_two :
    ∃ t', (InvertTable.new false).load (twoFiles ⟨1, 0, 2, 5000⟩ [⟨10, 5, 0⟩]) "index.idx"
        "invert.idx" = (.ok true, t') ∧
      ¬ t'.FailsEmpty (twoFiles ⟨1, 0, 2, 5000⟩ [⟨10, 5, 0⟩]) 1 := by
  have hload : ((InvertTable.new false).load (twoFiles ⟨1, 0, 2, 5000⟩ [⟨10, 5, 0⟩]) "index.idx"
      "invert.idx").1 = .ok true := by decide +kernel
  refine ⟨_, Prod.ext hload rfl, ?_⟩
  intro hempty
  have hanswer := hempty [⟨10, 5, 0⟩, ⟨0, 0, 0⟩] (by decide +kernel)
  cases hanswer

end InvertTable

end LearningCpp.Fjp
