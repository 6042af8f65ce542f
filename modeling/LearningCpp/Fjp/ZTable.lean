import LearningCpp.Fjp.Creator

/-!
The table `adrank::ZInvertTable` of `invert_table/z_invert_table.h`, which
groups the postings in a map of vectors as they come. It answers every pid as
the cached table of a `byIndex` creator does.
-/

namespace LearningCpp.Fjp

open Library

structure ZInvertTable where
  id2Nodes : Map Int32 (List InvertNode2)
  dup_filter : Finset (Int32 × Int32)

namespace ZInvertTable

/-- `id2Nodes[pid]` makes an empty vector where there is none. -/
def insert (z : ZInvertTable) (info : STPidKidInfo2) : ZInvertTable :=
  let k := (info.m_nPid, info.m_nKid)
  if k ∈ z.dup_filter then z
  else
    let nodes := (z.id2Nodes.lookup info.m_nPid).getD []
    { id2Nodes := z.id2Nodes.insert info.m_nPid (nodes ++ [InvertNode2.copy info])
      dup_filter := Insert.insert k z.dup_filter }

/-- `for (int i=0; i < vec.size(); i++)`: past the largest `int` the counter
wraps, and as a `size_t` it is then behind the end of every vector. -/
def createInvertTable (z : ZInvertTable) (vec : List STPidKidInfo2) : ZInvertTable :=
  (vec.take (2 ^ 31)).foldl insert z

/-- `create(vec, dir, is_persist)` has no use for its last two arguments. -/
def create (_z : ZInvertTable) (vec : List STPidKidInfo2) : ZInvertTable :=
  createInvertTable {id2Nodes := ∅, dup_filter := ∅} vec

/-- The result of `getPostList` with its out parameters. `start` points to the
first element of a vector of the map. -/
structure PostList where
  found : Bool
  start : Option (List InvertNode2)
  cnt : Int32
  deriving DecidableEq, Repr

def getPostList (z : ZInvertTable) (id : Int32) : PostList :=
  match z.id2Nodes.lookup id with
  | none => ⟨false, none, 0⟩
  | some nodes => ⟨true, some nodes, sizeToInt nodes.length⟩

/-- The nodes `[start, start + cnt)` of a result. -/
def PostList.nodes (post : PostList) : Except Fault (List InvertNode2) :=
  match post.start with
  | none => if post.cnt = 0 then .ok [] else .error .outOfRange
  | some nodes =>
      if post.cnt < 0 ∨ rounds post.cnt > nodes.length then .error .outOfRange
      else .ok (nodes.take (rounds post.cnt))

/-- The vectors of the map hold the first quadruple of each pair in `adds`. -/
structure Holds (z : ZInvertTable) (adds : List STPidKidInfo2) : Prop where
  filter : z.dup_filter = (adds.map STPidKidInfo2.pair).toFinset
  nodes : ∀ pid, (z.id2Nodes.lookup pid).getD [] = InvertTableCreator.firstsOf adds pid
  found : ∀ pid, z.id2Nodes.lookup pid = none ↔ InvertTableCreator.firstsOf adds pid = []

private theorem empty_holds : Holds {id2Nodes := ∅, dup_filter := ∅} [] where
  filter := rfl
  nodes _ := rfl
  found _ := ⟨fun _ => rfl, fun _ => rfl⟩

theorem firstsOf_snoc_new {adds : List STPidKidInfo2} {info : STPidKidInfo2}
    (h : info.pair ∉ adds.map STPidKidInfo2.pair) (pid : Int32) :
    InvertTableCreator.firstsOf (adds ++ [info]) pid =
      if info.m_nPid = pid then InvertTableCreator.firstsOf adds pid ++ [InvertNode2.copy info]
      else InvertTableCreator.firstsOf adds pid := by
  rw [InvertTableCreator.firstsOf, firstsBy_snoc, if_neg h, postingsOf, List.filter_append,
    List.map_append]
  by_cases hpid : info.m_nPid = pid
  · simp [hpid, InvertTableCreator.firstsOf, postingsOf]
  · simp [hpid, InvertTableCreator.firstsOf, postingsOf]

theorem Holds.insert {z : ZInvertTable} {adds : List STPidKidInfo2} (h : z.Holds adds)
    (info : STPidKidInfo2) : (z.insert info).Holds (adds ++ [info]) := by
  have hmem : (info.m_nPid, info.m_nKid) ∈ z.dup_filter ↔
      info.pair ∈ adds.map STPidKidInfo2.pair := by
    rw [h.filter, List.mem_toFinset, STPidKidInfo2.pair]
  by_cases hknown : info.pair ∈ adds.map STPidKidInfo2.pair
  · have hsame : z.insert info = z := if_pos (hmem.mpr hknown)
    have hfirsts (pid : Int32) : InvertTableCreator.firstsOf (adds ++ [info]) pid =
        InvertTableCreator.firstsOf adds pid := by
      rw [InvertTableCreator.firstsOf, firstsBy_snoc, if_pos hknown, InvertTableCreator.firstsOf]
    rw [hsame]
    refine ⟨?_, fun pid => by rw [hfirsts, h.nodes], fun pid => by rw [hfirsts, h.found]⟩
    rw [h.filter, List.map_append, List.toFinset_append, List.map_singleton]
    exact (Finset.union_eq_left.mpr (by simpa using hknown)).symm
  · have hnew : z.insert info =
        { id2Nodes := z.id2Nodes.insert info.m_nPid
            (InvertTableCreator.firstsOf adds info.m_nPid ++ [InvertNode2.copy info])
          dup_filter := Insert.insert (info.m_nPid, info.m_nKid) z.dup_filter } := by
      rw [← h.nodes]
      exact if_neg (fun hin => hknown (hmem.mp hin))
    rw [hnew]
    refine ⟨?_, ?_, ?_⟩
    · simp only [h.filter]
      ext key
      simp [STPidKidInfo2.pair]
    · intro pid
      rw [firstsOf_snoc_new hknown]
      rcases eq_or_ne pid info.m_nPid with rfl | hne
      · rw [AList.lookup_insert, if_pos rfl, Option.getD_some]
      · rw [AList.lookup_insert_ne hne, if_neg hne.symm, h.nodes]
    · intro pid
      rw [firstsOf_snoc_new hknown]
      rcases eq_or_ne pid info.m_nPid with rfl | hne
      · simp [AList.lookup_insert]
      · rw [AList.lookup_insert_ne hne, if_neg hne.symm, h.found]

private theorem foldl_holds {z : ZInvertTable} {adds : List STPidKidInfo2} (h : z.Holds adds)
    (vec : List STPidKidInfo2) : (vec.foldl ZInvertTable.insert z).Holds (adds ++ vec) := by
  induction vec generalizing z adds with
  | nil => rwa [List.append_nil]
  | cons info vec ih =>
      have hrest := ih (h.insert info)
      rwa [List.append_assoc] at hrest

theorem create_holds (z : ZInvertTable) (vec : List STPidKidInfo2) (hsize : vec.length ≤ 2 ^ 31) :
    (z.create vec).Holds vec := by
  have hfold := foldl_holds empty_holds vec
  rwa [create, createInvertTable, List.take_of_length_le hsize]

/-- What the table answers: the first quadruples of the pid, if there are any. -/
theorem Holds.getPostList {z : ZInvertTable} {adds : List STPidKidInfo2} (h : z.Holds adds)
    (pid : Int32) (hsize : (InvertTableCreator.firstsOf adds pid).length < 2 ^ 31) :
    (z.getPostList pid).found = !(InvertTableCreator.firstsOf adds pid).isEmpty ∧
      (z.getPostList pid).cnt = sizeToInt (InvertTableCreator.firstsOf adds pid).length ∧
      (z.getPostList pid).nodes = .ok (InvertTableCreator.firstsOf adds pid) := by
  have hnodes := h.nodes pid
  cases hlookup : z.id2Nodes.lookup pid with
  | none =>
      have hnil := (h.found pid).mp hlookup
      rw [ZInvertTable.getPostList, hlookup, hnil]
      exact ⟨rfl, rfl, rfl⟩
  | some nodes =>
      have hne : InvertTableCreator.firstsOf adds pid ≠ [] := by
        intro hnil
        rw [(h.found pid).mpr hnil] at hlookup
        simp at hlookup
      rw [hlookup, Option.getD_some] at hnodes
      have hcnt := rounds_sizeToInt hsize
      rw [ZInvertTable.getPostList, hlookup, hnodes]
      refine ⟨by simp [hne], rfl, ?_⟩
      simp only [PostList.nodes, hcnt, if_neg (not_or.mpr ⟨not_sizeToInt_neg hsize,
        Nat.lt_irrefl _⟩), List.take_length]

/-- The table and a cached table answer a pid alike: the same result, the same
count, and the same nodes behind `start`. -/
def SameAnswer (z : ZInvertTable) (t : InvertTable) (disk : Disk) (pid : Int32)
    (start : InvertTable.NodePtr) : Prop :=
  ∃ post nodes, t.getPostListAt disk pid start = .ok post ∧ t.nodesOf post = .ok nodes ∧
    (z.getPostList pid).found = post.found ∧ (z.getPostList pid).cnt = post.cnt ∧
    (z.getPostList pid).nodes = .ok nodes

section Agree

variable (order : HashOrder Int32 IndexNode) (disk : Disk) (t : InvertTable) (dir : String)
  (is_persistent : Bool) (z : ZInvertTable) (vec : List STPidKidInfo2)

/-- A `byIndex` creator over `t` that is fed the vector element by element. -/
def createFed : InvertTableCreator.CreatorRun :=
  InvertTableCreator.createAfter order disk t dir .byIndex is_persistent
    (vec.map InvertTableCreator.Call.addTriple)

/-- Every vector of fewer than `2 ^ 31` quadruples is answered alike by the
table that groups it and by the table that a creator builds from it. -/
theorem create_agrees_with_creator (hcached : t.is_cached = true) (hsize : vec.length < 2 ^ 31) :
    (createFed order disk t dir is_persistent vec).outcome = .ok () ∧
      ∀ disk' pid start, (z.create vec).SameAnswer
        (createFed order disk t dir is_persistent vec).creator.m_invertTable disk' pid start := by
  have hholds := InvertTableCreator.run_holds order disk t dir .byIndex is_persistent
    (vec.map InvertTableCreator.Call.addTriple) hcached
  rw [InvertTableCreator.added_addTriples] at hholds
  have hpairs : (vec.map STPidKidInfo2.pair).toFinset.card < 2 ^ 31 := by
    have hle := (vec.map STPidKidInfo2.pair).toFinset_card_le
    rw [List.length_map] at hle
    omega
  refine ⟨(hholds.getPostList_create order _ disk 0 hpairs).1, ?_⟩
  intro disk' pid start
  have hlength : (InvertTableCreator.firstsOf vec pid).length < 2 ^ 31 := by
    have hfilter := List.length_filter_le (fun info : STPidKidInfo2 => decide (info.m_nPid = pid))
      (firstsBy STPidKidInfo2.pair vec)
    have hfirsts := firstsBy_length STPidKidInfo2.pair vec
    rw [InvertTableCreator.firstsOf, postingsOf, List.length_map]
    omega
  have hsorted : postingsOf (sortBy SortMethod.byIndex.cmp _) pid =
      InvertTableCreator.firstsOf vec pid := hholds.inOrder pid
  obtain ⟨post, hpost, hfound, hcnt, hnodes⟩ := InvertTable.getPostListAt_built _ disk' _ pid start
    hholds.cached (hholds.size.trans_lt hpairs) hholds.ordered
  obtain ⟨hzfound, hzcnt, hznodes⟩ :=
    (create_holds z vec hsize.le).getPostList pid hlength
  rw [hsorted] at hfound hcnt hnodes
  rw [SameAnswer, createFed, InvertTableCreator.createAfter, hholds.created]
  exact ⟨post, _, hpost, hnodes, hzfound.trans hfound.symm, hzcnt.trans hcnt.symm, hznodes⟩

end Agree

/-- Repeated pairs and two pids in turn. -/
theorem create_agrees_with_creator_on_mixed :
    (create ⟨∅, ∅⟩ [⟨7, 1, 5, 0⟩, ⟨3, 1, 4, 0⟩, ⟨7, 2, 8, 1⟩, ⟨7, 1, 9, 9⟩]).SameAnswer
      (createFed (HashOrder.ofEntries Int32 IndexNode) (fun _ => none) (.new true) "./" true
        [⟨7, 1, 5, 0⟩, ⟨3, 1, 4, 0⟩, ⟨7, 2, 8, 1⟩, ⟨7, 1, 9, 9⟩]).creator.m_invertTable
      (fun _ => none) 7 .null :=
  (create_agrees_with_creator _ _ _ _ _ _ _ rfl (by decide)).2 _ _ _

/-- With 2 ^ 31 quadruples of distinct pairs only the grouping table finds
their pid. -/
theorem create_disagrees_on_many_infos :
    ¬ ∀ (order : HashOrder Int32 IndexNode) (disk : Disk) (t : InvertTable) (dir : String)
      (is_persistent : Bool) (z : ZInvertTable) (vec : List STPidKidInfo2), t.is_cached = true →
      ∀ disk' pid start, (z.create vec).SameAnswer
        (createFed order disk t dir is_persistent vec).creator.m_invertTable disk' pid start := by
  intro h
  obtain ⟨post, _, hpost, _, hfound, _⟩ := h (HashOrder.ofEntries Int32 IndexNode)
    (fun _ => none) (.new true) "./" true ⟨∅, ∅⟩ (InvertTableCreator.manyInfos (2 ^ 31)) rfl
    (fun _ => none) 0 .null
  have hlost := InvertTableCreator.createAfter_manyInfos (HashOrder.ofEntries Int32 IndexNode)
    (fun _ => none) "./" .byIndex true 0
  rw [createFed, InvertTable.getPostListAt_of_none _ _ hlost, Except.ok.injEq] at hpost
  have hlength : (InvertTableCreator.manyInfos (2 ^ 31)).length ≤ 2 ^ 31 := by
    simp [InvertTableCreator.manyInfos]
  have hkept := not_congr ((create_holds ⟨∅, ∅⟩ _ hlength).found 0)
  rw [← hpost] at hfound
  cases hlookup : (create ⟨∅, ∅⟩ (InvertTableCreator.manyInfos (2 ^ 31))).id2Nodes.lookup 0 with
  | none => exact hkept.mpr InvertTableCreator.firstsOf_manyInfos_ne_nil hlookup
  | some nodes =>
      rw [getPostList, hlookup] at hfound
      exact Bool.noConfusion hfound

end ZInvertTable

end LearningCpp.Fjp
