import LearningCpp.Invert.Serving
import LearningCpp.Library.FirstOccurrence

/-!
The creator of `invert/invertCreator.cpp`: triples are added one by one, a pair
of keys that was added before is ignored, and `create` hands the collected
vector to the table, which sorts it in place.
-/

namespace LearningCpp.Invert

open Library

structure InvertCreator where
  mIsPersistent : Bool
  mPath : String
  mTripleVec : List PidKidInfo
  pInvertTable : InvertTable
  mFilterSet : Finset (Int32 × Int32)

/-- The pair of keys by which triples are filtered. -/
def PidKidInfo.pair (info : PidKidInfo) : Int32 × Int32 := (info.nPid, info.nKid)

namespace InvertCreator

def new (invertTable : InvertTable) (dirStr : String) (isPersistent : Bool) : InvertCreator :=
  { mIsPersistent := isPersistent, mPath := dirStr, mTripleVec := []
    pInvertTable := invertTable, mFilterSet := ∅ }

def addTriple (c : InvertCreator) (indexID invertID weight : Int32) : InvertCreator :=
  let key := (indexID, invertID)
  if key ∈ c.mFilterSet then c
  else
    {c with mFilterSet := insert key c.mFilterSet
            mTripleVec := c.mTripleVec ++ [⟨indexID, invertID, weight⟩]}

/-- What `create` returns: the creator, with its table rebuilt and its vector
sorted, the disk, and whether an exception left the call. -/
structure CreatorRun where
  creator : InvertCreator
  disk : Disk
  outcome : Except Fault Unit

def create (c : InvertCreator) (order : HashOrder Int32 IndexNode) (disk : Disk) : CreatorRun :=
  let created := c.pInvertTable.create order disk c.mTripleVec c.mPath c.mIsPersistent
  { creator := {c with pInvertTable := created.table, mTripleVec := created.infoVec}
    disk := created.disk
    outcome := created.outcome }

/-- A sequence of `addTriple` calls, the arguments of each as a triple. -/
def addTriples (c : InvertCreator) (calls : List PidKidInfo) : InvertCreator :=
  calls.foldl (fun c call => c.addTriple call.nPid call.nKid call.nWeight) c

/-- The creator has let through the first triple of each pair in `calls`. -/
structure Holds (c : InvertCreator) (calls : List PidKidInfo) : Prop where
  vec : c.mTripleVec = firstsBy PidKidInfo.pair calls
  filter : c.mFilterSet = (calls.map PidKidInfo.pair).toFinset

theorem Holds.addTriple {c : InvertCreator} {calls : List PidKidInfo} (h : c.Holds calls)
    (call : PidKidInfo) :
    (c.addTriple call.nPid call.nKid call.nWeight).Holds (calls ++ [call]) := by
  have hmem : (call.nPid, call.nKid) ∈ c.mFilterSet ↔
      call.pair ∈ calls.map PidKidInfo.pair := by
    rw [h.filter, List.mem_toFinset, PidKidInfo.pair]
  by_cases hknown : call.pair ∈ calls.map PidKidInfo.pair
  · have hsame : c.addTriple call.nPid call.nKid call.nWeight = c := if_pos (hmem.mpr hknown)
    rw [hsame]
    constructor
    · rw [firstsBy_snoc, if_pos hknown, h.vec]
    · rw [h.filter, List.map_append, List.toFinset_append, List.map_singleton]
      exact (Finset.union_eq_left.mpr (by simpa using hknown)).symm
  · have hadded : c.addTriple call.nPid call.nKid call.nWeight =
        {c with mFilterSet := insert (call.nPid, call.nKid) c.mFilterSet
                mTripleVec := c.mTripleVec ++ [call]} := if_neg (fun hin => hknown (hmem.mp hin))
    rw [hadded]
    constructor
    · rw [firstsBy_snoc, if_neg hknown, h.vec]
    · simp only [h.filter]
      ext key
      simp [PidKidInfo.pair]

private theorem addTriples_holds (c : InvertCreator) (done calls : List PidKidInfo)
    (h : c.Holds done) : (c.addTriples calls).Holds (done ++ calls) := by
  induction calls generalizing c done with
  | nil => simpa [addTriples] using h
  | cons call calls ih =>
      have hrest := ih _ _ (h.addTriple call)
      rwa [List.append_assoc, List.singleton_append] at hrest

theorem new_holds (invertTable : InvertTable) (dirStr : String) (isPersistent : Bool) :
    (new invertTable dirStr isPersistent).Holds [] := ⟨rfl, rfl⟩

private theorem addTriples_frame (c : InvertCreator) (calls : List PidKidInfo) :
    (c.addTriples calls).pInvertTable = c.pInvertTable ∧
      (c.addTriples calls).mPath = c.mPath ∧
      (c.addTriples calls).mIsPersistent = c.mIsPersistent := by
  induction calls generalizing c with
  | nil => exact ⟨rfl, rfl, rfl⟩
  | cons call calls ih =>
      have hadd : (c.addTriple call.nPid call.nKid call.nWeight).pInvertTable = c.pInvertTable ∧
          (c.addTriple call.nPid call.nKid call.nWeight).mPath = c.mPath ∧
          (c.addTriple call.nPid call.nKid call.nWeight).mIsPersistent = c.mIsPersistent := by
        simp only [addTriple]
        split <;> exact ⟨rfl, rfl, rfl⟩
      obtain ⟨htable, hpath, hpersistent⟩ := ih (c.addTriple call.nPid call.nKid call.nWeight)
      exact ⟨htable.trans hadd.1, hpath.trans hadd.2.1, hpersistent.trans hadd.2.2⟩

/-- The weight of the first `addTriple` of a pair. -/
def firstWeight (calls : List PidKidInfo) (pid id : Int32) : Option Int32 :=
  (calls.find? (fun call => call.pair = (pid, id))).map PidKidInfo.nWeight

/-- What the table should answer after `calls`: under each key that was added,
every id once, with the weight of the first call for it, in posting order. -/
def ListsFirstWeights (t : InvertTable) (calls : List PidKidInfo) : Prop :=
  (∀ disk pid, (∃ call ∈ calls, call.nPid = pid) →
    ∃ out, t.getInvertInfoVec disk pid = .ok (true, out) ∧
      (out.map InvertNode.nID).Nodup ∧
      (∀ node, node ∈ out ↔ firstWeight calls pid node.nID = some node.nWeight) ∧
      out.Pairwise PostingOrder) ∧
  ∀ disk pid, (¬ ∃ call ∈ calls, call.nPid = pid) →
    t.getInvertInfoVec disk pid = .ok (false, [])

theorem firstWeight_eq_some_iff (calls : List PidKidInfo) (pid : Int32) (node : InvertNode) :
    firstWeight calls pid node.nID = some node.nWeight ↔
      node ∈ ((firstsBy PidKidInfo.pair calls).filter (fun call => call.nPid = pid)).map
        InvertNode.copy := by
  simp only [firstWeight, Option.map_eq_some_iff, List.mem_map, List.mem_filter,
    mem_firstsBy_iff]
  constructor
  · rintro ⟨call, hfound, hweight⟩
    have hpair : call.pair = (pid, node.nID) := by
      simpa using List.find?_some hfound
    refine ⟨call, ⟨by rw [hpair]; exact hfound, ?_⟩, ?_⟩
    · exact decide_eq_true (congrArg Prod.fst hpair)
    · rw [InvertNode.copy, show call.nKid = node.nID from congrArg Prod.snd hpair, hweight]
  · rintro ⟨call, ⟨hfound, hpid⟩, rfl⟩
    have hpair : call.pair = (pid, (InvertNode.copy call).nID) := by
      rw [← of_decide_eq_true hpid]
      rfl
    exact ⟨call, hpair ▸ hfound, rfl⟩

/-- The ids under one key of the filtered triples are distinct. -/
theorem firsts_ids_nodup (calls : List PidKidInfo) (pid : Int32) :
    ((((firstsBy PidKidInfo.pair calls).filter (fun call => call.nPid = pid)).map
      InvertNode.copy).map InvertNode.nID).Nodup := by
  rw [List.map_map]
  have hpairs := (firstsBy_keys_nodup PidKidInfo.pair calls).sublist
    (List.filter_sublist (p := fun call => decide (call.nPid = pid)).map PidKidInfo.pair)
  rw [List.Nodup, List.pairwise_map] at hpairs ⊢
  apply List.Pairwise.imp_of_mem _ hpairs
  intro a b ha hb hne hid
  have hapid := of_decide_eq_true (List.mem_filter.mp ha).2
  have hbpid := of_decide_eq_true (List.mem_filter.mp hb).2
  exact hne (Prod.ext (hapid.trans hbpid.symm) hid)

section Create

variable (order : HashOrder Int32 IndexNode) (disk : Disk) (dirStr : String)
  (isPersistent : Bool) (calls : List PidKidInfo)

/-- `addTriple` calls on a new creator over a fresh cached table, then `create`. -/
def createAfter : CreatorRun :=
  ((new (.new true) dirStr isPersistent).addTriples calls).create order disk

theorem createAfter_eq :
    let created := (InvertTable.new true).create order disk (firstsBy PidKidInfo.pair calls)
      dirStr isPersistent
    (createAfter order disk dirStr isPersistent calls).outcome = created.outcome ∧
      (createAfter order disk dirStr isPersistent calls).creator.pInvertTable = created.table := by
  have hvec := (addTriples_holds _ [] calls (new_holds (.new true) dirStr isPersistent)).vec
  obtain ⟨htable, hpath, hpersistent⟩ := addTriples_frame (new (.new true) dirStr isPersistent) calls
  rw [List.nil_append] at hvec
  simp only [createAfter, create, hvec, htable, hpath, hpersistent]
  exact ⟨rfl, rfl⟩

/-- After any `addTriple` calls with fewer than `2 ^ 31` distinct pairs, in any
order and with any repeats, `create` lists each id once with its first weight. -/
theorem create_lists_first_weights
    (hpairs : (calls.map PidKidInfo.pair).toFinset.card < 2 ^ 31) :
    (createAfter order disk dirStr isPersistent calls).outcome = .ok () ∧
      ListsFirstWeights (createAfter order disk dirStr isPersistent calls).creator.pInvertTable
        calls := by
  obtain ⟨houtcome, htable⟩ := createAfter_eq order disk dirStr isPersistent calls
  have hsize : (firstsBy PidKidInfo.pair calls).length < 2 ^ 31 := by rwa [firstsBy_length]
  have hpids (pid : Int32) : (∃ info ∈ firstsBy PidKidInfo.pair calls, info.nPid = pid) ↔
      ∃ call ∈ calls, call.nPid = pid := by
    constructor
    · rintro ⟨info, hinfo, hpid⟩
      exact ⟨info, (firstsBy_sublist calls).subset hinfo, hpid⟩
    · rintro ⟨call, hcall, hpid⟩
      obtain ⟨info, hinfo, hpair⟩ := List.mem_map.mp
        ((mem_map_firstsBy PidKidInfo.pair calls call.pair).mpr (List.mem_map_of_mem hcall))
      exact ⟨info, hinfo, (congrArg Prod.fst hpair).trans hpid⟩
  rw [houtcome, htable]
  refine ⟨create_outcome_of_length_lt _ _ _ _ _ hsize, ?_, ?_⟩
  · intro disk' pid hpid
    have hperm := postingsOf_perm hsize pid
    refine ⟨postingsOf (firstsBy PidKidInfo.pair calls) pid, ?_, ?_, ?_, postingsOf_pairwise _ pid⟩
    · rw [getInvertInfoVec_created,
        reply_of_mem ((mem_laidOut_nPid hsize pid).mpr ((hpids pid).mpr hpid))]
    · exact (hperm.map InvertNode.nID).nodup_iff.mpr (firsts_ids_nodup calls pid)
    · intro node
      rw [firstWeight_eq_some_iff]
      exact hperm.mem_iff
  · intro disk' pid hpid
    rw [getInvertInfoVec_created, reply_of_notMem]
    exact fun h => hpid ((hpids pid).mp ((mem_laidOut_nPid hsize pid).mp h))

end Create

/-- Three calls, two of them for one pair. -/
theorem create_lists_first_weights_of_repeat :
    ListsFirstWeights (createAfter (HashOrder.ofEntries Int32 IndexNode) (fun _ => none) "./" true
      [⟨7, 1, 5⟩, ⟨7, 2, 8⟩, ⟨7, 1, 9⟩]).creator.pInvertTable
      [⟨7, 1, 5⟩, ⟨7, 2, 8⟩, ⟨7, 1, 9⟩] :=
  (create_lists_first_weights _ _ _ _ _ (by decide)).2

/-- `n` triples under key 0 with distinct ids, while `n` is at most 2 ^ 31. -/
def manyCalls (n : Nat) : List PidKidInfo :=
  (List.range n).map (fun i => ⟨0, Int32.ofNat i, 0⟩)

private theorem manyCalls_card {n : Nat} (hn : n ≤ 2 ^ 31) :
    ((manyCalls n).map PidKidInfo.pair).toFinset.card = n := by
  have hnodup : ((manyCalls n).map PidKidInfo.pair).Nodup := by
    rw [manyCalls, List.map_map]
    apply List.Nodup.map_on _ List.nodup_range
    intro i hi j hj hpair
    have hid : Int32.ofNat i = Int32.ofNat j := congrArg Prod.snd hpair
    have hint := congrArg Int32.toInt hid
    rw [List.mem_range] at hi hj
    rw [Int32.toInt_ofNat_of_lt (by omega), Int32.toInt_ofNat_of_lt (by omega)] at hint
    exact Int.ofNat_inj.mp hint
  rw [List.toFinset_card_of_nodup hnodup]
  simp [manyCalls]

/-- When the number of distinct pairs does not fit an `int`, `reserve` throws
and no key is found. -/
theorem create_of_many_pairs (order : HashOrder Int32 IndexNode) (disk disk' : Disk)
    (dirStr : String) (isPersistent : Bool) (calls : List PidKidInfo) (pid : Int32)
    (hlow : 2 ^ 31 ≤ (calls.map PidKidInfo.pair).toFinset.card)
    (hhigh : (calls.map PidKidInfo.pair).toFinset.card < 2 ^ 32) :
    (createAfter order disk dirStr isPersistent calls).outcome = .error .lengthError ∧
      (createAfter order disk dirStr isPersistent calls).creator.pInvertTable.getInvertInfoVec
        disk' pid = .ok (false, []) := by
  obtain ⟨houtcome, htable⟩ := createAfter_eq order disk dirStr isPersistent calls
  rw [← firstsBy_length] at hlow hhigh
  have hneg := sizeToInt_neg hlow hhigh
  have hnothing := (laidOut_eq_nil_iff (firstsBy PidKidInfo.pair calls)).mpr (Or.inr hneg)
  rw [houtcome, htable, InvertTable.create_outcome, if_pos hneg, getInvertInfoVec_created,
    reply_of_notMem (by simp [hnothing])]
  exact ⟨rfl, rfl⟩

/-- With 2 ^ 31 distinct pairs the key they were added under is not found. -/
theorem create_loses_many_pairs :
    ¬ ∀ (order : HashOrder Int32 IndexNode) (disk : Disk) (dirStr : String)
      (isPersistent : Bool) (calls : List PidKidInfo),
      ListsFirstWeights (createAfter order disk dirStr isPersistent calls).creator.pInvertTable
        calls := by
  intro h
  have hcard := manyCalls_card (Nat.le_refl (2 ^ 31))
  have hlost := (create_of_many_pairs (HashOrder.ofEntries Int32 IndexNode) (fun _ => none)
    (fun _ => none) "./" true (manyCalls (2 ^ 31)) 0 hcard.ge (by rw [hcard]; norm_num)).2
  have hadded : ∃ call ∈ manyCalls (2 ^ 31), call.nPid = 0 :=
    ⟨⟨0, Int32.ofNat 0, 0⟩,
      List.mem_map.mpr ⟨0, List.mem_range.mpr (by norm_num), rfl⟩, rfl⟩
  obtain ⟨out, hfound, _⟩ := (h (HashOrder.ofEntries Int32 IndexNode) (fun _ => none) "./" true
    (manyCalls (2 ^ 31))).1 (fun _ => none) 0 hadded
  rw [hlost] at hfound
  cases hfound

end InvertCreator

end LearningCpp.Invert
