import LearningCpp.Fjp.Build
import LearningCpp.Library.FirstOccurrence

/-!
The creator of `invert_table/invert_table_creator.hpp`, over a table with
quadruples `ST_PidKidInfo2`: quadruples are added one by one, a pair of keys
that was added before is ignored, and every `create` sorts what has been
collected in place and builds the table from it.
-/

namespace LearningCpp.Fjp

open Library

inductive SortMethod where
  | byIndex
  | byID
  | byWeight
  deriving DecidableEq, Repr

/-- The comparator of the sort that a method asks for. -/
def SortMethod.cmp : SortMethod → STPidKidInfo2 → STPidKidInfo2 → Bool
  | .byIndex => cmpSTNodeByIndex
  | .byID => cmpSTNodeByID
  | .byWeight => cmpSTNodeByWeight

theorem SortMethod.cmp_strictWeak (method : SortMethod) : StrictWeak method.cmp where
  asymm a b h := by
    cases method with
    | byIndex => simp only [cmp, cmpSTNodeByIndex] at h ⊢; grind
    | byID => simp only [cmp, cmpSTNodeByID] at h ⊢; grind
    | byWeight => simp only [cmp, cmpSTNodeByWeight] at h ⊢; grind
  not_lt_trans a b c hba hcb := by
    cases method with
    | byIndex => simp only [cmp, cmpSTNodeByIndex] at hba hcb ⊢; grind
    | byID => simp only [cmp, cmpSTNodeByID] at hba hcb ⊢; grind
    | byWeight => simp only [cmp, cmpSTNodeByWeight] at hba hcb ⊢; grind

/-- Every method groups the quadruples by pid. -/
theorem SortMethod.pid_le_of_not_cmp (method : SortMethod) {a b : STPidKidInfo2}
    (h : method.cmp b a = false) : a.m_nPid ≤ b.m_nPid := by
  cases method with
  | byIndex => simp only [cmp, cmpSTNodeByIndex] at h; grind
  | byID => simp only [cmp, cmpSTNodeByID] at h; grind
  | byWeight => simp only [cmp, cmpSTNodeByWeight] at h; grind

/-- The pair of keys by which quadruples are filtered. -/
def STPidKidInfo2.pair (info : STPidKidInfo2) : Int32 × Int32 := (info.m_nPid, info.m_nKid)

structure InvertTableCreator where
  m_dir : String
  m_persistent : Bool
  m_sortMethod : SortMethod
  m_invertTable : InvertTable
  m_tripleVec : List STPidKidInfo2
  dup_filter : Finset (Int32 × Int32)

namespace InvertTableCreator

def new (invert_table : InvertTable) (dir : String) (sort_method : SortMethod)
    (is_persistent : Bool) : InvertTableCreator :=
  { m_dir := dir, m_persistent := is_persistent, m_sortMethod := sort_method
    m_invertTable := invert_table, m_tripleVec := [], dup_filter := ∅ }

def addTriple (c : InvertTableCreator) (index_id invert_id weight weight2 : Int32) :
    InvertTableCreator :=
  let k := (index_id, invert_id)
  if k ∈ c.dup_filter then c
  else
    {c with
      m_tripleVec := c.m_tripleVec ++ [⟨index_id, invert_id, weight, weight2⟩]
      dup_filter := insert k c.dup_filter}

/-- What `create` leaves: the creator with its table, the disk, and whether an
exception left the call. -/
structure CreatorRun where
  creator : InvertTableCreator
  disk : Disk
  outcome : Except Fault Unit

/-- `stable_sort` for `byIndex`, `sort` for the others. -/
def create (c : InvertTableCreator) (order : HashOrder Int32 IndexNode) (disk : Disk) :
    CreatorRun :=
  let sorted := sortBy c.m_sortMethod.cmp c.m_tripleVec
  let created := c.m_invertTable.create order disk sorted c.m_dir c.m_persistent
  { creator := {c with m_tripleVec := sorted, m_invertTable := created.table}
    disk := created.disk
    outcome := created.outcome }

/-- A call on the creator. -/
inductive Call where
  | addTriple (info : STPidKidInfo2)
  | create
  deriving DecidableEq, Repr

/-- The quadruples that a sequence of calls adds. -/
def added : List Call → List STPidKidInfo2
  | [] => []
  | .addTriple info :: calls => info :: added calls
  | .create :: calls => added calls

/-- One call. An exception of `create` is the caller's to catch. -/
def step (order : HashOrder Int32 IndexNode) (state : InvertTableCreator × Disk) :
    Call → InvertTableCreator × Disk
  | .addTriple info =>
      (state.1.addTriple info.m_nPid info.m_nKid info.m_nWeight info.m_nWeight2, state.2)
  | .create => ((state.1.create order state.2).creator, (state.1.create order state.2).disk)

def run (order : HashOrder Int32 IndexNode) (state : InvertTableCreator × Disk)
    (calls : List Call) : InvertTableCreator × Disk := calls.foldl (step order) state

/-- The creator holds the first quadruple of each pair in `adds`; under one pid
a stable sort has them in the order in which they were added. -/
structure Holds (method : SortMethod) (c : InvertTableCreator) (adds : List STPidKidInfo2) :
    Prop where
  method_eq : c.m_sortMethod = method
  cached : c.m_invertTable.is_cached = true
  filter : c.dup_filter = (adds.map STPidKidInfo2.pair).toFinset
  perm : c.m_tripleVec.Perm (firstsBy STPidKidInfo2.pair adds)
  stable : method = .byIndex → ∀ pid,
    c.m_tripleVec.filter (fun info => info.m_nPid = pid) =
      (firstsBy STPidKidInfo2.pair adds).filter (fun info => info.m_nPid = pid)

variable {method : SortMethod} {c : InvertTableCreator} {adds : List STPidKidInfo2}

theorem new_holds (t : InvertTable) (hcached : t.is_cached = true) (dir : String)
    (method : SortMethod) (is_persistent : Bool) :
    (new t dir method is_persistent).Holds method [] :=
  ⟨rfl, hcached, rfl, List.Perm.refl [], fun _ _ => rfl⟩

theorem Holds.addTriple (h : c.Holds method adds) (info : STPidKidInfo2) :
    (c.addTriple info.m_nPid info.m_nKid info.m_nWeight info.m_nWeight2).Holds method
      (adds ++ [info]) := by
  have hmem : (info.m_nPid, info.m_nKid) ∈ c.dup_filter ↔
      info.pair ∈ adds.map STPidKidInfo2.pair := by
    rw [h.filter, List.mem_toFinset, STPidKidInfo2.pair]
  by_cases hknown : info.pair ∈ adds.map STPidKidInfo2.pair
  · have hsame : c.addTriple info.m_nPid info.m_nKid info.m_nWeight info.m_nWeight2 = c :=
      if_pos (hmem.mpr hknown)
    have hfirsts : firstsBy STPidKidInfo2.pair (adds ++ [info]) =
        firstsBy STPidKidInfo2.pair adds := by rw [firstsBy_snoc, if_pos hknown]
    rw [hsame]
    refine ⟨h.method_eq, h.cached, ?_, hfirsts ▸ h.perm, hfirsts ▸ h.stable⟩
    rw [h.filter, List.map_append, List.toFinset_append, List.map_singleton]
    exact (Finset.union_eq_left.mpr (by simpa using hknown)).symm
  · have hadded : c.addTriple info.m_nPid info.m_nKid info.m_nWeight info.m_nWeight2 =
        {c with
          m_tripleVec := c.m_tripleVec ++ [info]
          dup_filter := insert (info.m_nPid, info.m_nKid) c.dup_filter} :=
      if_neg (fun hin => hknown (hmem.mp hin))
    have hfirsts : firstsBy STPidKidInfo2.pair (adds ++ [info]) =
        firstsBy STPidKidInfo2.pair adds ++ [info] := by rw [firstsBy_snoc, if_neg hknown]
    rw [hadded]
    refine ⟨h.method_eq, h.cached, ?_, hfirsts ▸ h.perm.append_right [info], ?_⟩
    · simp only [h.filter]
      ext key
      simp [STPidKidInfo2.pair]
    · intro hmethod pid
      rw [hfirsts, List.filter_append, List.filter_append, h.stable hmethod pid]

theorem Holds.sorted (h : c.Holds method adds) :
    (sortBy c.m_sortMethod.cmp c.m_tripleVec).Perm (firstsBy STPidKidInfo2.pair adds) :=
  (sortBy_perm c.m_tripleVec).trans h.perm

theorem Holds.created (h : c.Holds method adds) (order : HashOrder Int32 IndexNode)
    (disk : Disk) : (c.create order disk).creator.m_invertTable =
      c.m_invertTable.built (sortBy method.cmp c.m_tripleVec) c.m_dir := by
  rw [create, ← h.method_eq]
  exact InvertTable.create_cached _ _ _ _ _ _ h.cached

/-- Sorting by pid alone keeps the order under each pid. -/
theorem Holds.sorted_stable (h : c.Holds .byIndex adds) (pid : Int32) :
    (sortBy SortMethod.byIndex.cmp c.m_tripleVec).filter (fun info => info.m_nPid = pid) =
      (firstsBy STPidKidInfo2.pair adds).filter (fun info => info.m_nPid = pid) := by
  rw [filter_sortBy, h.stable rfl pid]
  intro a b ha hb
  have hpids : a.m_nPid = b.m_nPid := (of_decide_eq_true ha).trans (of_decide_eq_true hb).symm
  simp only [SortMethod.cmp, cmpSTNodeByIndex, hpids]
  grind

theorem Holds.create (h : c.Holds method adds) (order : HashOrder Int32 IndexNode)
    (disk : Disk) : (c.create order disk).creator.Holds method adds where
  method_eq := h.method_eq
  cached := by
    rw [h.created]
    exact h.cached
  filter := h.filter
  perm := h.sorted
  stable hmethod pid := by
    subst hmethod
    change (sortBy c.m_sortMethod.cmp c.m_tripleVec).filter _ = _
    rw [h.method_eq, h.sorted_stable]

theorem Holds.run (order : HashOrder Int32 IndexNode) (state : InvertTableCreator × Disk)
    (h : state.1.Holds method adds) (calls : List Call) :
    (run order state calls).1.Holds method (adds ++ added calls) := by
  induction calls generalizing state adds with
  | nil => rwa [added, List.append_nil]
  | cons call calls ih =>
      cases call with
      | addTriple info =>
          have hrest := ih (step order state (.addTriple info)) (h.addTriple info)
          rwa [List.append_assoc] at hrest
      | create => exact ih (step order state .create) (h.create order state.2)

/-- The order in which a method lists the nodes of a pid, given them in the
order in which they were added. -/
def InOrder : SortMethod → List InvertNode2 → List InvertNode2 → Prop
  | .byIndex, firsts, out => out = firsts
  | .byID, _, out => out.Pairwise (fun a b => a.m_nID < b.m_nID)
  | .byWeight, _, out => out.Pairwise (fun a b =>
      b.m_nWeight < a.m_nWeight ∨ a.m_nWeight = b.m_nWeight ∧ a.m_nID < b.m_nID)

/-- The first quadruple of each pair added under a pid, in the order of adding. -/
def firstsOf (adds : List STPidKidInfo2) (pid : Int32) : List InvertNode2 :=
  postingsOf (firstsBy STPidKidInfo2.pair adds) pid

theorem Holds.pairs_nodup (h : c.Holds method adds) :
    ((sortBy method.cmp c.m_tripleVec).map STPidKidInfo2.pair).Nodup := by
  have hperm := h.sorted
  rw [h.method_eq] at hperm
  exact (hperm.map STPidKidInfo2.pair).nodup_iff.mpr (firstsBy_keys_nodup _ adds)

/-- Two quadruples of one pid in the sorted vector: they are in the order of
the method, and their ids differ. -/
theorem Holds.pairwise (h : c.Holds method adds) (pid : Int32) :
    ((sortBy method.cmp c.m_tripleVec).filter (fun info => info.m_nPid = pid)).Pairwise
      (fun a b => a.m_nPid = b.m_nPid ∧ a.m_nKid ≠ b.m_nKid ∧ method.cmp b a = false) := by
  have hnodup : (sortBy method.cmp c.m_tripleVec).Pairwise (fun a b => a.pair ≠ b.pair) :=
    List.pairwise_map.mp h.pairs_nodup
  have hboth := (hnodup.and (sortBy_pairwise method.cmp_strictWeak c.m_tripleVec)).sublist
    (List.filter_sublist (p := fun info => decide (info.m_nPid = pid)))
  apply List.Pairwise.imp_of_mem _ hboth
  rintro a b ha hb ⟨hne, hcmp⟩
  have hpids : a.m_nPid = b.m_nPid :=
    (of_decide_eq_true (List.mem_filter.mp ha).2).trans
      (of_decide_eq_true (List.mem_filter.mp hb).2).symm
  exact ⟨hpids, fun hkids => hne (Prod.ext hpids hkids), hcmp⟩

theorem Holds.inOrder (h : c.Holds method adds) (pid : Int32) :
    InOrder method (firstsOf adds pid) (postingsOf (sortBy method.cmp c.m_tripleVec) pid) := by
  have hpairwise := h.pairwise pid
  cases method with
  | byIndex =>
      rw [InOrder, firstsOf, postingsOf, postingsOf, h.sorted_stable]
  | byID =>
      apply List.pairwise_map.mpr
      apply hpairwise.imp
      intro a b hab
      simp only [SortMethod.cmp, cmpSTNodeByID] at hab
      simp only [InvertNode2.copy]
      grind
  | byWeight =>
      apply List.pairwise_map.mpr
      apply hpairwise.imp
      intro a b hab
      simp only [SortMethod.cmp, cmpSTNodeByWeight] at hab
      simp only [InvertNode2.copy]
      grind

/-- No two quadruples of the vector tie by id or by weight, so that `sort` has no
choice: every arrangement it may give is this one. -/
theorem Holds.sort_eq (h : c.Holds method adds) (hmethod : method ≠ .byIndex)
    {ys : List STPidKidInfo2} (hperm : ys.Perm c.m_tripleVec)
    (hys : ys.Pairwise (fun a b => method.cmp b a = false)) :
    ys = sortBy method.cmp c.m_tripleVec := by
  have hnodup : (c.m_tripleVec.map STPidKidInfo2.pair).Nodup :=
    (h.perm.map STPidKidInfo2.pair).nodup_iff.mpr (firstsBy_keys_nodup _ adds)
  refine eq_sortBy method.cmp_strictWeak ?_ hperm hys
  intro a ha b hb hab hba
  have hpair : a.pair = b.pair := by
    cases method with
    | byIndex => exact (hmethod rfl).elim
    | byID =>
        simp only [SortMethod.cmp, cmpSTNodeByID] at hab hba
        simp only [STPidKidInfo2.pair, Prod.mk.injEq]
        grind
    | byWeight =>
        simp only [SortMethod.cmp, cmpSTNodeByWeight] at hab hba
        simp only [STPidKidInfo2.pair, Prod.mk.injEq]
        grind
  exact List.inj_on_of_nodup_map hnodup ha hb hpair

theorem Holds.ordered (_h : c.Holds method adds) :
    ((sortBy method.cmp c.m_tripleVec).map STPidKidInfo2.m_nPid).Pairwise (· ≤ ·) := by
  apply List.pairwise_map.mpr
  apply (sortBy_pairwise method.cmp_strictWeak c.m_tripleVec).imp
  intro a b hcmp
  exact method.pid_le_of_not_cmp hcmp

theorem Holds.size (h : c.Holds method adds) :
    (sortBy method.cmp c.m_tripleVec).length = (adds.map STPidKidInfo2.pair).toFinset.card := by
  rw [sortBy_length, h.perm.length_eq, firstsBy_length]

/-- What `create` makes the table answer. -/
theorem Holds.getPostList_create (h : c.Holds method adds) (order : HashOrder Int32 IndexNode)
    (disk disk' : Disk) (pid : Int32)
    (hpairs : (adds.map STPidKidInfo2.pair).toFinset.card < 2 ^ 31) :
    (c.create order disk).outcome = .ok () ∧
      (c.create order disk).creator.m_invertTable.getPostList disk' pid =
        .ok (reply (postingsOf (sortBy method.cmp c.m_tripleVec) pid)) := by
  have hsize : (sortBy method.cmp c.m_tripleVec).length < 2 ^ 31 := by rwa [h.size]
  constructor
  · rw [InvertTableCreator.create, h.method_eq]
    exact InvertTable.create_outcome_of_length_lt _ _ _ _ _ _ hsize
  · rw [h.created]
    exact InvertTable.getPostList_built _ disk' _ pid h.cached hsize h.ordered

section Calls

variable (order : HashOrder Int32 IndexNode) (disk disk' : Disk) (t : InvertTable) (dir : String)
  (method : SortMethod) (is_persistent : Bool) (calls : List Call)

/-- Calls on a new creator over the table `t`, and then `create`. -/
def createAfter : CreatorRun :=
  let state := run order (new t dir method is_persistent, disk) calls
  state.1.create order state.2

theorem run_holds (hcached : t.is_cached = true) :
    (run order (new t dir method is_persistent, disk) calls).1.Holds method (added calls) := by
  have hholds := Holds.run order (new t dir method is_persistent, disk)
    (new_holds t hcached dir method is_persistent) calls
  rwa [List.nil_append] at hholds

/-- The answers after a `create` that ends a sequence of calls: for every pid
the first quadruple of each pair added so far, in the order of the method. -/
def PostsFirsts (r : CreatorRun) : Prop :=
  r.outcome = .ok () ∧ ∀ disk' pid, ∃ out,
    r.creator.m_invertTable.getPostList disk' pid = .ok (!out.isEmpty, out) ∧
      out.Perm (firstsOf (added calls) pid) ∧ InOrder method (firstsOf (added calls) pid) out

/-- After any calls, with fewer than `2 ^ 31` distinct pairs among them, every
`create` posts the first quadruples in the order of its method. -/
theorem create_posts_firsts (hcached : t.is_cached = true)
    (hpairs : ((added calls).map STPidKidInfo2.pair).toFinset.card < 2 ^ 31) :
    PostsFirsts method calls (createAfter order disk t dir method is_persistent calls) := by
  have hholds := run_holds order disk t dir method is_persistent calls hcached
  refine ⟨(hholds.getPostList_create order _ disk 0 hpairs).1, ?_⟩
  intro disk' pid
  have hperm := hholds.sorted
  rw [hholds.method_eq] at hperm
  refine ⟨_, (hholds.getPostList_create order _ disk' pid hpairs).2, ?_, hholds.inOrder pid⟩
  exact (hperm.filter _).map InvertNode2.copy

end Calls

/-- A repeat, an addition after a `create`, and two pids. -/
theorem create_posts_firsts_of_mixed :
    PostsFirsts .byWeight
      [.addTriple ⟨7, 1, 5, 0⟩, .create, .addTriple ⟨7, 2, 8, 1⟩, .addTriple ⟨3, 1, 4, 0⟩,
        .addTriple ⟨7, 1, 9, 9⟩]
      (createAfter (HashOrder.ofEntries Int32 IndexNode) (fun _ => none) (.new true) "./" .byWeight
        true [.addTriple ⟨7, 1, 5, 0⟩, .create, .addTriple ⟨7, 2, 8, 1⟩, .addTriple ⟨3, 1, 4, 0⟩,
          .addTriple ⟨7, 1, 9, 9⟩]) :=
  create_posts_firsts _ _ _ _ _ _ _ rfl (by decide)

/-- `n` quadruples under pid 0 with distinct ids, while `n` is at most 2 ^ 31. -/
def manyInfos (n : Nat) : List STPidKidInfo2 :=
  (List.range n).map (fun i => ⟨0, Int32.ofNat i, 0, 0⟩)

theorem manyInfos_pairs_nodup {n : Nat} (hn : n ≤ 2 ^ 31) :
    ((manyInfos n).map STPidKidInfo2.pair).Nodup := by
  rw [manyInfos, List.map_map]
  apply List.Nodup.map_on _ List.nodup_range
  intro i hi j hj hpair
  have hid : Int32.ofNat i = Int32.ofNat j := congrArg Prod.snd hpair
  have hint := congrArg Int32.toInt hid
  rw [List.mem_range] at hi hj
  rw [Int32.toInt_ofNat_of_lt (by omega), Int32.toInt_ofNat_of_lt (by omega)] at hint
  exact Int.ofNat_inj.mp hint

theorem added_addTriples (infos : List STPidKidInfo2) :
    added (infos.map Call.addTriple) = infos := by
  induction infos with
  | nil => rfl
  | cons info infos ih => rw [List.map_cons, added, ih]

private theorem manyInfos_card {n : Nat} (hn : n ≤ 2 ^ 31) :
    ((manyInfos n).map STPidKidInfo2.pair).toFinset.card = n := by
  rw [List.toFinset_card_of_nodup (manyInfos_pairs_nodup hn)]
  simp [manyInfos]

private theorem mem_manyInfos_pid : (0 : Int32) ∈ (manyInfos (2 ^ 31)).map STPidKidInfo2.m_nPid :=
  List.mem_map.mpr ⟨⟨0, Int32.ofNat 0, 0, 0⟩,
    List.mem_map.mpr ⟨0, List.mem_range.mpr (by norm_num), rfl⟩, rfl⟩

theorem firstsOf_manyInfos_ne_nil : firstsOf (manyInfos (2 ^ 31)) 0 ≠ [] := by
  have hkept : firstsBy STPidKidInfo2.pair (manyInfos (2 ^ 31)) = manyInfos (2 ^ 31) :=
    firstsBy_eq_self (manyInfos_pairs_nodup (Nat.le_refl _))
  rw [firstsOf, hkept, ne_eq, postingsOf_eq_nil_iff, not_not]
  exact mem_manyInfos_pid

/-- When the number of distinct pairs does not fit an `int`, `reserve` throws
and the table has no key. -/
theorem createAfter_of_many (order : HashOrder Int32 IndexNode) (disk : Disk) (dir : String)
    (method : SortMethod) (is_persistent : Bool) (calls : List Call)
    (hlow : 2 ^ 31 ≤ ((added calls).map STPidKidInfo2.pair).toFinset.card)
    (hhigh : ((added calls).map STPidKidInfo2.pair).toFinset.card < 2 ^ 32) :
    let r := createAfter order disk (.new true) dir method is_persistent calls
    r.outcome = .error .lengthError ∧ ∀ pid, r.creator.m_invertTable.index_map.lookup pid = none := by
  have hholds := run_holds order disk (.new true) dir method is_persistent calls rfl
  rw [← hholds.size] at hlow hhigh
  have hneg := sizeToInt_neg hlow hhigh
  constructor
  · rw [createAfter, create, hholds.method_eq]
    exact (InvertTable.create_outcome _ _ _ _ _ _).trans (if_pos hneg)
  · intro pid
    rw [createAfter, hholds.created]
    exact InvertTable.built_lookup_of_neg _ _ pid hneg

theorem createAfter_manyInfos (order : HashOrder Int32 IndexNode) (disk : Disk) (dir : String)
    (method : SortMethod) (is_persistent : Bool) (pid : Int32) :
    (createAfter order disk (.new true) dir method is_persistent
      ((manyInfos (2 ^ 31)).map Call.addTriple)).creator.m_invertTable.index_map.lookup pid =
        none := by
  have hcard := manyInfos_card (Nat.le_refl (2 ^ 31))
  refine (createAfter_of_many order disk dir method is_persistent _ ?_ ?_).2 pid
  · rw [added_addTriples, hcard]
  · rw [added_addTriples, hcard]
    norm_num

/-- With 2 ^ 31 distinct pairs the pid they were added under is not found. -/
theorem create_loses_many_infos :
    ¬ ∀ (order : HashOrder Int32 IndexNode) (disk : Disk) (t : InvertTable) (dir : String)
      (method : SortMethod) (is_persistent : Bool) (calls : List Call), t.is_cached = true →
      PostsFirsts method calls (createAfter order disk t dir method is_persistent calls) := by
  intro h
  have hposts := h (HashOrder.ofEntries Int32 IndexNode) (fun _ => none) (.new true) "./" .byIndex
    true ((manyInfos (2 ^ 31)).map Call.addTriple) rfl
  obtain ⟨out, hout, hperm, _⟩ := hposts.2 (fun _ => none) 0
  have hlost := createAfter_manyInfos (HashOrder.ofEntries Int32 IndexNode) (fun _ => none) "./"
    .byIndex true 0
  rw [InvertTable.getPostList_of_none _ hlost, Except.ok.injEq, Prod.mk.injEq] at hout
  rw [← hout.2, added_addTriples, List.nil_perm] at hperm
  exact firstsOf_manyInfos_ne_nil hperm

end InvertTableCreator

end LearningCpp.Fjp
