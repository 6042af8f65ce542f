import LearningCpp.Invert.Serving

/-!
Several builds on one cached table. `clear` leaves `mInvertVec` as it is and
`load` does not call `clear` at all, so what earlier calls put there can show
through. The main result says exactly when it does not.
-/

namespace LearningCpp.Invert

open Library

inductive Call where
  | create (vec : List PidKidInfo) (dir : String) (isPersistent : Bool)
  | load (indexFile invertFile : String)

/-- A call together with the disk it finds; between two calls anything may
happen to the files. -/
structure Request where
  order : HashOrder Int32 IndexNode
  disk : Disk
  call : Call

namespace InvertTable

/-- The table after a call; a `load` counts only when it returns `true`. -/
def step (t : InvertTable) (request : Request) : Option InvertTable :=
  match request.call with
  | .create vec dir isPersistent =>
      some (t.create request.order request.disk vec dir isPersistent).table
  | .load indexFile invertFile =>
      match t.load request.disk indexFile invertFile with
      | (.ok true, loaded) => some loaded
      | _ => none

def run (t : InvertTable) (requests : List Request) : Option InvertTable :=
  requests.foldlM step t

/-- Where the range of an index node lies with respect to `size` held postings. -/
inductive Reach where
  | outside
  | torn
  | inside
  deriving DecidableEq, Repr

end InvertTable

open InvertTable

def IndexNode.reach (node : IndexNode) (size : Nat) : Reach :=
  if size ≤ intToSize node.nOffset then .outside
  else if 0 ≤ node.nCount ∧ intToSize node.nOffset + rounds node.nCount ≤ size then .inside
  else .torn

/-- The index nodes that loading a file enters into the map. -/
def fileNodes (bytes : List UInt8) : List IndexNode :=
  (IndexNode.codec.readArray (rounds (sizeToInt (bytes.length / IndexNode.codec.width)))
    bytes).filter (fun p => p.nCount ≠ 0)

/-- The postings that loading a file puts in front of those held. -/
def filePostings (bytes : List UInt8) : List InvertNode :=
  InvertNode.codec.readArray (rounds (sizeToInt (bytes.length / InvertNode.codec.width))) bytes

namespace InvertTable

/-- The condition on a table and the call about to be made under which nothing
of the earlier calls shows. For `create`, the postings already held followed by
the new ones begin with the new ones. For `load`, a stale key points past all
postings that will be held, and the range of a loaded node lies with respect to
the file's postings as it does once the held ones follow them. -/
def Clean (t : InvertTable) (request : Request) : Prop :=
  match request.call with
  | .create vec _ _ => laidOutNodes vec <+: t.mInvertVec ++ laidOutNodes vec
  | .load indexFile invertFile =>
      let index := insertAll IndexNode.nID id ∅ (fileNodes (request.disk.contents indexFile))
      let size := (filePostings (request.disk.contents invertFile)).length
      (∀ pid node, index.lookup pid = none → t.mIndexMap.lookup pid = some node →
        size + t.mInvertVec.length ≤ intToSize node.nOffset) ∧
      ∀ pid node, index.lookup pid = some node →
        node.reach size = node.reach (size + t.mInvertVec.length)

/-- What a cached table answers from the node it finds. -/
def answerFrom (postings : List InvertNode) (node : IndexNode) :
    Except Fault (Bool × List InvertNode) :=
  match node.reach postings.length with
  | .outside => .ok (false, [])
  | .torn => .error .outOfRange
  | .inside => .ok (true, (postings.drop (intToSize node.nOffset)).take (rounds node.nCount))

theorem getInvertInfoVec_of_some (t : InvertTable) (disk : Disk) {pid : Int32} {node : IndexNode}
    (hcached : t.mUseCached = true) (hlookup : t.mIndexMap.lookup pid = some node) :
    t.getInvertInfoVec disk pid = answerFrom t.mInvertVec node := by
  simp only [getInvertInfoVec, getInvertInfo, hlookup, hcached, Bool.not_true, Bool.false_eq_true,
    ↓reduceIte, answerFrom, IndexNode.reach]
  by_cases houtside : t.mInvertVec.length ≤ intToSize node.nOffset
  · simp [houtside]
  · by_cases hneg : node.nCount < 0
    · have hnot : ¬ 0 ≤ node.nCount := by grind
      simp [houtside, nodesFrom, hneg, hnot]
    · have hnonneg : 0 ≤ node.nCount := by grind
      by_cases hend : intToSize node.nOffset + rounds node.nCount ≤ t.mInvertVec.length
      · simp [houtside, nodesFrom, hneg, hnonneg, hend]
      · simp [houtside, nodesFrom, hneg, hnonneg, hend]

private theorem answerFrom_eq_false_iff (postings : List InvertNode) (node : IndexNode) :
    answerFrom postings node = .ok (false, []) ↔ postings.length ≤ intToSize node.nOffset := by
  simp only [answerFrom, IndexNode.reach]
  by_cases houtside : postings.length ≤ intToSize node.nOffset
  · simp [houtside]
  · by_cases hend : 0 ≤ node.nCount ∧ intToSize node.nOffset + rounds node.nCount ≤ postings.length
    · simp [houtside, hend]
    · simp [houtside, hend]

/-- More postings behind leave an answer alone exactly when the node's range
lies with respect to them as before. -/
theorem answerFrom_append_iff (postings rest : List InvertNode) (node : IndexNode) :
    answerFrom (postings ++ rest) node = answerFrom postings node ↔
      node.reach postings.length = node.reach (postings.length + rest.length) := by
  simp only [answerFrom, List.length_append]
  cases hbefore : node.reach postings.length with
  | outside => cases node.reach (postings.length + rest.length) <;> simp
  | torn => cases node.reach (postings.length + rest.length) <;> simp
  | inside =>
      cases hafter : node.reach (postings.length + rest.length) with
      | outside => simp
      | torn => simp
      | inside =>
          have hend : intToSize node.nOffset + rounds node.nCount ≤ postings.length := by
            simp only [IndexNode.reach] at hbefore
            split at hbefore
            · cases hbefore
            · split at hbefore
              · next h => exact h.2
              · cases hbefore
          simp only [iff_true]
          rw [List.drop_append_of_le_length (by omega),
            List.take_append_of_le_length (by rw [List.length_drop]; omega)]

private theorem readInvert_ok {t t' : InvertTable} {disk : Disk}
    (h : t.readInvert disk = (.ok true, t')) :
    t' = {t with mInvertVec := filePostings (disk.contents t.mInvertFileName) ++ t.mInvertVec} := by
  simp only [readInvert] at h
  split at h
  · cases h
  · split at h
    · cases h
    · exact (Prod.mk.inj h).2.symm

theorem load_ok {t t' : InvertTable} {disk : Disk} {indexFile invertFile : String}
    (hcached : t.mUseCached = true) (h : t.load disk indexFile invertFile = (.ok true, t')) :
    ({t with mIndexFileName := indexFile, mInvertFileName := invertFile : InvertTable}.readIndex
      disk).readInvert disk = (.ok true, t') := by
  have hcache := (readIndex_frame
    {t with mIndexFileName := indexFile, mInvertFileName := invertFile} disk).2.1
  simp only [load] at h
  split at h
  · cases h
  · rwa [if_pos (hcache.trans hcached)] at h

/-- Whether a cached table loads two files does not depend on what it holds. -/
theorem load_ok_of_cached {t t' : InvertTable} (fresh : InvertTable) {disk : Disk}
    {indexFile invertFile : String} (hcached : t.mUseCached = true)
    (hfresh : fresh.mUseCached = true) (h : t.load disk indexFile invertFile = (.ok true, t')) :
    ∃ loaded, fresh.load disk indexFile invertFile = (.ok true, loaded) := by
  have hread := load_ok hcached h
  obtain ⟨_, hcache, hname⟩ := readIndex_frame
    {fresh with mIndexFileName := indexFile, mInvertFileName := invertFile} disk
  have hname' := (readIndex_frame
    {t with mIndexFileName := indexFile, mInvertFileName := invertFile} disk).2.2
  simp only [load] at h ⊢
  split at h
  · cases h
  · next hexists =>
    rw [if_neg hexists, if_pos (hcache.trans hfresh)]
    simp only [readInvert, hname, hname'] at hread ⊢
    split at hread
    · cases hread
    · next hne =>
      split at hread
      · cases hread
      · next hnonneg => exact ⟨_, by rw [if_neg hne, if_neg hnonneg]⟩

private theorem step_fresh {t t' : InvertTable} {request : Request} (hcached : t.mUseCached = true)
    (h : t.step request = some t') : ∃ fresh, (InvertTable.new true).step request = some fresh := by
  obtain ⟨order, disk, call⟩ := request
  cases call with
  | create vec dir isPersistent => exact ⟨_, rfl⟩
  | load indexFile invertFile =>
      simp only [step] at h ⊢
      split at h
      · next loaded heq =>
        obtain ⟨fresh, hload⟩ := load_ok_of_cached (.new true) hcached rfl heq
        exact ⟨fresh, by rw [hload]⟩
      · cases h

/-- What a successful call leaves in a cached table: the index and the postings
it built or read, over what the table held. -/
theorem step_spec {t t' : InvertTable} {request : Request} (hcached : t.mUseCached = true)
    (h : t.step request = some t') :
    t'.mUseCached = true ∧
      match request.call with
      | .create vec _ _ =>
          t'.mIndexMap = indexOf ∅ vec ∧ t'.mInvertVec = t.mInvertVec ++ laidOutNodes vec
      | .load indexFile invertFile =>
          t'.mIndexMap = insertAll IndexNode.nID id t.mIndexMap
              (fileNodes (request.disk.contents indexFile)) ∧
            t'.mInvertVec = filePostings (request.disk.contents invertFile) ++ t.mInvertVec := by
  obtain ⟨order, disk, call⟩ := request
  cases call with
  | create vec dir isPersistent =>
      obtain rfl := Option.some.inj h
      exact ⟨(create_mUseCached _ _ _ _ _ _).trans hcached, create_mIndexMap _ _ _ _ _ _,
        create_mInvertVec _ _ _ _ _ _ hcached⟩
  | load indexFile invertFile =>
      have hload : t.load disk indexFile invertFile = (.ok true, t') := by
        simp only [step] at h
        split at h
        · next loaded heq => rw [heq, Option.some.inj h]
        · cases h
      obtain ⟨hvec, hcache, hname⟩ := readIndex_frame
        {t with mIndexFileName := indexFile, mInvertFileName := invertFile} disk
      have hindex := readIndex_mIndexMap
        {t with mIndexFileName := indexFile, mInvertFileName := invertFile} disk
      rw [readInvert_ok (load_ok hcached hload)]
      refine ⟨hcache.trans hcached, hindex, ?_⟩
      rw [hname, hvec]

theorem run_cached {t t' : InvertTable} {requests : List Request} (hcached : t.mUseCached = true)
    (h : t.run requests = some t') : t'.mUseCached = true := by
  induction requests generalizing t with
  | nil =>
      obtain rfl := Option.some.inj h
      exact hcached
  | cons request requests ih =>
      simp only [run, List.foldlM_cons, Option.bind_eq_bind, Option.bind_eq_some_iff] at h
      obtain ⟨mid, hmid, hrest⟩ := h
      exact ih (step_spec hcached hmid).1 hrest

/-- Two tables with the index of one build agree when, and only when, their
postings agree as far as the build reaches. -/
theorem create_agrees_iff {t fresh : InvertTable} {vec : List PidKidInfo}
    {held : List InvertNode} (ht : t.mUseCached = true) (hfresh : fresh.mUseCached = true)
    (hindex : t.mIndexMap = indexOf ∅ vec) (hvec : t.mInvertVec = held ++ laidOutNodes vec)
    (hindex' : fresh.mIndexMap = indexOf ∅ vec) (hvec' : fresh.mInvertVec = laidOutNodes vec) :
    (∀ disk pid, t.getInvertInfoVec disk pid = fresh.getInvertInfoVec disk pid) ↔
      laidOutNodes vec <+: held ++ laidOutNodes vec := by
  constructor
  · intro hagree
    rw [List.prefix_iff_getElem?]
    intro position hposition
    have hlength : (laidOutNodes vec).length = (laidOut vec).length := by simp [laidOutNodes]
    rw [← List.getElem?_eq_getElem hposition]
    refine (runs_tiles PidKidInfo.nPid (laidOut vec)).getElem?_eq ?_ (Nat.zero_le _)
      (hlength ▸ hposition)
    intro run hrun
    obtain ⟨hcount, hbound⟩ := laidOut_run_bounds hrun
    have hint := laidOut_length_lt vec
    have hlookup := indexOf_lookup_run hrun
    have hanswer := hagree (fun _ => none) run.key
    rw [getInvertInfoVec_cached t _ ht (hindex ▸ hlookup) hcount
        (by rw [hvec, List.length_append]; omega) (by omega),
      getInvertInfoVec_cached fresh _ hfresh (hindex' ▸ hlookup) hcount
        (by rw [hvec']; omega) (by omega), hvec, hvec'] at hanswer
    exact (Prod.mk.inj (Except.ok.inj hanswer)).2
  · rintro ⟨rest, hrest⟩ disk pid
    rw [getInvertInfoVec_of_build t disk vec pid rest ht (by rw [hindex]) (hvec.trans hrest.symm),
      getInvertInfoVec_of_build fresh disk vec pid [] hfresh (by rw [hindex'])
        (by rw [hvec', List.append_nil])]

section Loaded

variable {t fresh : InvertTable} {m : IndexMap} {nodes : List IndexNode}
  {postings held : List InvertNode}

/-- Two tables that loaded the same files, one over what it held and one fresh,
agree on a key exactly when the key is not stale with a range among the postings
and its loaded range does not change its place. -/
theorem load_agrees_at (ht : t.mUseCached = true) (hfresh : fresh.mUseCached = true)
    (hindex : t.mIndexMap = insertAll IndexNode.nID id m nodes)
    (hvec : t.mInvertVec = postings ++ held)
    (hindex' : fresh.mIndexMap = insertAll IndexNode.nID id ∅ nodes)
    (hvec' : fresh.mInvertVec = postings) (disk : Disk) (pid : Int32) :
    t.getInvertInfoVec disk pid = fresh.getInvertInfoVec disk pid ↔
      (∀ node, (insertAll IndexNode.nID id ∅ nodes).lookup pid = none →
        m.lookup pid = some node → postings.length + held.length ≤ intToSize node.nOffset) ∧
      ∀ node, (insertAll IndexNode.nID id ∅ nodes).lookup pid = some node →
        node.reach postings.length = node.reach (postings.length + held.length) := by
  have hlookup : t.mIndexMap.lookup pid =
      ((insertAll IndexNode.nID id ∅ nodes).lookup pid).or (m.lookup pid) := by
    rw [hindex, lookup_insertAll_or]
  cases hnode : (insertAll IndexNode.nID id ∅ nodes).lookup pid with
  | some node =>
      rw [hnode, Option.some_or] at hlookup
      rw [getInvertInfoVec_of_some t disk ht hlookup, hvec,
        getInvertInfoVec_of_some fresh disk hfresh (hindex' ▸ hnode), hvec', answerFrom_append_iff]
      simp
  | none =>
      rw [hnode, Option.none_or] at hlookup
      rw [getInvertInfoVec_of_none fresh disk (hindex' ▸ hnode)]
      cases hheld : m.lookup pid with
      | some node =>
          rw [getInvertInfoVec_of_some t disk ht (hlookup.trans hheld), hvec,
            answerFrom_eq_false_iff, List.length_append]
          simp
      | none =>
          rw [getInvertInfoVec_of_none t disk (hlookup.trans hheld)]
          simp

/-- They agree on every key exactly when no stale key points into the postings
and no loaded range changes its place. -/
theorem load_agrees_iff (ht : t.mUseCached = true) (hfresh : fresh.mUseCached = true)
    (hindex : t.mIndexMap = insertAll IndexNode.nID id m nodes)
    (hvec : t.mInvertVec = postings ++ held)
    (hindex' : fresh.mIndexMap = insertAll IndexNode.nID id ∅ nodes)
    (hvec' : fresh.mInvertVec = postings) :
    (∀ disk pid, t.getInvertInfoVec disk pid = fresh.getInvertInfoVec disk pid) ↔
      (∀ pid node, (insertAll IndexNode.nID id ∅ nodes).lookup pid = none →
        m.lookup pid = some node → postings.length + held.length ≤ intToSize node.nOffset) ∧
      ∀ pid node, (insertAll IndexNode.nID id ∅ nodes).lookup pid = some node →
        node.reach postings.length = node.reach (postings.length + held.length) := by
  have hagrees := load_agrees_at ht hfresh hindex hvec hindex' hvec'
  constructor
  · intro hagree
    constructor
    · intro pid
      exact ((hagrees (fun _ => none) pid).mp (hagree _ pid)).1
    · intro pid
      exact ((hagrees (fun _ => none) pid).mp (hagree _ pid)).2
  · rintro ⟨houtside, hplace⟩ disk pid
    exact (hagrees disk pid).mpr ⟨houtside pid, hplace pid⟩

end Loaded

/-- After any run of calls on one cached table, one more call makes it answer
every key as a fresh table with only that call exactly when the table was clean
for the call. -/
theorem rebuild_as_fresh_iff (requests : List Request) (request : Request)
    (t t' : InvertTable) (hrun : (InvertTable.new true).run requests = some t)
    (hstep : t.step request = some t') :
    ∃ fresh, (InvertTable.new true).step request = some fresh ∧
      ((∀ disk pid, t'.getInvertInfoVec disk pid = fresh.getInvertInfoVec disk pid) ↔
        t.Clean request) := by
  have hcached : t.mUseCached = true := run_cached rfl hrun
  obtain ⟨fresh, hfresh⟩ := step_fresh hcached hstep
  refine ⟨fresh, hfresh, ?_⟩
  obtain ⟨ht', hleft⟩ := step_spec hcached hstep
  obtain ⟨hf, hright⟩ := step_spec rfl hfresh
  obtain ⟨order, disk, call⟩ := request
  cases call with
  | create vec dir isPersistent =>
      exact create_agrees_iff ht' hf hleft.1 hleft.2 hright.1 hright.2
  | load indexFile invertFile =>
      exact load_agrees_iff ht' hf hleft.1 hleft.2 hright.1
        (by rw [hright.2]; exact List.append_nil _)

/-- A build without persistence on a machine without files. -/
def createRequest (vec : List PidKidInfo) : Request :=
  { order := HashOrder.ofEntries Int32 IndexNode
    disk := fun _ => none
    call := .create vec "." false }

/-- Two builds on one table, the second of nothing: it is clean and answers
nothing. -/
theorem rebuild_as_fresh_of_empty :
    ∃ t', ((InvertTable.new true).create (HashOrder.ofEntries Int32 IndexNode) (fun _ => none)
        [⟨1, 10, 5⟩] "." false).table.step (createRequest []) = some t' ∧
      ∃ fresh, (InvertTable.new true).step (createRequest []) = some fresh ∧
        ((∀ disk pid, t'.getInvertInfoVec disk pid = fresh.getInvertInfoVec disk pid) ↔
          ((InvertTable.new true).create (HashOrder.ofEntries Int32 IndexNode) (fun _ => none)
            [⟨1, 10, 5⟩] "." false).table.Clean (createRequest [])) :=
  ⟨_, rfl, rebuild_as_fresh_iff [createRequest [⟨1, 10, 5⟩]] (createRequest []) _ _ rfl rfl⟩

/-- The second build of key 1 answers with the posting of the first. -/
theorem rebuild_shows_stale_postings :
    ¬ ∀ (requests : List Request) (request : Request) (t' fresh : InvertTable),
      (InvertTable.new true).run (requests ++ [request]) = some t' →
      (InvertTable.new true).run [request] = some fresh →
      ∀ disk pid, t'.getInvertInfoVec disk pid = fresh.getInvertInfoVec disk pid := by
  intro h
  have hsame := h [createRequest [⟨1, 10, 5⟩]] (createRequest [⟨1, 20, 9⟩]) _ _ rfl rfl
    (fun _ => none) 1
  revert hsame
  decide

end InvertTable

end LearningCpp.Invert
