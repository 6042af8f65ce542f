import LearningCpp.Library.StableSort
import LearningCpp.Runtime.Memory

/-!
The inverted table of `invert/invert.hpp`, instantiated at its triples
`PidKidInfo` and postings `InvertNode`. The index map always stays in memory;
the postings are either cached in a vector or read back from the invert file.

Memory and disk space are assumed to suffice. What the language leaves
undefined, such as reading past the elements of a vector, is a `Fault`.
-/

namespace LearningCpp.Invert

open Library

structure PidKidInfo where
  nPid : Int32
  nKid : Int32
  nWeight : Int32
  deriving DecidableEq, Repr

structure InvertNode where
  nID : Int32
  nWeight : Int32
  deriving DecidableEq, Repr

def InvertNode.copy (other : PidKidInfo) : InvertNode :=
  {nID := other.nKid, nWeight := other.nWeight}

def cmpPidKidInfoByPidWeight (l r : PidKidInfo) : Bool :=
  if l.nPid ≠ r.nPid then l.nPid < r.nPid
  else if l.nWeight ≠ r.nWeight then l.nWeight > r.nWeight
  else l.nKid < r.nKid

structure IndexNode where
  nID : Int32
  nOffset : Int32
  nCount : Int32
  deriving DecidableEq, Repr

/-- `IndexNode` in the index file: its three `int`s. -/
def IndexNode.codec : RecordCodec IndexNode :=
  (RecordCodec.int32.pair (RecordCodec.int32.pair RecordCodec.int32)).ofEquiv
    { toFun := fun node => (node.nID, node.nOffset, node.nCount)
      invFun := fun fields => ⟨fields.1, fields.2.1, fields.2.2⟩
      left_inv := fun _ => rfl
      right_inv := fun _ => rfl }

/-- `InvertNode` in the invert file: its two `int`s. -/
def InvertNode.codec : RecordCodec InvertNode :=
  (RecordCodec.int32.pair RecordCodec.int32).ofEquiv
    { toFun := fun node => (node.nID, node.nWeight)
      invFun := fun fields => ⟨fields.1, fields.2⟩
      left_inv := fun _ => rfl
      right_inv := fun _ => rfl }

abbrev IndexMap := Map Int32 IndexNode

structure InvertTable where
  mIndexMap : IndexMap
  mInvertVec : List InvertNode
  mUseCached : Bool
  mFp : Option String
  mIndexFileName : String
  mInvertFileName : String

namespace InvertTable

/-- `InvertTable(bool useCache)` -/
def new (useCache : Bool) : InvertTable :=
  { mIndexMap := ∅, mInvertVec := [], mUseCached := useCache, mFp := none
    mIndexFileName := "", mInvertFileName := "" }

/-- `clear` erases `mIndexMap` twice; `mInvertVec` keeps its elements. -/
def clear (t : InvertTable) : InvertTable :=
  {t with mIndexMap := ∅, mFp := none}

/-- The variables of the loop in `createInvertTable`. -/
structure Building where
  indexNode : IndexNode
  mIndexMap : IndexMap
  mInvertVec : List InvertNode

def resetIndexNode (i : Nat) (info : PidKidInfo) : IndexNode :=
  {nID := info.nPid, nOffset := sizeToInt i, nCount := 0}

def createRound (i : Nat) (info : PidKidInfo) (b : Building) : Building :=
  let first := if i = 0 then resetIndexNode i info else b.indexNode
  let (node, map) :=
    if first.nID ≠ info.nPid then
      (resetIndexNode i info, b.mIndexMap.insert first.nID first)
    else
      (first, b.mIndexMap)
  { indexNode := {node with nCount := node.nCount + 1}
    mIndexMap := map
    mInvertVec := b.mInvertVec ++ [InvertNode.copy info] }

def createLoop (i : Nat) : List PidKidInfo → Building → Building
  | [], b => b
  | info :: infos, b => createLoop (i + 1) infos (createRound i info b)

/-- The outcome of building: the table, the caller's vector, which is sorted in
place, and whether an exception left the call. -/
structure Built where
  table : InvertTable
  infoVec : List PidKidInfo
  outcome : Except Fault Unit

/-- `reserve` takes the count as a `size_t`, so a negative one is too long. The
index node is not initialised before the round of `i = 0` sets it. -/
def createInvertTable (t : InvertTable) (infoVec : List PidKidInfo) : Built :=
  let cnt := sizeToInt infoVec.length
  if cnt = 0 then
    {table := t, infoVec := infoVec, outcome := .ok ()}
  else
    let sorted := sortBy cmpPidKidInfoByPidWeight infoVec
    if cnt < 0 then
      {table := t, infoVec := sorted, outcome := .error .lengthError}
    else
      let b := createLoop 0 (sorted.take (rounds cnt)) ⟨⟨0, 0, 0⟩, t.mIndexMap, t.mInvertVec⟩
      { table :=
          {t with mIndexMap := b.mIndexMap.insert b.indexNode.nID b.indexNode
                  mInvertVec := b.mInvertVec}
        infoVec := sorted
        outcome := .ok () }

def writeIndex (t : InvertTable) (order : HashOrder Int32 IndexNode) (disk : Disk) : Disk :=
  disk.write t.mIndexFileName (IndexNode.codec.writeArray (order.walk t.mIndexMap))

def writeInvert (t : InvertTable) (disk : Disk) : Disk :=
  disk.write t.mInvertFileName (InvertNode.codec.writeArray t.mInvertVec)

structure Created where
  table : InvertTable
  infoVec : List PidKidInfo
  disk : Disk
  outcome : Except Fault Unit

def create (t : InvertTable) (order : HashOrder Int32 IndexNode) (disk : Disk)
    (vec : List PidKidInfo) (dir : String) (isPersistent : Bool) : Created :=
  let named :=
    {t with mIndexFileName := dir ++ "/Index.dict", mInvertFileName := dir ++ "/Invert.dict"}
  let built := createInvertTable named.clear vec
  match built.outcome with
  | .error fault => ⟨built.table, built.infoVec, disk, .error fault⟩
  | .ok () =>
      let table := built.table
      let written :=
        if isPersistent then table.writeInvert (table.writeIndex order disk)
        else if !table.mUseCached then table.writeInvert disk
        else disk
      let opened :=
        if !table.mUseCached then
          {table with mInvertVec := [], mFp := written.fopen table.mInvertFileName}
        else table
      ⟨opened, built.infoVec, written, .ok ()⟩

/-- The nodes of an index file enter the map unless they count nothing. -/
def readNodes (m : IndexMap) (nodes : List IndexNode) : IndexMap :=
  insertAll IndexNode.nID id m (nodes.filter (fun p => p.nCount ≠ 0))

/-- `mmap` refuses an empty file, and then nothing is read. -/
def readIndex (t : InvertTable) (disk : Disk) : InvertTable :=
  let bytes := disk.contents t.mIndexFileName
  if bytes.length = 0 then t
  else
    let cnt := sizeToInt (bytes.length / IndexNode.codec.width)
    {t with mIndexMap := readNodes t.mIndexMap (IndexNode.codec.readArray (rounds cnt) bytes)}

/-- `readInvert()`: the file's postings go in front of those already held. -/
def readInvert (t : InvertTable) (disk : Disk) : Except Fault Bool × InvertTable :=
  let bytes := disk.contents t.mInvertFileName
  if bytes.length = 0 then (.ok false, t)
  else
    let cnt := sizeToInt (bytes.length / InvertNode.codec.width)
    if cnt < 0 then (.error .lengthError, t)
    else
      (.ok true,
        {t with mInvertVec := InvertNode.codec.readArray (rounds cnt) bytes ++ t.mInvertVec})

def load (t : InvertTable) (disk : Disk) (indexFile invertFile : String) :
    Except Fault Bool × InvertTable :=
  let named := {t with mIndexFileName := indexFile, mInvertFileName := invertFile}
  if !disk.fileExists indexFile || !disk.fileExists invertFile then (.ok false, named)
  else
    let indexed := named.readIndex disk
    if indexed.mUseCached then indexed.readInvert disk
    else (.ok true, {indexed with mFp := disk.fopen indexed.mInvertFileName})

/-- What the out parameter `start` points to: nothing, an element of
`mInvertVec`, or an array from `new`. -/
inductive NodePtr where
  | null
  | inVec (index : Nat)
  | onHeap (nodes : List InvertNode)
  deriving DecidableEq, Repr

/-- `readInvert(offset, cnt, start)`: the caller's old array is deleted first. -/
def readInvertAt (t : InvertTable) (disk : Disk) (offset cnt : Int32) (start : NodePtr) :
    Except Fault (Bool × NodePtr) :=
  match start with
  | .inVec _ => .error .badFree
  | .null | .onHeap _ =>
      let addr := offset.toInt * InvertNode.codec.width
      match t.mFp with
      | none => .error .nullFile
      | some path =>
          if addr < 0 then .ok (false, .null)
          else if cnt < 0 then .error .badArrayNewLength
          else
            let nodes := freadAt InvertNode.codec (disk.contents path) addr.toNat (rounds cnt)
            if nodes.length ≠ rounds cnt then .ok (false, .null)
            else .ok (true, .onHeap nodes)

/-- `getInvertInfo(index, start, cnt)` returns its result, `start` and `cnt`. The key
that `indexIsExist` finds is the one that `mIndexMap[index]` then looks up. -/
def getInvertInfo (t : InvertTable) (disk : Disk) (index : Int32) (start : NodePtr) :
    Except Fault (Bool × NodePtr × Int32) :=
  match t.mIndexMap.lookup index with
  | none => .ok (false, .null, 0)
  | some node =>
      if !t.mUseCached then
        match readInvertAt t disk node.nOffset node.nCount start with
        | .error fault => .error fault
        | .ok (found, nodes) => .ok (found, nodes, node.nCount)
      else if intToSize node.nOffset ≥ t.mInvertVec.length then .ok (false, .null, 0)
      else .ok (true, .inVec (intToSize node.nOffset), node.nCount)

/-- The elements `[start, start + cnt)`. -/
def nodesFrom (t : InvertTable) (start : NodePtr) (cnt : Int32) :
    Except Fault (List InvertNode) :=
  if cnt < 0 then .error .outOfRange
  else
    match start with
    | .null => if cnt = 0 then .ok [] else .error .outOfRange
    | .inVec index =>
        if index + rounds cnt ≤ t.mInvertVec.length then
          .ok ((t.mInvertVec.drop index).take (rounds cnt))
        else .error .outOfRange
    | .onHeap nodes =>
        if rounds cnt ≤ nodes.length then .ok (nodes.take (rounds cnt)) else .error .outOfRange

/-- `getInvertInfo(index, resultVec)` returns its result and `resultVec`. -/
def getInvertInfoVec (t : InvertTable) (disk : Disk) (index : Int32) :
    Except Fault (Bool × List InvertNode) :=
  match t.getInvertInfo disk index .null with
  | .error fault => .error fault
  | .ok (false, _, _) => .ok (false, [])
  | .ok (true, start, cnt) =>
      match t.nodesFrom start cnt with
      | .error fault => .error fault
      | .ok nodes => .ok (true, nodes)

end InvertTable

end LearningCpp.Invert
