import LearningCpp.Library.StableSort
import LearningCpp.Runtime.Memory

/-!
The inverted table of `invert_table/invert_table.h`, instantiated at its
quadruples `ST_PidKidInfo2` and postings `InvertNode2`. A build takes its
vector in the order in which it comes.

Memory and disk space are assumed to suffice. Products and sums of weights that
leave the range of `int` keep their low 32 bits. What the language leaves
undefined, such as reading past the elements of a vector, is a `Fault`.
-/

namespace LearningCpp.Fjp

open Library

structure STPidKidInfo2 where
  m_nPid : Int32
  m_nKid : Int32
  m_nWeight : Int32
  m_nWeight2 : Int32
  deriving DecidableEq, Repr

structure InvertNode2 where
  m_nID : Int32
  m_nWeight : Int32
  m_nWeight2 : Int32
  deriving DecidableEq, Repr

def InvertNode2.copy (other : STPidKidInfo2) : InvertNode2 :=
  {m_nID := other.m_nKid, m_nWeight := other.m_nWeight, m_nWeight2 := other.m_nWeight2}

structure IndexNode where
  m_nID : Int32
  m_nOffset : Int32
  m_nCount : Int32
  m_nTotalWeight : Int32
  deriving DecidableEq, Repr

def cmpSTNodeByIndex (i j : STPidKidInfo2) : Bool := i.m_nPid < j.m_nPid

def cmpSTNodeByID (i j : STPidKidInfo2) : Bool :=
  if i.m_nPid ≠ j.m_nPid then i.m_nPid < j.m_nPid else i.m_nKid < j.m_nKid

def cmpSTNodeByWeight (i j : STPidKidInfo2) : Bool :=
  if i.m_nPid ≠ j.m_nPid then i.m_nPid < j.m_nPid
  else if i.m_nWeight ≠ j.m_nWeight then i.m_nWeight > j.m_nWeight
  else i.m_nKid < j.m_nKid

/-- `IndexNode` in the index file: its four `int`s. -/
def IndexNode.codec : RecordCodec IndexNode :=
  (RecordCodec.int32.pair
      (RecordCodec.int32.pair (RecordCodec.int32.pair RecordCodec.int32))).ofEquiv
    { toFun := fun node => (node.m_nID, node.m_nOffset, node.m_nCount, node.m_nTotalWeight)
      invFun := fun fields => ⟨fields.1, fields.2.1, fields.2.2.1, fields.2.2.2⟩
      left_inv := fun _ => rfl
      right_inv := fun _ => rfl }

/-- `InvertNode2` in the invert file: its three `int`s. -/
def InvertNode2.codec : RecordCodec InvertNode2 :=
  (RecordCodec.int32.pair (RecordCodec.int32.pair RecordCodec.int32)).ofEquiv
    { toFun := fun node => (node.m_nID, node.m_nWeight, node.m_nWeight2)
      invFun := fun fields => ⟨fields.1, fields.2.1, fields.2.2⟩
      left_inv := fun _ => rfl
      right_inv := fun _ => rfl }

abbrev IndexMap := Map Int32 IndexNode

/-- `spare` is what `readInvert` puts into the storage reserved for `invert_vec`. -/
structure InvertTable where
  is_cached : Bool
  fp : Option String
  index_file_name : String
  invert_file_name : String
  index_map : IndexMap
  invert_vec : List InvertNode2
  spare : List InvertNode2

/-- `(int)(sqrt((float)total) * 1000)` -/
def scaledRoot (total : Int32) : Int32 := (total.toFloat32.sqrt * 1000).toInt32

namespace InvertTable

/-- `InvertTable(bool use_cache)` -/
def new (use_cache : Bool) : InvertTable :=
  { is_cached := use_cache, fp := none, index_file_name := "", invert_file_name := ""
    index_map := ∅, invert_vec := [], spare := [] }

def clear (t : InvertTable) : InvertTable :=
  {t with fp := none, index_map := ∅, invert_vec := [], spare := []}

/-- The variables of the loop in `createInvertTable`. -/
structure Building where
  index_node : IndexNode
  index_map : IndexMap
  invert_vec : List InvertNode2

def resetIndexNode (i : Nat) (info : STPidKidInfo2) : IndexNode :=
  {m_nID := info.m_nPid, m_nOffset := sizeToInt i, m_nCount := 0, m_nTotalWeight := 0}

/-- A finished index node enters the map with the root of its total weight. -/
def save (index_map : IndexMap) (node : IndexNode) : IndexMap :=
  index_map.insert node.m_nID {node with m_nTotalWeight := scaledRoot node.m_nTotalWeight}

def createRound (i : Nat) (info : STPidKidInfo2) (b : Building) : Building :=
  let first := if i = 0 then resetIndexNode i info else b.index_node
  let (node, map) :=
    if first.m_nID ≠ info.m_nPid then (resetIndexNode i info, save b.index_map first)
    else (first, b.index_map)
  { index_node :=
      {node with
        m_nTotalWeight := node.m_nTotalWeight + info.m_nWeight * info.m_nWeight
        m_nCount := node.m_nCount + 1}
    index_map := map
    invert_vec := b.invert_vec ++ [InvertNode2.copy info] }

def createLoop (i : Nat) : List STPidKidInfo2 → Building → Building
  | [], b => b
  | info :: infos, b => createLoop (i + 1) infos (createRound i info b)

/-- `reserve` takes the count as a `size_t`, so a negative one is too long. The
index node is not initialised before the round of `i = 0` sets it. -/
def createInvertTable (t : InvertTable) (tmp_info : List STPidKidInfo2) :
    Except Fault Unit × InvertTable :=
  let cnt := sizeToInt tmp_info.length
  if cnt = 0 then (.ok (), t)
  else if cnt < 0 then (.error .lengthError, t)
  else
    let b := createLoop 0 (tmp_info.take (rounds cnt)) ⟨⟨0, 0, 0, 0⟩, t.index_map, t.invert_vec⟩
    (.ok (), {t with index_map := save b.index_map b.index_node, invert_vec := b.invert_vec})

def writeIndex (t : InvertTable) (order : HashOrder Int32 IndexNode) (disk : Disk) : Disk :=
  disk.write t.index_file_name (IndexNode.codec.writeArray (order.walk t.index_map))

def writeInvert (t : InvertTable) (disk : Disk) : Disk :=
  disk.write t.invert_file_name (InvertNode2.codec.writeArray t.invert_vec)

structure Created where
  table : InvertTable
  disk : Disk
  outcome : Except Fault Unit

def create (t : InvertTable) (order : HashOrder Int32 IndexNode) (disk : Disk)
    (vec : List STPidKidInfo2) (dir : String) (is_persistent : Bool) : Created :=
  let named :=
    {t with index_file_name := dir ++ "/index.idx", invert_file_name := dir ++ "/invert.idx"}
  match createInvertTable named.clear vec with
  | (.error fault, table) => ⟨table, disk, .error fault⟩
  | (.ok (), table) =>
      let written :=
        if is_persistent then table.writeInvert (table.writeIndex order disk)
        else if !table.is_cached then table.writeInvert disk
        else disk
      let opened :=
        if !table.is_cached then
          {table with fp := written.fopen table.invert_file_name, invert_vec := []}
        else table
      ⟨opened, written, .ok ()⟩

/-- The nodes of an index file enter the map unless they count nothing. -/
def readNodes (m : IndexMap) (nodes : List IndexNode) : IndexMap :=
  insertAll IndexNode.m_nID id m (nodes.filter (fun p => p.m_nCount ≠ 0))

/-- `mmap` refuses an empty file, and then nothing is read. -/
def readIndex (t : InvertTable) (disk : Disk) : InvertTable :=
  let bytes := disk.contents t.index_file_name
  if bytes.length = 0 then t
  else
    let cnt := sizeToInt (bytes.length / IndexNode.codec.width)
    {t with index_map := readNodes t.index_map (IndexNode.codec.readArray (rounds cnt) bytes)}

/-- The postings are read into storage that is reserved and not resized: the
vector holds as many elements as before. -/
def readInvert (t : InvertTable) (disk : Disk) : Except Fault Unit × InvertTable :=
  let bytes := disk.contents t.invert_file_name
  let cnt := sizeToInt (bytes.length / InvertNode2.codec.width)
  if cnt < 0 then (.error .lengthError, t)
  else (.ok (), {t with spare := InvertNode2.codec.readArray (rounds cnt) bytes})

def load (t : InvertTable) (disk : Disk) (index_fn invert_fn : String) :
    Except Fault Bool × InvertTable :=
  if !disk.fileExists index_fn || !disk.fileExists invert_fn then (.ok false, t)
  else
    let named := {t with index_file_name := index_fn, invert_file_name := invert_fn}
    let indexed := named.clear.readIndex disk
    if !indexed.is_cached then
      (.ok true, {indexed with fp := disk.fopen indexed.invert_file_name})
    else
      match indexed.readInvert disk with
      | (.error fault, table) => (.error fault, table)
      | (.ok (), table) => (.ok true, table)

/-- The elements `[begin() + addr, begin() + addr + cnt)` of `invert_vec`. -/
def elements (t : InvertTable) (addr cnt : Int32) : Except Fault (List InvertNode2) :=
  if addr < 0 ∨ cnt < 0 ∨ rounds addr + rounds cnt > t.invert_vec.length then .error .outOfRange
  else .ok ((t.invert_vec.drop (rounds addr)).take (rounds cnt))

/-- `readInvertPart` into a vector that is empty. Elements that the file is too
short for are those that `resize` makes, taken to be zero. -/
def readInvertPart (t : InvertTable) (disk : Disk) (index_node : IndexNode) :
    Except Fault (Bool × List InvertNode2) :=
  let nAddr := index_node.m_nOffset.toInt * InvertNode2.codec.width
  let cnt := index_node.m_nCount
  match t.fp with
  | none => .error .nullFile
  | some path =>
      if nAddr < 0 then .ok (false, [])
      else if cnt < 0 then .error .lengthError
      else
        let nodes := freadAt InvertNode2.codec (disk.contents path) nAddr.toNat (rounds cnt)
        .ok (nodes.length = rounds cnt,
          nodes ++ List.replicate (rounds cnt - nodes.length) ⟨0, 0, 0⟩)

/-- `getPostList(index, result_vec)` returns its result and `result_vec`. A key
that `has_key` finds is the one that `index_map[index]` then looks up. -/
def getPostList (t : InvertTable) (disk : Disk) (index : Int32) :
    Except Fault (Bool × List InvertNode2) :=
  match t.index_map.lookup index with
  | none => .ok (false, [])
  | some node =>
      if t.is_cached then
        match t.elements node.m_nOffset node.m_nCount with
        | .error fault => .error fault
        | .ok nodes => .ok (true, nodes)
      else t.readInvertPart disk node

/-- What the out parameter `start` points to: nothing, an element of
`invert_vec`, or the first element of `temp_vec`. -/
inductive NodePtr where
  | null
  | inVec (index : Nat)
  | inTemp
  deriving DecidableEq, Repr

/-- The result of `getPostList` with its out parameters. -/
structure PostList where
  found : Bool
  temp_vec : List InvertNode2
  start : NodePtr
  cnt : Int32
  deriving DecidableEq, Repr

/-- `getPostList(index, temp_vec, start, cnt)` -/
def getPostListAt (t : InvertTable) (disk : Disk) (index : Int32) (start : NodePtr) :
    Except Fault PostList :=
  match t.index_map.lookup index with
  | none => .ok ⟨false, [], .null, 0⟩
  | some node =>
      if t.is_cached then
        if node.m_nOffset < 0 ∨ rounds node.m_nOffset ≥ t.invert_vec.length then
          .error .outOfRange
        else .ok ⟨true, [], .inVec (rounds node.m_nOffset), node.m_nCount⟩
      else
        match t.readInvertPart disk node with
        | .error fault => .error fault
        | .ok (false, temp_vec) => .ok ⟨false, temp_vec, start, node.m_nCount⟩
        | .ok (true, temp_vec) => .ok ⟨true, temp_vec, .inTemp, node.m_nCount⟩

/-- The nodes `[start, start + cnt)` of a result. -/
def nodesOf (t : InvertTable) (post : PostList) : Except Fault (List InvertNode2) :=
  match post.start with
  | .null => if post.cnt = 0 then .ok [] else .error .outOfRange
  | .inVec index =>
      if post.cnt < 0 ∨ index + rounds post.cnt > t.invert_vec.length then .error .outOfRange
      else .ok ((t.invert_vec.drop index).take (rounds post.cnt))
  | .inTemp =>
      if post.cnt < 0 ∨ rounds post.cnt > post.temp_vec.length then .error .outOfRange
      else .ok (post.temp_vec.take (rounds post.cnt))

end InvertTable

end LearningCpp.Fjp
