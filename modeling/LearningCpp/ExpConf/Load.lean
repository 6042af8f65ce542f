import LearningCpp.ExpConf.Text
import LearningCpp.Library.MapFold

/-!
`Exp::load` of `exp.cpp`: the loop over the lines of a configuration file, with
the section name and the flags that it has in hand. A string flag points into a
variable of the loop, which is gone when the round is over.
-/

namespace LearningCpp.ExpConf

open Library

inductive FlagType where
  | NONE
  | BOOL
  | INT
  | FLOAT
  | STRING
  deriving DecidableEq, Repr

/-- The union, with the member that was written. For `p` this is a pointer: the
place of a string among those of the open scopes. -/
inductive FlagValue where
  | bl (value : Bool)
  | it (value : Int32)
  | ft (value : Float32)
  | p (buffer : Nat)

structure ExpNode where
  flagtype : FlagType
  flagvalue : FlagValue

/-- What a flag is worth. -/
inductive Value where
  | bl (value : Bool)
  | it (value : Int32)
  | ft (value : Float32)
  | chars (value : Text)

/-- What the union gives while the strings `buffers` are alive: through a pointer
to a string that is gone, nothing. -/
def FlagValue.read (buffers : List Text) : FlagValue → Option Value
  | .bl value => some (.bl value)
  | .it value => some (.it value)
  | .ft value => some (.ft value)
  | .p buffer => buffers[buffer]?.map .chars

def ExpNode.read (buffers : List Text) (node : ExpNode) : FlagType × Option Value :=
  (node.flagtype, node.flagvalue.read buffers)

def getType (flag : Text) : FlagType :=
  if found "enable".toList flag then .BOOL
  else if found "int".toList flag then .INT
  else if found "float".toList flag then .FLOAT
  else if found "string".toList flag then .STRING
  else .NONE

def defaultName : Text := "default".toList

/-- What `load` prints. -/
inductive Complaint where
  | notExist (filename : String)
  | lineNotRight (i : Int32)
  | lineWrong (i : Int32)
  | expNotRight
  deriving DecidableEq, Repr

def Complaint.text : Complaint → String
  | .notExist filename => "file: " ++ filename ++ " not exist!"
  | .lineNotRight i => "exp line " ++ toString i ++ " is not right!"
  | .lineWrong i => "line " ++ toString i ++ " is wrong!"
  | .expNotRight => "exp is not right!"

structure Exp where
  m_conf : Map Text (Map Text ExpNode)
  m_default : Map Text ExpNode

/-- What the loop has in hand: the name of the open section and its flags. -/
structure Hand extends Exp where
  posid : Text
  flag2value : Map Text ExpNode

/-- The variables of the loop, the strings of the open scopes that can be pointed
to, and what has been printed. -/
structure Loading extends Hand where
  i : Int32
  buffers : List Text
  cout : List Complaint

/-- `atof` is the conversion of the standard library, and `buffer` the place of
`value`, to which `value.c_str()` points. -/
def parseNode (atof : Text → Float) (i : Int32) (flag value : Text) (buffer : Nat) :
    Except Complaint ExpNode :=
  if found "enable".toList flag then
    if value = "true".toList then .ok {flagtype := .BOOL, flagvalue := .bl true}
    else if value = "false".toList then .ok {flagtype := .BOOL, flagvalue := .bl false}
    else .error (.lineWrong i)
  else if found "int".toList flag then .ok {flagtype := .INT, flagvalue := .it (atoi value)}
  else if found "float".toList flag then
    .ok {flagtype := .FLOAT, flagvalue := .ft (atof value).toFloat32}
  else if found "string".toList flag then .ok {flagtype := .STRING, flagvalue := .p buffer}
  else .error .expNotRight

namespace Loading

def print (st : Loading) (complaint : Complaint) : Loading :=
  {st with cout := st.cout ++ [complaint]}

/-- Leaving the default section takes no name from the header that ends it. -/
def loadHeader (st : Loading) (tmp : Text) : Loading :=
  if st.posid = defaultName then
    {st with m_default := st.flag2value, flag2value := ∅, posid := []}
  else
    let left :=
      if st.posid ≠ [] then
        {st with m_conf := insertNew st.m_conf st.posid st.flag2value, flag2value := ∅}
      else st
    {left with posid := trim ((tmp.drop 1).take (tmp.length - 2))}

/-- `value` lives from here to the end of the round. -/
def loadFlag (atof : Text → Float) (st : Loading) (flag value : Text) : Loading :=
  let inside := {st with buffers := st.buffers ++ [value]}
  let done :=
    match parseNode atof inside.i flag value st.buffers.length with
    | .ok expnode => {inside with flag2value := insertNew inside.flag2value flag expnode}
    | .error complaint => inside.print complaint
  {done with buffers := done.buffers.dropLast}

/-- One round of `while(getline(ifs,tmp))`. -/
def loadLine (atof : Text → Float) (before : Loading) (line : Text) : Loading :=
  let st := {before with i := before.i + 1}
  let tmp := lower line
  if tmp.length = 0 ∨ tmp.head? = some '#' then st
  else if tmp.head? = some '[' ∧ tmp.getLast? = some ']' then st.loadHeader tmp
  else
    match tmp.findIdx? (fun c => c = '=') with
    | none => st.print (.lineNotRight st.i)
    | some pos => st.loadFlag atof (trim (tmp.take pos)) (trim (tmp.drop (pos + 1)))

end Loading

/-- After the last line. -/
def Hand.finish (st : Hand) : Exp :=
  if st.posid = defaultName then {st.toExp with m_default := st.flag2value}
  else if st.posid ≠ [] then
    {st.toExp with m_conf := insertNew st.m_conf st.posid st.flag2value}
  else st.toExp

/-- What `load` leaves behind: the maps, the strings that are still alive, and
what it has printed. -/
structure Loaded extends Exp where
  buffers : List Text
  cout : List Complaint

/-- `ifs` is the text of the file, if there is one. -/
def Exp.load (atof : Text → Float) (e : Exp) (filename : String) (ifs : Option Text) : Loaded :=
  match ifs with
  | none => {toExp := e, buffers := [], cout := [.notExist filename]}
  | some text =>
      let start : Loading :=
        {toExp := e, posid := [], flag2value := ∅, i := 0, buffers := [], cout := []}
      let last := (getlines text).foldl (Loading.loadLine atof) start
      {toExp := last.toHand.finish, buffers := last.buffers, cout := last.cout}

/-- `Exp(string filename)` -/
def Exp.new (atof : Text → Float) (filename : String) (ifs : Option Text) : Exp :=
  (Exp.load atof {m_conf := ∅, m_default := ∅} filename ifs).toExp

/-- No string of a round outlives it. -/
theorem loadFlag_buffers (atof : Text → Float) (st : Loading) (flag value : Text) :
    (st.loadFlag atof flag value).buffers = st.buffers := by
  unfold Loading.loadFlag
  cases hparse : parseNode atof st.i flag value st.buffers.length with
  | ok expnode => simp only [hparse, List.dropLast_concat]
  | error complaint => simp only [hparse, Loading.print, List.dropLast_concat]

private theorem loadHeader_buffers (st : Loading) (tmp : Text) :
    (st.loadHeader tmp).buffers = st.buffers := by
  unfold Loading.loadHeader
  split
  case isTrue => rfl
  case isFalse =>
    split
    case isTrue => rfl
    case isFalse => rfl

theorem loadLine_buffers (atof : Text → Float) (st : Loading) (line : Text) :
    (st.loadLine atof line).buffers = st.buffers := by
  unfold Loading.loadLine
  simp only
  split
  case isTrue => rfl
  case isFalse =>
    split
    case isTrue => exact loadHeader_buffers _ _
    case isFalse =>
      split
      case h_1 => rfl
      case h_2 => exact loadFlag_buffers atof _ _ _

private theorem lines_buffers (atof : Text → Float) (st : Loading) (lines : List Text) :
    (lines.foldl (Loading.loadLine atof) st).buffers = st.buffers := by
  induction lines generalizing st with
  | nil => rfl
  | cons line lines ih => exact (ih _).trans (loadLine_buffers atof st line)

/-- When `load` returns, no string is left that a flag could point to. -/
theorem load_buffers (atof : Text → Float) (e : Exp) (filename : String) (ifs : Option Text) :
    (Exp.load atof e filename ifs).buffers = [] := by
  cases ifs with
  | none => rfl
  | some text => exact lines_buffers atof _ _

end LearningCpp.ExpConf
