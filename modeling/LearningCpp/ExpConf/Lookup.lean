import LearningCpp.ExpConf.Load

/-!
Looking up a flag in a loaded configuration. `getExpNode` copies the section's map
into a local variable and returns a reference into the copy, which is destroyed
when the function returns; `getDefault` returns a reference into `m_default`.
-/

namespace LearningCpp.ExpConf

open Library

/-- What a call comes to: it returns, it ends the process, or it reads an object
whose lifetime is over. -/
inductive Outcome (α : Type) where
  | returned (value : α)
  | exited (code : Int32)
  | undefined

def Outcome.bind {α β : Type} : Outcome α → (α → Outcome β) → Outcome β
  | .returned value, k => k value
  | .exited code, _ => .exited code
  | .undefined, _ => .undefined

/-- An `expNode&`: into `m_default`, or into a map that was destroyed. -/
inductive NodeRef where
  | m_default (flag : Text)
  | flag2value (flag : Text)
  deriving DecidableEq, Repr

namespace Exp

def getDefault (e : Exp) (flag : Text) : Outcome NodeRef :=
  match e.m_default.lookup flag with
  | none => .exited (-1)
  | some _ => .returned (.m_default flag)

def getExpNode (e : Exp) (posid flag : Text) : Outcome NodeRef :=
  match e.m_conf.lookup posid with
  | none => e.getDefault flag
  | some flag2value =>
      match flag2value.lookup flag with
      | none => e.getDefault flag
      | some _ => .returned (.flag2value flag)

/-- Reading the node that a reference denotes. -/
def read (e : Exp) : NodeRef → Outcome ExpNode
  | .m_default flag =>
      match e.m_default.lookup flag with
      | none => .undefined
      | some node => .returned node
  | .flag2value _ => .undefined

def judgeExpNode (e : Exp) (posid flag : Text) (ft : FlagType) : Outcome ExpNode :=
  (e.getExpNode (lower posid) (lower flag)).bind fun expnode =>
    (e.read expnode).bind fun node =>
      if node.flagtype ≠ getType (lower flag) ∨ getType (lower flag) ≠ ft then .exited (-2)
      else .returned node

def getBoolValue (e : Exp) (posid flag : Text) : Outcome Bool :=
  (e.judgeExpNode posid flag .BOOL).bind fun node =>
    match node.flagvalue with
    | .bl value => .returned value
    | _ => .undefined

def getIntValue (e : Exp) (posid flag : Text) : Outcome Int32 :=
  (e.judgeExpNode posid flag .INT).bind fun node =>
    match node.flagvalue with
    | .it value => .returned value
    | _ => .undefined

def getFloatValue (e : Exp) (posid flag : Text) : Outcome Float32 :=
  (e.judgeExpNode posid flag .FLOAT).bind fun node =>
    match node.flagvalue with
    | .ft value => .returned value
    | _ => .undefined

/-- The pointer, not what it points to. -/
def getStringValue (e : Exp) (posid flag : Text) : Outcome Nat :=
  (e.judgeExpNode posid flag .STRING).bind fun node =>
    match node.flagvalue with
    | .p value => .returned value
    | _ => .undefined

/-- The node that `getExpNode` finds: in the map of the section, or else in `m_default`. -/
def findNode (e : Exp) (posid flag : Text) : Option ExpNode :=
  ((e.m_conf.lookup posid).bind (fun m => m.lookup flag)).or (e.m_default.lookup flag)

/-- The flag is found in the map of the section. -/
def InSection (e : Exp) (posid flag : Text) : Prop :=
  ((e.m_conf.lookup posid).bind (fun m => m.lookup flag)).isSome

instance (e : Exp) (posid flag : Text) : Decidable (e.InSection posid flag) :=
  inferInstanceAs (Decidable (_ = true))

end Exp

/-- The member that is written is the one that the type tells to read. -/
def FlagValue.type : FlagValue → FlagType
  | .bl _ => .BOOL
  | .it _ => .INT
  | .ft _ => .FLOAT
  | .p _ => .STRING

/-- A node under the name of a flag has the type of the name, and its member. -/
def ExpNode.Typed (node : ExpNode) (flag : Text) : Prop :=
  node.flagtype = getType flag ∧ node.flagvalue.type = getType flag

def MapTyped (m : Map Text ExpNode) : Prop :=
  ∀ flag node, m.lookup flag = some node → node.Typed flag

/-- The nodes of the configuration and of the open section are typed. -/
structure Hand.Typed (h : Hand) : Prop where
  conf : ∀ posid m, h.m_conf.lookup posid = some m → MapTyped m
  default : MapTyped h.m_default
  hand : MapTyped h.flag2value

/-- The chain of tests of the parser is that of `getType`. -/
theorem parseNode_typed {atof : Text → Float} {i : Int32} {flag value : Text} {buffer : Nat}
    {node : ExpNode} (h : parseNode atof i flag value buffer = .ok node) : node.Typed flag := by
  unfold parseNode at h
  rw [ExpNode.Typed, getType]
  split at h
  case isTrue henable =>
    rw [if_pos henable]
    split at h
    case isTrue =>
      cases h
      exact ⟨rfl, rfl⟩
    case isFalse =>
      split at h
      case isTrue =>
        cases h
        exact ⟨rfl, rfl⟩
      case isFalse => cases h
  case isFalse henable =>
    rw [if_neg henable]
    split at h
    case isTrue hint =>
      cases h
      exact ⟨(if_pos hint).symm, (if_pos hint).symm⟩
    case isFalse hint =>
      rw [if_neg hint]
      split at h
      case isTrue hfloat =>
        cases h
        exact ⟨(if_pos hfloat).symm, (if_pos hfloat).symm⟩
      case isFalse hfloat =>
        rw [if_neg hfloat]
        split at h
        case isTrue hstring =>
          cases h
          exact ⟨(if_pos hstring).symm, (if_pos hstring).symm⟩
        case isFalse => cases h

theorem MapTyped.empty : MapTyped ∅ := by
  intro flag node h
  rw [AList.lookup_empty] at h
  cases h

theorem MapTyped.insertNew {m : Map Text ExpNode} (hm : MapTyped m) {flag : Text}
    {node : ExpNode} (hnode : node.Typed flag) : MapTyped (insertNew m flag node) := by
  intro flag' node' h
  rw [lookup_insertNew, Option.or_eq_some_iff] at h
  rcases h with h | ⟨_, h⟩
  · exact hm flag' node' h
  · split at h
    case isTrue heq =>
      cases h
      exact heq ▸ hnode
    case isFalse => cases h

theorem conf_insertNew {m_conf : Map Text (Map Text ExpNode)} {name : Text} {m : Map Text ExpNode}
    (hconf : ∀ posid m, m_conf.lookup posid = some m → MapTyped m) (hm : MapTyped m) :
    ∀ posid m', (insertNew m_conf name m).lookup posid = some m' → MapTyped m' := by
  intro posid m' h
  rw [lookup_insertNew, Option.or_eq_some_iff] at h
  rcases h with h | ⟨_, h⟩
  · exact hconf posid m' h
  · split at h
    case isTrue =>
      cases h
      exact hm
    case isFalse => cases h

/-- A section header hands the open section over. -/
theorem loadHeader_typed {st : Loading} (h : st.toHand.Typed) (tmp : Text) :
    (st.loadHeader tmp).toHand.Typed := by
  unfold Loading.loadHeader
  split
  case isTrue => exact ⟨h.conf, h.hand, MapTyped.empty⟩
  case isFalse =>
    split
    case isTrue => exact ⟨conf_insertNew h.conf h.hand, h.default, MapTyped.empty⟩
    case isFalse => exact ⟨h.conf, h.default, h.hand⟩

private theorem loadFlag_typed {atof : Text → Float} {st : Loading} (h : st.toHand.Typed)
    (flag value : Text) : (st.loadFlag atof flag value).toHand.Typed := by
  unfold Loading.loadFlag
  cases hparse : parseNode atof st.i flag value st.buffers.length with
  | ok expnode =>
      simp only [hparse]
      exact ⟨h.conf, h.default, h.hand.insertNew (parseNode_typed hparse)⟩
  | error complaint =>
      simp only [hparse]
      exact h

theorem loadLine_typed {atof : Text → Float} {st : Loading} (h : st.toHand.Typed) (line : Text) :
    (st.loadLine atof line).toHand.Typed := by
  have hcounted : ({st with i := st.i + 1} : Loading).toHand.Typed := h
  unfold Loading.loadLine
  simp only
  split
  case isTrue => exact hcounted
  case isFalse =>
    split
    case isTrue => exact loadHeader_typed hcounted _
    case isFalse =>
      split
      case h_1 => exact hcounted
      case h_2 => exact loadFlag_typed hcounted _ _

private theorem lines_typed {atof : Text → Float} {st : Loading} (h : st.toHand.Typed)
    (lines : List Text) : (lines.foldl (Loading.loadLine atof) st).toHand.Typed := by
  induction lines generalizing st with
  | nil => exact h
  | cons line lines ih => exact ih (loadLine_typed h line)

/-- The nodes of a loaded configuration have the types of their flags. -/
structure Exp.Typed (e : Exp) : Prop where
  conf : ∀ posid m, e.m_conf.lookup posid = some m → MapTyped m
  default : MapTyped e.m_default

private theorem finish_typed {h : Hand} (hh : h.Typed) : h.finish.Typed := by
  unfold Hand.finish
  split
  case isTrue => exact ⟨hh.conf, hh.hand⟩
  case isFalse =>
    split
    case isTrue => exact ⟨conf_insertNew hh.conf hh.hand, hh.default⟩
    case isFalse => exact ⟨hh.conf, hh.default⟩

private theorem new_typed (atof : Text → Float) (filename : String) (ifs : Option Text) :
    (Exp.new atof filename ifs).Typed := by
  have hconf : ∀ posid m, (∅ : Map Text (Map Text ExpNode)).lookup posid = some m →
      MapTyped m := by
    intro posid m h
    rw [AList.lookup_empty] at h
    cases h
  cases ifs with
  | none => exact ⟨hconf, MapTyped.empty⟩
  | some text => exact finish_typed (lines_typed ⟨hconf, MapTyped.empty, MapTyped.empty⟩ _)

namespace Exp

variable {e : Exp} {posid flag : Text} {node : ExpNode}

theorem findNode_typed (he : e.Typed) (h : e.findNode posid flag = some node) :
    node.Typed flag := by
  rw [findNode, Option.or_eq_some_iff, Option.bind_eq_some_iff] at h
  rcases h with ⟨m, hm, hnode⟩ | ⟨_, hnode⟩
  · exact he.conf posid m hm flag node hnode
  · exact he.default flag node hnode

/-- A flag of the section is found in the copy of its map. -/
theorem getExpNode_inSection (h : e.InSection posid flag) :
    e.getExpNode posid flag = .returned (.flag2value flag) := by
  obtain ⟨node, hnode⟩ := Option.isSome_iff_exists.mp h
  obtain ⟨m, hm, hflag⟩ := Option.bind_eq_some_iff.mp hnode
  simp only [getExpNode, hm, hflag]

private theorem getExpNode_default (h : ¬ e.InSection posid flag) :
    e.getExpNode posid flag = e.getDefault flag := by
  rw [InSection, Bool.not_eq_true, Option.isSome_eq_false_iff, Option.isNone_iff_eq_none] at h
  unfold getExpNode
  cases hm : e.m_conf.lookup posid with
  | none => rfl
  | some m =>
      rw [hm, Option.bind_some] at h
      simp only [h]

/-- `judgeExpNode` reads a node that is gone. -/
theorem judgeExpNode_inSection (h : e.InSection (lower posid) (lower flag)) (ft : FlagType) :
    e.judgeExpNode posid flag ft = .undefined := by
  rw [judgeExpNode, getExpNode_inSection h]
  rfl

private theorem judgeExpNode_default (he : e.Typed) (h : ¬ e.InSection (lower posid) (lower flag))
    (hfind : e.findNode (lower posid) (lower flag) = some node) (ft : FlagType) :
    e.judgeExpNode posid flag ft =
      if getType (lower flag) = ft then .returned node else .exited (-2) := by
  have htyped := findNode_typed he hfind
  have hdefault : e.m_default.lookup (lower flag) = some node := by
    rw [InSection, Bool.not_eq_true, Option.isSome_eq_false_iff, Option.isNone_iff_eq_none] at h
    rwa [findNode, h, Option.none_or] at hfind
  rw [judgeExpNode, getExpNode_default h, getDefault, hdefault]
  simp only [Outcome.bind, read, hdefault, htyped.1, ne_eq, not_true_eq_false, false_or]
  by_cases hft : getType (lower flag) = ft
  · rw [if_neg (not_not.mpr hft), if_pos hft]
  · rw [if_pos hft, if_neg hft]

/-- What is asked of a query that finds a node: it is rejected only when the type
asked for is not that of the name, and the getter of the type reads the member
that was written. -/
def Answers (e : Exp) (posid flag : Text) : Prop :=
  ∀ node, e.findNode (lower posid) (lower flag) = some node →
    (∀ ft, e.judgeExpNode posid flag ft =
      if getType (lower flag) = ft then .returned node else .exited (-2)) ∧
    (∀ value, node.flagvalue = .bl value → e.getBoolValue posid flag = .returned value) ∧
    (∀ value, node.flagvalue = .it value → e.getIntValue posid flag = .returned value) ∧
    (∀ value, node.flagvalue = .ft value → e.getFloatValue posid flag = .returned value) ∧
    (∀ value, node.flagvalue = .p value → e.getStringValue posid flag = .returned value)

private theorem answers_iff (he : e.Typed) (posid flag : Text) :
    e.Answers posid flag ↔ ¬ e.InSection (lower posid) (lower flag) := by
  constructor
  · intro hanswers hsection
    obtain ⟨node, hnode⟩ := Option.isSome_iff_exists.mp hsection
    have hfind : e.findNode (lower posid) (lower flag) = some node := by
      rw [findNode, hnode, Option.some_or]
    have hjudge := (hanswers node hfind).1 (getType (lower flag))
    rw [judgeExpNode_inSection hsection, if_pos rfl] at hjudge
    cases hjudge
  · intro hsection node hfind
    have hjudge := judgeExpNode_default he hsection hfind
    have hmember := (findNode_typed he hfind).2
    have hreturned : ∀ written, node.flagvalue = written →
        e.judgeExpNode posid flag written.type = .returned node := by
      rintro _ rfl
      rw [hjudge, if_pos hmember.symm]
    refine ⟨hjudge, ?_, ?_, ?_, ?_⟩
    · intro value hvalue
      have hbool : e.judgeExpNode posid flag .BOOL = .returned node := hreturned _ hvalue
      simp only [getBoolValue, hbool, Outcome.bind, hvalue]
    · intro value hvalue
      have hint : e.judgeExpNode posid flag .INT = .returned node := hreturned _ hvalue
      simp only [getIntValue, hint, Outcome.bind, hvalue]
    · intro value hvalue
      have hfloat : e.judgeExpNode posid flag .FLOAT = .returned node := hreturned _ hvalue
      simp only [getFloatValue, hfloat, Outcome.bind, hvalue]
    · intro value hvalue
      have hstring : e.judgeExpNode posid flag .STRING = .returned node := hreturned _ hvalue
      simp only [getStringValue, hstring, Outcome.bind, hvalue]

end Exp

/-- Whatever the configuration text, the node found for a query has the type of the
flag's name and the member of that type; the query is answered from it exactly when
the flag is not found in the map of the section. -/
theorem lookup_answers_iff (atof : Text → Float) (filename : String) (ifs : Option Text)
    (posid flag : Text) :
    (∀ node, (Exp.new atof filename ifs).findNode (lower posid) (lower flag) = some node →
      node.Typed (lower flag)) ∧
    ((Exp.new atof filename ifs).Answers posid flag ↔
      ¬ (Exp.new atof filename ifs).InSection (lower posid) (lower flag)) := by
  have htyped := new_typed atof filename ifs
  exact ⟨fun node hnode => Exp.findNode_typed htyped hnode, Exp.answers_iff htyped posid flag⟩

/-- The text of a file with one section of one flag. -/
def oneFlag : Text := "[0_5]\nflag_int=7\n".toList

/-- A flag of a section: `judgeExpNode` reads its node after it was destroyed. -/
theorem judge_reads_destroyed_node :
    (∃ node, (Exp.new (fun _ => 0) "exp.conf" (some oneFlag)).findNode
      (lower "0_5".toList) (lower "flag_int".toList) = some node) ∧
    getType (lower "flag_int".toList) = .INT ∧
    (Exp.new (fun _ => 0) "exp.conf" (some oneFlag)).judgeExpNode
      "0_5".toList "flag_int".toList .INT = .undefined ∧
    ¬ (Exp.new (fun _ => 0) "exp.conf" (some oneFlag)).Answers
      "0_5".toList "flag_int".toList := by
  have hsection : (Exp.new (fun _ => 0) "exp.conf" (some oneFlag)).InSection
      (lower "0_5".toList) (lower "flag_int".toList) := by decide
  have hjudge := Exp.judgeExpNode_inSection hsection .INT
  obtain ⟨node, hnode⟩ := Option.isSome_iff_exists.mp hsection
  have hfind : (Exp.new (fun _ => 0) "exp.conf" (some oneFlag)).findNode
      (lower "0_5".toList) (lower "flag_int".toList) = some node := by
    rw [Exp.findNode, hnode, Option.some_or]
  refine ⟨⟨node, hfind⟩, by decide, hjudge, ?_⟩
  intro hanswers
  have hreturned := (hanswers node hfind).1 .INT
  have htype : getType (lower "flag_int".toList) = .INT := by decide
  rw [hjudge, if_pos htype] at hreturned
  cases hreturned

end LearningCpp.ExpConf
