import LearningCpp.ExpConf.Load

/-!
What a configuration file says, read line by line, and the file as a list of
sections. Letter case does not matter in it. The loader is then followed one
line at a time.
-/

namespace LearningCpp.ExpConf

open Library

/-- `flag = value`, both without the blanks around them. -/
structure Flag where
  name : Text
  value : Text
  deriving DecidableEq, Repr

inductive Line where
  | skip
  | header (name : Text)
  | flag (f : Flag)
  deriving DecidableEq, Repr

/-- A decimal number in the range of `int`. -/
def isInteger (value : Text) : Bool :=
  let negative := value.head? = some '-'
  let number := if negative ∨ value.head? = some '+' then value.drop 1 else value
  !number.isEmpty && number.all Char.isDigit &&
    digits number < (if negative then 2 ^ 31 + 1 else 2 ^ 31)

def wellTyped (flag value : Text) : Bool :=
  match getType flag with
  | .BOOL => value = "true".toList || value = "false".toList
  | .INT => isInteger value
  | .FLOAT => true
  | .STRING => true
  | .NONE => false

/-- What a line of a configuration file says: nothing (a blank line or one that
starts with '#'), a section header with a name of two or more characters that
are not blank, or a flag with a value of its type. -/
def readLine (line : Text) : Option Line :=
  let tmp := lower line
  let name := (tmp.drop 1).take (tmp.length - 2)
  if tmp.all isBalnk then some .skip
  else if tmp.head? = some '#' then some .skip
  else if tmp.head? = some '[' ∧ tmp.getLast? = some ']' then
    if 2 ≤ (name.filter (fun c => !isBalnk c)).length then some (.header (strip isBalnk name))
    else none
  else
    match tmp.findIdx? (fun c => c = '=') with
    | none => none
    | some pos =>
        let f : Flag := ⟨strip isBalnk (tmp.take pos), strip isBalnk (tmp.drop (pos + 1))⟩
        if wellTyped f.name f.value then some (.flag f) else none

theorem readLine_header_ne_nil {line name : Text} (h : readLine line = some (.header name)) :
    name ≠ [] := by
  unfold readLine at h
  simp only at h
  split at h
  next => simp at h
  split at h
  next => simp at h
  split at h
  next =>
    split at h
    next hlong =>
      cases h
      rw [← filter_strip] at hlong
      intro hnil
      rw [hnil] at hlong
      exact absurd hlong (by decide)
    next => simp at h
  next =>
    split at h
    next => simp at h
    next =>
      split at h
      next => simp at h
      next => simp at h

/-- The value that a text means for its type. -/
def meaning (atof : Text → Float) : FlagType → Text → Value
  | .BOOL, value => .bl (value = "true".toList)
  | .INT, value => .it (atoi value)
  | .FLOAT, value => .ft (atof value).toFloat32
  | .STRING, value => .chars value
  | .NONE, value => .chars value

/-- The member that a text is stored in. A string is pointed to, in the variable
of the round, the only string of the open scopes. -/
def member (atof : Text → Float) : FlagType → Text → FlagValue
  | .BOOL, value => .bl (value = "true".toList)
  | .INT, value => .it (atoi value)
  | .FLOAT, value => .ft (atof value).toFloat32
  | .STRING, _ => .p 0
  | .NONE, _ => .p 0

/-- The value that a text leaves once its round is over: none for a string. -/
def lasting (atof : Text → Float) (type : FlagType) (value : Text) : Option Value :=
  if type = .STRING ∨ type = .NONE then none else some (meaning atof type value)

private theorem member_read (atof : Text → Float) (type : FlagType) (value : Text) :
    (member atof type value).read [] = lasting atof type value := by
  cases type with
  | NONE => rfl
  | BOOL => rfl
  | INT => rfl
  | FLOAT => rfl
  | STRING => rfl

namespace Flag

/-- The type of a flag and its value, as the file has them. -/
def written (atof : Text → Float) (f : Flag) : FlagType × Option Value :=
  (getType f.name, some (meaning atof (getType f.name) f.value))

/-- The text of the value as `trim` leaves it: a single character is lost. -/
def keptValue (f : Flag) : Text := if f.value.length = 1 then [] else f.value

def kept (atof : Text → Float) (f : Flag) : ExpNode :=
  ⟨getType f.name, member atof (getType f.name) f.keptValue⟩

/-- What is left of a flag after its round. -/
def seen (atof : Text → Float) (f : Flag) : FlagType × Option Value :=
  (getType f.name, lasting atof (getType f.name) f.keptValue)

theorem kept_read (atof : Text → Float) (f : Flag) : (f.kept atof).read [] = f.seen atof := by
  rw [ExpNode.read, kept, member_read, seen]

end Flag

/-- A round of the loop, by what its line says. -/
def Hand.step (atof : Text → Float) (h : Hand) : Line → Hand
  | .skip => h
  | .header name =>
      if h.posid = defaultName then
        {h with m_default := h.flag2value, flag2value := ∅, posid := []}
      else if h.posid ≠ [] then
        {h with
          m_conf := insertNew h.m_conf h.posid h.flag2value
          flag2value := ∅
          posid := name}
      else {h with posid := name}
  | .flag f => {h with flag2value := insertNew h.flag2value f.name (f.kept atof)}

private theorem getType_length {flag : Text} (h : getType flag ≠ .NONE) : 2 ≤ flag.length := by
  unfold getType at h
  split at h
  next henable => exact (by decide : 2 ≤ "enable".toList.length).trans (length_le_of_found henable)
  split at h
  next hint => exact (by decide : 2 ≤ "int".toList.length).trans (length_le_of_found hint)
  split at h
  next hfloat => exact (by decide : 2 ≤ "float".toList.length).trans (length_le_of_found hfloat)
  split at h
  next hstring => exact (by decide : 2 ≤ "string".toList.length).trans (length_le_of_found hstring)
  next => exact (h rfl).elim

/-- A flag of its type gets a node, of the value that `trim` leaves. -/
theorem parseNode_eq (atof : Text → Float) (i : Int32) (f : Flag)
    (h : wellTyped f.name f.value) :
    parseNode atof i f.name f.keptValue 0 = .ok (f.kept atof) := by
  rw [parseNode, Flag.kept]
  by_cases henable : found "enable".toList f.name
  · have htype : getType f.name = .BOOL := by rw [getType, if_pos henable]
    rw [wellTyped, htype] at h
    rw [if_pos henable, htype, member]
    rcases (Bool.or_eq_true _ _).mp h with htrue | hfalse
    · have hvalue : f.keptValue = "true".toList := by
        rw [Flag.keptValue, of_decide_eq_true htrue]
        rfl
      rw [hvalue, if_pos rfl]
      rfl
    · have hvalue : f.keptValue = "false".toList := by
        rw [Flag.keptValue, of_decide_eq_true hfalse]
        rfl
      rw [hvalue, if_neg (by decide), if_pos rfl]
      rfl
  rw [if_neg henable]
  by_cases hint : found "int".toList f.name
  · have htype : getType f.name = .INT := by rw [getType, if_neg henable, if_pos hint]
    rw [if_pos hint, htype, member]
  rw [if_neg hint]
  by_cases hfloat : found "float".toList f.name
  · have htype : getType f.name = .FLOAT := by
      rw [getType, if_neg henable, if_neg hint, if_pos hfloat]
    rw [if_pos hfloat, htype, member]
  rw [if_neg hfloat]
  by_cases hstring : found "string".toList f.name
  · have htype : getType f.name = .STRING := by
      rw [getType, if_neg henable, if_neg hint, if_neg hfloat, if_pos hstring]
    rw [if_pos hstring, htype, member]
  · have htype : getType f.name = .NONE := by
      rw [getType, if_neg henable, if_neg hint, if_neg hfloat, if_neg hstring]
    rw [wellTyped, htype] at h
    exact Bool.noConfusion h

private theorem loadHeader_toHand (atof : Text → Float) (st : Loading) (tmp : Text)
    (h : 2 ≤ (((tmp.drop 1).take (tmp.length - 2)).filter (fun c => !isBalnk c)).length) :
    (st.loadHeader tmp).toHand =
      st.toHand.step atof (.header (strip isBalnk ((tmp.drop 1).take (tmp.length - 2)))) := by
  have hname : trim ((tmp.drop 1).take (tmp.length - 2)) =
      strip isBalnk ((tmp.drop 1).take (tmp.length - 2)) := by
    apply trim_of_two_le
    rw [← filter_strip] at h
    exact h.trans (List.length_filter_le _ _)
  rw [Loading.loadHeader, Hand.step, hname]
  by_cases hdefault : st.posid = defaultName
  · rw [if_pos hdefault, if_pos hdefault]
  · rw [if_neg hdefault, if_neg hdefault]
    by_cases hopen : st.posid ≠ []
    · rw [if_pos hopen]
      simp only [if_pos hopen]
    · rw [if_neg hopen]
      simp only [if_neg hopen]

private theorem loadFlag_toHand (atof : Text → Float) {st : Loading} (hbuffers : st.buffers = [])
    (flag value : Text) (h : wellTyped (strip isBalnk flag) (strip isBalnk value)) :
    (st.loadFlag atof (trim flag) (trim value)).toHand =
      st.toHand.step atof (.flag ⟨strip isBalnk flag, strip isBalnk value⟩) := by
  have htype : getType (strip isBalnk flag) ≠ .NONE := by
    intro hnone
    rw [wellTyped, hnone] at h
    exact Bool.noConfusion h
  have hflag : trim flag = strip isBalnk flag := trim_of_two_le (getType_length htype)
  have hvalue : trim value = Flag.keptValue ⟨strip isBalnk flag, strip isBalnk value⟩ :=
    trim_eq value
  have hnode := parseNode_eq atof st.i ⟨strip isBalnk flag, strip isBalnk value⟩ h
  rw [Loading.loadFlag, hflag, hvalue, hbuffers, List.length_nil]
  simp only [hnode]
  rfl

private theorem not_header_of_blank {tmp : Text} (h : tmp.all isBalnk) : tmp.head? ≠ some '[' := by
  intro hhead
  have hblank := List.all_eq_true.mp h _ (List.mem_of_mem_head? hhead)
  exact absurd hblank (by decide)

private theorem findIdx_of_blank {tmp : Text} (h : tmp.all isBalnk) :
    tmp.findIdx? (fun c => c = '=') = none := by
  rw [List.findIdx?_eq_none_iff]
  intro c hc
  apply decide_eq_false
  rintro rfl
  exact absurd (List.all_eq_true.mp h _ hc) (by decide)

private theorem lower_ne_nil_of_head {line : Text} {c : Char} (h : (lower line).head? = some c) :
    (lower line).length ≠ 0 := by
  intro hzero
  rw [List.eq_nil_of_length_eq_zero hzero] at h
  simp at h

/-- Blank lines and lines that start with '#' change nothing. -/
theorem loadLine_of_skip (atof : Text → Float) (st : Loading) {line : Text}
    (h : (lower line).all isBalnk ∨ (lower line).head? = some '#') :
    (st.loadLine atof line).toHand = st.toHand := by
  unfold Loading.loadLine
  rcases h with hblank | hcomment
  · simp only
    split
    next => rfl
    next =>
      rw [if_neg (fun hheader => not_header_of_blank hblank hheader.1), findIdx_of_blank hblank]
      rfl
  · simp only [if_pos (Or.inr hcomment)]

private theorem loadLine_of_header (atof : Text → Float) (st : Loading) {line : Text}
    (h : (lower line).head? = some '[' ∧ (lower line).getLast? = some ']') :
    st.loadLine atof line = Loading.loadHeader {st with i := st.i + 1} (lower line) := by
  have hplain : ¬ ((lower line).length = 0 ∨ (lower line).head? = some '#') := by
    rw [h.1]
    exact not_or.mpr ⟨lower_ne_nil_of_head h.1, by decide⟩
  unfold Loading.loadLine
  simp only [if_neg hplain, if_pos h]

private theorem loadLine_of_flag (atof : Text → Float) (st : Loading) {line : Text} {pos : Nat}
    (hcomment : ¬ (lower line).head? = some '#')
    (hheader : ¬ ((lower line).head? = some '[' ∧ (lower line).getLast? = some ']'))
    (hpos : (lower line).findIdx? (fun c => c = '=') = some pos) :
    st.loadLine atof line = Loading.loadFlag atof {st with i := st.i + 1}
      (trim ((lower line).take pos)) (trim ((lower line).drop (pos + 1))) := by
  have hlong : (lower line).length ≠ 0 := by
    intro hzero
    rw [List.eq_nil_of_length_eq_zero hzero] at hpos
    simp at hpos
  unfold Loading.loadLine
  simp only [if_neg (not_or.mpr ⟨hlong, hcomment⟩), if_neg hheader, hpos]

/-- On a line that can be read the loop does what the line says. -/
theorem loadLine_toHand (atof : Text → Float) {st : Loading} (hbuffers : st.buffers = [])
    {line : Text} {l : Line} (h : readLine line = some l) :
    (st.loadLine atof line).toHand = st.toHand.step atof l := by
  unfold readLine at h
  simp only at h
  split at h
  next hblank =>
    cases h
    exact loadLine_of_skip atof st (Or.inl hblank)
  split at h
  next hcomment =>
    cases h
    exact loadLine_of_skip atof st (Or.inr hcomment)
  split at h
  next hheader =>
    split at h
    next hname =>
      cases h
      rw [loadLine_of_header atof st hheader]
      exact loadHeader_toHand atof _ _ hname
    next => simp at h
  next hcomment hheader =>
    split at h
    next => simp at h
    next pos hpos =>
      split at h
      next htyped =>
        cases h
        rw [loadLine_of_flag atof st hcomment hheader hpos]
        have hcounted : ({st with i := st.i + 1} : Loading).buffers = [] := hbuffers
        exact loadFlag_toHand atof hcounted _ _ htyped
      next => simp at h

end LearningCpp.ExpConf
