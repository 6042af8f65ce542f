import LearningCpp.Library.Pattern
import LearningCpp.Runtime.Extract

/-!
`ReadStringFromIniFile` of `ad_system/common/globalHelper.cpp`. It reads the file
with `fgets` line by line, first up to the header of the section and then up to the
item, and tells the lines apart with two expressions of Boost.Regex.
-/

namespace LearningCpp.IniFile

open Library

abbrev Text := List UInt8

/-- The bytes of a string literal. -/
def bytes (s : String) : Text := s.toList.map (fun c => UInt8.ofNat c.toNat)

/-- `tolower` in the C locale. -/
def tolower (c : UInt8) : UInt8 := if 65 ≤ c ∧ c ≤ 90 then c + 32 else c

/-- Where Boost's `$` sees the end of a line: a newline, a carriage return or a form feed. -/
def isSeparator (c : UInt8) : Bool := c = 10 || c = 13 || c = 12

/-- `$`: the end of the text, or before a separator that is not the second half of CRLF. -/
def endOfLine (last next : Option UInt8) : Bool :=
  match next with
  | none => true
  | some c => isSeparator c && !(last = some 13 && c = 10)

def blank (c : UInt8) : Bool := isspace c

def any (_ : UInt8) : Bool := true

/-- `[^\\s\\r\\=]` -/
def nameByte (c : UInt8) : Bool := !(blank c || c = 13 || c = 61)

/-- `[^\\r\\n]` -/
def valueByte (c : UInt8) : Bool := !(c = 13 || c = 10)

/-- `[\\r\\n\\s]` -/
def tailByte (c : UInt8) : Bool := c = 13 || c = 10 || blank c

/-- `\\s*\\[(.*?)\\]\\s*.*` -/
def reg : List (RegexPart UInt8) :=
  [.greedy blank, .one (· = 91), .lazy any, .one (· = 93), .greedy blank, .greedy any]

/-- `\\s*([^\\s\\r\\=]*?)\\s*\\=(\\s*)([^\\r\\n]*?)([\\r\\n\\s]*)$` -/
def regItem : List (RegexPart UInt8) :=
  [.greedy blank, .lazy nameByte, .greedy blank, .one (· = 61), .greedy blank, .lazy valueByte,
    .greedy tailByte, .assertion endOfLine]

/-- What the code uses of Boost. An expression gives the piece of the text that each
of its parts matches, the first match in Perl's order; `to_lower` is for the C locale. -/
structure Boost where
  to_lower : Text → Text
  regex_search : List (RegexPart UInt8) → Text → Option (List Text)
  regex_match : List (RegexPart UInt8) → Text → Option (List Text)
  to_lower_eq : ∀ text, to_lower text = text.map tolower
  regex_search_eq : ∀ parts text, regex_search parts text = search parts none text
  regex_match_eq : ∀ parts text, regex_match parts text = matchWhole parts text

/-- A Boost that does what is documented. -/
def documented : Boost where
  to_lower := List.map tolower
  regex_search := fun parts text => search parts none text
  regex_match := matchWhole
  to_lower_eq := fun _ => rfl
  regex_search_eq := fun _ _ => rfl
  regex_match_eq := fun _ _ => rfl

/-- The parameter `max_len`. With less than 3, `fgets` has no room for a byte. -/
structure MaxLen where
  size : Nat
  room : 2 < size
  fits : size < 2 ^ 31

/-- `uint max_len = 2048` -/
def MaxLen.default : MaxLen := ⟨2048, by decide, by decide⟩

/-- What the calls of `fgets` store, one after the other: a call stops behind a newline
and behind `size` bytes. `room` bytes more go into `line`. -/
def fgetsLines (size : Nat) : Nat → Text → Text → List Text
  | _, line, [] => if line = [] then [] else [line]
  | room, line, c :: file =>
      if c = 10 ∨ room ≤ 1 then (line ++ [c]) :: fgetsLines size size [] file
      else fgetsLines size (room - 1) (line ++ [c]) file

/-- `tmpLine = line;` stops at a NUL. -/
def cstr (line : Text) : Text := line.takeWhile (fun c => c ≠ 0)

variable (boost : Boost)

/-- The first loop: the lines after the one on which the section is found. -/
def findFrame (desFrameName : Text) : List Text → Option (List Text)
  | [] => none
  | line :: lines =>
      match boost.regex_search reg (cstr line) with
      | none => findFrame desFrameName lines
      | some what =>
          if desFrameName = boost.to_lower (what.getD 2 []) then some lines
          else findFrame desFrameName lines

/-- The second loop: the value, or nothing when the section ends before it. -/
def findItem (desItemName : Text) : List Text → Option Text
  | [] => none
  | line :: lines =>
      match boost.regex_match reg (cstr line) with
      | some _ => none
      | none =>
          match boost.regex_search regItem (cstr line) with
          | none => findItem desItemName lines
          | some what =>
              if boost.to_lower (what.getD 1 []) = desItemName ∧ 0 < (what.getD 5 []).length then
                some (what.getD 5 [])
              else findItem desItemName lines

/-- What a call returns and what it reports on `cerr`. -/
structure Read where
  rs : Text
  error : Option Text
  deriving DecidableEq, Repr

def errorText (iniFileName ref_desFrameName ref_desItemName : Text) : Text :=
  bytes "open file error: " ++ iniFileName ++ bytes " [frame]: " ++ ref_desFrameName ++
    bytes " [item]: " ++ ref_desItemName

/-- `file` is missing when `fopen` fails. -/
def ReadStringFromIniFile (file : Option Text) (iniFileName ref_desFrameName ref_desItemName : Text)
    (max_len : MaxLen) : Read :=
  match file with
  | none => { rs := [], error := some (errorText iniFileName ref_desFrameName ref_desItemName) }
  | some text =>
      let lines := fgetsLines (max_len.size - 2) (max_len.size - 2) [] text
      match (findFrame boost (boost.to_lower ref_desFrameName) lines).bind
          (findItem boost (boost.to_lower ref_desItemName)) with
      | some rs => { rs := rs, error := none }
      | none => { rs := [], error := some (errorText iniFileName ref_desFrameName ref_desItemName) }

variable {boost : Boost}

private theorem findItem_ne_nil {desItemName rs : Text} {lines : List Text}
    (h : findItem boost desItemName lines = some rs) : rs ≠ [] := by
  induction lines with
  | nil => cases h
  | cons line lines ih =>
      rw [findItem] at h
      split at h
      · cases h
      · split at h
        · exact ih h
        · split at h
          next hfound =>
            cases h
            exact List.length_pos_iff.mp hfound.2
          next => exact ih h

/-- A read is reported on `cerr` exactly when it returns nothing. -/
theorem error_isSome_iff (file : Option Text) (iniFileName frame item : Text) (max_len : MaxLen) :
    (ReadStringFromIniFile boost file iniFileName frame item max_len).error.isSome ↔
      (ReadStringFromIniFile boost file iniFileName frame item max_len).rs = [] := by
  cases file with
  | none => simp [ReadStringFromIniFile]
  | some text =>
      rw [ReadStringFromIniFile]
      split
      next rs hfound =>
        obtain ⟨lines, -, hitem⟩ := Option.bind_eq_some_iff.mp hfound
        simp [findItem_ne_nil hitem]
      next => simp

end LearningCpp.IniFile
