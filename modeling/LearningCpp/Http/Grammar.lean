import LearningCpp.Http.Parser

/-!
What a request is, as text: the request line, the header lines with the lines
that continue them, and an empty line. The classes of bytes are those of the
protocol, on unsigned bytes; the tests of the parser are compared with them.
-/

namespace LearningCpp.Http

def Control (b : Byte) : Prop := b < 32 ∨ b = 127

def tspecials : List Byte :=
  ['(', ')', '<', '>', '@', ',', ';', ':', '\\', '"', '/', '[', ']', '?', '=', '\x7b', '\x7d',
    ' ', '\t'].map chr

/-- A byte of a token: seven bits, neither a control character nor special. -/
def TokenByte (b : Byte) : Prop := b < 128 ∧ ¬ Control b ∧ b ∉ tspecials

def Blank (b : Byte) : Prop := b = chr ' ' ∨ b = chr '\t'

def UriByte (b : Byte) : Prop := ¬ Control b ∧ b ≠ chr ' '

def Digit (b : Byte) : Prop := chr '0' ≤ b ∧ b ≤ chr '9'

/-- A byte of a value. -/
def TextByte (b : Byte) : Prop := ¬ Control b

instance (b : Byte) : Decidable (Control b) := inferInstanceAs (Decidable (_ ∨ _))

instance (b : Byte) : Decidable (TextByte b) := inferInstanceAs (Decidable (¬ _))

instance (b : Byte) : Decidable (TokenByte b) := inferInstanceAs (Decidable (_ ∧ _))

instance (b : Byte) : Decidable (Blank b) := inferInstanceAs (Decidable (_ ∨ _))

instance (b : Byte) : Decidable (UriByte b) := inferInstanceAs (Decidable (_ ∧ _))

instance (b : Byte) : Decidable (Digit b) := inferInstanceAs (Decidable (_ ∧ _))

def crlf : List Byte := [chr '\r', chr '\n']

/-- A line that continues the value of the header line before it. -/
structure Continuation where
  blanks : List Byte
  text : List Byte
  blanks_ne_nil : blanks ≠ []
  blanks_blank : ∀ b ∈ blanks, Blank b
  text_head : ∀ b, text.head? = some b → ¬ Blank b
  text_textByte : ∀ b ∈ text, TextByte b

def Continuation.bytes (c : Continuation) : List Byte := c.blanks ++ c.text ++ crlf

/-- A header line, with the lines that continue it. -/
structure HeaderLine where
  name : List Byte
  value : List Byte
  continuations : List Continuation
  name_ne_nil : name ≠ []
  name_token : ∀ b ∈ name, TokenByte b
  value_textByte : ∀ b ∈ value, TextByte b

def HeaderLine.bytes (l : HeaderLine) : List Byte :=
  l.name ++ [chr ':', chr ' '] ++ l.value ++ crlf ++ l.continuations.flatMap Continuation.bytes

/-- The texts of the continuations follow the value, without their leading blanks. -/
def HeaderLine.header (l : HeaderLine) : Header :=
  {name := l.name, value := l.value ++ l.continuations.flatMap Continuation.text}

structure Sentence where
  method : List Byte
  uri : List Byte
  major : List Byte
  minor : List Byte
  lines : List HeaderLine
  method_ne_nil : method ≠ []
  method_token : ∀ b ∈ method, TokenByte b
  uri_uriByte : ∀ b ∈ uri, UriByte b
  major_ne_nil : major ≠ []
  major_digit : ∀ b ∈ major, Digit b
  minor_ne_nil : minor ≠ []
  minor_digit : ∀ b ∈ minor, Digit b

namespace Sentence

def bytes (s : Sentence) : List Byte :=
  s.method ++ [chr ' '] ++ s.uri ++ [chr ' '] ++ "HTTP/".toList.map chr ++ s.major ++ [chr '.'] ++
    s.minor ++ crlf ++ s.lines.flatMap HeaderLine.bytes ++ crlf

end Sentence

/-- The bytes are a whole request. -/
def IsSentence (input : List Byte) : Prop := ∃ s : Sentence, s.bytes = input

/-- The bytes can be completed to a request; a whole request is one already. -/
def CanComplete (input : List Byte) : Prop := ∃ more, IsSentence (input ++ more)

/-! The tests of the parser on a signed `char`. -/

theorem toInt_eq (b : Byte) :
    toInt b = if b.toNat < 128 then (b.toNat : Int) else b.toNat - 256 := by
  have hint : toInt b = b.toBitVec.toInt := rfl
  have hnat : b.toBitVec.toNat = b.toNat := rfl
  rw [hint, BitVec.toInt_eq_toNat_cond, hnat]
  split <;> split <;> omega

private theorem toInt_injective : Function.Injective toInt := by
  intro a b h
  rw [toInt_eq, toInt_eq] at h
  have ha := a.toNat_lt
  have hb := b.toNat_lt
  apply UInt8.toNat_inj.mp
  split at h <;> split at h <;> omega

private theorem is_char_iff (b : Byte) : is_char (toInt b) = true ↔ b < 128 := by
  have hb := b.toNat_lt
  rw [is_char, toInt_eq, UInt8.lt_iff_toNat_lt]
  simp only [Bool.and_eq_true, decide_eq_true_eq, UInt8.reduceToNat]
  split <;> omega

theorem is_ctl_iff (b : Byte) : is_ctl (toInt b) = true ↔ Control b := by
  have hb := b.toNat_lt
  rw [is_ctl, Control, toInt_eq, UInt8.lt_iff_toNat_lt, ← UInt8.toNat_inj]
  simp only [Bool.or_eq_true, Bool.and_eq_true, decide_eq_true_eq, UInt8.reduceToNat]
  split <;> omega

private theorem is_tspecial_iff (b : Byte) : is_tspecial (toInt b) = true ↔ b ∈ tspecials := by
  have hmap := List.mem_map_of_injective toInt_injective (a := b) (l := tspecials)
  rw [← hmap, is_tspecial, decide_eq_true_eq, tspecials, List.map_map]
  rfl

theorem token_test_iff (b : Byte) :
    (!is_char (toInt b) || is_ctl (toInt b) || is_tspecial (toInt b)) = true ↔ ¬ TokenByte b := by
  rw [Bool.or_eq_true, Bool.or_eq_true, Bool.not_eq_true', is_ctl_iff, is_tspecial_iff, TokenByte,
    ← is_char_iff, Bool.eq_false_iff]
  tauto

theorem is_digit_iff (b : Byte) : is_digit (toInt b) = true ↔ Digit b := by
  have hb := b.toNat_lt
  have hzero : toInt (chr '0') = 48 := by decide
  have hnine : toInt (chr '9') = 57 := by decide
  have hlow : (chr '0').toNat = 48 := by decide
  have hhigh : (chr '9').toNat = 57 := by decide
  rw [is_digit, Digit, hzero, hnine, toInt_eq, UInt8.le_iff_toNat_le, UInt8.le_iff_toNat_le, hlow,
    hhigh]
  simp only [Bool.and_eq_true, decide_eq_true_eq]
  split <;> omega

end LearningCpp.Http
