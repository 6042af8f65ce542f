import LearningCpp.Chat.Session

/-!
How `boost/3.chat_client.cpp` makes a message of a line of its input, with
`encode_header` of `3.chat_message.hpp`. What it makes is decoded as it was meant.
-/

namespace LearningCpp.Chat

/-- `std::sprintf(header, "%4d", n)`, without the NUL. -/
def formatLength (n : Nat) : List UInt8 :=
  let digits := (Nat.toDigits 10 n).map Char.toUInt8
  List.replicate (4 - digits.length) 32 ++ digits

/-- `encode_header()`: what it copies to the front of `data_`. -/
def encode_header (body_length : Nat) : List UInt8 := (formatLength body_length).take header_length

/-- `strlen`, and what is in front of the NUL. -/
def cText (line : List UInt8) : List UInt8 := line.takeWhile (· ≠ 0)

variable {n : Nat} {c : Char}

private theorem isSpace_of_isDigit (h : c.isDigit) : ExpConf.isSpace c = false := by
  by_contra hspace
  simp only [ExpConf.isSpace, Bool.or_eq_true, decide_eq_true_eq, Bool.not_eq_false] at hspace
  rcases hspace with ((((rfl | rfl) | rfl) | rfl) | rfl) | rfl <;> exact absurd h (by decide)

/-- A digit goes through a byte unharmed. -/
theorem ofNat_toUInt8_of_isDigit (h : c.isDigit) :
    Char.ofNat c.toUInt8.toNat = c ∧ c.toUInt8 ≠ 0 := by
  have hrange : 48 ≤ c.toNat ∧ c.toNat ≤ 57 := by
    simpa [Char.isDigit, UInt32.le_iff_toNat_le] using h
  have hbyte : c.toUInt8.toNat = c.toNat := by
    rw [Char.toUInt8, UInt32.toNat_toUInt8]
    exact Nat.mod_eq_of_lt (by have := hrange.2; simp only [Char.toNat] at this; omega)
  constructor
  · rw [hbyte, Char.ofNat_toNat]
  · intro hzero
    rw [hzero] at hbyte
    have hnot : (0 : UInt8).toNat = 0 := rfl
    omega

theorem takeWhile_formatLength (n : Nat) : (formatLength n).takeWhile (· ≠ 0) = formatLength n := by
  rw [List.takeWhile_eq_self_iff]
  intro b hb
  rcases List.mem_append.mp hb with hblank | hdigit
  · rw [List.eq_of_mem_replicate hblank]
    decide
  · obtain ⟨c, hc, rfl⟩ := List.mem_map.mp hdigit
    have hdigit := Nat.isDigit_of_mem_toDigits (by decide) (by decide) hc
    simpa using (ofNat_toUInt8_of_isDigit hdigit).2

/-- The text that `atoi` reads: blanks, and the digits. -/
theorem map_formatLength (n : Nat) :
    (formatLength n).map (fun b => Char.ofNat b.toNat) =
      List.replicate (4 - (Nat.toDigits 10 n).length) ' ' ++ Nat.toDigits 10 n := by
  have hdigits : ((Nat.toDigits 10 n).map Char.toUInt8).map (fun b => Char.ofNat b.toNat) =
      Nat.toDigits 10 n := by
    rw [List.map_map]
    conv_rhs => rw [← List.map_id (Nat.toDigits 10 n)]
    apply List.map_congr_left
    intro c hc
    have hdigit := Nat.isDigit_of_mem_toDigits (by decide) (by decide) hc
    exact (ofNat_toUInt8_of_isDigit hdigit).1
  simp only [formatLength, List.map_append, List.map_replicate, List.length_map, hdigits]
  rfl

/-- `atoi` reads a padded number back. -/
theorem atoi_padded (k n : Nat) :
    ExpConf.atoi (List.replicate k ' ' ++ Nat.toDigits 10 n) = Int32.ofInt n := by
  have hdigit : ∀ c ∈ Nat.toDigits 10 n, c.isDigit := by
    intro c hc
    exact Nat.isDigit_of_mem_toDigits (by decide) (by decide) hc
  have hall : (Nat.toDigits 10 n).takeWhile Char.isDigit = Nat.toDigits 10 n :=
    List.takeWhile_eq_self_iff.mpr hdigit
  have hvalue : ExpConf.digits (Nat.toDigits 10 n) = n := by
    rw [ExpConf.digits, ← Nat.ofDigitChars_eq_foldl, Nat.ofDigitChars_ten_toDigits]
  obtain ⟨c, cs, hcons⟩ := List.exists_cons_of_ne_nil (@Nat.toDigits_ne_nil n 10)
  have hfirst : c.isDigit := hdigit c (hcons ▸ List.mem_cons_self)
  have hminus : c ≠ '-' := by
    rintro rfl
    exact absurd hfirst (by decide)
  have hplus : c ≠ '+' := by
    rintro rfl
    exact absurd hfirst (by decide)
  have hskip : (List.replicate k ' ' ++ Nat.toDigits 10 n).dropWhile ExpConf.isSpace =
      Nat.toDigits 10 n := by
    rw [List.dropWhile_append_of_pos, hcons, List.dropWhile_cons_of_neg]
    · simp [isSpace_of_isDigit hfirst]
    · intro b hb
      rw [List.eq_of_mem_replicate hb]
      decide
  rw [ExpConf.atoi, hskip, hcons]
  simp only [if_neg hminus, if_neg hplus]
  rw [← hcons, hall, hvalue]

theorem length_formatLength (h : n < 10 ^ 4) : (formatLength n).length = header_length := by
  have hlength : (Nat.toDigits 10 n).length ≤ 4 :=
    (Nat.length_toDigits_le_iff (by decide) (by decide)).mpr h
  simp only [formatLength, List.length_append, List.length_replicate, List.length_map,
    header_length]
  omega

theorem encode_header_eq (h : n < 10 ^ 4) : encode_header n = formatLength n := by
  rw [encode_header, ← length_formatLength h, List.take_length]

/-- A length that a message can have is decoded as it was encoded. -/
theorem body_length_encode_header (h : n ≤ max_body_length) :
    body_length (encode_header n) = n := by
  have hsmall : n < 10 ^ 4 := lt_of_le_of_lt h (by decide)
  have hint : n < 2 ^ 31 := lt_of_le_of_lt h (by decide)
  rw [encode_header_eq hsmall, body_length, takeWhile_formatLength, map_formatLength, atoi_padded]
  exact intToSize_sizeToInt hint

/-- The header of a message of length `n`. -/
def Header.encoded (n : Nat) (h : n ≤ max_body_length) : Header where
  data := encode_header n
  body_length := n
  size := by
    have hsmall : n < 10 ^ 4 := lt_of_le_of_lt h (by decide)
    rw [encode_header_eq hsmall, length_formatLength hsmall]
  fits := h

private theorem decode_header_encode_header (h : n ≤ max_body_length) :
    decode_header (encode_header n) = some (Header.encoded n h) := by
  have hlength := body_length_encode_header h
  have hsize : (encode_header n).length = header_length := (Header.encoded n h).size
  rw [decode_header, dif_pos hsize, dif_pos (hlength.trans_le h)]
  simp only [hlength, Header.encoded]

/-- A line of the input, which `getline` with room for 513 characters has read whole. -/
structure Line where
  text : List UInt8
  fits : text.length ≤ max_body_length
  deriving DecidableEq

/-- The message that `main` makes of a line. -/
def Line.message (line : Line) : ChatMessage where
  header := Header.encoded (cText line.text).length
    ((List.takeWhile_sublist _).length_le.trans line.fits)
  body := cText line.text
  size := rfl

/-- A message with a header that is decoded as the one it has. -/
def ChatMessage.Encoded (msg : ChatMessage) : Prop :=
  decode_header msg.header.data = some msg.header

theorem Line.message_encoded (line : Line) : line.message.Encoded :=
  decode_header_encode_header _

theorem decode_header_data {data : List UInt8} {header : Header}
    (h : decode_header data = some header) : header.data = data := by
  unfold decode_header at h
  split at h
  case isTrue =>
    split at h
    case isTrue =>
      cases h
      rfl
    case isFalse => cases h
  case isFalse => cases h

end LearningCpp.Chat
