import LearningCpp.Http.Parser
import LearningCpp.Library.Escapes
import LearningCpp.Runtime.Extract

/-!
`request_handler::url_decode` of `ad_system/server3` and of `boost/http_server`.
The two characters after a `%` are read by a formatted extraction, which takes
more than two hexadecimal digits.
-/

namespace LearningCpp.Http

open Library

/-- `static_cast<char>(value)` -/
def toChar (value : Int32) : Byte := value.toInt8.toUInt8

/-- The loop of `url_decode`: what is left of `in`, and `out` so far. -/
def urlDecodeFrom : List Byte → List Byte → Bool × List Byte
  | [], out => (true, out)
  | c :: rest, out =>
      if c = chr '%' then
        match rest with
        | first :: second :: tail =>
            match extractHex [first, second] with
            | some value => urlDecodeFrom tail (out ++ [toChar value])
            | none => (false, out)
        | _ => (false, out)
      else if c = chr '+' then urlDecodeFrom rest (out ++ [chr ' '])
      else urlDecodeFrom rest (out ++ [c])

/-- What `url_decode(in, out)` returns, and what it leaves in `out`. -/
def urlDecode (text : List Byte) : Bool × List Byte := urlDecodeFrom text []

/-- The byte that two hexadecimal digits denote. -/
def byteOf (first second : Byte) : Byte :=
  UInt8.ofNat (16 * (hexValue first).getD 0 + (hexValue second).getD 0)

/-- The text with each escape replaced by its byte and each `+` by a space. -/
def decoded : List Byte → List Byte
  | [] => []
  | c :: rest =>
      if c = chr '%' then
        match rest with
        | first :: second :: tail => byteOf first second :: decoded tail
        | _ => []
      else if c = chr '+' then chr ' ' :: decoded rest
      else c :: decoded rest

/-- Every `%` is followed by two hexadecimal digits. -/
def WellFormed (text : List Byte) : Prop := Followed (chr '%') isxdigit text

def TwoDigits (first second : Byte) : Prop := isxdigit first ∧ isxdigit second

/-- The text is a sequence of ordinary bytes and escapes, every escape is two
digits or passes for a number, and not all of them are two digits. -/
def LaxlyEscaped (text : List Byte) : Prop :=
  ∃ ps : List (Piece (chr '%')), text = spell ps ∧
    (∀ p ∈ ps, p.Escapes (fun first second => TwoDigits first second ∨ Lax first second)) ∧
    ∃ p ∈ ps, ¬ p.Escapes TwoDigits

/-- The byte a piece of the text is decoded to. -/
def pieceValue : Piece (chr '%') → Option Byte
  | .plain c _ => some (if c = chr '+' then chr ' ' else c)
  | .escape first second => (extractHex [first, second]).map toChar

private theorem urlDecodeFrom_plain {c : Byte} (hc : c ≠ chr '%') (rest out : List Byte) :
    urlDecodeFrom (c :: rest) out =
      urlDecodeFrom rest (out ++ [if c = chr '+' then chr ' ' else c]) := by
  rw [urlDecodeFrom.eq_def]
  simp only [if_neg hc]
  split <;> rfl

theorem urlDecodeFrom_text (p : Piece (chr '%')) (rest out : List Byte) :
    urlDecodeFrom (p.text ++ rest) out =
      match pieceValue p with
      | some b => urlDecodeFrom rest (out ++ [b])
      | none => (false, out) := by
  cases p with
  | plain c hc => exact urlDecodeFrom_plain hc rest out
  | escape first second =>
      simp only [Piece.text, List.cons_append, List.nil_append, urlDecodeFrom, if_true, pieceValue]
      cases extractHex [first, second] <;> rfl

/-- Pieces that all have a value are decoded one after the other. -/
theorem urlDecodeFrom_spell {ps : List (Piece (chr '%'))}
    (hps : ∀ p ∈ ps, (pieceValue p).isSome) (rest out : List Byte) :
    urlDecodeFrom (spell ps ++ rest) out =
      urlDecodeFrom rest (out ++ ps.filterMap pieceValue) := by
  induction ps generalizing out with
  | nil => rw [spell_nil, List.nil_append, List.filterMap_nil, List.append_nil]
  | cons p ps ih =>
      obtain ⟨hp, hps⟩ := List.forall_mem_cons.mp hps
      obtain ⟨b, hb⟩ := Option.isSome_iff_exists.mp hp
      have hrest := ih hps (out ++ [b])
      rw [List.append_assoc, List.singleton_append] at hrest
      rw [spell_cons, List.append_assoc, urlDecodeFrom_text, List.filterMap_cons_some hb, ← hrest]
      simp only [hb]

/-- `url_decode` returns true when the text falls into pieces that have a value. -/
theorem urlDecodeFrom_eq_true_iff (text out : List Byte) :
    (urlDecodeFrom text out).1 = true ↔
      ∃ ps : List (Piece (chr '%')), text = spell ps ∧ ∀ p ∈ ps, (pieceValue p).isSome := by
  constructor
  · intro h
    obtain ⟨ps, tail, rfl, htail⟩ := exists_pieces (chr '%') text
    induction ps generalizing out with
    | nil =>
        obtain rfl | ⟨rest, rfl, hrest⟩ := htail
        · exact ⟨[], rfl, by simp⟩
        · match rest with
          | [] => cases h
          | [a] => cases h
          | a :: b :: rest =>
              simp only [List.length_cons] at hrest
              omega
    | cons p ps ih =>
        rw [spell_cons, List.append_assoc, urlDecodeFrom_text] at h
        cases hb : pieceValue p with
        | none => simp [hb] at h
        | some b =>
            simp only [hb] at h
            obtain ⟨qs, hqs, hvalues⟩ := ih _ h
            refine ⟨p :: qs, by rw [spell_cons, spell_cons, List.append_assoc, hqs], ?_⟩
            exact List.forall_mem_cons.mpr ⟨by rw [hb]; rfl, hvalues⟩
  · rintro ⟨ps, rfl, hps⟩
    have h := urlDecodeFrom_spell hps [] out
    rw [List.append_nil] at h
    rw [h]
    rfl

private theorem toChar_ofNat (n : Nat) : toChar (Int32.ofNat n) = UInt8.ofNat n := by
  rw [toChar, Int32.toInt8_ofNat']
  rfl

theorem pieceValue_digits {first second : Byte} (h : TwoDigits first second) :
    pieceValue (.escape first second) = some (byteOf first second) := by
  obtain ⟨x, hx⟩ := (isxdigit_iff first).mp h.1
  obtain ⟨y, hy⟩ := (isxdigit_iff second).mp h.2
  simp only [pieceValue, byteOf, extractHex_digits hx hy, hx, hy, Option.map_some, Option.getD_some,
    toChar_ofNat]

theorem pieceValue_isSome_iff (p : Piece (chr '%')) :
    (pieceValue p).isSome ↔
      p.Escapes (fun first second => TwoDigits first second ∨ Lax first second) := by
  cases p with
  | plain c hc => exact iff_of_true rfl trivial
  | escape first second =>
      rw [pieceValue, Option.isSome_map, extractHex_isSome_iff]
      rfl

theorem decoded_plain {c : Byte} (hc : c ≠ chr '%') (rest : List Byte) :
    decoded (c :: rest) = (if c = chr '+' then chr ' ' else c) :: decoded rest := by
  rw [decoded.eq_def]
  simp only [if_neg hc]
  split <;> rfl

private theorem decoded_escape (first second : Byte) (tail : List Byte) :
    decoded (chr '%' :: first :: second :: tail) = byteOf first second :: decoded tail := by
  simp only [decoded, if_true]

theorem decoded_spell {ps : List (Piece (chr '%'))} (hps : ∀ p ∈ ps, p.Escapes TwoDigits) :
    decoded (spell ps) = ps.filterMap pieceValue := by
  induction ps with
  | nil => rfl
  | cons p ps ih =>
      obtain ⟨hp, hrest⟩ := List.forall_mem_cons.mp hps
      cases p with
      | plain c hc =>
          have hvalue : pieceValue (.plain c hc) = some (if c = chr '+' then chr ' ' else c) := rfl
          rw [List.filterMap_cons_some hvalue, ← ih hrest]
          exact decoded_plain hc (spell ps)
      | escape first second =>
          rw [List.filterMap_cons_some (pieceValue_digits hp), ← ih hrest]
          exact decoded_escape first second (spell ps)

private theorem not_isxdigit_percent : ¬ isxdigit (chr '%') := by decide

theorem wellFormed_iff (text : List Byte) :
    WellFormed text ↔
      ∃ ps : List (Piece (chr '%')), text = spell ps ∧ ∀ p ∈ ps, p.Escapes TwoDigits :=
  followed_iff_spell not_isxdigit_percent text

theorem pieceValue_of_digits {ps : List (Piece (chr '%'))} (hps : ∀ p ∈ ps, p.Escapes TwoDigits) :
    ∀ p ∈ ps, (pieceValue p).isSome := by
  intro p hp
  rw [pieceValue_isSome_iff]
  have hdigits := hps p hp
  cases p with
  | plain c hc => trivial
  | escape first second => exact Or.inl hdigits

/-- A well-formed text is accepted, and `out` is the text it encodes. -/
theorem urlDecode_wellFormed {text : List Byte} (h : WellFormed text) :
    urlDecode text = (true, decoded text) := by
  obtain ⟨ps, rfl, hps⟩ := (wellFormed_iff text).mp h
  have hrun := urlDecodeFrom_spell (pieceValue_of_digits hps) [] []
  rw [List.append_nil, List.nil_append] at hrun
  rw [urlDecode, hrun, decoded_spell hps]
  rfl

/-- `url_decode` accepts the well-formed texts, and those that are laxly escaped. -/
theorem urlDecode_eq_true_iff (text : List Byte) :
    (urlDecode text).1 = true ↔ WellFormed text ∨ LaxlyEscaped text := by
  rw [urlDecode, urlDecodeFrom_eq_true_iff, wellFormed_iff]
  constructor
  · rintro ⟨ps, rfl, hps⟩
    by_cases hdigits : ∀ p ∈ ps, p.Escapes TwoDigits
    · exact Or.inl ⟨ps, rfl, hdigits⟩
    · push Not at hdigits
      refine Or.inr ⟨ps, rfl, ?_, hdigits⟩
      intro p hp
      exact (pieceValue_isSome_iff p).mp (hps p hp)
  · rintro (⟨ps, rfl, hps⟩ | ⟨ps, rfl, hps, _⟩)
    · exact ⟨ps, rfl, pieceValue_of_digits hps⟩
    · refine ⟨ps, rfl, ?_⟩
      intro p hp
      exact (pieceValue_isSome_iff p).mpr (hps p hp)

theorem not_wellFormed_of_lax {text : List Byte} (h : LaxlyEscaped text) : ¬ WellFormed text := by
  intro hwell
  obtain ⟨ps, rfl, _, p, hp, hlax⟩ := h
  obtain ⟨qs, hqs, hdigits⟩ := (wellFormed_iff _).mp hwell
  rw [spell_injective hqs] at hp
  exact hlax (hdigits p hp)

/-- The digit written for `d`. -/
def hexDigit (d : Nat) : Byte := UInt8.ofNat (if d < 10 then 48 + d else 55 + d)

/-- Every byte written as `%HH`. -/
def percentEncode (s : List Byte) : List Byte :=
  s.flatMap (fun b => [chr '%', hexDigit (b.toNat / 16), hexDigit (b.toNat % 16)])

theorem hexValue_hexDigit {d : Nat} (h : d < 16) : hexValue (hexDigit d) = some d := by
  revert h
  revert d
  decide

/-- The two digits written for a byte denote it. -/
theorem byteOf_hexDigit (b : Byte) :
    byteOf (hexDigit (b.toNat / 16)) (hexDigit (b.toNat % 16)) = b := by
  have hb := b.toNat_lt
  rw [byteOf, hexValue_hexDigit (by omega), hexValue_hexDigit (by omega)]
  rw [Option.getD_some, Option.getD_some, Nat.div_add_mod]
  exact UInt8.ofNat_toNat

private theorem percentEncode_eq (s : List Byte) :
    ∃ ps : List (Piece (chr '%')), percentEncode s = spell ps ∧
      (∀ p ∈ ps, p.Escapes TwoDigits) ∧ ps.filterMap pieceValue = s := by
  induction s with
  | nil => exact ⟨[], rfl, by simp, rfl⟩
  | cons b s ih =>
      obtain ⟨ps, htext, hps, hvalue⟩ := ih
      have hb := b.toNat_lt
      have hhigh := hexValue_hexDigit (d := b.toNat / 16) (by omega)
      have hlow := hexValue_hexDigit (d := b.toNat % 16) (by omega)
      have hdigits : TwoDigits (hexDigit (b.toNat / 16)) (hexDigit (b.toNat % 16)) :=
        ⟨(isxdigit_iff _).mpr ⟨_, hhigh⟩, (isxdigit_iff _).mpr ⟨_, hlow⟩⟩
      refine ⟨.escape (hexDigit (b.toNat / 16)) (hexDigit (b.toNat % 16)) :: ps, ?_, ?_, ?_⟩
      · rw [spell_cons, ← htext]
        rfl
      · exact List.forall_mem_cons.mpr ⟨hdigits, hps⟩
      · rw [List.filterMap_cons_some (pieceValue_digits hdigits), hvalue, byteOf_hexDigit]

theorem urlDecode_percentEncode (s : List Byte) : urlDecode (percentEncode s) = (true, s) := by
  obtain ⟨ps, htext, hps, hvalue⟩ := percentEncode_eq s
  rw [urlDecode_wellFormed ((wellFormed_iff _).mpr ⟨ps, htext, hps⟩), htext, decoded_spell hps,
    hvalue]

/-- The law of `url_decode` at one text: it returns true when the encoding is
valid, and then `out` is the text that was encoded. -/
def DecodesExactly (text : List Byte) : Prop :=
  ((urlDecode text).1 = true ↔ WellFormed text) ∧
    ((urlDecode text).1 = true → (urlDecode text).2 = decoded text)

/-- `url_decode` is exact at every text but those that are laxly escaped, and it decodes
what `percentEncode` writes. -/
theorem url_decode_exact_iff (text s : List Byte) :
    (DecodesExactly text ↔ ¬ LaxlyEscaped text) ∧ urlDecode (percentEncode s) = (true, s) := by
  refine ⟨?_, urlDecode_percentEncode s⟩
  rw [DecodesExactly, urlDecode_eq_true_iff]
  constructor
  · intro h hlax
    exact not_wellFormed_of_lax hlax (h.1.mp (Or.inr hlax))
  · intro hlax
    refine ⟨or_iff_left hlax, ?_⟩
    intro h
    rw [urlDecode_wellFormed (h.resolve_right hlax)]

/-- `%-1` is taken for the byte 255. -/
theorem url_decode_takes_sign :
    urlDecode [chr '%', chr '-', chr '1'] = (true, [255]) ∧
      ¬ DecodesExactly [chr '%', chr '-', chr '1'] := by
  refine ⟨rfl, ?_⟩
  intro h
  obtain ⟨first, second, after, hrest, hfirst, _⟩ := h.1.mp rfl [] _ rfl
  injection hrest with hfirstEq _
  subst hfirstEq
  exact absurd hfirst (by decide)

end LearningCpp.Http
