import LearningCpp.Library.Units

/-!
`_isUTF8_` of `ad_system/common/encode_convert.cpp` and of `CharConvertTool`:
the loop that counts the continuation bytes of the current unit.
-/

namespace LearningCpp.EncodeConvert

open Library

/-- A NUL-terminated string: the characters before the NUL. -/
structure CStr where
  chars : List UInt8
  nulFree : 0 ∉ chars

/-- The value that the tests of the lead byte give to `nBytes`. -/
def unitLength (chr : UInt8) : Option Nat :=
  if 0xFC ≤ chr ∧ chr ≤ 0xFD then some 6
  else if 0xF8 ≤ chr then some 5
  else if 0xF0 ≤ chr then some 4
  else if 0xE0 ≤ chr then some 3
  else if 0xC0 ≤ chr then some 2
  else none

/-- The body of the loop: `nBytes` after the byte, or none for `return false`. -/
def utf8Step (nBytes : Nat) (chr : UInt8) : Option Nat :=
  if nBytes = 0 ∧ 0x80 ≤ chr then
    match unitLength chr with
    | some n => some (n - 1)
    | none => none
  else if nBytes ≠ 0 then
    if chr &&& 0xC0 ≠ 0x80 then none else some (nBytes - 1)
  else some nBytes

/-- The loop from index `i` on: what is left of the string stands behind it.
None is an `int` that overflows at `++i`. -/
def isUTF8Loop (i nBytes : Nat) : List UInt8 → Option Bool
  | [] => if 0 < nBytes then some false else some true
  | chr :: rest =>
      match utf8Step nBytes chr with
      | none => some false
      | some nBytes' => if i + 1 < 2 ^ 31 then isUTF8Loop (i + 1) nBytes' rest else none

/-- `_isUTF8_(str)`, where none is the null pointer. -/
def isUTF8 : Option CStr → Option Bool
  | none => some false
  | some str => isUTF8Loop 0 0 str.chars

/-- ASCII bytes, and lead bytes 110xxxxx to 1111110x with continuation bytes 10xxxxxx. -/
def utf8 : UnitCode UInt8 where
  announces b :=
    if b >>> 7 = 0 then some 0
    else if b >>> 5 = 0b110 then some 1
    else if b >>> 4 = 0b1110 then some 2
    else if b >>> 3 = 0b11110 then some 3
    else if b >>> 2 = 0b111110 then some 4
    else if b >>> 1 = 0b1111110 then some 5
    else none
  follows b := b >>> 6 = 0b10

/-- The units that the tests of the code let through. -/
def tested : UnitCode UInt8 where
  announces b := if b < 0x80 then some 0 else (unitLength b).map (fun n => n - 1)
  follows b := b &&& 0xC0 = 0x80

/-- `_isUTF8_` returns, and returns true exactly for a text of UTF-8 units. -/
def Recognized (str : CStr) : Prop :=
  ∃ answer, isUTF8 (some str) = some answer ∧ (answer = true ↔ str.chars ∈ utf8.text)

/-- The bytes fall into units that the tests let through, and one of these begins
with 0xFE or 0xFF. -/
def LaxLead (w : List UInt8) : Prop :=
  w ∈ tested.text ∧ ∃ a b r, w = a ++ b :: r ∧ a ∈ tested.text ∧ 0xFE ≤ b

/-- The index stays in the range of an `int`: the string is short enough, or the
bytes up to index 2 ^ 31 - 1 begin no text. -/
def IndexFits (w : List UInt8) : Prop :=
  w.length < 2 ^ 31 ∨ ¬ ∃ more, w.take (2 ^ 31) ++ more ∈ tested.text

/-- What holds of the 256 bytes holds of every byte. -/
theorem forall_byte {P : UInt8 → Prop} (h : ∀ n : Fin 256, P (UInt8.ofFin n)) (b : UInt8) : P b :=
  h b.toFin

private theorem announces_eq (b : UInt8) :
    utf8.announces b = (tested.restrict (fun b => b < 0xFE)).announces b := by
  revert b
  apply forall_byte
  decide +kernel

private theorem follows_eq (b : UInt8) : utf8.follows b = tested.follows b := by
  revert b
  apply forall_byte
  decide +kernel

private theorem utf8_eq : utf8 = tested.restrict (fun b => b < 0xFE) :=
  calc utf8 = ⟨utf8.announces, utf8.follows⟩ := rfl
    _ = ⟨(tested.restrict (fun b => b < 0xFE)).announces, tested.follows⟩ := by
        rw [funext announces_eq, funext follows_eq]

/-- A text of UTF-8 units is one for the code in which 0xFE and 0xFF begin no unit. -/
theorem mem_utf8_iff (w : List UInt8) : w ∈ utf8.text ↔ w ∈ tested.text ∧ ¬ LaxLead w := by
  have hlead : tested.AtUnit (UnitCode.HeadOutside (fun b => b < 0xFE)) w ↔
      ∃ a b r, w = a ++ b :: r ∧ a ∈ tested.text ∧ 0xFE ≤ b := by
    simp only [UnitCode.atUnit_headOutside_iff, decide_eq_false_iff_not, UInt8.not_lt]
  rw [utf8_eq, UnitCode.mem_text_restrict_iff, hlead, LaxLead]
  constructor
  · rintro ⟨htext, hno⟩
    exact ⟨htext, fun h => hno h.2⟩
  · rintro ⟨htext, hno⟩
    exact ⟨htext, fun h => hno ⟨htext, h⟩⟩

private theorem lt_of_announces {b : UInt8} (h : utf8.announces b ≠ none) : b < 0xFE := by
  revert b
  apply forall_byte
  decide +kernel

private theorem lt_of_follows {b : UInt8} (h : utf8.follows b) : b < 0xFE := by
  revert b
  apply forall_byte
  decide +kernel

/-- No byte 0xFE or 0xFF stands in a text of UTF-8 units. -/
theorem lt_of_mem_utf8 {w : List UInt8} (h : w ∈ utf8.text) : ∀ b ∈ w, b < 0xFE := by
  obtain ⟨us, rfl, hus⟩ := Language.mem_kstar.mp h
  intro b hb
  obtain ⟨u, hu, hbu⟩ := List.mem_flatten.mp hb
  obtain ⟨lead, fs, rfl, hlead, hfs⟩ := hus u hu
  rcases List.mem_cons.mp hbu with rfl | hfollow
  · apply lt_of_announces
    intro hnone
    cases hlead.symm.trans hnone
  · exact lt_of_follows (hfs b hfollow)

theorem utf8Step_eq (nBytes : Nat) (chr : UInt8) : utf8Step nBytes chr = tested.step nBytes chr := by
  cases nBytes with
  | zero =>
      by_cases hascii : chr < 0x80
      · have hlead : ¬ 0x80 ≤ chr := UInt8.not_le.mpr hascii
        simp [utf8Step, UnitCode.step, tested, hascii, hlead]
      · have hlead : 0x80 ≤ chr := UInt8.not_lt.mp hascii
        cases hn : unitLength chr with
        | none => simp [utf8Step, UnitCode.step, tested, hascii, hlead, hn]
        | some n => simp [utf8Step, UnitCode.step, tested, hascii, hlead, hn]
  | succ nBytes =>
      by_cases hcont : chr &&& 0xC0 = 0x80
      · simp [utf8Step, UnitCode.step, tested, hcont]
      · simp [utf8Step, UnitCode.step, tested, hcont]

/-- A string that the index can reach the end of is accepted when nothing is owed there. -/
theorem isUTF8Loop_of_short {i : Nat} {w : List UInt8} (h : i + w.length < 2 ^ 31) (nBytes : Nat) :
    isUTF8Loop i nBytes w = some (tested.scan nBytes w == some 0) := by
  induction w generalizing i nBytes with
  | nil =>
      cases nBytes with
      | zero => rfl
      | succ nBytes => rfl
  | cons chr rest ih =>
      rw [List.length_cons] at h
      rw [isUTF8Loop, utf8Step_eq, UnitCode.scan_cons]
      cases hstep : tested.step nBytes chr with
      | none => rfl
      | some nBytes' =>
          simp only [Option.bind_some]
          rw [if_pos (by omega), ih (by omega)]

/-- A longer string is refused within the bytes that the index can reach, or the
index overflows behind them. -/
theorem isUTF8Loop_of_long {i : Nat} {w : List UInt8} (hi : i < 2 ^ 31)
    (h : 2 ^ 31 ≤ i + w.length) (nBytes : Nat) :
    isUTF8Loop i nBytes w =
      if (tested.scan nBytes (w.take (2 ^ 31 - i))).isSome then none else some false := by
  induction w generalizing i nBytes with
  | nil =>
      rw [List.length_nil] at h
      omega
  | cons chr rest ih =>
      rw [List.length_cons] at h
      obtain ⟨room, hroom⟩ : ∃ room, 2 ^ 31 - i = room + 1 := ⟨2 ^ 31 - i - 1, by omega⟩
      rw [isUTF8Loop, utf8Step_eq, hroom, List.take_succ_cons, UnitCode.scan_cons]
      cases hstep : tested.step nBytes chr with
      | none => rfl
      | some nBytes' =>
          simp only [Option.bind_some]
          by_cases hnext : i + 1 < 2 ^ 31
          · have hleft : 2 ^ 31 - (i + 1) = room := by omega
            rw [if_pos hnext, ih hnext (by omega), hleft]
          · obtain rfl : room = 0 := by omega
            rw [if_neg hnext, List.take_zero]
            rfl

private theorem isUTF8_of_short {str : CStr} (h : str.chars.length < 2 ^ 31) :
    isUTF8 (some str) = some true ∧ str.chars ∈ tested.text ∨
      isUTF8 (some str) = some false ∧ str.chars ∉ tested.text := by
  have hloop : isUTF8 (some str) = some (tested.scan 0 str.chars == some 0) :=
    isUTF8Loop_of_short (by omega) 0
  by_cases htext : str.chars ∈ tested.text
  · left
    rw [hloop, (UnitCode.scan_zero_iff _).mpr htext]
    exact ⟨rfl, htext⟩
  · right
    rw [hloop, beq_eq_false_iff_ne.mpr (mt (UnitCode.scan_zero_iff _).mp htext)]
    exact ⟨rfl, htext⟩

private theorem isUTF8_of_long {str : CStr} (h : 2 ^ 31 ≤ str.chars.length) :
    isUTF8 (some str) = none ∧ (∃ more, str.chars.take (2 ^ 31) ++ more ∈ tested.text) ∨
      isUTF8 (some str) = some false ∧ ¬ ∃ more, str.chars.take (2 ^ 31) ++ more ∈ tested.text := by
  have hloop := @isUTF8Loop_of_long 0 str.chars (by decide) (by omega) 0
  rw [Nat.sub_zero] at hloop
  have hcont : tested.follows 0x80 = true := by decide
  by_cases hsome : (tested.scan 0 (str.chars.take (2 ^ 31))).isSome
  · left
    rw [if_pos hsome] at hloop
    exact ⟨hloop, (UnitCode.scan_isSome_iff hcont _).mp hsome⟩
  · right
    rw [if_neg hsome] at hloop
    exact ⟨hloop, mt (UnitCode.scan_isSome_iff hcont _).mpr hsome⟩

/-- `_isUTF8_` recognizes UTF-8 units exactly on the strings that its index can walk
and that no unit with a lead byte 0xFE or 0xFF makes acceptable. -/
theorem recognized_iff (str : CStr) :
    Recognized str ↔ IndexFits str.chars ∧ ¬ LaxLead str.chars := by
  have hutf8 := mem_utf8_iff str.chars
  rcases Nat.lt_or_ge str.chars.length (2 ^ 31) with hshort | hlong
  · have hfits : IndexFits str.chars := Or.inl hshort
    rcases isUTF8_of_short hshort with ⟨hanswer, htext⟩ | ⟨hanswer, htext⟩
    · simp [Recognized, hanswer, hutf8, htext, hfits]
    · have hlax : ¬ LaxLead str.chars := fun h => htext h.1
      simp [Recognized, hanswer, hutf8, htext, hfits, hlax]
  · rcases isUTF8_of_long hlong with ⟨hanswer, hviable⟩ | ⟨hanswer, hrefused⟩
    · have hfits : ¬ IndexFits str.chars := by
        rintro (hshort | hrefused)
        · omega
        · exact hrefused hviable
      simp [Recognized, hanswer, hfits]
    · have hfits : IndexFits str.chars := Or.inr hrefused
      have htext : str.chars ∉ tested.text := by
        intro htext
        apply hrefused
        exact ⟨str.chars.drop (2 ^ 31), by rwa [List.take_append_drop]⟩
      have hlax : ¬ LaxLead str.chars := fun h => htext h.1
      simp [Recognized, hanswer, hutf8, htext, hfits, hlax]

/-- 0xFE with four continuation bytes is accepted. -/
theorem not_recognized_fe : ¬ Recognized ⟨[0xFE, 0x80, 0x80, 0x80, 0x80], by decide⟩ := by
  rintro ⟨answer, hanswer, htext⟩
  have haccept : isUTF8 (some ⟨[0xFE, 0x80, 0x80, 0x80, 0x80], by decide⟩) = some true := by decide
  obtain rfl : true = answer := Option.some.inj (haccept.symm.trans hanswer)
  exact absurd (lt_of_mem_utf8 (htext.mp rfl) 0xFE (by decide)) (by decide)

end LearningCpp.EncodeConvert
