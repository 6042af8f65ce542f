import LearningCpp.EncodeConvert.Utf8
import LearningCpp.Runtime.Memory

/-!
`_isGBK_` of `ad_system/common/encode_convert.cpp` and of `CharConvertTool`. Its
loops step over ASCII bytes one by one and over pairs two by two; both range
tests of a pair look at the first byte.
-/

namespace LearningCpp.EncodeConvert

open Library

/-- `str[i] < 0`, for a signed `char`. -/
def negative (c : UInt8) : Bool := c.toInt8 < 0

/-- The range tests of a pair, with `chr` in all of them. -/
def pairTest (chr : UInt8) : Bool :=
  (129 ≤ chr && chr ≤ 254) && (64 ≤ chr && chr ≤ 254 && chr != 127)

/-- `while (i < len && str[i] >= 0) ++i;` What is left of the string stands for the index. -/
def skipAscii (rest : List UInt8) : List UInt8 := rest.dropWhile (fun c => !negative c)

/-- `while (i < len - 1 && str[i] < 0)`; none is `return false`. -/
def pairLoop : List UInt8 → Option (List UInt8)
  | chr :: next :: rest =>
      if negative chr then
        if pairTest chr then pairLoop rest else none
      else some (chr :: next :: rest)
  | rest => some rest

/-- `while (i < len)`, for at most `fuel` iterations. -/
def isGBKLoop : Nat → List UInt8 → Option Bool
  | 0, rest => if rest = [] then some true else none
  | fuel + 1, rest =>
      if rest = [] then some true
      else if (skipAscii rest).length = 1 then some true
      else
        match pairLoop (skipAscii rest) with
        | some rest' => isGBKLoop fuel rest'
        | none => some false

/-- The first `(int)strlen(str)` bytes. -/
def scanned (chars : List UInt8) : List UInt8 := chars.take (rounds (sizeToInt chars.length))

/-- `_isGBK_(str)`, where none is the null pointer. -/
def isGBK : Option CStr → Option Bool
  | none => some false
  | some str => isGBKLoop (scanned str.chars).length (scanned str.chars)

/-- ASCII bytes, and pairs of a lead byte and a trail byte. -/
def gbk : UnitCode UInt8 where
  announces b := if b < 0x80 then some 0 else if 0x81 ≤ b ∧ b ≤ 0xFE then some 1 else none
  follows b := 0x40 ≤ b ∧ b ≤ 0xFE ∧ b ≠ 0x7F

/-- Nothing, or half a character. -/
def half : Language UInt8 := {r | r = [] ∨ ∃ b, r = [b] ∧ 0x80 ≤ b}

/-- ASCII bytes, and lead bytes with any byte behind them. -/
def paired : UnitCode UInt8 where
  announces := gbk.announces
  follows _ := true

/-- `_isGBK_` returns, and returns true exactly for GBK text up to half a character. -/
def RecognizedGBK (str : CStr) : Prop :=
  ∃ answer, isGBK (some str) = some answer ∧ (answer = true ↔ str.chars ∈ gbk.text * half)

/-- Two bytes that satisfy `bad` stand where a pair should. -/
def PairAt (bad : UInt8 → UInt8 → Prop) (r : List UInt8) : Prop :=
  ∃ b c t, r = b :: c :: t ∧ 0x80 ≤ b ∧ bad b c

/-- Where a pair should begin stands no lead byte. -/
def Broken (w : List UInt8) : Prop :=
  paired.AtUnit (PairAt (fun b _ => b = 0x80 ∨ b = 0xFF)) w

/-- The second byte of some pair is no trail byte. -/
def BadTrail (w : List UInt8) : Prop :=
  paired.AtUnit (PairAt (fun b c => b ≠ 0x80 ∧ b ≠ 0xFF ∧ ¬ (0x40 ≤ c ∧ c ≤ 0xFE ∧ c ≠ 0x7F))) w

theorem negative_iff (c : UInt8) : negative c ↔ 0x80 ≤ c := by
  revert c
  apply forall_byte
  decide +kernel

theorem pairTest_iff {b : UInt8} (h : 0x80 ≤ b) : pairTest b ↔ b ≠ 0x80 ∧ b ≠ 0xFF := by
  revert b
  apply forall_byte
  decide +kernel

theorem announces_ascii {b : UInt8} (h : b < 0x80) : gbk.announces b = some 0 := if_pos h

theorem announces_pair {b : UInt8} (h : 0x80 ≤ b) :
    gbk.announces b = if b = 0x80 ∨ b = 0xFF then none else some 1 := by
  revert b
  apply forall_byte
  decide +kernel

/-- A text is empty, or begins with an ASCII byte, or is half a character, or
begins where a pair should stand. -/
theorem gbk_induction {motive : List UInt8 → Prop} (nil : motive [])
    (ascii : ∀ b w, b < 0x80 → motive w → motive (b :: w))
    (single : ∀ b, 0x80 ≤ b → motive [b])
    (pair : ∀ b c w, 0x80 ≤ b → motive w → motive (b :: c :: w)) : ∀ w, motive w
  | [] => nil
  | b :: w => by
      by_cases hb : b < 0x80
      · exact ascii b w hb (gbk_induction nil ascii single pair w)
      · have hneg : 0x80 ≤ b := UInt8.not_lt.mp hb
        match w with
        | [] => exact single b hneg
        | c :: w => exact pair b c w hneg (gbk_induction nil ascii single pair w)

section

variable {bad : UInt8 → UInt8 → Prop} {b c : UInt8} {w : List UInt8}

theorem not_pairAt_nil : ¬ paired.AtUnit (PairAt bad) [] := by
  intro h
  obtain ⟨b, c, t, hr, _⟩ := UnitCode.reaches_zero_nil.mp h
  cases hr

theorem pairAt_ascii (hb : b < 0x80) :
    paired.AtUnit (PairAt bad) (b :: w) ↔ paired.AtUnit (PairAt bad) w := by
  have hhere : ¬ PairAt bad (b :: w) := by
    rintro ⟨b', c, t, hr, hneg, _⟩
    obtain ⟨rfl, _⟩ := List.cons.inj hr
    exact absurd hb (UInt8.not_lt.mpr hneg)
  rw [UnitCode.AtUnit, UnitCode.reaches_zero_cons]
  simp [paired, announces_ascii hb, hhere, UnitCode.AtUnit]

theorem not_pairAt_single (hb : 0x80 ≤ b) : ¬ paired.AtUnit (PairAt bad) [b] := by
  intro h
  rcases UnitCode.reaches_zero_cons.mp h with ⟨b', c, t, hr, _⟩ | ⟨owed, howed, hrest⟩
  · cases hr
  · have hann : paired.announces b = if b = 0x80 ∨ b = 0xFF then none else some 1 :=
      announces_pair hb
    rw [hann, Option.ite_none_left_eq_some] at howed
    obtain ⟨_, hone⟩ := howed
    cases hone
    exact UnitCode.not_reaches_succ_nil hrest

theorem pairAt_pair (hb : 0x80 ≤ b) :
    paired.AtUnit (PairAt bad) (b :: c :: w) ↔
      bad b c ∨ (b ≠ 0x80 ∧ b ≠ 0xFF) ∧ paired.AtUnit (PairAt bad) w := by
  have hhere : PairAt bad (b :: c :: w) ↔ bad b c := by
    constructor
    · rintro ⟨b', c', t, hr, _, hbad⟩
      cases hr
      exact hbad
    · intro hbad
      exact ⟨b, c, w, rfl, hb, hbad⟩
  have hann : paired.announces b = if b = 0x80 ∨ b = 0xFF then none else some 1 :=
    announces_pair hb
  have hfollows : paired.follows c = true := rfl
  rw [UnitCode.AtUnit, UnitCode.reaches_zero_cons, hhere, hann]
  by_cases hlead : b = 0x80 ∨ b = 0xFF
  · simp [hlead]
    tauto
  · simp [hlead, UnitCode.reaches_succ_cons, hfollows, UnitCode.AtUnit]
    tauto

theorem not_broken_nil : ¬ Broken [] := not_pairAt_nil

theorem not_broken_single (hb : 0x80 ≤ b) : ¬ Broken [b] := not_pairAt_single hb

theorem broken_ascii (hb : b < 0x80) : Broken (b :: w) ↔ Broken w := pairAt_ascii hb

theorem broken_pair (hb : 0x80 ≤ b) :
    Broken (b :: c :: w) ↔ (b = 0x80 ∨ b = 0xFF) ∨ Broken w := by
  rw [Broken, pairAt_pair hb, Broken]
  tauto

/-! ## GBK text, and the two ways to miss it -/

private theorem gbk_nil : [] ∈ gbk.text * half :=
  UnitCode.mem_text_mul_iff.mpr (UnitCode.reaches_zero_nil.mpr (Or.inl rfl))

private theorem gbk_ascii (hb : b < 0x80) : b :: w ∈ gbk.text * half ↔ w ∈ gbk.text * half := by
  have hhere : b :: w ∉ half := by
    rintro (hr | ⟨b', hr, hneg⟩)
    · cases hr
    · obtain ⟨rfl, _⟩ := List.cons.inj hr
      exact absurd hb (UInt8.not_lt.mpr hneg)
  rw [UnitCode.mem_text_mul_iff, UnitCode.mem_text_mul_iff, UnitCode.AtUnit,
    UnitCode.reaches_zero_cons, announces_ascii hb]
  simp [hhere, UnitCode.AtUnit]

private theorem gbk_single (hb : 0x80 ≤ b) : [b] ∈ gbk.text * half := by
  apply UnitCode.mem_text_mul_iff.mpr
  exact UnitCode.reaches_zero_cons.mpr (Or.inl (Or.inr ⟨b, rfl, hb⟩))

theorem gbk_pair (hb : 0x80 ≤ b) :
    b :: c :: w ∈ gbk.text * half ↔
      (b ≠ 0x80 ∧ b ≠ 0xFF) ∧ (0x40 ≤ c ∧ c ≤ 0xFE ∧ c ≠ 0x7F) ∧ w ∈ gbk.text * half := by
  have hhere : b :: c :: w ∉ half := by
    rintro (hr | ⟨b', hr, _⟩)
    · cases hr
    · cases hr
  have hfollows : gbk.follows c = true ↔ 0x40 ≤ c ∧ c ≤ 0xFE ∧ c ≠ 0x7F := by
    simp [gbk]
  rw [UnitCode.mem_text_mul_iff, UnitCode.mem_text_mul_iff, UnitCode.AtUnit,
    UnitCode.reaches_zero_cons, announces_pair hb]
  by_cases hlead : b = 0x80 ∨ b = 0xFF
  · simp [hhere, hlead]
    tauto
  · simp [hhere, hlead, UnitCode.reaches_succ_cons, hfollows, UnitCode.AtUnit]
    tauto

end

/-- GBK text up to half a character is text in which every pair has a lead byte and a
trail byte. -/
theorem mem_gbk_iff (w : List UInt8) : w ∈ gbk.text * half ↔ ¬ Broken w ∧ ¬ BadTrail w := by
  induction w using gbk_induction with
  | nil => simp [gbk_nil, not_broken_nil, BadTrail, not_pairAt_nil]
  | ascii b w hb ih => rw [gbk_ascii hb, broken_ascii hb, ih, BadTrail, BadTrail, pairAt_ascii hb]
  | single b hb => simp [gbk_single hb, not_broken_single hb, BadTrail, not_pairAt_single hb]
  | pair b c w hb ih =>
      rw [gbk_pair hb, broken_pair hb, ih, BadTrail, BadTrail, pairAt_pair hb]
      tauto

/-- A text broken early is broken. -/
theorem Broken.append {w : List UInt8} (h : Broken w) (more : List UInt8) : Broken (w ++ more) := by
  obtain ⟨a, r, rfl, ha, b, c, t, rfl, hb⟩ := UnitCode.atUnit_iff.mp h
  apply UnitCode.atUnit_iff.mpr
  exact ⟨a, b :: c :: t ++ more, by simp, ha, b, c, t ++ more, rfl, hb⟩

/-- Nothing breaks ASCII. -/
theorem Broken.exists_mem {w : List UInt8} (h : Broken w) : ∃ b ∈ w, 0x80 ≤ b := by
  obtain ⟨a, r, rfl, _, b, c, t, rfl, hb, _⟩ := UnitCode.atUnit_iff.mp h
  exact ⟨b, by simp, hb⟩

theorem broken_of_scanned {chars : List UInt8} (h : Broken (scanned chars)) : Broken chars := by
  have happend := h.append (chars.drop (rounds (sizeToInt chars.length)))
  rwa [scanned, List.take_append_drop] at happend

/-! ## The loops -/

theorem skipAscii_cons {b : UInt8} (w : List UInt8) :
    skipAscii (b :: w) = if b < 0x80 then skipAscii w else b :: w := by
  rw [skipAscii, List.dropWhile_cons]
  by_cases hb : b < 0x80
  · have hneg : negative b = false := by
      rw [← Bool.not_eq_true, negative_iff]
      exact UInt8.not_le.mpr hb
    simp [hb, hneg, skipAscii]
  · have hneg : negative b = true := (negative_iff b).mpr (UInt8.not_lt.mp hb)
    simp [hb, hneg]

private theorem broken_skipAscii (w : List UInt8) : Broken (skipAscii w) ↔ Broken w := by
  induction w with
  | nil => exact Iff.rfl
  | cons b w ih =>
      rw [skipAscii_cons]
      split
      · next hb => rw [ih, broken_ascii hb]
      · rfl

private theorem length_skipAscii_le (w : List UInt8) : (skipAscii w).length ≤ w.length := by
  rw [skipAscii]
  exact (List.dropWhile_suffix _).length_le

/-- Behind the ASCII bytes stands the end or a byte of a pair. -/
theorem skipAscii_cases (w : List UInt8) :
    skipAscii w = [] ∨ ∃ b t, skipAscii w = b :: t ∧ 0x80 ≤ b := by
  induction w with
  | nil => exact Or.inl rfl
  | cons b w ih =>
      rw [skipAscii_cons]
      split
      · exact ih
      · next hb => exact Or.inr ⟨b, w, rfl, UInt8.not_lt.mp hb⟩

/-- The pairs that are stepped over break nothing, and the loop returns false at the
first byte that is no lead byte. -/
theorem pairLoop_spec (w : List UInt8) :
    match pairLoop w with
    | some r => (Broken r ↔ Broken w) ∧ r.length ≤ w.length
    | none => Broken w := by
  fun_induction pairLoop w with
  | case1 chr next rest hneg htest ih =>
      have hchr := (negative_iff chr).mp hneg
      obtain ⟨hlow, hhigh⟩ := (pairTest_iff hchr).mp htest
      cases hloop : pairLoop rest with
      | some r =>
          rw [hloop] at ih
          simp only [broken_pair hchr, ih.1, List.length_cons]
          exact ⟨by simp [hlow, hhigh], by omega⟩
      | none =>
          rw [hloop] at ih
          exact (broken_pair hchr).mpr (Or.inr ih)
  | case2 chr next rest hneg htest =>
      have hchr := (negative_iff chr).mp hneg
      rw [pairTest_iff hchr] at htest
      apply (broken_pair hchr).mpr
      tauto
  | case3 chr next rest hneg => exact ⟨Iff.rfl, Nat.le_refl _⟩
  | case4 rest hrest => exact ⟨Iff.rfl, Nat.le_refl _⟩

/-- A round that is not the last one steps over a pair. -/
theorem pairLoop_length {b c : UInt8} {w r : List UInt8} (hb : 0x80 ≤ b)
    (h : pairLoop (b :: c :: w) = some r) : r.length ≤ w.length := by
  have hneg : negative b = true := (negative_iff b).mpr hb
  rw [pairLoop, if_pos hneg] at h
  split at h
  · have hspec := pairLoop_spec w
    rw [h] at hspec
    exact hspec.2
  · cases h

/-- The rounds are enough, and the answer is false exactly on a broken text. -/
theorem isGBKLoop_eq {fuel : Nat} {w : List UInt8} (h : w.length ≤ fuel) :
    ∃ answer, isGBKLoop fuel w = some answer ∧ (answer = true ↔ ¬ Broken w) := by
  induction fuel generalizing w with
  | zero =>
      obtain rfl : w = [] := List.length_eq_zero_iff.mp (Nat.le_zero.mp h)
      exact ⟨true, rfl, by simp [not_broken_nil]⟩
  | succ fuel ih =>
      rw [isGBKLoop]
      by_cases hnil : w = []
      · subst hnil
        exact ⟨true, if_pos rfl, by simp [not_broken_nil]⟩
      · rw [if_neg hnil, ← broken_skipAscii w]
        have hlength := length_skipAscii_le w
        rcases skipAscii_cases w with hskip | ⟨b, t, hskip, hb⟩
        · rw [hskip]
          obtain ⟨answer, hanswer, hiff⟩ := @ih [] (Nat.zero_le fuel)
          exact ⟨answer, hanswer, hiff⟩
        · rw [hskip] at hlength ⊢
          cases t with
          | nil => exact ⟨true, rfl, by simp [not_broken_single hb]⟩
          | cons c t =>
              have hspec := pairLoop_spec (b :: c :: t)
              rw [if_neg (by simp)]
              cases hloop : pairLoop (b :: c :: t) with
              | none =>
                  rw [hloop] at hspec
                  exact ⟨false, rfl, by simp [hspec]⟩
              | some r =>
                  rw [hloop] at hspec
                  have hshort := pairLoop_length hb hloop
                  simp only [List.length_cons] at hlength
                  obtain ⟨answer, hanswer, hiff⟩ := ih (show r.length ≤ fuel by omega)
                  exact ⟨answer, hanswer, hiff.trans (not_congr hspec.1)⟩

/-- `_isGBK_` returns, and rejects exactly the strings that are broken in the part it scans. -/
theorem isGBK_eq (str : CStr) :
    ∃ answer, isGBK (some str) = some answer ∧ (answer = true ↔ ¬ Broken (scanned str.chars)) :=
  isGBKLoop_eq (Nat.le_refl _)

/-- `_isGBK_` recognizes GBK text exactly on the strings that are broken where it
scans them, and on those with no broken place and no bad trail byte anywhere. -/
theorem recognizedGBK_iff (str : CStr) :
    RecognizedGBK str ↔
      Broken (scanned str.chars) ∨ ¬ Broken str.chars ∧ ¬ BadTrail str.chars := by
  obtain ⟨answer, hanswer, hiff⟩ := isGBK_eq str
  have hunique : RecognizedGBK str ↔ (answer = true ↔ str.chars ∈ gbk.text * half) := by
    constructor
    · rintro ⟨answer', hanswer', hgbk⟩
      obtain rfl : answer = answer' := Option.some.inj (hanswer.symm.trans hanswer')
      exact hgbk
    · intro hgbk
      exact ⟨answer, hanswer, hgbk⟩
  have hscanned := @broken_of_scanned str.chars
  rw [hunique, hiff, mem_gbk_iff]
  tauto

/-- The byte behind a lead byte may be anything, here 0x01. -/
theorem not_recognizedGBK_bad_trail : ¬ RecognizedGBK ⟨[0x81, 0x01], by decide⟩ := by
  rintro ⟨answer, hanswer, hgbk⟩
  have haccept : isGBK (some ⟨[0x81, 0x01], by decide⟩) = some true := by decide
  have hlead : (0x80 : UInt8) ≤ 0x81 := by decide
  obtain rfl : true = answer := Option.some.inj (haccept.symm.trans hanswer)
  obtain ⟨_, htrail, _⟩ := (gbk_pair hlead).mp (hgbk.mp rfl)
  exact absurd htrail (by decide)

end LearningCpp.EncodeConvert
