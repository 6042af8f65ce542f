import Mathlib.Data.UInt
import Mathlib.Tactic

/-!
Formatted extraction of an `int` from a stream, `is >> std::hex >> value`, in
the C locale: blanks are skipped, a sign and the prefix `0x` may come first, and
the number ends at the first letter that is no digit.
-/

namespace LearningCpp

/-- `isspace` in the C locale. -/
def isspace (c : UInt8) : Prop := c = 32 ∨ 9 ≤ c ∧ c ≤ 13

instance (c : UInt8) : Decidable (isspace c) := inferInstanceAs (Decidable (_ ∨ _))

/-- The digit that a letter is in base 16. -/
def hexValue (c : UInt8) : Option Nat :=
  if 48 ≤ c ∧ c ≤ 57 then some (c.toNat - 48)
  else if 97 ≤ c ∧ c ≤ 102 then some (c.toNat - 87)
  else if 65 ≤ c ∧ c ≤ 70 then some (c.toNat - 55)
  else none

def isxdigit (c : UInt8) : Prop := (hexValue c).isSome

instance (c : UInt8) : Decidable (isxdigit c) := inferInstanceAs (Decidable (_ = true))

/-- The digits the extraction takes: a zero with an `x` after it is not one. -/
def hexDigits : List UInt8 → List UInt8
  | zero :: x :: rest =>
      if zero = 48 ∧ (x = 120 ∨ x = 88) then rest.takeWhile (fun c => isxdigit c)
      else (zero :: x :: rest).takeWhile (fun c => isxdigit c)
  | text => text.takeWhile (fun c => isxdigit c)

def hexNumber (digits : List UInt8) : Nat :=
  digits.foldl (fun n c => 16 * n + (hexValue c).getD 0) 0

/-- The number that the text denotes, or none when it has no digit. -/
def extractNumber (text : List UInt8) : Option Int :=
  match text.dropWhile (fun c => isspace c) with
  | [] => none
  | sign :: rest =>
      if sign = 45 then
        if hexDigits rest = [] then none else some (-(hexNumber (hexDigits rest)))
      else if sign = 43 then
        if hexDigits rest = [] then none else some (hexNumber (hexDigits rest))
      else if hexDigits (sign :: rest) = [] then none
      else some (hexNumber (hexDigits (sign :: rest)))

/-- `is >> std::hex >> value`; a number that no `int` holds sets `failbit`. -/
def extractHex (text : List UInt8) : Option Int32 :=
  match extractNumber text with
  | some n => if -2 ^ 31 ≤ n ∧ n < 2 ^ 31 then some (Int32.ofInt n) else none
  | none => none

/-- Two letters that are no two digits and that the extraction accepts all the
same: a blank or a sign before a digit, or a digit before another letter, unless
the two are the prefix `0x`. -/
def Lax (first second : UInt8) : Prop :=
  (isspace first ∨ first = 43 ∨ first = 45) ∧ isxdigit second ∨
    isxdigit first ∧ ¬ isxdigit second ∧ ¬ (first = 48 ∧ (second = 120 ∨ second = 88))

instance (first second : UInt8) : Decidable (Lax first second) :=
  inferInstanceAs (Decidable (_ ∨ _))

theorem isspace_iff_toNat (c : UInt8) :
    isspace c ↔ c.toNat = 32 ∨ 9 ≤ c.toNat ∧ c.toNat ≤ 13 := by
  rw [isspace, ← UInt8.toNat_inj, UInt8.le_iff_toNat_le, UInt8.le_iff_toNat_le]
  rfl

/-- The three ranges of digits. -/
theorem hexValue_cases {c : UInt8} {n : Nat} (h : hexValue c = some n) :
    48 ≤ c.toNat ∧ c.toNat ≤ 57 ∧ n = c.toNat - 48 ∨
      97 ≤ c.toNat ∧ c.toNat ≤ 102 ∧ n = c.toNat - 87 ∨
      65 ≤ c.toNat ∧ c.toNat ≤ 70 ∧ n = c.toNat - 55 := by
  simp only [hexValue, UInt8.le_iff_toNat_le, UInt8.reduceToNat] at h
  split at h
  case isTrue hc =>
    cases h
    exact Or.inl ⟨hc.1, hc.2, rfl⟩
  case isFalse =>
    split at h
    case isTrue hc =>
      cases h
      exact Or.inr (Or.inl ⟨hc.1, hc.2, rfl⟩)
    case isFalse =>
      split at h
      case isTrue hc =>
        cases h
        exact Or.inr (Or.inr ⟨hc.1, hc.2, rfl⟩)
      case isFalse => cases h

theorem hexValue_lt {c : UInt8} {n : Nat} (h : hexValue c = some n) : n < 16 := by
  have hcases := hexValue_cases h
  omega

theorem isxdigit_iff (c : UInt8) : isxdigit c ↔ ∃ n, hexValue c = some n := by
  rw [isxdigit, Option.isSome_iff_exists]

private theorem isxdigit_toNat {c : UInt8} (h : isxdigit c) :
    48 ≤ c.toNat ∧ c.toNat ≤ 57 ∨ 97 ≤ c.toNat ∧ c.toNat ≤ 102 ∨
      65 ≤ c.toNat ∧ c.toNat ≤ 70 := by
  obtain ⟨n, hn⟩ := (isxdigit_iff c).mp h
  have hcases := hexValue_cases hn
  omega

/-- A digit is no blank, no sign and no letter of the prefix. -/
theorem isxdigit_ne {c : UInt8} (h : isxdigit c) :
    ¬ isspace c ∧ c ≠ 43 ∧ c ≠ 45 ∧ ¬ (c = 120 ∨ c = 88) := by
  have hc := isxdigit_toNat h
  rw [isspace_iff_toNat]
  simp only [ne_eq, ← UInt8.toNat_inj, UInt8.reduceToNat]
  omega

theorem isspace_ne {c : UInt8} (h : isspace c) : ¬ isxdigit c ∧ c ≠ 43 ∧ c ≠ 45 := by
  refine ⟨fun hdigit => (isxdigit_ne hdigit).1 h, ?_⟩
  rw [isspace_iff_toNat] at h
  simp only [ne_eq, ← UInt8.toNat_inj, UInt8.reduceToNat]
  omega

theorem hexDigits_length_le (text : List UInt8) : (hexDigits text).length ≤ text.length := by
  unfold hexDigits
  split
  case h_1 zero x rest =>
    split
    case isTrue =>
      have h := (List.takeWhile_sublist (fun c => decide (isxdigit c)) (l := rest)).length_le
      simp only [List.length_cons]
      omega
    case isFalse => exact (List.takeWhile_sublist _).length_le
  case h_2 => exact (List.takeWhile_sublist _).length_le

private theorem hexNumber_lt (digits : List UInt8) : hexNumber digits < 16 ^ digits.length := by
  induction digits using List.reverseRecOn with
  | nil => exact Nat.one_pos
  | append_singleton digits c ih =>
      have hc : (hexValue c).getD 0 < 16 := by
        cases hvalue : hexValue c with
        | none => exact Nat.zero_lt_succ 15
        | some n => exact hexValue_lt hvalue
      have hstep : hexNumber (digits ++ [c]) = 16 * hexNumber digits + (hexValue c).getD 0 := by
        simp only [hexNumber, List.foldl_append, List.foldl_cons, List.foldl_nil]
      rw [hstep, List.length_append, List.length_singleton, Nat.pow_succ]
      omega

theorem extractNumber_natAbs_lt {text : List UInt8} {n : Int} (h : extractNumber text = some n) :
    n.natAbs < 16 ^ text.length := by
  have hdigits : ∀ rest : List UInt8, rest.length ≤ text.length →
      hexNumber (hexDigits rest) < 16 ^ text.length := by
    intro rest hrest
    have hlength := (hexDigits_length_le rest).trans hrest
    exact (hexNumber_lt _).trans_le (Nat.pow_le_pow_right (by decide) hlength)
  have hdrop := (List.dropWhile_sublist (fun c => decide (isspace c)) (l := text)).length_le
  unfold extractNumber at h
  split at h
  case h_1 => cases h
  case h_2 sign rest htext =>
    rw [htext, List.length_cons] at hdrop
    have hrest := hdigits rest (by omega)
    have hall := hdigits (sign :: rest) hdrop
    split at h
    case isTrue =>
      split at h
      case isTrue => cases h
      case isFalse =>
        cases h
        omega
    case isFalse =>
      split at h
      case isTrue =>
        split at h
        case isTrue => cases h
        case isFalse =>
          cases h
          omega
      case isFalse =>
        split at h
        case isTrue => cases h
        case isFalse =>
          cases h
          omega

/-- Two letters never denote a number out of range. -/
theorem extractHex_pair (a b : UInt8) :
    extractHex [a, b] = (extractNumber [a, b]).map Int32.ofInt := by
  unfold extractHex
  cases h : extractNumber [a, b] with
  | none => rfl
  | some n =>
      have hn := extractNumber_natAbs_lt h
      simp only [List.length_cons, List.length_nil] at hn
      have hrange : -2 ^ 31 ≤ n ∧ n < 2 ^ 31 := by omega
      simp only [if_pos hrange, Option.map_some]

@[simp]
theorem hexDigits_nil : hexDigits [] = [] := rfl

theorem hexDigits_singleton (b : UInt8) : hexDigits [b] = if isxdigit b then [b] else [] := by
  simp [hexDigits, List.takeWhile_cons]

theorem hexDigits_pair (a b : UInt8) :
    hexDigits [a, b] =
      if a = 48 ∧ (b = 120 ∨ b = 88) then []
      else if isxdigit a then if isxdigit b then [a, b] else [a] else [] := by
  simp only [hexDigits, List.takeWhile_cons, List.takeWhile_nil, decide_eq_true_eq]
  split
  case isTrue => rfl
  case isFalse => split <;> [split; skip] <;> rfl

/-- What comes after the blanks, when the first letter is no sign. -/
theorem extractNumber_of_first {a : UInt8} (b : UInt8) (hspace : ¬ isspace a) (hplus : a ≠ 43)
    (hminus : a ≠ 45) :
    extractNumber [a, b] =
      if hexDigits [a, b] = [] then none else some (hexNumber (hexDigits [a, b]) : Int) := by
  simp only [extractNumber, List.dropWhile_cons, hspace, decide_false, Bool.false_eq_true,
    if_false, hplus, hminus]

theorem extractHex_digits {a b : UInt8} {x y : Nat} (ha : hexValue a = some x)
    (hb : hexValue b = some y) : extractHex [a, b] = some (Int32.ofNat (16 * x + y)) := by
  have hadigit : isxdigit a := (isxdigit_iff a).mpr ⟨x, ha⟩
  have hbdigit : isxdigit b := (isxdigit_iff b).mpr ⟨y, hb⟩
  obtain ⟨hspace, hplus, hminus, _⟩ := isxdigit_ne hadigit
  have hprefix : ¬ (a = 48 ∧ (b = 120 ∨ b = 88)) := by
    intro h
    exact (isxdigit_ne hbdigit).2.2.2 h.2
  have hdigits : hexDigits [a, b] = [a, b] := by
    rw [hexDigits_pair, if_neg hprefix, if_pos hadigit, if_pos hbdigit]
  have hnumber : hexNumber [a, b] = 16 * x + y := by simp [hexNumber, ha, hb]
  rw [extractHex_pair, extractNumber_of_first b hspace hplus hminus, hdigits,
    if_neg (List.cons_ne_nil a [b]), hnumber, Option.map_some, Int32.ofInt_eq_ofNat]

theorem extractNumber_blank {a : UInt8} (h : isspace a) (rest : List UInt8) :
    extractNumber (a :: rest) = extractNumber rest := by
  simp only [extractNumber, List.dropWhile_cons, h, decide_true, if_true]

theorem extractNumber_sign {a : UInt8} (h : a = 43 ∨ a = 45) (rest : List UInt8) :
    (extractNumber (a :: rest)).isSome ↔ hexDigits rest ≠ [] := by
  obtain rfl | rfl := h
  · have hspace : ¬ isspace 43 := by decide
    by_cases hrest : hexDigits rest = [] <;>
      simp [extractNumber, hspace, hrest]
  · have hspace : ¬ isspace 45 := by decide
    by_cases hrest : hexDigits rest = [] <;>
      simp [extractNumber, hspace, hrest]

theorem hexDigits_singleton_ne_nil (b : UInt8) : hexDigits [b] ≠ [] ↔ isxdigit b := by
  rw [hexDigits_singleton]
  by_cases hb : isxdigit b <;> simp [hb]

private theorem extractNumber_singleton (b : UInt8) : (extractNumber [b]).isSome ↔ isxdigit b := by
  by_cases hspace : isspace b
  · rw [extractNumber_blank hspace]
    exact iff_of_false (by decide) (isspace_ne hspace).1
  · by_cases hsign : b = 43 ∨ b = 45
    · rw [extractNumber_sign hsign]
      apply iff_of_false
      · exact fun h => h hexDigits_nil
      · intro hb
        obtain ⟨_, hplus, hminus, _⟩ := isxdigit_ne hb
        exact hsign.elim hplus hminus
    · rw [← hexDigits_singleton_ne_nil, not_or] at *
      by_cases hdigits : hexDigits [b] = [] <;>
        simp [extractNumber, hspace, hsign, hdigits]

/-- What the extraction makes of two letters: it fails unless both are digits or
they pass for a number of one digit. -/
theorem extractHex_isSome_iff (a b : UInt8) :
    (extractHex [a, b]).isSome ↔ isxdigit a ∧ isxdigit b ∨ Lax a b := by
  rw [extractHex_pair, Option.isSome_map]
  by_cases hspace : isspace a
  · have ha := (isspace_ne hspace).1
    rw [extractNumber_blank hspace, extractNumber_singleton]
    simp [Lax, hspace, ha]
  · by_cases hsign : a = 43 ∨ a = 45
    · have ha : ¬ isxdigit a := by
        intro h
        obtain ⟨_, hplus, hminus, _⟩ := isxdigit_ne h
        exact hsign.elim hplus hminus
      rw [extractNumber_sign hsign, hexDigits_singleton_ne_nil]
      simp [Lax, hsign, ha]
    · obtain ⟨hplus, hminus⟩ := not_or.mp hsign
      rw [extractNumber_of_first b hspace hplus hminus, hexDigits_pair]
      have hprefix := fun h : isxdigit b => (isxdigit_ne h).2.2.2
      by_cases ha : isxdigit a
      · by_cases hb : isxdigit b
        · simp [ha, hb, hprefix hb]
        · by_cases hzero : a = 48 ∧ (b = 120 ∨ b = 88)
          · simp only [Lax, hzero, hb]
            simp
          · simp [Lax, ha, hb, hzero]
      · simp [Lax, hspace, hplus, hminus, ha]

end LearningCpp
