import LearningCpp.Library.CString
import LearningCpp.Runtime.Memory

/-!
`ConvertCore` of `ad_system/common/encode_convert.cpp` and of `CharConvertTool`:
the buffer it allocates for `iconv`, and the capacity it promises.
-/

namespace LearningCpp.EncodeConvert

open Library

/-- The conversions of the system. `iconv_open` may not know a pair of encodings, and
`iconv` gets the input with its NUL and a capacity. What it returns is what it has
written, or none for -1. -/
structure Iconv where
  iconv_open : String → String → Bool
  iconv : String → String → List UInt8 → Nat → Option (List UInt8)

/-- `new char[n]`; no array is longer than PTRDIFF_MAX. -/
def newChar (n : Nat) : Except Fault Block :=
  if n < 2 ^ 63 then .ok (List.replicate n none) else .error .badArrayNewLength

/-- What `iconv` is called with for its output. -/
structure Output where
  convBuff : Block
  outLen : Nat
  deriving DecidableEq, Repr

/-- `ConvertCore` up to the call of `iconv`, or none when `iconv_open` fails. No
`size_t` wraps: where `input.size() * 2` would, `new` has thrown. -/
def prepare (lib : Iconv) (inCodeType outCodeType : String) (input : List UInt8) :
    Except Fault (Option Output) :=
  if lib.iconv_open outCodeType inCodeType then do
    let inBuff ← newChar 1024
    let convBuff ← newChar 1024
    let _ ← if inBuff.length < input.length + 1 then newChar (input.length + 1) else .ok inBuff
    let convBuff ←
      if convBuff.length < input.length * 2 then newChar (input.length * 2)
      else .ok (convBuff.set 0 (some 0))
    .ok (some { convBuff, outLen := (input.length + 1) * 2 })
  else .ok none

/-- `ConvertCore(inCodeType, outCodeType, input, output)`: what it returns, and what it
leaves in `output`. -/
def convertCore (lib : Iconv) (inCodeType outCodeType : String) (input output : List UInt8) :
    Except Fault (Bool × List UInt8) := do
  match ← prepare lib inCodeType outCodeType input with
  | none => .ok (false, output)
  | some out =>
      match lib.iconv outCodeType inCodeType (input ++ [0]) out.outLen with
      | none => .ok (false, output)
      | some written =>
          if out.convBuff.length < written.length then .error .outOfRange
          else
            match textOf (written.map some ++ out.convBuff.drop written.length) with
            | some text => .ok (true, text)
            | none => .error .outOfRange

def GBK_to_UTF8 (lib : Iconv) (input output : List UInt8) : Except Fault (Bool × List UInt8) :=
  convertCore lib "GBK" "utf-8" input output

/-- The capacity that `iconv` is promised is allocated. -/
def PromiseKept (lib : Iconv) (inCodeType outCodeType : String) (input : List UInt8) : Prop :=
  ∀ out, prepare lib inCodeType outCodeType input = .ok (some out) →
    out.outLen ≤ out.convBuff.length

theorem newChar_of_lt {n : Nat} (h : n < 2 ^ 63) : newChar n = .ok (List.replicate n none) :=
  if_pos h

theorem newChar_of_ge {n : Nat} (h : 2 ^ 63 ≤ n) : newChar n = .error .badArrayNewLength :=
  if_neg (Nat.not_lt.mpr h)

variable {lib : Iconv} {inCodeType outCodeType : String} {input : List UInt8}

theorem prepare_closed (h : lib.iconv_open outCodeType inCodeType = false) :
    prepare lib inCodeType outCodeType input = .ok none := by
  rw [prepare, h]
  rfl

/-- A short input is converted into the buffer of 1024 bytes. -/
theorem prepare_short (hopen : lib.iconv_open outCodeType inCodeType = true)
    (h : input.length ≤ 512) :
    prepare lib inCodeType outCodeType input =
      .ok (some ⟨(List.replicate 1024 none).set 0 (some 0), (input.length + 1) * 2⟩) := by
  have hinitial : newChar 1024 = .ok (List.replicate 1024 none) := newChar_of_lt (by omega)
  have hin : ¬ 1024 < input.length + 1 := by omega
  have hconv : ¬ 1024 < input.length * 2 := by omega
  simp only [prepare, hopen, hinitial, List.length_replicate, if_true, if_neg hin, if_neg hconv,
    bind, Except.bind]

/-- A longer one is converted into a buffer of twice its size, if there can be one. -/
theorem prepare_long (hopen : lib.iconv_open outCodeType inCodeType = true)
    (hlow : 512 < input.length) (hhigh : input.length < 2 ^ 62) :
    prepare lib inCodeType outCodeType input =
      .ok (some ⟨List.replicate (input.length * 2) none, (input.length + 1) * 2⟩) := by
  have hinitial : newChar 1024 = .ok (List.replicate 1024 none) := newChar_of_lt (by omega)
  have hconv : 1024 < input.length * 2 := by omega
  have hin : newChar (input.length + 1) = .ok (List.replicate (input.length + 1) none) :=
    newChar_of_lt (by omega)
  have hdouble : newChar (input.length * 2) = .ok (List.replicate (input.length * 2) none) :=
    newChar_of_lt (by omega)
  simp only [prepare, hopen, hinitial, List.length_replicate, if_true, if_pos hconv, hin, hdouble,
    bind, Except.bind]
  split <;> rfl

theorem prepare_huge (hopen : lib.iconv_open outCodeType inCodeType = true)
    (h : 2 ^ 62 ≤ input.length) :
    prepare lib inCodeType outCodeType input = .error .badArrayNewLength := by
  have hinitial : newChar 1024 = .ok (List.replicate 1024 none) := newChar_of_lt (by omega)
  have hin : 1024 < input.length + 1 := by omega
  have hconv : 1024 < input.length * 2 := by omega
  have hdouble : newChar (input.length * 2) = .error .badArrayNewLength :=
    newChar_of_ge (by omega)
  simp only [prepare, hopen, hinitial, List.length_replicate, if_true, if_pos hin, if_pos hconv,
    hdouble, bind, Except.bind]
  by_cases hsize : input.length + 1 < 2 ^ 63
  · rw [newChar_of_lt hsize]
  · rw [newChar_of_ge (Nat.not_lt.mp hsize)]

theorem convertCore_closed (h : lib.iconv_open outCodeType inCodeType = false)
    (output : List UInt8) :
    convertCore lib inCodeType outCodeType input output = .ok (false, output) := by
  rw [convertCore, prepare_closed h]
  rfl

theorem convertCore_huge (hopen : lib.iconv_open outCodeType inCodeType = true)
    (h : 2 ^ 62 ≤ input.length) (output : List UInt8) :
    convertCore lib inCodeType outCodeType input output = .error .badArrayNewLength := by
  rw [convertCore, prepare_huge hopen h]
  rfl

/-- What is not longer than the input fits into the buffer. -/
theorem prepare_room (hopen : lib.iconv_open outCodeType inCodeType = true)
    (h : input.length < 2 ^ 62) :
    ∃ convBuff, prepare lib inCodeType outCodeType input =
        .ok (some ⟨convBuff, (input.length + 1) * 2⟩) ∧ input.length < convBuff.length := by
  rcases Nat.lt_or_ge 512 input.length with hlong | hshort
  · refine ⟨_, prepare_long hopen hlong h, ?_⟩
    rw [List.length_replicate]
    omega
  · refine ⟨_, prepare_short hopen hshort, ?_⟩
    rw [List.length_set, List.length_replicate]
    omega

/-- Input that the conversion does not change is copied up to its first NUL. -/
theorem convertCore_unchanged (hopen : lib.iconv_open outCodeType inCodeType = true)
    (h : input.length < 2 ^ 62)
    (hiconv : lib.iconv outCodeType inCodeType (input ++ [0]) ((input.length + 1) * 2) =
      some (input ++ [0])) (output : List UInt8) :
    convertCore lib inCodeType outCodeType input output =
      .ok (true, input.takeWhile (fun c => c ≠ 0)) := by
  obtain ⟨convBuff, hprepare, hroom⟩ := @prepare_room lib inCodeType outCodeType input hopen h
  have hfits : ¬ convBuff.length < (input ++ [0]).length := by
    rw [List.length_append, List.length_singleton]
    omega
  simp only [convertCore, hprepare, bind, Except.bind, hiconv, if_neg hfits, textOf_terminated]

theorem promiseKept_of_prepare {out : Output}
    (h : prepare lib inCodeType outCodeType input = .ok (some out)) :
    PromiseKept lib inCodeType outCodeType input ↔ out.outLen ≤ out.convBuff.length := by
  constructor
  · intro hkept
    exact hkept out h
  · intro hle out' hout'
    cases h.symm.trans hout'
    exact hle

/-- Where `iconv` is not called, nothing is promised. -/
theorem promiseKept_of_not_called
    (h : ∀ out, prepare lib inCodeType outCodeType input ≠ .ok (some out)) :
    PromiseKept lib inCodeType outCodeType input :=
  fun out hout => absurd hout (h out)

theorem promiseKept_short_iff (hopen : lib.iconv_open outCodeType inCodeType = true)
    (h : input.length ≤ 512) :
    PromiseKept lib inCodeType outCodeType input ↔ input.length ≤ 511 := by
  rw [promiseKept_of_prepare (prepare_short hopen h), List.length_set, List.length_replicate]
  change (input.length + 1) * 2 ≤ 1024 ↔ input.length ≤ 511
  omega

/-- The promise is kept where it is not made, because `iconv_open` fails or the buffer
cannot be allocated, and for inputs of at most 511 bytes. -/
theorem promiseKept_iff (lib : Iconv) (inCodeType outCodeType : String) (input : List UInt8) :
    PromiseKept lib inCodeType outCodeType input ↔
      lib.iconv_open outCodeType inCodeType = false ∨ input.length ≤ 511 ∨
        2 ^ 62 ≤ input.length := by
  cases hopen : lib.iconv_open outCodeType inCodeType with
  | false =>
      have hkept : PromiseKept lib inCodeType outCodeType input := by
        apply promiseKept_of_not_called
        simp [prepare_closed hopen]
      simp [hkept]
  | true =>
      rw [Bool.true_eq_false, false_or]
      rcases Nat.lt_or_ge 512 input.length with hlong | hshort
      · rcases Nat.lt_or_ge input.length (2 ^ 62) with hfits | hhuge
        · rw [promiseKept_of_prepare (prepare_long hopen hlong hfits), List.length_replicate]
          have hover : ¬ (input.length + 1) * 2 ≤ input.length * 2 := by omega
          exact ⟨fun h => absurd h hover, by omega⟩
        · have hkept : PromiseKept lib inCodeType outCodeType input := by
            apply promiseKept_of_not_called
            simp [prepare_huge hopen hhuge]
          exact ⟨fun _ => Or.inr hhuge, fun _ => hkept⟩
      · rw [promiseKept_short_iff hopen hshort]
        omega

/-- The promise is broken for an input of 512 bytes. -/
theorem not_promiseKept_512 :
    ¬ PromiseKept ⟨fun _ _ => true, fun _ _ input _ => some input⟩ "GBK" "utf-8"
      (List.replicate 512 0x61) := by
  have hlength : (List.replicate 512 (0x61 : UInt8)).length = 512 := List.length_replicate
  rw [promiseKept_short_iff rfl hlength.le, hlength]
  omega

end LearningCpp.EncodeConvert
