import Mathlib.Tactic

/-!
Fixed-width records stored one after the other. A codec writes a value as a
fixed number of bytes and reads it back; an array of records is the
concatenation of its elements, so a record is found by multiplying its index
by the width.
-/

namespace LearningCpp.Library

structure RecordCodec (α : Type*) where
  width : Nat
  encode : α → List UInt8
  decode : List UInt8 → α
  width_pos : 0 < width
  encode_length : ∀ value, (encode value).length = width
  decode_encode : ∀ value, decode (encode value) = value

namespace RecordCodec

variable {α β : Type*}

/-- The four bytes of a 32-bit word, least significant first. -/
def wordBytes (word : UInt32) : List UInt8 :=
  [word.toUInt8, (word >>> 8).toUInt8, (word >>> 16).toUInt8, (word >>> 24).toUInt8]

def wordOfBytes (bytes : List UInt8) : UInt32 :=
  UInt32.ofNat ((bytes.getD 0 0).toNat + 2 ^ 8 * (bytes.getD 1 0).toNat +
    2 ^ 16 * (bytes.getD 2 0).toNat + 2 ^ 24 * (bytes.getD 3 0).toNat)

theorem wordOfBytes_wordBytes (word : UInt32) : wordOfBytes (wordBytes word) = word := by
  apply UInt32.toNat_inj.mp
  have hword := word.toNat_lt
  simp only [wordOfBytes, wordBytes, List.getD_cons_zero, List.getD_cons_succ,
    UInt32.toNat_ofNat', UInt32.toNat_toUInt8, UInt32.toNat_shiftRight]
  simp only [Nat.shiftRight_eq_div_pow, UInt32.reduceToNat, Nat.reduceMod]
  omega

/-- A signed 32-bit integer, stored as the word with the same bits. -/
def int32 : RecordCodec Int32 where
  width := 4
  encode value := wordBytes value.toUInt32
  decode bytes := (wordOfBytes bytes).toInt32
  width_pos := by decide
  encode_length _ := rfl
  decode_encode value := by simp [wordOfBytes_wordBytes]

/-- Two fields, one after the other. -/
def pair (first : RecordCodec α) (second : RecordCodec β) : RecordCodec (α × β) where
  width := first.width + second.width
  encode value := first.encode value.1 ++ second.encode value.2
  decode bytes := (first.decode (bytes.take first.width), second.decode (bytes.drop first.width))
  width_pos := Nat.add_pos_left first.width_pos _
  encode_length value := by
    rw [List.length_append, first.encode_length, second.encode_length]
  decode_encode value := by
    rw [List.take_left' (first.encode_length _), List.drop_left' (first.encode_length _),
      first.decode_encode, second.decode_encode]

/-- A structure stored as the tuple of its fields. -/
def ofEquiv (codec : RecordCodec α) (fields : β ≃ α) : RecordCodec β where
  width := codec.width
  encode value := codec.encode (fields value)
  decode bytes := fields.symm (codec.decode bytes)
  width_pos := codec.width_pos
  encode_length _ := codec.encode_length _
  decode_encode value := by rw [codec.decode_encode, Equiv.symm_apply_apply]

variable (codec : RecordCodec α)

def writeArray (xs : List α) : List UInt8 := xs.flatMap codec.encode

/-- The first `n` records of a byte sequence. -/
def readArray : Nat → List UInt8 → List α
  | 0, _ => []
  | n + 1, bytes => codec.decode (bytes.take codec.width) :: readArray n (bytes.drop codec.width)

@[simp]
theorem readArray_length (n : Nat) (bytes : List UInt8) : (codec.readArray n bytes).length = n := by
  induction n generalizing bytes with
  | zero => rfl
  | succ n ih => rw [readArray, List.length_cons, ih]

@[simp]
theorem writeArray_length (xs : List α) :
    (codec.writeArray xs).length = xs.length * codec.width := by
  induction xs with
  | nil => simp [writeArray]
  | cons x xs ih =>
      rw [writeArray, List.flatMap_cons, List.length_append, codec.encode_length,
        List.length_cons, Nat.succ_mul, Nat.add_comm]
      exact congrArg (· + codec.width) ih

theorem writeArray_drop (xs : List α) (k : Nat) :
    (codec.writeArray xs).drop (k * codec.width) = codec.writeArray (xs.drop k) := by
  induction k generalizing xs with
  | zero => simp
  | succ k ih =>
      cases xs with
      | nil => simp [writeArray]
      | cons x xs =>
          rw [Nat.succ_mul, Nat.add_comm, ← List.drop_drop, writeArray, List.flatMap_cons,
            List.drop_left' (codec.encode_length x), List.drop_succ_cons]
          exact ih xs

/-- Reading back as many records as a written array has at least. -/
theorem readArray_writeArray (xs : List α) (n : Nat) (hn : n ≤ xs.length) :
    codec.readArray n (codec.writeArray xs) = xs.take n := by
  induction n generalizing xs with
  | zero => rfl
  | succ n ih =>
      cases xs with
      | nil => simp at hn
      | cons x xs =>
          rw [readArray, writeArray, List.flatMap_cons, List.take_left' (codec.encode_length x),
            List.drop_left' (codec.encode_length x), codec.decode_encode, List.take_succ_cons]
          exact congrArg (x :: ·) (ih xs (by simpa using hn))

/-- Reading `n` records at record offset `k` gives the same slice of the array. -/
theorem readArray_writeArray_slice (xs : List α) (k n : Nat) (h : k + n ≤ xs.length) :
    codec.readArray n ((codec.writeArray xs).drop (k * codec.width)) = (xs.drop k).take n := by
  rw [codec.writeArray_drop, codec.readArray_writeArray]
  rw [List.length_drop]
  omega

end RecordCodec

end LearningCpp.Library
