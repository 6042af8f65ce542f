import LearningCpp.Library.MapFold
import LearningCpp.Library.RecordCodec

/-!
What the C++ programs take from the language and its library: the ways a call
can fail to return, conversions between `int` and `size_t`, `toupper`, the order in
which a hash map is walked, and the files that are written and read back.
-/

namespace LearningCpp

/-- Why a call does not return normally: an exception of the standard library,
or an access that the language leaves undefined. -/
inductive Fault where
  | lengthError
  | badArrayNewLength
  | outOfRange
  | danglingIterator
  | emptyContainer
  | nullFile
  | badFree
  deriving DecidableEq, Repr

/-- `toupper` in the C locale. -/
def toupper (c : UInt8) : UInt8 := if 97 ≤ c ∧ c ≤ 122 then c - 32 else c

/-- `int n = v.size();` keeps the low 32 bits of the size. -/
def sizeToInt (size : Nat) : Int32 := Int32.ofNat size

theorem sizeToInt_toInt {size : Nat} (h : size < 2 ^ 31) : (sizeToInt size).toInt = size :=
  Int32.toInt_ofNat_of_lt h

theorem sizeToInt_inj {a b : Nat} (ha : a < 2 ^ 31) (hb : b < 2 ^ 31) :
    sizeToInt a = sizeToInt b ↔ a = b := by
  rw [← Int32.toInt_inj, sizeToInt_toInt ha, sizeToInt_toInt hb, Int.natCast_inj]

theorem sizeToInt_lt_iff {a b : Nat} (ha : a < 2 ^ 31) (hb : b < 2 ^ 31) :
    sizeToInt a < sizeToInt b ↔ a < b := by
  rw [Int32.lt_iff_toInt_lt, sizeToInt_toInt ha, sizeToInt_toInt hb, Int.ofNat_lt]

theorem not_sizeToInt_neg {size : Nat} (h : size < 2 ^ 31) : ¬ sizeToInt size < 0 := by
  rw [Int32.lt_iff_toInt_lt, sizeToInt_toInt h, Int32.toInt_zero]
  omega

/-- From 2 ^ 31 on the narrowed size is negative, until it wraps to zero. -/
theorem sizeToInt_neg {size : Nat} (hlow : 2 ^ 31 ≤ size) (hhigh : size < 2 ^ 32) :
    sizeToInt size < 0 := by
  have hmod : (sizeToInt size).toInt = (size : Int).bmod (2 ^ 32) := by simp [sizeToInt]
  rw [Int32.lt_iff_toInt_lt, hmod, Int32.toInt_zero, Int.bmod_def]
  omega

/-- The number of rounds of `for (int i = 0; i < n; i++)`. -/
def rounds (n : Int32) : Nat := n.toInt.toNat

theorem rounds_sizeToInt {size : Nat} (h : size < 2 ^ 31) : rounds (sizeToInt size) = size := by
  rw [rounds, sizeToInt_toInt h, Int.toNat_natCast]

theorem rounds_sizeToInt_le (size : Nat) : rounds (sizeToInt size) ≤ size := by
  have hmod : (sizeToInt size).toInt = (size : Int).bmod (2 ^ 32) := by simp [sizeToInt]
  rw [rounds, hmod]
  have h := @Int.bmod_le (size : Int) (2 ^ 32) (by decide)
  rcases Nat.lt_or_ge size (2 ^ 31) with hlt | hge
  · have : (size : Int).bmod (2 ^ 32) = size := by
      apply Int.bmod_eq_of_le <;> omega
    omega
  · omega

theorem rounds_eq_zero_iff (n : Int32) : rounds n = 0 ↔ n = 0 ∨ n < 0 := by
  rw [rounds, Int32.lt_iff_toInt_lt, ← Int32.toInt_inj, Int32.toInt_zero]
  omega

theorem sizeToInt_ne_zero {size : Nat} (hpos : 0 < size) (h : size < 2 ^ 31) :
    sizeToInt size ≠ 0 := by
  intro hzero
  have hrounds := rounds_sizeToInt h
  rw [(rounds_eq_zero_iff _).mpr (Or.inl hzero)] at hrounds
  omega

theorem rounds_lt (n : Int32) : rounds n < 2 ^ 31 := by
  have h := n.toInt_lt
  unfold rounds
  omega

theorem rounds_pos {n : Int32} (h : 0 < n) : 0 < rounds n := by
  rw [Int32.lt_iff_toInt_lt, Int32.toInt_zero] at h
  unfold rounds
  omega

theorem sizeToInt_rounds {n : Int32} (h : 0 ≤ n) : sizeToInt (rounds n) = n := by
  rw [Int32.le_iff_toInt_le, Int32.toInt_zero] at h
  rw [← Int32.toInt_inj, sizeToInt_toInt (rounds_lt n), rounds, Int.toNat_of_nonneg h]

/-- An `int` where the language asks for a `size_t`: a negative value becomes huge. -/
def intToSize (n : Int32) : Nat := (n.toInt % 2 ^ 64).toNat

theorem intToSize_of_nonneg {n : Int32} (h : 0 ≤ n.toInt) : intToSize n = n.toInt.toNat := by
  have hlt := n.toInt_lt
  rw [intToSize, Int.emod_eq_of_lt h (by omega)]

theorem intToSize_sizeToInt {size : Nat} (h : size < 2 ^ 31) :
    intToSize (sizeToInt size) = size := by
  rw [intToSize_of_nonneg] <;> rw [sizeToInt_toInt h] <;> omega

/-- The order in which an `unordered_map` is walked. It is unspecified, but
every binding is met exactly once. -/
structure HashOrder (κ ν : Type) [DecidableEq κ] where
  walk : Library.Map κ ν → List ν
  perm : ∀ m : Library.Map κ ν, (walk m).Perm (m.entries.map Sigma.snd)

/-- One possible walk. -/
def HashOrder.ofEntries (κ ν : Type) [DecidableEq κ] : HashOrder κ ν where
  walk m := m.entries.map Sigma.snd
  perm _ := List.Perm.refl _

/-- A map whose values know their keys is rebuilt from a walk over it. -/
theorem HashOrder.lookup_rebuild {κ ν : Type} [DecidableEq κ] (order : HashOrder κ ν)
    (m : Library.Map κ ν) (key : ν → κ)
    (hkey : ∀ k v, m.lookup k = some v → key v = k) (k : κ) :
    (Library.insertAll key id ∅ (order.walk m)).lookup k = m.lookup k := by
  apply Library.lookup_insertAll_of_perm
  have hself : m.entries.map (fun e => (⟨key e.2, e.2⟩ : Sigma (fun _ : κ => ν))) = m.entries := by
    conv_rhs => rw [← List.map_id m.entries]
    apply List.map_congr_left
    intro e he
    rw [hkey e.1 e.2 (AList.mem_lookup_iff.mpr he)]
    rfl
  have hwalk := (order.perm m).map (fun v => (⟨key v, v⟩ : Sigma (fun _ : κ => ν)))
  rw [List.map_map] at hwalk
  exact hwalk.trans (List.Perm.of_eq hself)

/-- The files of the machine, by path. Opening for writing creates or truncates
a file, and what has been written is what is read later. -/
abbrev Disk := String → Option (List UInt8)

namespace Disk

def write (disk : Disk) (path : String) (bytes : List UInt8) : Disk :=
  Function.update disk path (some bytes)

def contents (disk : Disk) (path : String) : List UInt8 := (disk path).getD []

/-- `access(path, 0) == 0` -/
def fileExists (disk : Disk) (path : String) : Bool := (disk path).isSome

/-- `fopen(path, "rb")`: the stream remembers its file. -/
def fopen (disk : Disk) (path : String) : Option String :=
  if disk.fileExists path then some path else none

@[simp]
theorem write_same (disk : Disk) (path : String) (bytes : List UInt8) :
    disk.write path bytes path = some bytes := by simp [write]

@[simp]
theorem write_other (disk : Disk) {path other : String} (bytes : List UInt8)
    (h : other ≠ path) : disk.write path bytes other = disk other := by simp [write, h]

end Disk

/-- `fseek` to `addr` and `fread` of `cnt` records: the whole records that are there. -/
def freadAt {α : Type} (codec : Library.RecordCodec α) (bytes : List UInt8) (addr cnt : Nat) :
    List α :=
  codec.readArray (min cnt ((bytes.length - addr) / codec.width)) (bytes.drop addr)

/-- All records that are asked for are read when the file reaches to their end. -/
theorem freadAt_length_eq_iff {α : Type} (codec : Library.RecordCodec α) (bytes : List UInt8)
    (addr : Nat) {cnt : Nat} (hpos : 0 < cnt) :
    (freadAt codec bytes addr cnt).length = cnt ↔ addr + cnt * codec.width ≤ bytes.length := by
  have hwidth : 0 < cnt * codec.width := Nat.mul_pos hpos codec.width_pos
  rw [freadAt, codec.readArray_length, min_eq_left_iff, Nat.le_div_iff_mul_le codec.width_pos]
  omega

/-- A slice of a written array is read back from its offset. -/
theorem freadAt_writeArray {α : Type} (codec : Library.RecordCodec α) (xs : List α)
    (k n : Nat) (h : k + n ≤ xs.length) :
    freadAt codec (codec.writeArray xs) (k * codec.width) n = (xs.drop k).take n := by
  have hwidth := codec.width_pos
  have havail : n ≤ ((codec.writeArray xs).length - k * codec.width) / codec.width := by
    rw [codec.writeArray_length, ← Nat.sub_mul, Nat.mul_div_cancel _ hwidth]
    omega
  rw [freadAt, Nat.min_eq_left havail, codec.readArray_writeArray_slice xs k n h]

end LearningCpp
