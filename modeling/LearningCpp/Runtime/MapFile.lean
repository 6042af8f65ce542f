import LearningCpp.Runtime.Memory

/-!
A map written to a file as the records of its values, in whatever order the map
is walked, and read back under the keys that the records carry. Reading leaves
out records that are not live.
-/

namespace LearningCpp

open Library

variable {κ ν : Type} [DecidableEq κ]

/-- The records of a file enter the map one after the other. -/
def readMap (codec : RecordCodec ν) (key : ν → κ) (live : ν → Bool) (m : Map κ ν)
    (bytes : List UInt8) : Map κ ν :=
  insertAll key id m
    ((codec.readArray (rounds (sizeToInt (bytes.length / codec.width))) bytes).filter live)

private theorem mem_walk {order : HashOrder κ ν} {m : Map κ ν} {v : ν} (h : v ∈ order.walk m) :
    ∃ k, m.lookup k = some v := by
  obtain ⟨e, he, rfl⟩ := List.mem_map.mp ((order.perm m).mem_iff.mp h)
  exact ⟨e.1, AList.mem_lookup_iff.mpr he⟩

/-- A map whose values know their keys, and are live, comes back from its file. -/
theorem readMap_writeArray (codec : RecordCodec ν) (order : HashOrder κ ν) (m : Map κ ν)
    (key : ν → κ) (live : ν → Bool) (hkey : ∀ k v, m.lookup k = some v → key v = k)
    (hlive : ∀ k v, m.lookup k = some v → live v) (hsize : m.entries.length < 2 ^ 31) (k : κ) :
    (readMap codec key live ∅ (codec.writeArray (order.walk m))).lookup k = m.lookup k := by
  have hwalk : (order.walk m).length < 2 ^ 31 := by
    rwa [(order.perm m).length_eq, List.length_map]
  have hcount : (codec.writeArray (order.walk m)).length / codec.width = (order.walk m).length := by
    rw [codec.writeArray_length, Nat.mul_div_cancel _ codec.width_pos]
  have hread : codec.readArray (order.walk m).length (codec.writeArray (order.walk m)) =
      order.walk m := by
    rw [codec.readArray_writeArray _ _ (Nat.le_refl _), List.take_length]
  have hall : (order.walk m).filter live = order.walk m := by
    apply List.filter_eq_self.mpr
    intro v hv
    obtain ⟨k, hlookup⟩ := mem_walk hv
    exact hlive k v hlookup
  rw [readMap, hcount, rounds_sizeToInt hwalk, hread, hall]
  exact order.lookup_rebuild m key hkey k

end LearningCpp
