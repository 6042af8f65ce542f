import LearningCpp.Library.Occurrences
import LearningCpp.Runtime.Memory

/-!
`StringSplit` of `stl/StringSplit.cpp`: the pieces of a string between the
occurrences of a delimiter. With an empty delimiter the search never advances.
-/

namespace LearningCpp.Stl

open Library

abbrev Text := List UInt8

/-- `sData.find(sDelim, pos)`; none is `npos`. -/
def find (sData sDelim : Text) (pos : Nat) : Option Nat :=
  if pos ≤ sData.length then (firstAt sDelim (sData.drop pos)).map (fun n => pos + n) else none

/-- `sData.substr(pos, n)` -/
def substr (sData : Text) (pos n : Nat) : Except Fault Text :=
  if pos ≤ sData.length then .ok ((sData.drop pos).take n) else .error .outOfRange

/-- The search, for at most `fuel` rounds, and the piece behind it. -/
def splitLoop (sData sDelim : Text) : Nat → Nat → Nat → List Text → Option (Except Fault (List Text))
  | 0, _, _, _ => none
  | fuel + 1, bpos, epos, vItems =>
      match find sData sDelim epos with
      | some epos =>
          match substr sData bpos (epos - bpos) with
          | .ok item =>
              let epos := epos + sDelim.length
              splitLoop sData sDelim fuel epos epos (vItems ++ [item])
          | .error fault => some (.error fault)
      | none => some ((substr sData bpos (sData.length - bpos)).map fun item => vItems ++ [item])

/-- `StringSplit(sData, sDelim)`, or none when the search takes more than `fuel` rounds. -/
def stringSplit (fuel : Nat) (sData sDelim : Text) : Option (Except Fault (List Text)) :=
  splitLoop sData sDelim fuel 0 0 []

/-- The search comes to an end. -/
def Terminates (sData sDelim : Text) : Prop := ∃ fuel result, stringSplit fuel sData sDelim = some result

variable {sData sDelim : Text} {pos : Nat}

theorem find_of_firstAt {n : Nat} (hpos : pos ≤ sData.length)
    (h : firstAt sDelim (sData.drop pos) = some n) : find sData sDelim pos = some (pos + n) := by
  rw [find, if_pos hpos, h, Option.map_some]

private theorem find_of_none (h : firstAt sDelim (sData.drop pos) = none) :
    find sData sDelim pos = none := by
  rw [find, h, Option.map_none, ite_self]

private theorem find_empty (hpos : pos ≤ sData.length) : find sData [] pos = some pos :=
  find_of_firstAt hpos (firstAt_of_begins List.nil_prefix)

theorem substr_of_le (hpos : pos ≤ sData.length) (n : Nat) :
    substr sData pos n = .ok ((sData.drop pos).take n) :=
  if_pos hpos

/-- From a position on, the loop adds the pieces of what is left of the string. -/
theorem splitLoop_eq (hdelim : sDelim ≠ []) (hpos : pos ≤ sData.length) :
    ∃ items, (∀ fuel vItems, sData.length - pos < fuel →
        splitLoop sData sDelim fuel pos pos vItems = some (.ok (vItems ++ items))) ∧
      items ≠ [] ∧ (∀ item ∈ items, ¬ sDelim <:+: item) ∧
      sDelim.intercalate items = sData.drop pos ∧
      items.length = occurrences sDelim 0 (sData.drop pos) + 1 := by
  induction hleft : sData.length - pos using Nat.strong_induction_on generalizing pos with
  | h left ih =>
      cases hfirst : firstAt sDelim (sData.drop pos) with
      | none =>
          refine ⟨[sData.drop pos], ?_, List.cons_ne_nil _ _, ?_, ?_, ?_⟩
          · intro fuel vItems hfuel
            obtain ⟨fuel, rfl⟩ : ∃ k, fuel = k + 1 := Nat.exists_eq_succ_of_ne_zero (by omega)
            rw [splitLoop, find_of_none hfirst]
            simp only [substr_of_le hpos]
            rw [List.take_of_length_le (by rw [List.length_drop])]
            rfl
          · rw [List.forall_mem_singleton]
            exact firstAt_eq_none_iff.mp hfirst
          · exact List.intercalate_singleton
          · rw [occurrences_of_none hfirst]
            rfl
      | some n =>
          obtain ⟨hle, hcut⟩ := firstAt_eq_some hfirst
          rw [List.length_drop] at hle
          have hlength := List.length_pos_iff.mpr hdelim
          obtain ⟨items, hloop, hne, hfree, hjoin, hcount⟩ :=
            ih (sData.length - (pos + n + sDelim.length)) (by omega) (by omega) rfl
          rw [Nat.add_assoc, ← List.drop_drop] at hjoin hcount
          refine ⟨(sData.drop pos).take n :: items, ?_, List.cons_ne_nil _ _, ?_, ?_, ?_⟩
          · intro fuel vItems hfuel
            obtain ⟨fuel, rfl⟩ : ∃ k, fuel = k + 1 := Nat.exists_eq_succ_of_ne_zero (by omega)
            rw [splitLoop, find_of_firstAt hpos hfirst]
            simp only [substr_of_le hpos, Nat.add_sub_cancel_left]
            rw [hloop fuel _ (by omega), List.append_assoc]
            rfl
          · rw [List.forall_mem_cons]
            exact ⟨not_infix_take hdelim hfirst, hfree⟩
          · rw [List.intercalate_cons_of_ne_nil hne, hjoin, hcut]
          · rw [List.length_cons, hcount, occurrences_of_some hdelim hfirst]

/-- With a delimiter that is not empty the search ends, and the pieces hold no delimiter and
give the string when they are put together with it; there is one more of them than the
delimiter occurs from left to right. -/
theorem stringSplit_pieces (sData : Text) {sDelim : Text} (hdelim : sDelim ≠ []) :
    ∃ items, (∀ fuel, sData.length < fuel → stringSplit fuel sData sDelim = some (.ok items)) ∧
      (∀ item ∈ items, ¬ sDelim <:+: item) ∧ sDelim.intercalate items = sData ∧
      items.length = occurrences sDelim 0 sData + 1 := by
  obtain ⟨items, hloop, _, hfree, hjoin, hcount⟩ := splitLoop_eq hdelim (Nat.zero_le sData.length)
  refine ⟨items, ?_, hfree, hjoin, hcount⟩
  intro fuel hfuel
  exact hloop fuel [] hfuel

/-- A delimiter that overlaps itself. -/
theorem stringSplit_pieces_overlap :
    ∃ items, (∀ fuel, 4 < fuel → stringSplit fuel [97, 97, 97, 98] [97, 97] = some (.ok items)) ∧
      (∀ item ∈ items, ¬ [97, 97] <:+: item) ∧ items.length = 2 := by
  obtain ⟨items, hloop, hfree, _, hcount⟩ :=
    @stringSplit_pieces [97, 97, 97, 98] [97, 97] (by decide)
  exact ⟨items, hloop, hfree, hcount⟩

example : stringSplit 10 [97, 44, 44, 98, 44] [44] = some (.ok [[97], [], [98], []]) := by decide

/-- An empty delimiter is found where the search stands. -/
theorem splitLoop_empty (hpos : pos ≤ sData.length) (fuel : Nat) (vItems : List Text) :
    splitLoop sData [] fuel pos pos vItems = none := by
  induction fuel generalizing vItems with
  | zero => rfl
  | succ fuel ih =>
      rw [splitLoop, find_empty hpos]
      simp only [substr_of_le hpos]
      exact ih _

/-- The search comes to an end exactly when the delimiter is not empty. -/
theorem terminates_iff (sData sDelim : Text) : Terminates sData sDelim ↔ sDelim ≠ [] := by
  constructor
  · rintro ⟨fuel, result, hresult⟩ rfl
    rw [stringSplit, splitLoop_empty (Nat.zero_le _)] at hresult
    cases hresult
  · intro hdelim
    obtain ⟨items, hloop, _⟩ := splitLoop_eq hdelim (Nat.zero_le sData.length)
    exact ⟨sData.length + 1, _, hloop _ [] (Nat.lt_succ_self _)⟩

theorem not_terminates_empty : ¬ Terminates [97] [] := by
  rintro ⟨fuel, result, hresult⟩
  rw [stringSplit, splitLoop_empty (Nat.zero_le _)] at hresult
  cases hresult

end LearningCpp.Stl
