import LearningCpp.EncodeConvert.Gbk
import LearningCpp.Library.Machine

/-!
The index of `_isGBK_`, step by step through its loops. The outer loop has no increment of
its own: a pass that neither returns nor breaks steps over an ASCII byte or over a pair.
-/

namespace LearningCpp.EncodeConvert

open Library

/-- Where `_isGBK_` is: at the test of the outer loop, in its first inner loop, at
`if (i == len - 1)`, in its second inner loop, or back. -/
inductive Place where
  | outer
  | ascii
  | half
  | pairs
  | returned (answer : Bool)
  deriving DecidableEq, Repr

/-- The index is an `int`; that it stays below `len` keeps it from overflowing too. -/
structure GbkScan where
  place : Place
  i : Int
  deriving DecidableEq, Repr

/-- `int len = (int)strlen(str);` -/
def CStr.len (str : CStr) : Int := (sizeToInt str.chars.length).toInt

/-- `str[i]` -/
def CStr.at (str : CStr) (i : Int) : UInt8 := str.chars.getD i.toNat 0

namespace GbkScan

def start : GbkScan := ⟨.outer, 0⟩

/-- The index that a step reads from, if it reads. -/
def read (str : CStr) (s : GbkScan) : Option Int :=
  match s.place with
  | .ascii => if s.i < str.len then some s.i else none
  | .pairs => if s.i < str.len - 1 then some s.i else none
  | .outer | .half | .returned _ => none

def step (str : CStr) (s : GbkScan) : GbkScan :=
  match s.place with
  | .outer => if s.i < str.len then ⟨.ascii, s.i⟩ else ⟨.returned true, s.i⟩
  | .ascii =>
      if s.i < str.len ∧ negative (str.at s.i) = false then ⟨.ascii, s.i + 1⟩ else ⟨.half, s.i⟩
  | .half => if s.i = str.len - 1 then ⟨.returned true, s.i⟩ else ⟨.pairs, s.i⟩
  | .pairs =>
      if s.i < str.len - 1 ∧ negative (str.at s.i) then
        if pairTest (str.at s.i) then ⟨.pairs, s.i + 2⟩ else ⟨.returned false, s.i⟩
      else ⟨.outer, s.i⟩
  | .returned _ => s

/-- `_isGBK_(str)` after `n` steps. -/
def after (str : CStr) (n : Nat) : GbkScan := (step str)^[n] start

/-- Within a pass of the outer loop. -/
def InPass (s : GbkScan) : Prop := s.place = .ascii ∨ s.place = .half ∨ s.place = .pairs

/-- The loops come to an end, with the answer of `_isGBK_`; they read only bytes before the
NUL and before `len`, the index does not go beyond these, and when the outer loop comes back to
its test the index has grown. -/
structure Inside (str : CStr) : Prop where
  returns : ∃ n answer, (after str n).place = .returned answer ∧ isGBK (some str) = some answer
  reads : ∀ n, ∀ j ∈ (after str n).read str, 0 ≤ j ∧ j < str.len ∧ j < str.chars.length
  bounded : ∀ n, (after str n).i ≤ str.chars.length ∧
    ((after str n).i ≠ 0 ∨ (after str n).InPass → (after str n).i ≤ str.len)
  progress : ∀ n m, n < m → (after str n).place = .outer → (after str m).place = .outer →
    (after str n).i < (after str m).i ∧ (after str m).i ≤ str.len

/-- What holds after every step. -/
structure Sound (str : CStr) (s : GbkScan) : Prop where
  nonneg : 0 ≤ s.i
  bounded : s.i ≤ str.len ∨ s.i = 0 ∧ ¬ s.InPass
  half : s.place = .half → s.i < str.len → negative (str.at s.i) = true

/-- The index has grown since it was `i₀` at the test of the outer loop, or a byte of a pair
stands there. -/
def Beyond (str : CStr) (i₀ : Int) (s : GbkScan) : Prop :=
  match s.place with
  | .ascii => i₀ ≤ s.i
  | .half => i₀ < s.i ∨ i₀ = s.i ∧ s.i < str.len
  | .pairs => i₀ < s.i ∨ i₀ = s.i ∧ s.i < str.len - 1 ∧ negative (str.at s.i) = true
  | .outer => i₀ < s.i
  | .returned _ => True

/-- How many steps can be left before the index grows again. -/
def rank (str : CStr) (s : GbkScan) : Nat :=
  match s.place with
  | .outer => if s.i < str.len then 4 else 1
  | .ascii => if s.i < str.len then 3 else 4
  | .half => if s.i < str.len then 2 else 3
  | .pairs =>
      if s.i < str.len - 1 ∧ negative (str.at s.i) then 1 else if s.i < str.len then 5 else 2
  | .returned _ => 0

/-- How many steps are left at most. -/
def measure (str : CStr) (s : GbkScan) : Nat := 6 * (str.len - s.i).toNat + rank str s

variable {str : CStr} {s : GbkScan}

theorem start_sound (str : CStr) : Sound str start where
  nonneg := le_rfl
  bounded := Or.inr ⟨rfl, by simp [InPass, start]⟩
  half h := by cases h

theorem Sound.le_len (h : Sound str s) (hpass : s.InPass) : s.i ≤ str.len := by
  rcases h.bounded with hle | ⟨-, hnot⟩
  · exact hle
  · exact absurd hpass hnot

theorem Sound.step (h : Sound str s) : Sound str (s.step str) := by
  obtain ⟨place, i⟩ := s
  have hnonneg : 0 ≤ i := h.nonneg
  cases place with
  | outer =>
    simp only [GbkScan.step]
    split
    · next hlt => exact ⟨hnonneg, Or.inl (le_of_lt hlt), nofun⟩
    · exact ⟨hnonneg, h.bounded.imp_right fun hout => ⟨hout.1, by simp [InPass]⟩, nofun⟩
  | ascii =>
    have hle : i ≤ str.len := h.le_len (Or.inl rfl)
    simp only [GbkScan.step]
    split
    · next hgo => exact ⟨by simp only; omega, Or.inl (by simp only; omega), nofun⟩
    · next hstop =>
      refine ⟨hnonneg, Or.inl hle, ?_⟩
      intro _ hlt
      rw [not_and, Bool.not_eq_false] at hstop
      exact hstop hlt
  | half =>
    have hle : i ≤ str.len := h.le_len (Or.inr (Or.inl rfl))
    simp only [GbkScan.step]
    split
    · exact ⟨hnonneg, Or.inl hle, nofun⟩
    · exact ⟨hnonneg, Or.inl hle, nofun⟩
  | pairs =>
    have hle : i ≤ str.len := h.le_len (Or.inr (Or.inr rfl))
    simp only [GbkScan.step]
    split
    · next hgo =>
      split
      · exact ⟨by simp only; omega, Or.inl (by simp only; omega), nofun⟩
      · exact ⟨hnonneg, Or.inl hle, nofun⟩
    · exact ⟨hnonneg, Or.inl hle, nofun⟩
  | returned answer => exact h

theorem sound_after (str : CStr) (n : Nat) : Sound str (after str n) :=
  Function.Iterate.rec (Sound str) (start_sound str) (fun _ h => h.step) n

private theorem rank_le (str : CStr) (s : GbkScan) : rank str s ≤ 5 := by
  unfold rank
  repeat' split
  all_goals omega

/-- A step that moves the index makes the measure smaller. -/
theorem measure_of_grown {s' : GbkScan} (hgrown : s.i < s'.i) (hlt : s.i < str.len) :
    measure str s' < measure str s := by
  have hrank := rank_le str s'
  unfold measure
  omega

/-- So does one that leaves it where it is and has the smaller rank. -/
theorem measure_of_rank {s' : GbkScan} (hsame : s'.i = s.i) (hrank : rank str s' < rank str s) :
    measure str s' < measure str s := by
  unfold measure
  rw [hsame]
  omega

/-- Every step leaves fewer. -/
theorem Sound.measure_step (h : Sound str s) (hplace : ∀ answer, s.place ≠ .returned answer) :
    measure str (s.step str) < measure str s := by
  obtain ⟨place, i⟩ := s
  cases place with
  | outer =>
    simp only [GbkScan.step]
    split
    · next hlt => exact measure_of_rank rfl (by simp [rank, hlt])
    · next hge => exact measure_of_rank rfl (by simp [rank, hge])
  | ascii =>
    simp only [GbkScan.step]
    split
    · next hgo => exact measure_of_grown (Int.lt_succ i) hgo.1
    · exact measure_of_rank rfl (by simp only [rank]; split <;> omega)
  | half =>
    have hle : i ≤ str.len := h.le_len (Or.inr (Or.inl rfl))
    simp only [GbkScan.step]
    split
    · exact measure_of_rank rfl (by simp only [rank]; split <;> omega)
    · next hne =>
      refine measure_of_rank rfl ?_
      simp only [rank]
      by_cases hlt : i < str.len
      · -- a byte of a pair stands there, and another one behind it
        have hpair : i < str.len - 1 ∧ negative (str.at i) = true :=
          ⟨by omega, h.half rfl hlt⟩
        simp [hpair, hlt]
      · have hnot : ¬ (i < str.len - 1 ∧ negative (str.at i) = true) := by omega
        simp [hnot, hlt]
  | pairs =>
    simp only [GbkScan.step]
    split
    · next hgo =>
      split
      · exact measure_of_grown (by simp only; omega) (by simp only; omega)
      · exact measure_of_rank rfl (by simp [rank, hgo])
    · next hstop =>
      refine measure_of_rank rfl ?_
      simp only [rank, hstop, if_false]
      split <;> omega
  | returned answer => exact absurd rfl (hplace answer)

/-- `_isGBK_` comes back. -/
theorem exists_returned (str : CStr) : ∃ n answer, (after str n).place = .returned answer := by
  obtain ⟨n, -, answer, hanswer⟩ := exists_iterate_done (fun s => ∃ answer, s.place = .returned answer)
    (measure str) (fun h => h.step) (fun h hnot => h.measure_step (not_exists.1 hnot))
    (start_sound str)
  exact ⟨n, answer, hanswer⟩

/-! The index grows in a pass that comes back to the test. -/

theorem Sound.beyond_step (h : Sound str s) {i₀ : Int} (hlt : i₀ < str.len)
    (hbeyond : Beyond str i₀ s) : Beyond str i₀ (s.step str) := by
  obtain ⟨place, i⟩ := s
  cases place with
  | outer =>
    simp only [Beyond] at hbeyond
    simp only [GbkScan.step]
    split
    · exact le_of_lt hbeyond
    · trivial
  | ascii =>
    simp only [Beyond] at hbeyond
    simp only [GbkScan.step]
    split
    · simp only [Beyond]
      omega
    · simp only [Beyond]
      omega
  | half =>
    simp only [Beyond] at hbeyond
    simp only [GbkScan.step]
    split
    · trivial
    · next hne =>
      rcases hbeyond with hgrown | ⟨hsame, hinside⟩
      · exact Or.inl hgrown
      · have hbefore : i < str.len - 1 := by omega
        exact Or.inr ⟨hsame, hbefore, h.half rfl hinside⟩
  | pairs =>
    simp only [Beyond] at hbeyond
    simp only [GbkScan.step]
    split
    · split
      · simp only [Beyond]
        omega
      · trivial
    · next hstop =>
      rcases hbeyond with hgrown | ⟨-, hinside⟩
      · exact hgrown
      · exact absurd hinside hstop
  | returned answer => trivial

theorem after_add (str : CStr) (n k : Nat) :
    after str (k + n) = (step str)^[k] (after str n) :=
  Function.iterate_add_apply (step str) k n start

/-- Between two tests of the outer loop the index grows. -/
theorem outer_lt {n m : Nat} (hnm : n < m) (hn : (after str n).place = .outer)
    (hm : (after str m).place = .outer) :
    (after str n).i < (after str m).i ∧ (after str m).i ≤ str.len := by
  obtain ⟨k, rfl⟩ : ∃ k, m = k + (n + 1) := ⟨m - (n + 1), by omega⟩
  have hnext : after str (n + 1) = (after str n).step str :=
    Function.iterate_succ_apply' (step str) n start
  have hlt : (after str n).i < str.len := by
    by_contra hout
    have hdone : after str (n + 1) = ⟨.returned true, (after str n).i⟩ := by
      rw [hnext, step, hn]
      exact if_neg hout
    rw [after_add, hdone, Function.iterate_fixed rfl] at hm
    cases hm
  have hfirst : Beyond str (after str n).i (after str (n + 1)) := by
    rw [hnext, step, hn]
    simp only [hlt, if_true]
    exact le_refl (after str n).i
  have hlast : Sound str (after str (k + (n + 1))) ∧
      Beyond str (after str n).i (after str (k + (n + 1))) := by
    rw [after_add]
    exact Function.Iterate.rec (fun s => Sound str s ∧ Beyond str (after str n).i s)
      ⟨sound_after str (n + 1), hfirst⟩ (fun _ h => ⟨h.1.step, h.1.beyond_step hlt h.2⟩) k
  have hgrown : (after str n).i < (after str (k + (n + 1))).i := by
    have hbeyond := hlast.2
    rwa [Beyond, hm] at hbeyond
  refine ⟨hgrown, ?_⟩
  have hnonneg := (sound_after str n).nonneg
  rcases hlast.1.bounded with hle | ⟨hzero, -⟩
  · exact hle
  · omega

/-! What is read. -/

theorem len_toNat_le (str : CStr) : str.len.toNat ≤ str.chars.length :=
  rounds_sizeToInt_le str.chars.length

theorem Sound.read_inside (h : Sound str s) {j : Int} (hread : j ∈ s.read str) :
    0 ≤ j ∧ j < str.len ∧ j < str.chars.length := by
  have hlen := len_toNat_le str
  obtain ⟨place, i⟩ := s
  have hnonneg : 0 ≤ i := h.nonneg
  cases place with
  | ascii =>
    simp only [read, Option.mem_def, Option.ite_none_right_eq_some] at hread
    obtain ⟨hlt, hsame⟩ := hread
    cases hsame
    exact ⟨hnonneg, hlt, by omega⟩
  | pairs =>
    simp only [read, Option.mem_def, Option.ite_none_right_eq_some] at hread
    obtain ⟨hlt, hsame⟩ := hread
    cases hsame
    exact ⟨hnonneg, by omega, by omega⟩
  | outer => cases hread
  | half => cases hread
  | returned answer => cases hread

/-! The answer. -/

/-- What the loops have still to look at. -/
def rest (str : CStr) (i : Int) : List UInt8 := (scanned str.chars).drop i.toNat

theorem rest_of_ge {i : Int} (h : str.len ≤ i) : rest str i = [] := by
  have hlength : (scanned str.chars).length ≤ str.len.toNat := List.length_take_le _ _
  exact List.drop_of_length_le (by omega)

theorem rest_of_lt {i : Int} (hnonneg : 0 ≤ i) (h : i < str.len) :
    rest str i = str.at i :: rest str (i + 1) := by
  have hlen := len_toNat_le str
  have hin : i.toNat < str.chars.length := by omega
  have hscanned : i.toNat < (scanned str.chars).length := by
    have hlength : (scanned str.chars).length = min str.len.toNat str.chars.length :=
      List.length_take
    omega
  have hnext : (i + 1).toNat = i.toNat + 1 := by omega
  rw [rest, rest, hnext, List.drop_eq_getElem_cons hscanned]
  congr 1
  have hat : str.at i = str.chars[i.toNat] := by
    rw [CStr.at, List.getD_eq_getElem?_getD, List.getElem?_eq_getElem hin, Option.getD_some]
  rw [hat]
  exact List.getElem_take

/-- The answer, or what it will be. -/
def Accepts (str : CStr) (s : GbkScan) : Prop :=
  match s.place with
  | .returned answer => answer = true
  | _ => ¬ Broken (rest str s.i)

theorem Sound.accepts_step (h : Sound str s) : Accepts str (s.step str) ↔ Accepts str s := by
  obtain ⟨place, i⟩ := s
  have hnonneg : 0 ≤ i := h.nonneg
  cases place with
  | outer =>
    simp only [GbkScan.step]
    split
    · exact Iff.rfl
    · next hge => simp [Accepts, rest_of_ge (Int.not_lt.1 hge), not_broken_nil]
  | ascii =>
    simp only [GbkScan.step]
    split
    · next hgo =>
      have hascii : str.at i < 0x80 := by
        rw [← UInt8.not_le, ← negative_iff, hgo.2]
        exact Bool.false_ne_true
      simp only [Accepts, rest_of_lt hnonneg hgo.1, broken_ascii hascii]
    · exact Iff.rfl
  | half =>
    simp only [GbkScan.step]
    split
    · next hlast =>
      have hneg : 0x80 ≤ str.at i := (negative_iff _).1 (h.half rfl (by simp only; omega))
      have hrest : rest str i = [str.at i] := by
        rw [rest_of_lt hnonneg (by omega), rest_of_ge (by omega)]
      simp [Accepts, hrest, not_broken_single hneg]
    · exact Iff.rfl
  | pairs =>
    simp only [GbkScan.step]
    split
    · next hgo =>
      have hneg : 0x80 ≤ str.at i := (negative_iff _).1 hgo.2
      have hrest : rest str i = str.at i :: str.at (i + 1) :: rest str (i + 2) := by
        rw [rest_of_lt hnonneg (by omega), rest_of_lt (by omega) (by omega), Int.add_assoc]
        rfl
      split
      · next htest =>
        have hlead := (pairTest_iff hneg).1 htest
        simp [Accepts, hrest, broken_pair hneg, hlead.1, hlead.2]
      · next htest =>
        rw [pairTest_iff hneg] at htest
        have hbroken : Broken (rest str i) := by
          rw [hrest, broken_pair hneg]
          tauto
        simp [Accepts, hbroken]
    · exact Iff.rfl
  | returned answer => exact Iff.rfl

private theorem accepts_after (str : CStr) (n : Nat) :
    Accepts str (after str n) ↔ ¬ Broken (scanned str.chars) := by
  induction n with
  | zero => exact Iff.rfl
  | succ n ih =>
    have hnext : after str (n + 1) = (after str n).step str :=
      Function.iterate_succ_apply' (step str) n start
    rw [hnext, (sound_after str n).accepts_step, ih]

/-- The answer is the one of the loops over what is left of the string. -/
theorem answer_eq {n : Nat} {answer : Bool} (hanswer : (after str n).place = .returned answer) :
    isGBK (some str) = some answer := by
  obtain ⟨answer', heq, hiff⟩ := isGBK_eq str
  have haccepts := accepts_after str n
  rw [Accepts, hanswer, ← hiff] at haccepts
  rw [heq, Bool.eq_iff_iff.2 haccepts]

/-- For every string the loops of `_isGBK_` come to an end and stay inside of it. -/
theorem isGBK_inside (str : CStr) : Inside str := by
  constructor
  · obtain ⟨n, answer, hanswer⟩ := exists_returned str
    exact ⟨n, answer, hanswer, answer_eq hanswer⟩
  · exact fun n j hread => (sound_after str n).read_inside hread
  · intro n
    have hsound := sound_after str n
    have hlen := len_toNat_le str
    rcases hsound.bounded with hle | ⟨hzero, hnot⟩
    · exact ⟨by omega, fun _ => hle⟩
    · refine ⟨by omega, ?_⟩
      rintro (hmoved | hpass)
      · exact absurd hzero hmoved
      · exact absurd hpass hnot
  · exact fun n m hnm hn hm => outer_lt hnm hn hm

end GbkScan

end LearningCpp.EncodeConvert
