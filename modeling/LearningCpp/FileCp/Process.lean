import LearningCpp.Library.RangeCopy
import LearningCpp.Runtime.Memory

/-!
`file_cp/mult_process_cp.c`: child processes copy ranges of a mapped file. The
ranges of the first, the middle and the last child follow different formulas;
they cover the file only when there is no child in the middle and the remainder
of the second division is the one that is left over.
-/

namespace LearningCpp.FileCp

open Library

/-- How far `main` gets before the children copy. A child's `memcpy` is its range. -/
inductive Started where
  | exit (dst : List UInt8)
  | dividedByZero
  | forked (dst : List UInt8) (children : List Range)
  deriving DecidableEq

/-- The branch of child `i` behind the loop that forks. -/
def child (n bs mod i : Int32) : Range :=
  if i = n - 1 then {off := intToSize (i * bs), size := intToSize (bs + mod)}
  else if i = 0 then {off := 0, size := intToSize bs}
  else {off := intToSize (i * bs + 1), size := intToSize bs}

/-- `ftruncate` refuses a negative length and `mmap` a length of zero; `main` then
exits with an empty destination. A truncated file is filled with zeros. -/
def start (src : List UInt8) (n : Int32) : Started :=
  let len := sizeToInt src.length
  let n := if len < n then len else n
  if len < 0 then .exit []
  else if len = 0 then .exit []
  else if n = 0 then .dividedByZero
  else
    let bs := len / n
    if bs = 0 then .dividedByZero
    else
      let mod := len % bs
      .forked (List.replicate (rounds len) 0)
        ((List.range (rounds n)).map (fun i => child n bs mod (sizeToInt i)))

/-- Nothing is divided by zero, the ranges cover the file and stay inside it, and
in whatever order the children run the destination is then the source. -/
def CopiesAll (src : List UInt8) (n : Int32) : Prop :=
  match start src n with
  | .exit dst => dst = src
  | .dividedByZero => False
  | .forked dst children =>
      (∀ k < src.length, ∃ r ∈ children, r.Covers k) ∧
      (∀ r ∈ children, r.off + r.size ≤ src.length) ∧
      ∀ schedule s, runSteps (copyStep src children) (.start dst children) schedule = some s →
        (∀ w, copyStep src children s w = none) → s.dst = src

/-- The range of child `i` of `m` for `len` bytes. -/
def childRange (len m i : Nat) : Range :=
  if i + 1 = m then {off := i * (len / m), size := len / m + len % (len / m)}
  else if i = 0 then {off := 0, size := len / m}
  else {off := i * (len / m) + 1, size := len / m}

private theorem mod_quotient_le (len m : Nat) : len % (len / m) ≤ len % m := by
  have hsplit : m * (len / m) + len % m = len := Nat.div_add_mod len m
  generalize len / m = bs at hsplit ⊢
  generalize len % m = r at hsplit ⊢
  rw [← hsplit, Nat.mul_add_mod_self_right]
  exact Nat.mod_le r bs

/-- The ranges of the children end within the file. -/
theorem childRange_inside {len m i : Nat} (hm : m ≤ len) (hi : i < m) :
    (childRange len m i).off + (childRange len m i).size ≤ len := by
  have hbs : 0 < len / m := Nat.div_pos hm (by omega)
  have hsplit : m * (len / m) + len % m = len := Nat.div_add_mod len m
  have hmul : (i + 1) * (len / m) ≤ m * (len / m) := Nat.mul_le_mul_right _ hi
  have hmod := mod_quotient_le len m
  unfold childRange
  generalize len / m = bs at *
  rw [Nat.add_mul, Nat.one_mul] at hmul
  split
  · simp only
    omega
  · split
    · simp only
      omega
    · have hnext : (i + 1 + 1) * bs ≤ m * bs := Nat.mul_le_mul_right _ (by omega)
      rw [Nat.add_mul, Nat.add_mul, Nat.one_mul] at hnext
      simp only
      omega

private theorem child_eq {len m i : Nat} (hlen : len < 2 ^ 31) (hm : m ≤ len) (hi : i < m) :
    child (sizeToInt m) (sizeToInt (len / m)) (sizeToInt (len % (len / m))) (sizeToInt i) =
      childRange len m i := by
  have hinside := childRange_inside hm hi
  have hlast : sizeToInt i = sizeToInt m - 1 ↔ i + 1 = m := by
    rw [← sizeToInt_inj (by omega) (by omega), sizeToInt, sizeToInt, sizeToInt, Int32.ofNat_add]
    exact Int32.eq_sub_iff_add_eq
  have hfirst : sizeToInt i = 0 ↔ i = 0 := sizeToInt_inj (b := 0) (by omega) (by omega)
  have hmul : sizeToInt i * sizeToInt (len / m) = sizeToInt (i * (len / m)) := (Int32.ofNat_mul _ _).symm
  have hadd : sizeToInt (len / m) + sizeToInt (len % (len / m)) =
      sizeToInt (len / m + len % (len / m)) := (Int32.ofNat_add _ _).symm
  have hnext : sizeToInt (i * (len / m)) + 1 = sizeToInt (i * (len / m) + 1) :=
    (Int32.ofNat_add _ _).symm
  have hbs : len / m ≤ len := Nat.div_le_self len m
  rw [childRange] at hinside ⊢
  simp only [child, hlast, hfirst, hmul, hadd, hnext]
  generalize len / m = bs at *
  split
  · next h =>
    simp only [h, ↓reduceIte] at hinside
    rw [intToSize_sizeToInt (by omega), intToSize_sizeToInt (by omega)]
  · next h =>
    rw [if_neg h] at hinside
    split
    · rw [intToSize_sizeToInt (by omega)]
    · next hzero =>
      rw [if_neg hzero] at hinside
      simp only at hinside
      rw [intToSize_sizeToInt (by omega), intToSize_sizeToInt (by omega)]

/-- What `main` starts for a length that is positive once narrowed to `int`. -/
theorem start_forked {src : List UInt8} {n : Int32} {len m : Nat} (hn : 0 < n)
    (hlen : len = rounds (sizeToInt src.length)) (hpos : 0 < len) (hm : m = min (rounds n) len) :
    start src n = .forked (List.replicate len 0) ((List.range m).map (childRange len m)) := by
  have hlen31 : len < 2 ^ 31 := hlen ▸ rounds_lt _
  have hn' : sizeToInt (rounds n) = n := sizeToInt_rounds (Int32.le_of_lt hn)
  have hnpos := rounds_pos hn
  have hnarrow : sizeToInt src.length = sizeToInt len := by
    have hnonneg : 0 ≤ sizeToInt src.length := by
      rw [Int32.le_iff_toInt_le, Int32.toInt_zero]
      unfold rounds at hlen
      omega
    rw [hlen, sizeToInt_rounds hnonneg]
  have hclamp : (if sizeToInt len < n then sizeToInt len else n) = sizeToInt m := by
    have hcmp : sizeToInt len < n ↔ len < rounds n := by
      rw [← sizeToInt_lt_iff hlen31 (rounds_lt n), hn']
    rw [hm, Nat.min_def]
    by_cases hlt : len < rounds n
    · rw [if_pos (hcmp.mpr hlt), if_neg (by omega)]
    · rw [if_neg (fun h => hlt (hcmp.mp h))]
      split
      · exact hn'.symm
      · omega
  have hmlen : m ≤ len := by omega
  have hbs : len / m ≤ len := Nat.div_le_self len m
  have hbspos : 0 < len / m := Nat.div_pos hmlen (by omega)
  have hdiv : sizeToInt len / sizeToInt m = sizeToInt (len / m) :=
    (Int32.ofNat_div hlen31 (by omega)).symm
  have hmod : sizeToInt len % sizeToInt (len / m) = sizeToInt (len % (len / m)) :=
    (Int32.ofNat_mod hlen31 (by omega)).symm
  unfold start
  simp only [hnarrow, hclamp, hdiv, hmod]
  rw [if_neg (not_sizeToInt_neg hlen31), if_neg (sizeToInt_ne_zero hpos hlen31),
    if_neg (sizeToInt_ne_zero (by omega) (by omega)),
    if_neg (sizeToInt_ne_zero hbspos (by omega)),
    rounds_sizeToInt hlen31, rounds_sizeToInt (by omega)]
  congr 1
  apply List.map_congr_left
  intro i hi
  exact child_eq hlen31 hmlen (List.mem_range.mp hi)

/-- With three children or more nobody copies the byte behind the first range. -/
theorem not_covers_first_gap {len m i : Nat} (hm : 3 ≤ m) (hbs : 0 < len / m) :
    ¬ (childRange len m i).Covers (len / m) := by
  unfold childRange Range.Covers
  generalize len / m = bs at *
  split
  · next hlast =>
    have hmul : 2 * bs ≤ i * bs := Nat.mul_le_mul_right _ (by omega)
    simp only
    omega
  · split
    · simp only
      omega
    · next hi =>
      have hmul : 1 * bs ≤ i * bs := Nat.mul_le_mul_right _ (by omega)
      simp only
      omega

/-- The two ranges of two children end where the remainder by their size does. -/
theorem two_mul_half_add_mod {len : Nat} (hlen : 2 ≤ len) :
    2 * (len / 2) + len % (len / 2) = len ↔ len ≠ 3 := by
  have hsplit : 2 * (len / 2) + len % 2 = len := Nat.div_add_mod len 2
  have hparity : len % 2 < 2 := Nat.mod_lt _ (by omega)
  have hbs : 0 < len / 2 := Nat.div_pos hlen (by omega)
  have hmod : len % (len / 2) = len % 2 % (len / 2) := by
    generalize len / 2 = bs at hsplit ⊢
    generalize len % 2 = r at hsplit ⊢
    rw [← hsplit, Nat.mul_add_mod_self_right]
  rcases Nat.lt_or_ge (len % 2) (len / 2) with hlt | hge
  · rw [hmod, Nat.mod_eq_of_lt hlt]
    omega
  · have hone : len / 2 = 1 := by omega
    rw [hone, Nat.mod_one]
    omega

private theorem children_cover_iff {len m : Nat} (hm : 0 < m) (hlen : m ≤ len) :
    (∀ k < len, ∃ r ∈ (List.range m).map (childRange len m), r.Covers k) ↔
      m = 1 ∨ (m = 2 ∧ len ≠ 3) := by
  have hbs : 0 < len / m := Nat.div_pos hlen hm
  constructor
  · intro hcover
    by_contra hnot
    rcases Nat.lt_or_ge m 3 with hlt | hge
    · obtain ⟨rfl, rfl⟩ : m = 2 ∧ len = 3 := by omega
      obtain ⟨r, hr, hcovers⟩ := hcover 2 (by omega)
      revert r
      decide
    · have hgap : len / m < len := Nat.div_lt_self (by omega) (by omega)
      obtain ⟨r, hr, hcovers⟩ := hcover (len / m) hgap
      obtain ⟨i, _, rfl⟩ := List.mem_map.mp hr
      exact not_covers_first_gap hge hbs hcovers
  · rintro (rfl | ⟨rfl, hthree⟩) k hk
    · refine ⟨childRange len 1 0, List.mem_map.mpr ⟨0, by simp, rfl⟩, ?_⟩
      have hwhole : childRange len 1 0 = {off := 0, size := len} := by simp [childRange]
      rw [hwhole]
      exact ⟨Nat.zero_le k, by simpa using hk⟩
    · have hend := (two_mul_half_add_mod hlen).mpr hthree
      rcases Nat.lt_or_ge k (len / 2) with hfirst | hlast
      · refine ⟨childRange len 2 0, List.mem_map.mpr ⟨0, by simp, rfl⟩, ?_⟩
        exact ⟨Nat.zero_le k, by simpa [childRange] using hfirst⟩
      · refine ⟨childRange len 2 1, List.mem_map.mpr ⟨1, by simp, rfl⟩, ?_⟩
        have hrest : childRange len 2 1 = {off := len / 2, size := len / 2 + len % (len / 2)} := by
          simp [childRange]
        rw [hrest]
        exact ⟨hlast, by simp only; omega⟩

/-- A length that narrows to a positive `int` of the same value. -/
theorem copiesAll_iff_of_pos {src : List UInt8} {n : Int32} (hn : 0 < n) (hpos : 0 < src.length)
    (hlen : src.length < 2 ^ 31) :
    CopiesAll src n ↔ src.length ≤ 2 ∨ n = 1 ∨ (n = 2 ∧ src.length ≠ 3) := by
  have hnpos := rounds_pos hn
  have hn' : sizeToInt (rounds n) = n := sizeToInt_rounds (Int32.le_of_lt hn)
  have hone : n = 1 ↔ rounds n = 1 := by
    rw [← sizeToInt_inj (rounds_lt n) (by decide), hn']
    rfl
  have htwo : n = 2 ↔ rounds n = 2 := by
    rw [← sizeToInt_inj (rounds_lt n) (by decide), hn']
    rfl
  have hlength := (rounds_sizeToInt hlen).symm
  have hstart := start_forked hn hlength hpos rfl
  have hchildren : 0 < min (rounds n) src.length := by omega
  have hcover := children_cover_iff hchildren (Nat.min_le_right (rounds n) src.length)
  have hinside : ∀ r ∈ (List.range (min (rounds n) src.length)).map
      (childRange src.length (min (rounds n) src.length)), r.off + r.size ≤ src.length := by
    intro r hr
    obtain ⟨i, hi, rfl⟩ := List.mem_map.mp hr
    exact childRange_inside (Nat.min_le_right _ _) (List.mem_range.mp hi)
  rw [hone, htwo, CopiesAll, hstart]
  simp only
  rw [hcover]
  constructor
  · rintro ⟨hcovers, -⟩
    omega
  · intro hcond
    have hcovers : min (rounds n) src.length = 1 ∨
        (min (rounds n) src.length = 2 ∧ src.length ≠ 3) := by omega
    refine ⟨hcovers, hinside, ?_⟩
    intro schedule s hrun hstuck
    exact (copy_complete List.length_replicate hinside (hcover.mpr hcovers) hrun hstuck).1

/-- From 2 ^ 31 bytes on the length is cut to an `int`, and the last byte is not copied. -/
theorem not_copiesAll_of_large {src : List UInt8} {n : Int32} (hn : 0 < n)
    (hlen : 2 ^ 31 ≤ src.length) : ¬ CopiesAll src n := by
  have hsrc : src ≠ [] := List.ne_nil_of_length_pos (by omega)
  rcases Nat.eq_zero_or_pos (rounds (sizeToInt src.length)) with hzero | hpos
  · have hexit : start src n = .exit [] := by
      unfold start
      simp only
      rcases (rounds_eq_zero_iff _).mp hzero with h | h
      · rw [if_neg (by rw [h]; decide), if_pos h]
      · rw [if_pos h]
    rw [CopiesAll, hexit]
    exact fun h => hsrc h.symm
  · rw [CopiesAll, start_forked hn rfl hpos rfl]
    rintro ⟨hcovers, -⟩
    obtain ⟨r, hr, -, hhigh⟩ := hcovers (src.length - 1) (by omega)
    obtain ⟨i, hi, rfl⟩ := List.mem_map.mp hr
    have hinside := childRange_inside (Nat.min_le_right (rounds n) _) (List.mem_range.mp hi)
    have hcut := rounds_lt (sizeToInt src.length)
    omega

/-- All bytes are copied exactly when the length fits in an `int` and there is
no child in the middle, nor a remainder that the second division loses. -/
theorem copiesAll_iff (src : List UInt8) (n : Int32) (hn : 0 < n) :
    CopiesAll src n ↔
      src.length < 2 ^ 31 ∧ (src.length ≤ 2 ∨ n = 1 ∨ (n = 2 ∧ src.length ≠ 3)) := by
  rcases Nat.lt_or_ge src.length (2 ^ 31) with hlt | hge
  · rcases List.eq_nil_or_concat src with rfl | ⟨_, _, rfl⟩
    · have hstart : start [] n = .exit [] := by
        have hzero : sizeToInt ([] : List UInt8).length = 0 := rfl
        unfold start
        simp only [hzero]
        rw [if_neg (by decide), if_pos trivial]
      rw [CopiesAll, hstart]
      simp
    · rw [copiesAll_iff_of_pos hn (by simp) hlt]
      exact (and_iff_right hlt).symm
  · constructor
    · exact fun h => absurd h (not_copiesAll_of_large hn hge)
    · rintro ⟨hlt, -⟩
      omega

/-- Two children copy five bytes. -/
theorem copiesAll_five_bytes : CopiesAll [1, 2, 3, 4, 5] 2 :=
  (copiesAll_iff [1, 2, 3, 4, 5] 2 (by decide)).mpr ⟨by decide, Or.inr (Or.inr ⟨rfl, by decide⟩)⟩

/-- Four children copy ten bytes: those in the middle start one byte too late,
and the remainder by the range's size is not the one that is left over. -/
theorem four_children_skip_bytes :
    start [1, 2, 3, 4, 5, 6, 7, 8, 9, 10] 4 =
        .forked (List.replicate 10 0) [⟨0, 2⟩, ⟨3, 2⟩, ⟨5, 2⟩, ⟨6, 2⟩] ∧
      runSteps (copyStep [1, 2, 3, 4, 5, 6, 7, 8, 9, 10] [⟨0, 2⟩, ⟨3, 2⟩, ⟨5, 2⟩, ⟨6, 2⟩])
          (.start (List.replicate 10 0) [⟨0, 2⟩, ⟨3, 2⟩, ⟨5, 2⟩, ⟨6, 2⟩])
          [0, 0, 1, 1, 2, 2, 3, 3] =
        some {dst := [1, 2, 0, 4, 5, 6, 7, 8, 0, 0], progress := [2, 2, 2, 2]} ∧
      ¬ CopiesAll [1, 2, 3, 4, 5, 6, 7, 8, 9, 10] 4 := by
  have hstart : start [1, 2, 3, 4, 5, 6, 7, 8, 9, 10] 4 =
      .forked (List.replicate 10 0) [⟨0, 2⟩, ⟨3, 2⟩, ⟨5, 2⟩, ⟨6, 2⟩] := by decide +kernel
  refine ⟨hstart, by decide, ?_⟩
  rw [CopiesAll, hstart]
  rintro ⟨hcover, -⟩
  obtain ⟨r, hr, hcovers⟩ := hcover 2 (by decide)
  revert r
  decide

end LearningCpp.FileCp
