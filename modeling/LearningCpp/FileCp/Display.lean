import LearningCpp.FileCp.Thread

/-!
The progress thread `display` of `file_cp/mult_thread_cp.c`. It reads the counters
of the threads again and again, and draws fifty marks while the file is copied.
-/

namespace LearningCpp.FileCp

def ITEMS : Int32 := 50

/-- The marks that are drawn, and the snapshots of `done` that have not been read yet. -/
structure Display where
  draw : Int32
  unread : List (List Int32)
  deriving DecidableEq, Repr

/-- `for(i = 0, sum = 0; i < n; i++) sum += done[i];` -/
def sumDone (done : List Int32) : Int32 := done.foldl (fun sum count => sum + count) 0

/-- `j = sum / interval + 1;` and the marks that are drawn up to `j`. -/
def drawMarks (interval draw : Int32) (done : List Int32) : Int32 :=
  let j := sumDone done / interval + 1
  if draw < j then j else draw

/-- The loop, as long as there are snapshots to read; none is a division by zero. -/
def displayLoop (interval : Int32) : Int32 → List (List Int32) → Option Display
  | draw, [] => some {draw := draw, unread := []}
  | draw, done :: rest =>
      if draw < ITEMS then
        if interval = 0 then none
        else displayLoop interval (drawMarks interval draw done) rest
      else some {draw := draw, unread := done :: rest}

/-- `display(arg)` on a sequence of snapshots. -/
def display (arg : Nat) (snapshots : List (List Int32)) : Option Display :=
  let size := sizeToInt arg
  displayLoop (size / (ITEMS - 1)) 0 snapshots

/-- The loop has been left. -/
def Display.Left (p : Display) : Prop := ITEMS ≤ p.draw

/-- Snapshots of counters that only grow, up to the size of the file. -/
structure Snapshots (size : Nat) where
  list : List (List Int32)
  nonneg : ∀ done ∈ list, ∀ count ∈ done, 0 ≤ count
  ascending : list.Pairwise (List.Forall₂ (fun a b => a ≤ b))
  complete : ∃ done ∈ list.getLast?, (done.map Int32.toInt).sum = size

/-- `display` divides by no zero, has left its loop when all snapshots are read, and leaves it
on none in which more than 48 bytes are still to be copied. -/
structure Shows (size : Nat) (snapshots : Snapshots size) : Prop where
  divides : display size snapshots.list ≠ none
  leaves : ∀ p ∈ display size snapshots.list, p.Left
  late : ∀ p ∈ display size snapshots.list, p.Left →
    ∀ seen done, snapshots.list = seen ++ done :: p.unread →
      size - (done.map Int32.toInt).sum ≤ 48

theorem toInt_foldl_add {done : List Int32} {sum : Int32} (hnonneg : ∀ count ∈ done, 0 ≤ count)
    (hsum : 0 ≤ sum.toInt) (hbound : sum.toInt + (done.map Int32.toInt).sum < 2 ^ 31) :
    (done.foldl (fun sum count => sum + count) sum).toInt =
      sum.toInt + (done.map Int32.toInt).sum := by
  induction done generalizing sum with
  | nil => simp
  | cons count done ih =>
      rw [List.forall_mem_cons, Int32.le_iff_toInt_le, Int32.toInt_zero] at hnonneg
      rw [List.map_cons, List.sum_cons] at hbound ⊢
      have hrest : 0 ≤ (done.map Int32.toInt).sum := by
        apply List.sum_nonneg
        intro x hx
        obtain ⟨c, hc, rfl⟩ := List.mem_map.mp hx
        exact Int32.le_iff_toInt_le.mp (hnonneg.2 c hc)
      have hadd : (sum + count).toInt = sum.toInt + count.toInt := by
        rw [Int32.toInt_add, Int.bmod_eq_of_le] <;> omega
      rw [List.foldl_cons, ih hnonneg.2 (by omega) (by omega), hadd]
      omega

/-- The sum of a snapshot is read as it is. -/
theorem toInt_sumDone {done : List Int32} (hnonneg : ∀ count ∈ done, 0 ≤ count)
    (hbound : (done.map Int32.toInt).sum < 2 ^ 31) :
    (sumDone done).toInt = (done.map Int32.toInt).sum := by
  have hsum := @toInt_foldl_add done 0 hnonneg (by decide) (by simpa using hbound)
  rwa [Int32.toInt_zero, Int.zero_add] at hsum

namespace Snapshots

variable {size : Nat} (snapshots : Snapshots size)

/-- No snapshot shows more bytes than the file has. -/
theorem sum_le {done : List Int32} (hdone : done ∈ snapshots.list) :
    (done.map Int32.toInt).sum ≤ size := by
  obtain ⟨last, hlast, hsum⟩ := snapshots.complete
  obtain ⟨front, hfront⟩ := List.getLast?_eq_some_iff.mp hlast
  rw [hfront] at hdone
  rcases List.mem_append.mp hdone with hearlier | hsame
  · have hascending := snapshots.ascending
    rw [hfront, List.pairwise_append] at hascending
    have hle := hascending.2.2 done hearlier last List.mem_cons_self
    rw [← hsum]
    apply List.Forall₂.sum_le_sum
    rw [List.forall₂_map_left_iff, List.forall₂_map_right_iff]
    exact hle.imp fun a b h => Int32.le_iff_toInt_le.mp h
  · rw [List.mem_singleton.mp hsame, hsum]

end Snapshots

/-- Enough marks are drawn when there were enough, or the snapshot asks for them. -/
theorem left_drawMarks_iff (interval draw : Int32) (done : List Int32) :
    ITEMS ≤ drawMarks interval draw done ↔
      ITEMS ≤ draw ∨ ITEMS ≤ sumDone done / interval + 1 := by
  rw [drawMarks]
  simp only [Int32.le_iff_toInt_le, Int32.lt_iff_toInt_lt]
  split
  · omega
  · omega

private theorem displayLoop_of_left {interval draw : Int32} (h : ITEMS ≤ draw)
    (snapshots : List (List Int32)) :
    displayLoop interval draw snapshots = some {draw := draw, unread := snapshots} := by
  cases snapshots with
  | nil => rfl
  | cons done rest => rw [displayLoop, if_neg (Int32.not_lt.mpr h)]

/-- The loop is left on the first snapshot that asks for all marks. -/
theorem displayLoop_spec {interval draw : Int32} (hinterval : interval ≠ 0) (hdraw : draw < ITEMS)
    (snapshots : List (List Int32)) :
    ∃ p, displayLoop interval draw snapshots = some p ∧
      ((∃ done ∈ snapshots, ITEMS ≤ sumDone done / interval + 1) → p.Left) ∧
      (p.Left → ∃ seen done, snapshots = seen ++ done :: p.unread ∧
        ITEMS ≤ sumDone done / interval + 1) := by
  induction snapshots generalizing draw with
  | nil =>
      refine ⟨_, rfl, ?_, ?_⟩
      · rintro ⟨done, hdone, _⟩
        cases hdone
      · intro hleft
        exact absurd hdraw (Int32.not_lt.mpr hleft)
  | cons done rest ih =>
      rw [displayLoop, if_pos hdraw, if_neg hinterval]
      by_cases hmarks : ITEMS ≤ sumDone done / interval + 1
      · have hleft : ITEMS ≤ drawMarks interval draw done :=
          (left_drawMarks_iff interval draw done).mpr (Or.inr hmarks)
        refine ⟨_, displayLoop_of_left hleft rest, fun _ => hleft, fun _ => ?_⟩
        exact ⟨[], done, rfl, hmarks⟩
      · have hnext : drawMarks interval draw done < ITEMS := by
          rw [← Int32.not_le, left_drawMarks_iff, not_or]
          exact ⟨Int32.not_le.mpr hdraw, hmarks⟩
        obtain ⟨p, hloop, hleaves, hlate⟩ := ih hnext
        refine ⟨p, hloop, ?_, ?_⟩
        · rintro ⟨other, hother, hmany⟩
          apply hleaves
          rcases List.mem_cons.mp hother with rfl | hrest
          · exact absurd hmany hmarks
          · exact ⟨other, hrest, hmany⟩
        · intro hleft
          obtain ⟨seen, other, hsplit, hmany⟩ := hlate hleft
          exact ⟨done :: seen, other, by rw [hsplit, List.cons_append], hmany⟩

/-- The interval is a part of the size in 49, rounded down. -/
theorem toInt_interval {size : Nat} (hsize : size < 2 ^ 31) :
    (sizeToInt size / (ITEMS - 1)).toInt = (size / 49 : Nat) := by
  have hitems : (ITEMS - 1).toInt = 49 := by decide
  rw [Int32.toInt_div_of_ne_right _ _ (by decide), hitems, sizeToInt_toInt hsize]
  rfl

/-- A snapshot asks for all marks when it shows 49 intervals. -/
theorem marks_iff {size : Nat} (hsize : size < 2 ^ 31) (hpos : 49 ≤ size) {done : List Int32}
    (hnonneg : ∀ count ∈ done, 0 ≤ count) (hsum : (done.map Int32.toInt).sum ≤ size) :
    ITEMS ≤ sumDone done / (sizeToInt size / (ITEMS - 1)) + 1 ↔
      49 * (size / 49 : Nat) ≤ (done.map Int32.toInt).sum := by
  obtain ⟨k, hk⟩ : ∃ k : Nat, (done.map Int32.toInt).sum = k := by
    apply Int.eq_ofNat_of_zero_le
    apply List.sum_nonneg
    intro x hx
    obtain ⟨count, hcount, rfl⟩ := List.mem_map.mp hx
    exact Int32.le_iff_toInt_le.mp (hnonneg count hcount)
  have hread : (sumDone done).toInt = k := by rw [toInt_sumDone hnonneg (by omega), hk]
  have hinterval := toInt_interval hsize
  generalize sizeToInt size / (ITEMS - 1) = interval at hinterval ⊢
  generalize hm : size / 49 = m at hinterval ⊢
  have hmpos : 0 < m := by omega
  have hne : interval ≠ -1 := by
    rintro rfl
    rw [show (-1 : Int32).toInt = -1 from rfl] at hinterval
    omega
  have hdiv : (sumDone done / interval).toInt = (k / m : Nat) := by
    rw [Int32.toInt_div_of_ne_right _ _ hne, hread, hinterval]
    rfl
  -- a remainder of the division by 49 is less than 49, so there are less than 98 marks
  have hmarks : k / m < 98 := by
    rw [Nat.div_lt_iff_lt_mul hmpos]
    omega
  have hle : 49 ≤ k / m ↔ 49 * m ≤ k := Nat.le_div_iff_mul_le hmpos
  generalize k / m = q at hdiv hmarks hle
  have hadd : (sumDone done / interval + 1).toInt = q + 1 := by
    rw [Int32.toInt_add, hdiv, Int32.toInt_one, Int.bmod_eq_of_le] <;> omega
  have hitems : ITEMS.toInt = 50 := rfl
  rw [Int32.le_iff_toInt_le, hadd, hk, hitems]
  omega

/-- One thread that has copied the file when its counter is first read. -/
def atOnce (size : Nat) (hsize : size < 2 ^ 31) : Snapshots size where
  list := [[sizeToInt size]]
  nonneg := by
    intro done hdone count hcount
    rw [List.mem_singleton.mp hdone, List.mem_singleton] at hcount
    rw [hcount]
    exact Int32.not_lt.mp (not_sizeToInt_neg hsize)
  ascending := List.pairwise_singleton _ _
  complete := ⟨_, rfl, by simp [sizeToInt_toInt hsize]⟩

/-- `display` shows the progress of a copy exactly for files of at least 49 bytes. -/
theorem shows_iff {size : Nat} (hpos : 1 ≤ size) (hsize : size < 2 ^ 31)
    (snapshots : Snapshots size) : Shows size snapshots ↔ 49 ≤ size := by
  obtain ⟨last, hlast, hsum⟩ := snapshots.complete
  have hmem : last ∈ snapshots.list := List.mem_of_getLast? hlast
  have hinterval := toInt_interval hsize
  constructor
  · intro hshows
    by_contra hsmall
    apply hshows.divides
    have hzero : sizeToInt size / (ITEMS - 1) = 0 := by
      rw [← Int32.toInt_inj, hinterval, Nat.div_eq_of_lt (by omega)]
      rfl
    obtain ⟨done, rest, hlist⟩ := List.exists_cons_of_ne_nil (List.ne_nil_of_mem hmem)
    rw [hlist, display, hzero, displayLoop, if_pos (by decide), if_pos rfl]
  · intro hlarge
    have hne : sizeToInt size / (ITEMS - 1) ≠ 0 := by
      rw [Ne, ← Int32.toInt_inj, hinterval, Int32.toInt_zero]
      omega
    have hmarks {done : List Int32} (hdone : done ∈ snapshots.list) :=
      marks_iff hsize hlarge (snapshots.nonneg done hdone) (snapshots.sum_le hdone)
    obtain ⟨p, hloop, hleaves, hlate⟩ := @displayLoop_spec _ 0 hne (by decide) snapshots.list
    have hdisplay : display size snapshots.list = some p := hloop
    refine ⟨by simp [hdisplay], ?_, ?_⟩
    · intro q hq
      obtain rfl : p = q := Option.some.inj (hdisplay.symm.trans hq)
      refine hleaves ⟨last, hmem, (hmarks hmem).mpr ?_⟩
      rw [hsum]
      omega
    · intro q hq hleft seen done hsplit
      obtain rfl : p = q := Option.some.inj (hdisplay.symm.trans hq)
      obtain ⟨seen', done', hsplit', hmany⟩ := hlate hleft
      obtain ⟨_, hsame⟩ := List.append_inj' (hsplit.symm.trans hsplit') rfl
      obtain ⟨rfl, _⟩ := List.cons.inj hsame
      have hdone : done ∈ snapshots.list := by simp [hsplit]
      have hbytes := (hmarks hdone).mp hmany
      omega

theorem shows_iff_49 : Shows 49 (atOnce 49 (by decide)) :=
  (shows_iff (by decide) (by decide) _).mpr (Nat.le_refl _)

/-- With 48 bytes there is a division by zero. -/
theorem not_shows_48 : ¬ Shows 48 (atOnce 48 (by decide)) := by
  intro hshows
  exact hshows.divides (by decide)

end LearningCpp.FileCp
