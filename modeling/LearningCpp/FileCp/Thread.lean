import LearningCpp.Library.RangeCopy
import LearningCpp.Runtime.Memory

/-!
`file_cp/mult_thread_cp.c`: threads copy consecutive ranges of a mapped file
byte by byte. The ranges tile the file, so the threads are independent and the
copy is complete when all of them have returned.
-/

namespace LearningCpp.FileCp

open Library

/-- `arg_t` -/
structure Arg where
  off : Int32
  size : Int32
  t_no : Int32
  deriving DecidableEq, Repr

/-- The loop that fills `arr`, with `k` rounds to go at thread `i`. -/
def fill (len : Int32) : Nat → Int32 → Int32 → List Arg
  | 0, _, _ => []
  | k + 1, i, off => {off := off, size := len, t_no := i} :: fill len k (i + 1) (off + len)

/-- `arr`, with what the division leaves over given to the last thread. -/
def tasks (st_size : Nat) (n : Int32) : List Arg :=
  let len := Int32.ofInt ((st_size : Int).tdiv n.toInt)
  (fill len (rounds n) 0 0).modify (rounds (n - 1)) (fun arg =>
    {arg with size := Int32.ofInt (arg.size.toInt + (st_size : Int).tmod n.toInt)})

/-- The locals of `tfn`; `p` and `q` count from `s` and `d`. -/
structure Tfn where
  i : Int32
  p : Int
  q : Int
  deriving DecidableEq, Repr

/-- What the threads share, and the locals of each. -/
structure Threads where
  d : List UInt8
  done : List Int32
  locals : List Tfn
  deriving DecidableEq, Repr

/-- The destination is extended by writing an `a` at its last position. -/
def Threads.start (st_size : Nat) (n : Int32) : Threads where
  d := List.replicate (st_size - 1) 0 ++ [97]
  done := List.replicate (rounds n) 0
  locals := (tasks st_size n).map (fun arg => {i := 0, p := arg.off.toInt, q := arg.off.toInt})

/-- Position `k` is one of those the thread copies. -/
def Arg.Holds (arg : Arg) (k : Int) : Prop :=
  arg.off.toInt ≤ k ∧ k < arg.off.toInt + arg.size.toInt

/-- The arguments for given ranges, numbered from thread `i` on. -/
def argsFrom : Nat → List Range → List Arg
  | _, [] => []
  | i, r :: rs =>
      {off := sizeToInt r.off, size := sizeToInt r.size, t_no := sizeToInt i} :: argsFrom (i + 1) rs

theorem sizeToInt_add (a b : Nat) : sizeToInt (a + b) = sizeToInt a + sizeToInt b :=
  Int32.ofNat_add a b

theorem getElem?_argsFrom (i : Nat) (rs : List Range) (t : Nat) :
    (argsFrom i rs)[t]? = rs[t]?.map (fun r =>
      {off := sizeToInt r.off, size := sizeToInt r.size, t_no := sizeToInt (i + t)}) := by
  induction rs generalizing i t with
  | nil => rfl
  | cons r rs ih =>
      cases t with
      | zero => rfl
      | succ t =>
          rw [argsFrom, List.getElem?_cons_succ, List.getElem?_cons_succ, ih]
          congr 2
          funext r'
          rw [Nat.add_right_comm i 1 t, Nat.add_assoc]

/-- The sizes of the ranges: equal ones, and the last with the remainder. -/
def shares (size n : Nat) : List Nat := List.replicate (n - 1) (size / n) ++ [size / n + size % n]

/-- Filling `arr` and growing its last size lays the shares out one behind the other. -/
theorem fill_modify_last {len extra k : Nat} (i off : Nat) (hsum : len + extra < 2 ^ 31) :
    (fill (sizeToInt len) (k + 1) (sizeToInt i) (sizeToInt off)).modify k (fun arg =>
        {arg with size := Int32.ofInt (arg.size.toInt + (extra : Int))}) =
      argsFrom i (tiled off (List.replicate k len ++ [len + extra])) := by
  induction k generalizing i off with
  | zero =>
      have hgrow : Int32.ofInt ((sizeToInt len).toInt + (extra : Int)) = sizeToInt (len + extra) := by
        rw [sizeToInt_toInt (by omega), ← Int.natCast_add]
        rfl
      rw [fill, fill, List.modify_zero_cons]
      simp only [hgrow]
      rfl
  | succ k ih =>
      have hnext := ih (i + 1) (off + len)
      rw [sizeToInt_add i 1, sizeToInt_add off len] at hnext
      rw [fill, List.modify_succ_cons, List.replicate_succ, List.cons_append, tiled, argsFrom]
      exact congrArg _ hnext

theorem tasks_eq {st_size : Nat} {n : Int32} (hn : 0 < n) (hsize : st_size < 2 ^ 31) :
    tasks st_size n = argsFrom 0 (tiled 0 (shares st_size (rounds n))) := by
  obtain ⟨k, hk⟩ : ∃ k, rounds n = k + 1 :=
    ⟨rounds n - 1, (Nat.sub_add_cancel (rounds_pos hn)).symm⟩
  have hk31 : k + 1 < 2 ^ 31 := hk ▸ rounds_lt n
  have hcount : n = sizeToInt (k + 1) := by rw [← hk, sizeToInt_rounds (Int32.le_of_lt hn)]
  have htoInt : n.toInt = (k + 1 : Nat) := by rw [hcount, sizeToInt_toInt hk31]
  have hpred : rounds (n - 1) = k := by
    have hsub : n - 1 = sizeToInt k := by
      rw [hcount, sizeToInt_add]
      exact Int32.add_sub_cancel _ _
    rw [hsub, rounds_sizeToInt (by omega)]
  have hbound : st_size / (k + 1) + st_size % (k + 1) < 2 ^ 31 := by
    have hsplit : (k + 1) * (st_size / (k + 1)) + st_size % (k + 1) = st_size :=
      Nat.div_add_mod st_size (k + 1)
    have hone : 1 * (st_size / (k + 1)) ≤ (k + 1) * (st_size / (k + 1)) :=
      Nat.mul_le_mul_right _ (by omega)
    omega
  rw [tasks, hpred, htoInt, hk, shares]
  exact fill_modify_last 0 0 hbound

/-- The threads' state for a copy of the ranges. -/
def ofCopying (rs : List Range) (c : Copying UInt8) : Threads where
  d := c.dst
  done := c.progress.map sizeToInt
  locals := List.zipWith (fun r k =>
    {i := sizeToInt k, p := (r.off + k : Nat), q := (r.off + k : Nat)}) rs c.progress

/-- The ranges that are assigned, before they are narrowed to `int`. -/
structure Tiling (src : List UInt8) (n : Int32) (rs : List Range) : Prop where
  tasks_eq : tasks src.length n = argsFrom 0 rs
  sizes : (rs.map Range.size).sum = src.length
  count : rs.length = rounds n
  inside : ∀ r ∈ rs, r.off + r.size ≤ src.length
  covers : ∀ k < src.length, ∃ r ∈ rs, r.Covers k
  disjoint : rs.Pairwise (fun a b => ∀ k, ¬ (a.Covers k ∧ b.Covers k))

namespace Tiling

variable {src : List UInt8} {n : Int32} {rs : List Range}

theorem start_eq (h : Tiling src n rs) (hlen : src.length < 2 ^ 31) :
    Threads.start src.length n =
      ofCopying rs (.start (List.replicate (src.length - 1) 0 ++ [97]) rs) := by
  have hzero : sizeToInt 0 = 0 := rfl
  simp only [Threads.start, ofCopying, Copying.start, Threads.mk.injEq, true_and, List.map_map]
  constructor
  · rw [← h.count, List.eq_replicate_iff.mpr ⟨List.length_map _, ?_⟩]
    intro x hx
    obtain ⟨_, _, rfl⟩ := List.mem_map.mp hx
    exact hzero
  · apply List.ext_getElem?
    intro t
    rw [List.getElem?_zipWith, List.getElem?_map, List.getElem?_map, h.tasks_eq, getElem?_argsFrom]
    cases hr : rs[t]? with
    | none => rfl
    | some r =>
        have hr' := h.inside r (List.mem_of_getElem? hr)
        simp only [Option.map_some, sizeToInt_toInt (show r.off < 2 ^ 31 by omega), hzero,
          Nat.add_zero]

end Tiling

end LearningCpp.FileCp
