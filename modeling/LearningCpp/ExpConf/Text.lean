import LearningCpp.Library.Strip

/-!
The text functions that `exp.cpp` uses: lines, blanks and `trim`. A text is the
list of its characters, each of which stands for a byte.
-/

namespace LearningCpp.ExpConf

open Library

abbrev Text := List Char

def isBalnk (c : Char) : Bool :=
  c = ' ' || c = '\t' || c = '\n' || c = '\r' || c = '\x00' || c = '\x0b'

/-- `while((start<end) && isBalnk(str[start])) start++;` with `n = end - start` -/
def trimFront (str : Text) : Nat → Nat → Nat
  | 0, start => start
  | n + 1, start => if isBalnk (str.getD start '\x00') then trimFront str n (start + 1) else start

/-- `while((end>start) && isBalnk(str[end])) end--;` with `n = end - start` -/
def trimBack (str : Text) : Nat → Nat → Nat
  | 0, stop => stop
  | n + 1, stop => if isBalnk (str.getD stop '\x00') then trimBack str n (stop - 1) else stop

/-- One character that is left alone is taken for no character. -/
def trim (str : Text) : Text :=
  if str.length = 0 then []
  else
    let start := trimFront str (str.length - 1) 0
    let stop := trimBack str (str.length - 1 - start) (str.length - 1)
    if start = stop then [] else (str.drop start).take (stop - start + 1)

theorem trimFront_eq (str : Text) (n start : Nat) (h : start + n ≤ str.length) :
    trimFront str n start = start + min n ((str.drop start).takeWhile isBalnk).length := by
  induction n generalizing start with
  | zero => simp [trimFront]
  | succ n ih =>
      have hlt : start < str.length := by omega
      have hget : str.getD start '\x00' = str[start] := by simp [List.getD, hlt]
      rw [trimFront, hget, List.drop_eq_getElem_cons hlt]
      cases hblank : isBalnk str[start] with
      | true =>
          rw [if_pos rfl, ih (start + 1) (by omega), List.takeWhile_cons_of_pos hblank,
            List.length_cons]
          omega
      | false =>
          rw [if_neg (by simp), List.takeWhile_cons_of_neg (by simp [hblank])]
          simp

private theorem trimBack_eq (str : Text) (n stop : Nat) (h : n ≤ stop) (hstop : stop < str.length) :
    trimBack str n stop =
      stop - min n ((str.take (stop + 1)).reverse.takeWhile isBalnk).length := by
  induction n generalizing stop with
  | zero => simp [trimBack]
  | succ n ih =>
      have hget : str.getD stop '\x00' = str[stop] := by simp [List.getD, hstop]
      have hlast : (str.take (stop + 1)).reverse = str[stop] :: (str.take stop).reverse := by
        rw [← List.take_concat_get' str stop hstop, List.reverse_append]
        rfl
      rw [trimBack, hget, hlast]
      cases hblank : isBalnk str[stop] with
      | true =>
          have hprev : stop - 1 + 1 = stop := by omega
          rw [if_pos rfl, ih (stop - 1) (by omega) (by omega), hprev,
            List.takeWhile_cons_of_pos hblank, List.length_cons]
          omega
      | false =>
          rw [if_neg (by simp), List.takeWhile_cons_of_neg (by simp [hblank])]
          simp

private theorem trim_of_blank {str : Text} (h : ∀ c ∈ str, isBalnk c) : trim str = [] := by
  rcases Nat.eq_zero_or_pos str.length with hzero | hpos
  · rw [trim, if_pos hzero]
  · have hwhole : (str.takeWhile isBalnk).length = str.length := by
      rw [List.takeWhile_eq_self_iff.mpr h]
    have hstart : trimFront str (str.length - 1) 0 = str.length - 1 := by
      rw [trimFront_eq str _ 0 (by omega), List.drop_zero, hwhole]
      omega
    have hmeet : str.length - 1 - (str.length - 1) = 0 := by omega
    simp only [trim, if_neg (Nat.ne_of_gt hpos), hstart, hmeet, trimBack, if_true]

/-- `trim` strips the blanks, but a single character goes with them. -/
theorem trim_eq (str : Text) :
    trim str = if (strip isBalnk str).length = 1 then [] else strip isBalnk str := by
  by_cases hall : ∀ c ∈ str, isBalnk c
  · rw [trim_of_blank hall, (strip_eq_nil_iff str).mpr hall]
    rfl
  · have hkept : ∃ c ∈ str, ¬ isBalnk c := by
      push Not at hall
      simpa using hall
    obtain ⟨hends, hslice⟩ := strip_eq_slice str hkept
    have hstart : trimFront str (str.length - 1) 0 = (str.takeWhile isBalnk).length := by
      rw [trimFront_eq str _ 0 (by omega), List.drop_zero]
      omega
    have hwhole : str.take (str.length - 1 + 1) = str := List.take_of_length_le (by omega)
    have hstop :
        trimBack str (str.length - 1 - (str.takeWhile isBalnk).length) (str.length - 1) =
          str.length - 1 - (str.reverse.takeWhile isBalnk).length := by
      rw [trimBack_eq str _ _ (by omega) (by omega), hwhole]
      omega
    have hlength : (strip isBalnk str).length =
        str.length - (str.takeWhile isBalnk).length - (str.reverse.takeWhile isBalnk).length := by
      rw [hslice, List.length_take, List.length_drop]
      omega
    simp only [trim, if_neg (show ¬ str.length = 0 by omega), hstart, hstop]
    rcases eq_or_ne (strip isBalnk str).length 1 with hone | hmany
    · rw [if_pos (by omega), if_pos hone]
    · rw [if_neg (by omega), if_neg hmany, hslice]
      congr 1
      omega

theorem trim_of_two_le {str : Text} (h : 2 ≤ (strip isBalnk str).length) :
    trim str = strip isBalnk str := by
  rw [trim_eq, if_neg (by omega)]

/-- `trim` takes away the blanks at the two ends and nothing else, leaves nothing of a
text of blanks only, and finds nothing more to do in its result. -/
def Trims (str : Text) : Prop :=
  trim str = strip isBalnk str ∧ (trim str = [] ↔ ∀ c ∈ str, isBalnk c) ∧
    trim (trim str) = trim str

/-- `trim` does so on every text but those with exactly one character that is not blank. -/
theorem trims_iff (str : Text) : Trims str ↔ str.countP (fun c => !isBalnk c) ≠ 1 := by
  rw [Ne, ← length_strip_eq_one_iff]
  constructor
  · rintro ⟨hstrip, _⟩ hone
    rw [trim_eq, if_pos hone] at hstrip
    rw [← hstrip] at hone
    cases hone
  · intro hmany
    have hstrip : trim str = strip isBalnk str := by rw [trim_eq, if_neg hmany]
    have hagain : trim (strip isBalnk str) = strip isBalnk str := by
      rw [trim_eq, strip_strip, if_neg hmany]
    refine ⟨hstrip, ?_, ?_⟩
    · rw [hstrip, strip_eq_nil_iff]
    · rw [hstrip, hagain]

theorem not_trims_single : ¬ Trims [' ', 'a', ' '] := by
  rintro ⟨hstrip, _⟩
  exact absurd hstrip (by decide)

/-- `transform(tmp.begin(), tmp.end(), tmp.begin(), ::tolower)` -/
def lower (str : Text) : Text := str.map Char.toLower

/-- `str.find(pat) != string::npos` -/
def found (pat : Text) : Text → Bool
  | [] => pat.isEmpty
  | c :: cs => pat.isPrefixOf (c :: cs) || found pat cs

theorem length_le_of_found {pat str : Text} (h : found pat str) : pat.length ≤ str.length := by
  induction str with
  | nil =>
      have hnil : pat = [] := by simpa [found] using h
      rw [hnil]
  | cons c cs ih =>
      rcases (Bool.or_eq_true _ _).mp h with hprefix | hlater
      · exact (List.isPrefixOf_iff_prefix.mp hprefix).length_le
      · exact (ih hlater).trans (Nat.le_succ _)

/-- The lines that `getline` reads one after the other. -/
def getlines : Text → List Text
  | [] => []
  | c :: cs =>
      if c = '\n' then [] :: getlines cs
      else
        match getlines cs with
        | [] => [[c]]
        | line :: lines => (c :: line) :: lines

def isSpace (c : Char) : Bool :=
  c = ' ' || c = '\t' || c = '\n' || c = '\x0b' || c = '\x0c' || c = '\r'

/-- The number that a run of digits denotes. -/
def digits (str : Text) : Nat := str.foldl (fun n c => 10 * n + (c.toNat - '0'.toNat)) 0

/-- `atoi`: blanks, a sign, and digits up to the first other character. A number
out of range, which the language leaves undefined, keeps its low 32 bits. -/
def atoi (str : Text) : Int32 :=
  match str.dropWhile isSpace with
  | [] => 0
  | c :: cs =>
      if c = '-' then Int32.ofInt (-(digits (cs.takeWhile Char.isDigit)))
      else if c = '+' then Int32.ofInt (digits (cs.takeWhile Char.isDigit))
      else Int32.ofInt (digits ((c :: cs).takeWhile Char.isDigit))

end LearningCpp.ExpConf
