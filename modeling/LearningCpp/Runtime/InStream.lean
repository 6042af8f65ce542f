import LearningCpp.Runtime.Extract

/-!
An input stream over a buffer in the C locale: `is >> word`, `is >> number` for an
`unsigned int`, and `getline(is, line)`, with the two bits that they set.
-/

namespace LearningCpp

/-- What is left in the buffer, `eofbit` and `failbit`. -/
structure InStream where
  text : List UInt8
  eof : Bool
  fail : Bool
  deriving DecidableEq, Repr

namespace InStream

/-- A stream that is good. -/
def good (text : List UInt8) : InStream := { text := text, eof := false, fail := false }

/-- The sentry of a formatted extraction: the stream is good, and a letter follows the blanks
that are skipped. -/
def sentry (s : InStream) : InStream :=
  if s.eof || s.fail then {s with fail := true}
  else
    let text := s.text.dropWhile (fun c => isspace c)
    if text = [] then ⟨[], true, true⟩ else good text

/-- `is >> word`; when the sentry refuses, `word` stays as it was. -/
def extractWord (s : InStream) (word : List UInt8) : List UInt8 × InStream :=
  let s := s.sentry
  if s.fail then (word, s)
  else
    let rest := s.text.dropWhile (fun c => ¬ isspace c)
    (s.text.takeWhile (fun c => ¬ isspace c), ⟨rest, rest.isEmpty, false⟩)

/-- A decimal digit. -/
def isdigit (c : UInt8) : Bool := 48 ≤ c && c ≤ 57

/-- The number that a run of digits denotes. -/
def number (digits : List UInt8) : Nat := digits.foldl (fun n c => 10 * n + (c.toNat - 48)) 0

/-- `is >> value` for an `unsigned int`. A minus negates the number modulo its width; a number
out of range leaves the greatest one, and no digits leave zero. -/
def extractUnsigned (s : InStream) (value : UInt32) : UInt32 × InStream :=
  let s := s.sentry
  if s.fail then (value, s)
  else
    let minus := s.text.head? = some 45
    let unsigned := if minus ∨ s.text.head? = some 43 then s.text.tail else s.text
    let digits := unsigned.takeWhile isdigit
    let rest := unsigned.dropWhile isdigit
    if digits = [] then (0, ⟨rest, rest.isEmpty, true⟩)
    else if 2 ^ 32 ≤ number digits then (2 ^ 32 - 1, ⟨rest, rest.isEmpty, true⟩)
    else
      let n := UInt32.ofNat (number digits)
      (if minus then -n else n, ⟨rest, rest.isEmpty, false⟩)

/-- `getline(is, line)`: the line loses its end, and the last line may have none. -/
def getline (s : InStream) (line : List UInt8) : List UInt8 × InStream :=
  if s.eof || s.fail then (line, {s with fail := true})
  else if 10 ∈ s.text then
    (s.text.takeWhile (fun c => c ≠ 10), good ((s.text.dropWhile (fun c => c ≠ 10)).tail))
  else (s.text, ⟨[], true, s.text.isEmpty⟩)

theorem takeWhile_append_cons {p : UInt8 → Bool} {front : List UInt8} {c : UInt8}
    (hfront : ∀ b ∈ front, p b) (hc : ¬ p c) (rest : List UInt8) :
    (front ++ c :: rest).takeWhile p = front := by
  rw [List.takeWhile_append_of_pos hfront, List.takeWhile_cons_of_neg hc, List.append_nil]

theorem dropWhile_append_cons {p : UInt8 → Bool} {front : List UInt8} {c : UInt8}
    (hfront : ∀ b ∈ front, p b) (hc : ¬ p c) (rest : List UInt8) :
    (front ++ c :: rest).dropWhile p = c :: rest := by
  rw [List.dropWhile_append_of_pos hfront, List.dropWhile_cons_of_neg hc]

/-- A line that has its end is taken off with it. -/
theorem getline_good {line : List UInt8} (hline : 10 ∉ line) (old rest : List UInt8) :
    (good (line ++ 10 :: rest)).getline old = (line, good rest) := by
  have hfront : ∀ b ∈ line, decide (b ≠ 10) = true := by
    intro b hb
    exact decide_eq_true fun h : b = 10 => hline (h ▸ hb)
  have hend : ¬ decide ((10 : UInt8) ≠ 10) = true := by decide
  rw [getline, if_neg (by simp [good]), if_pos (by simp [good])]
  simp only [good, takeWhile_append_cons hfront hend rest, dropWhile_append_cons hfront hend rest,
    List.tail_cons]

/-- Something is taken off by a line that could be read. -/
theorem getline_length_lt {s : InStream} {line : List UInt8} (h : (s.getline line).2.fail = false) :
    (s.getline line).2.text.length < s.text.length := by
  unfold getline at h ⊢
  split
  case isTrue hbad =>
    rw [if_pos hbad] at h
    cases h
  case isFalse hgood =>
    rw [if_neg hgood] at h
    split
    case isTrue hmem =>
      have hpos := List.length_pos_of_mem hmem
      have hle : (s.text.dropWhile fun c => decide (c ≠ 10)).length ≤ s.text.length :=
        (List.dropWhile_sublist _).length_le
      simp only [good, List.length_tail]
      omega
    case isFalse hmem =>
      rw [if_neg hmem] at h
      have hne : s.text ≠ [] := by simpa using h
      exact List.length_pos_of_ne_nil hne

/-- A stream that a line could be read from is good, or at its end with no text left. -/
theorem getline_cases {s : InStream} {line : List UInt8}
    (hfail : (s.getline line).2.fail = false) :
    (∃ text, (s.getline line).2 = .good text) ∨ (s.getline line).2 = ⟨[], true, false⟩ := by
  unfold getline at hfail ⊢
  split
  case isTrue hbad =>
    rw [if_pos hbad] at hfail
    cases hfail
  case isFalse hgood =>
    rw [if_neg hgood] at hfail
    split
    case isTrue hmem => exact .inl ⟨_, rfl⟩
    case isFalse hmem =>
      rw [if_neg hmem] at hfail
      exact .inr (congrArg (mk [] true) hfail)

variable {c : UInt8} {text : List UInt8}

theorem sentry_good (hc : ¬ isspace c) (text : List UInt8) :
    (good (c :: text)).sentry = good (c :: text) := by
  have hdrop : (c :: text).dropWhile (fun c => decide (isspace c)) = c :: text :=
    List.dropWhile_cons_of_neg (by simpa using hc)
  simp only [sentry, good, Bool.or_self, Bool.false_eq_true, if_false, hdrop, List.cons_ne_nil]

private theorem sentry_skip (hc : isspace c) (text : List UInt8) :
    (good (c :: text)).sentry = (good text).sentry := by
  have hdrop : (c :: text).dropWhile (fun c => decide (isspace c)) =
      text.dropWhile (fun c => decide (isspace c)) :=
    List.dropWhile_cons_of_pos (by simpa using hc)
  simp only [sentry, good, Bool.or_self, Bool.false_eq_true, if_false, hdrop]
  congr

/-- A word that is followed by a blank. -/
theorem extractWord_good {word : List UInt8} (hne : word ≠ []) (hword : ∀ b ∈ word, ¬ isspace b)
    {blank : UInt8} (hblank : isspace blank) (old rest : List UInt8) :
    (good (word ++ blank :: rest)).extractWord old = (word, good (blank :: rest)) := by
  obtain ⟨first, more, rfl⟩ := List.exists_cons_of_ne_nil hne
  have hsentry : (good (first :: more ++ blank :: rest)).sentry =
      good (first :: more ++ blank :: rest) :=
    sentry_good (hword first List.mem_cons_self) _
  have hfront : ∀ b ∈ first :: more, decide (¬ isspace b) = true :=
    fun b hb => decide_eq_true (hword b hb)
  have hend : ¬ decide (¬ isspace blank) = true := by simpa using hblank
  rw [extractWord, hsentry]
  simp only [good, Bool.false_eq_true, if_false, takeWhile_append_cons hfront hend rest,
    dropWhile_append_cons hfront hend rest, List.isEmpty_cons]

/-- A blank, a number that is in range, and a letter that is no digit. -/
theorem extractUnsigned_good {digits : List UInt8} (hne : digits ≠ [])
    (hdigits : ∀ b ∈ digits, isdigit b) (hrange : number digits < 2 ^ 32) {after : UInt8}
    (hafter : ¬ isdigit after) {blank : UInt8} (hblank : isspace blank) (old : UInt32)
    (rest : List UInt8) :
    (good (blank :: (digits ++ after :: rest))).extractUnsigned old =
      (UInt32.ofNat (number digits), good (after :: rest)) := by
  obtain ⟨first, more, rfl⟩ := List.exists_cons_of_ne_nil hne
  have hfirst := hdigits first List.mem_cons_self
  have hlow : 48 ≤ first.toNat ∧ first.toNat ≤ 57 := by
    simpa [isdigit, UInt8.le_iff_toNat_le] using hfirst
  have hspace : ¬ isspace first := by
    rw [isspace_iff_toNat]
    omega
  have hminus : first ≠ 45 := by
    rintro rfl
    simp at hlow
  have hplus : first ≠ 43 := by
    rintro rfl
    simp at hlow
  have hsentry : (good (blank :: (first :: more ++ after :: rest))).sentry =
      good (first :: more ++ after :: rest) := by
    rw [sentry_skip hblank]
    exact sentry_good hspace _
  rw [extractUnsigned, hsentry]
  simp only [good, Bool.false_eq_true, if_false, List.cons_append, List.head?_cons,
    Option.some.injEq, hminus, hplus, or_self]
  rw [← List.cons_append, takeWhile_append_cons hdigits hafter rest,
    dropWhile_append_cons hdigits hafter rest]
  simp only [List.cons_ne_nil, if_false, Nat.not_le.mpr hrange, List.isEmpty_cons]

end InStream

end LearningCpp
