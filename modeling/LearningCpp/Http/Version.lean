import LearningCpp.Http.Connection
import LearningCpp.Http.Recognition

/-!
The version numbers of a request. They are added up in an `int` while the client
decides how many digits there are, and the character is added before `'0'` is taken off.
-/

namespace LearningCpp.Http

open Library RequestParser

/-- The value of a digit. -/
def digitValue (b : Byte) : Nat := b.toNat - (chr '0').toNat

/-- The digits `ds` read on from `n`. -/
def decimalFrom (n : Nat) (ds : List Byte) : Nat := ds.foldl (fun n b => n * 10 + digitValue b) n

def decimal (ds : List Byte) : Nat := decimalFrom 0 ds

/-- The range of `int`. -/
def InInt (n : Int) : Prop := -2 ^ 31 ≤ n ∧ n < 2 ^ 31

/-- No step of `n * 10 + input - '0'` leaves the range of `int`. -/
def Fits (n : Int32) (input : Byte) : Prop :=
  InInt (n.toInt * 10) ∧ InInt (n.toInt * 10 + toInt input) ∧
    InInt (n.toInt * 10 + toInt input - toInt (chr '0'))

/-- The number that `consume` updates. -/
def updated (p : Parsing) (input : Byte) : Option Int32 :=
  match p.parser.state_ with
  | .http_version_major_start | .http_version_major =>
      if is_digit (toInt input) then some p.req.http_version_major else none
  | .http_version_minor_start | .http_version_minor =>
      if is_digit (toInt input) then some p.req.http_version_minor else none
  | _ => none

def UpdateFits (p : Parsing) (input : Byte) : Prop := ∀ n ∈ updated p input, Fits n input

/-- All updates of a call of `parse` stay in the range of `int`. -/
def UpdatesFit (p : Parsing) : List Byte → Prop
  | [] => True
  | input :: rest =>
      UpdateFits p input ∧
        match consume p input with
        | (none, p') => UpdatesFit p' rest
        | (some _, _) => True

/-- All updates for the reads of a stream, up to the verdict. -/
def ReadsFit (p : Parsing) : List (List Byte) → Prop
  | [] => True
  | read :: later =>
      UpdatesFit p read ∧
        match parse p read with
        | (none, p', _) => ReadsFit p' later
        | (some _, _) => True

/-- The updates stay in the range of `int`, and a request that is handled has the
numbers of its request line. -/
def VersionExact (c : Connection) (reads : List (List Byte)) : Prop :=
  ReadsFit c.parsing reads ∧
    ∀ req, (c.serve reads).1 = .handle_request req →
      ∃ s : Sentence, s.bytes <+: reads.flatten ∧
        req.http_version_major.toInt = decimal s.major ∧
        req.http_version_minor.toInt = decimal s.minor

/-- The largest number whose last digit is added without leaving the range of `int`. -/
def maxVersion : Nat := 2 ^ 31 - 1 - (chr '0').toNat

/-- A request line up to its version numbers. -/
def lineUpToVersion (method uri : List Byte) : List Byte :=
  method ++ chr ' ' :: (uri ++ chr ' ' :: "HTTP/".toList.map chr)

/-- The version numbers with which the stream begins are not too large. -/
def VersionsBounded (stream : List Byte) : Prop :=
  ∀ method uri more, method ≠ [] → (∀ b ∈ method, TokenByte b) → (∀ b ∈ uri, UriByte b) →
    stream = lineUpToVersion method uri ++ more →
      (∀ major rest, (∀ b ∈ major, Digit b) → more = major ++ rest →
        decimal major ≤ maxVersion) ∧
      ∀ major minor rest, major ≠ [] → (∀ b ∈ major, Digit b) → (∀ b ∈ minor, Digit b) →
        more = major ++ chr '.' :: (minor ++ rest) → decimal minor ≤ maxVersion

variable {p : Parsing} {n : Int32} {b : Byte} {w : List Byte}

theorem Digit.bounds (hb : Digit b) : 48 ≤ b.toNat ∧ b.toNat ≤ 57 :=
  ⟨UInt8.le_iff_toNat_le.mp hb.1, UInt8.le_iff_toNat_le.mp hb.2⟩

theorem Digit.toInt_eq (hb : Digit b) : toInt b = 48 + digitValue b := by
  obtain ⟨hlow, hhigh⟩ := hb.bounds
  have hzero : (chr '0').toNat = 48 := by decide
  rw [Http.toInt_eq, if_pos (by omega), digitValue, hzero]
  omega

theorem toInt_of_inInt {x : Int} (hx : InInt x) : x.bmod (2 ^ 32) = x := by
  obtain ⟨hlow, hhigh⟩ := hx
  apply Int.bmod_eq_of_le <;> omega

/-- An update that fits is exact. -/
theorem addDigit_toInt (hb : Digit b) (hfits : Fits n b) :
    (addDigit n b).toInt = n.toInt * 10 + digitValue b := by
  obtain ⟨hten, hsum, hdiff⟩ := hfits
  have hzero : toInt (chr '0') = 48 := by decide
  have hinput : b.toInt8.toInt32.toInt = toInt b := Int8.toInt_toInt32 _
  rw [hzero] at hdiff
  have hresult := hb.toInt_eq
  rw [addDigit, Int32.toInt_sub, Int32.toInt_add, Int32.toInt_mul, hinput]
  simp only [Int32.reduceToInt]
  rw [toInt_of_inInt hten, toInt_of_inInt hsum, toInt_of_inInt hdiff]
  omega

/-- From a number that is not negative the character code decides. -/
theorem fits_iff (hb : Digit b) (hn : 0 ≤ n.toInt) :
    Fits n b ↔ n.toInt.toNat * 10 + digitValue b ≤ maxVersion := by
  have hzero : toInt (chr '0') = 48 := by decide
  have hmax : maxVersion = 2147483599 := by decide
  rw [Fits, hb.toInt_eq, hzero, hmax, InInt, InInt, InInt]
  omega

/-! The streams with an update that does not fit, from each state on. -/

/-- Digits that lead from `n` beyond the largest number. -/
def tooLarge (n : Nat) : Lang Byte Unit := many1 Digit (fun ds _ _ => maxVersion < decimalFrom n ds)

def majorOverflow (n m : Nat) : Lang Byte Unit := fun w r =>
  tooLarge n w r ∨ many Digit (fun _ => letter (chr '.') (tooLarge m)) w r

def majorStartOverflow (n m : Nat) : Lang Byte Unit := fun w r =>
  tooLarge n w r ∨ many1 Digit (fun _ => letter (chr '.') (tooLarge m)) w r

def slashOverflow : Lang Byte Unit := letter (chr '/') (majorStartOverflow 0 0)

def uriOverflow : Lang Byte Unit :=
  many UriByte (fun _ => letter (chr ' ') (letter (chr 'H') (letter (chr 'T') (letter (chr 'T')
    (letter (chr 'P') slashOverflow)))))

def overflow (p : Parsing) : Lang Byte Unit :=
  match p.parser.state_ with
  | .method_start => many1 TokenByte (fun _ => letter (chr ' ') uriOverflow)
  | .method => many TokenByte (fun _ => letter (chr ' ') uriOverflow)
  | .uri => uriOverflow
  | .http_version_h =>
      letter (chr 'H') (letter (chr 'T') (letter (chr 'T') (letter (chr 'P') slashOverflow)))
  | .http_version_t_1 => letter (chr 'T') (letter (chr 'T') (letter (chr 'P') slashOverflow))
  | .http_version_t_2 => letter (chr 'T') (letter (chr 'P') slashOverflow)
  | .http_version_p => letter (chr 'P') slashOverflow
  | .http_version_slash => slashOverflow
  | .http_version_major_start =>
      majorStartOverflow p.req.http_version_major.toInt.toNat p.req.http_version_minor.toInt.toNat
  | .http_version_major =>
      majorOverflow p.req.http_version_major.toInt.toNat p.req.http_version_minor.toInt.toNat
  | .http_version_minor_start | .http_version_minor =>
      tooLarge p.req.http_version_minor.toInt.toNat
  | _ => fun _ _ => False

/-- While the version numbers are read they are not negative. -/
def Counted (p : Parsing) : Prop :=
  match p.parser.state_ with
  | .http_version_major_start | .http_version_major | .http_version_minor_start
  | .http_version_minor =>
      0 ≤ p.req.http_version_major.toInt ∧ 0 ≤ p.req.http_version_minor.toInt
  | _ => True

/-- The first digit leads beyond the largest number, or those behind it do. -/
theorem tooLarge_cons (k : Nat) (b : Byte) (w : List Byte) :
    tooLarge k (b :: w) () ↔ Digit b ∧
      (maxVersion < k * 10 + digitValue b ∨ tooLarge (k * 10 + digitValue b) w ()) := by
  rw [tooLarge, many1_cons]
  apply and_congr_right
  intro hb
  rw [tooLarge, many1_iff]
  constructor
  · rintro ⟨ds, v, rfl, hds, hlarge⟩
    cases ds with
    | nil => exact Or.inl hlarge
    | cons d ds => exact Or.inr ⟨d :: ds, v, rfl, List.cons_ne_nil _ _, hds, hlarge⟩
  · rintro (hlarge | ⟨ds, v, rfl, -, hds, hlarge⟩)
    · exact ⟨[], w, rfl, by simp, hlarge⟩
    · exact ⟨ds, v, rfl, hds, hlarge⟩

private theorem overflow_nil (p : Parsing) : ¬ overflow p [] () := by
  obtain ⟨⟨state⟩, req⟩ := p
  cases state <;>
    simp [overflow, uriOverflow, slashOverflow, majorStartOverflow, majorOverflow, tooLarge]

/-- The overflows after a step. -/
def overflowAfter : Tribool × Parsing → Lang Byte Unit
  | (none, p) => overflow p
  | (some _, _) => fun _ _ => False

theorem overflowAfter_if {C : Prop} [Decidable C] (p : Parsing) (state : State) (req : Request)
    (w : List Byte) :
    overflowAfter (if C then Parsing.goOn state req else p.refuse) w () ↔
      C ∧ overflow ⟨⟨state⟩, req⟩ w () := by
  split
  · next h => simp only [overflowAfter, Parsing.goOn, h, true_and]
  · next h => simp only [overflowAfter, Parsing.refuse, h, false_and]

theorem overflowAfter_unless {C : Prop} [Decidable C] (p : Parsing) (state : State)
    (req : Request) (w : List Byte) :
    overflowAfter (if C then p.refuse else Parsing.goOn state req) w () ↔
      ¬ C ∧ overflow ⟨⟨state⟩, req⟩ w () := by
  split
  · next h => simp only [overflowAfter, Parsing.refuse, h, not_true_eq_false, false_and]
  · next h => simp only [overflowAfter, Parsing.goOn, h, not_false_eq_true, true_and]

private theorem overflow_cons_expect {c : Byte} {next : State}
    (hoverflow : overflow p = letter c (overflow ⟨⟨next⟩, p.req⟩)) (b : Byte) (w : List Byte) :
    overflow p (b :: w) () ↔ overflowAfter (expect p c b next) w () := by
  rw [hoverflow, letter_cons, expect, overflowAfter_if]

theorem addDigit_toNat (hb : Digit b) (hn : 0 ≤ n.toInt) (hfits : Fits n b) :
    (addDigit n b).toInt.toNat = n.toInt.toNat * 10 + digitValue b := by
  have hexact := addDigit_toInt hb hfits
  omega

theorem tooLarge_step (hn : 0 ≤ n.toInt) (b : Byte) (w : List Byte) :
    tooLarge n.toInt.toNat (b :: w) () ↔
      ¬ (Digit b → Fits n b) ∨ (Digit b ∧ tooLarge (addDigit n b).toInt.toNat w ()) := by
  rw [tooLarge_cons]
  by_cases hb : Digit b
  · have hfitsIff := fits_iff hb hn
    by_cases hfits : Fits n b
    · have hsmall := Nat.not_lt.mpr (hfitsIff.mp hfits)
      simp only [hb, hfits, hsmall, addDigit_toNat hb hn hfits, true_and, false_or, forall_true_left,
        not_true_eq_false]
    · have hlarge := Nat.not_le.mp (fun h => hfits (hfitsIff.mpr h))
      simp only [hb, hfits, hlarge, true_and, true_or, forall_true_left, not_false_eq_true]
  · simp only [hb, false_and, false_imp_iff, not_true_eq_false, false_or]

theorem forall_mem_ite {α : Type*} {C : Prop} [Decidable C] {P : α → Prop} (a : α) :
    (∀ x ∈ (if C then some a else none), P x) ↔ (C → P a) := by
  split
  · next h => simp only [Option.mem_some, forall_eq', h, forall_true_left]
  · next h => exact ⟨fun _ hc => absurd hc h, fun _ => nofun⟩

/-- One byte takes the streams of a state to those of the state after it, unless it has an
update that does not fit. -/
theorem overflow_cons (hcounted : Counted p) (b : Byte) (w : List Byte) :
    overflow p (b :: w) () ↔ ¬ UpdateFits p b ∨ overflowAfter (consume p b) w () := by
  obtain ⟨⟨state⟩, req⟩ := p
  have hspaceToken : ¬ TokenByte (chr ' ') := by decide
  have hspaceUri : ¬ UriByte (chr ' ') := by decide
  have hdotDigit : ¬ Digit (chr '.') := by decide
  have hcrDigit : ¬ Digit (chr '\r') := by decide
  have hnothing (h : updated ⟨⟨state⟩, req⟩ b = none) : UpdateFits ⟨⟨state⟩, req⟩ b := by
    rw [UpdateFits, h]
    exact nofun
  cases state with
  | http_version_h | http_version_t_1 | http_version_t_2 | http_version_p =>
      rw [or_iff_right (not_not_intro (hnothing rfl))]
      exact overflow_cons_expect rfl b w
  | method_start =>
      simp only [hnothing rfl, not_true_eq_false, false_or, consume, token_test_iff,
        overflowAfter_unless, overflow, many1_cons, Classical.not_not]
  | method =>
      simp only [hnothing rfl, not_true_eq_false, false_or, consume, token_test_iff, overflow,
        many_letter_cons hspaceToken]
      split
      · rfl
      · simp only [overflowAfter_unless, overflow, Classical.not_not]
  | uri =>
      simp only [hnothing rfl, not_true_eq_false, false_or, consume, is_ctl_iff, overflow,
        uriOverflow, many_letter_cons hspaceUri]
      split
      · rfl
      · next h =>
        simp only [overflowAfter_unless, overflow, uriOverflow, UriByte, ne_eq, h,
          not_false_eq_true, and_true]
  | http_version_slash =>
      simp only [hnothing rfl, not_true_eq_false, false_or, consume, overflowAfter_if, overflow,
        slashOverflow, letter_cons]
      rfl
  | http_version_major_start =>
      simp only [UpdateFits, updated, forall_mem_ite, consume, is_digit_iff, overflowAfter_if,
        overflow, majorStartOverflow, majorOverflow, many1_cons, tooLarge_step hcounted.1]
      tauto
  | http_version_major =>
      simp only [UpdateFits, updated, forall_mem_ite, consume, is_digit_iff, overflow,
        majorOverflow, many_letter_cons hdotDigit, tooLarge_step hcounted.1]
      split
      · next h =>
        subst h
        simp only [overflowAfter, Parsing.goOn, overflow, hdotDigit, false_and, false_imp_iff,
          not_true_eq_false, false_or]
      · simp only [overflowAfter_if, overflow, majorOverflow]
        tauto
  | http_version_minor_start =>
      simp only [UpdateFits, updated, forall_mem_ite, consume, is_digit_iff, overflowAfter_if,
        overflow, tooLarge_step hcounted.2]
  | http_version_minor =>
      simp only [UpdateFits, updated, forall_mem_ite, consume, is_digit_iff, overflow,
        tooLarge_step hcounted.2]
      split
      · next h =>
        subst h
        simp only [overflowAfter, Parsing.goOn, overflow, hcrDigit, false_and, false_imp_iff,
          not_true_eq_false, false_or]
      · simp only [overflowAfter_if, overflow]
  | expecting_newline_1 | header_line_start | header_lws | header_name
  | space_before_header_value | header_value | expecting_newline_2 =>
      rw [or_iff_right (not_not_intro (hnothing rfl))]
      simp only [consume, expect]
      split_ifs <;> rfl
  | expecting_newline_3 =>
      rw [or_iff_right (not_not_intro (hnothing rfl))]
      rfl

private theorem counted_consume (hcounted : Counted p) (hfits : UpdateFits p b) {p' : Parsing}
    (hstep : consume p b = (none, p')) : Counted p' := by
  obtain ⟨⟨state⟩, req⟩ := p
  have hnext {n : Int32} (hn : 0 ≤ n.toInt)
      (hfits : ∀ k ∈ (if is_digit (toInt b) then some n else none), Fits k b)
      (hdigit : is_digit (toInt b) = true) : 0 ≤ (addDigit n b).toInt := by
    have hexact := addDigit_toInt ((is_digit_iff b).mp hdigit) ((forall_mem_ite n).mp hfits hdigit)
    omega
  cases state with
  | http_version_major_start =>
      simp only [consume] at hstep
      split at hstep
      · next hdigit =>
        cases hstep
        exact ⟨hnext hcounted.1 hfits hdigit, hcounted.2⟩
      · cases hstep
  | http_version_minor_start =>
      simp only [consume] at hstep
      split at hstep
      · next hdigit =>
        cases hstep
        exact ⟨hcounted.1, hnext hcounted.2 hfits hdigit⟩
      · cases hstep
  | http_version_major =>
      simp only [consume] at hstep
      split_ifs at hstep with hdot hdigit
      · cases hstep
        exact hcounted
      · cases hstep
        exact ⟨hnext hcounted.1 hfits hdigit, hcounted.2⟩
      · cases hstep
  | http_version_minor =>
      simp only [consume] at hstep
      split_ifs at hstep with hend hdigit
      · cases hstep
        exact True.intro
      · cases hstep
        exact ⟨hcounted.1, hnext hcounted.2 hfits hdigit⟩
      · cases hstep
  | http_version_slash =>
      simp only [consume] at hstep
      split at hstep
      · cases hstep
        exact ⟨le_rfl, le_rfl⟩
      · cases hstep
  | expecting_newline_3 => cases hstep
  | method_start | method | uri | http_version_h | http_version_t_1 | http_version_t_2
  | http_version_p | expecting_newline_1 | header_line_start | header_lws | header_name
  | space_before_header_value | header_value | expecting_newline_2 =>
      simp only [consume, expect] at hstep
      split_ifs at hstep <;> cases hstep <;> exact True.intro

theorem not_updatesFit_iff (hcounted : Counted p) (w : List Byte) :
    ¬ UpdatesFit p w ↔ overflow p w () := by
  induction w generalizing p with
  | nil => exact iff_of_false (not_not_intro True.intro) (overflow_nil p)
  | cons b w ih =>
      rw [overflow_cons hcounted, UpdatesFit]
      by_cases hfits : UpdateFits p b
      · cases hstep : consume p b with
        | mk result p' =>
            cases result with
            | none =>
                simp only [hfits, true_and, not_true_eq_false, false_or, overflowAfter]
                exact ih (counted_consume hcounted hfits hstep)
            | some result =>
                simp only [hfits, true_and, not_true_eq_false, false_or, overflowAfter]
      · simp only [hfits, false_and, not_false_eq_true, true_or]

private theorem updatesFit_append (p : Parsing) (first second : List Byte) :
    UpdatesFit p (first ++ second) ↔
      UpdatesFit p first ∧
        match parse p first with
        | (none, p', _) => UpdatesFit p' second
        | (some _, _) => True := by
  induction first generalizing p with
  | nil => exact (and_iff_right True.intro).symm
  | cons b first ih =>
      rw [List.cons_append, UpdatesFit, UpdatesFit, parse, and_assoc]
      apply and_congr_right
      intro _
      cases hstep : consume p b with
      | mk result p' =>
          cases result with
          | none => exact ih p'
          | some result => exact (and_iff_right True.intro).symm

/-- Where the reads end does not matter. -/
theorem readsFit_iff (p : Parsing) (reads : List (List Byte)) :
    ReadsFit p reads ↔ UpdatesFit p reads.flatten := by
  induction reads generalizing p with
  | nil => exact Iff.rfl
  | cons read later ih =>
      rw [ReadsFit, List.flatten_cons, updatesFit_append]
      apply and_congr_right
      intro _
      cases hparse : parse p read with
      | mk result reached =>
          cases result with
          | none => exact ih reached.1
          | some result => exact Iff.rfl

/-- From the initial state the overflows are those of a version number that is too large. -/
theorem versionsBounded_iff (major minor : Int32) (stream : List Byte) :
    VersionsBounded stream ↔ ¬ overflow ⟨.new, .fresh major minor⟩ stream () := by
  constructor
  · intro hbounded hstart
    change many1 TokenByte (fun _ => letter (chr ' ') uriOverflow) stream () at hstart
    obtain ⟨method, _, rfl, hne, hmethod, _, rfl, uri, _, rfl, huri, _, rfl, _, rfl, _, rfl, _, rfl,
      _, rfl, more, rfl, hover⟩ := (many1_iff _ _ _ _).mp hstart
    obtain ⟨hmajor, hminor⟩ := hbounded method uri more hne hmethod huri (by
      simp [lineUpToVersion])
    rcases hover with hlarge | hdot
    · obtain ⟨ds, v, rfl, _, hds, hlarge⟩ := (many1_iff _ _ _ _).mp hlarge
      exact absurd (hmajor ds v hds rfl) (Nat.not_le.mpr hlarge)
    · obtain ⟨ds, _, rfl, hdsNe, hds, _, rfl, hlarge⟩ := (many1_iff _ _ _ _).mp hdot
      obtain ⟨es, v, rfl, _, hes, hlarge⟩ := (many1_iff _ _ _ _).mp hlarge
      exact absurd (hminor ds es v hdsNe hds hes rfl) (Nat.not_le.mpr hlarge)
  · intro hno method uri more hne hmethod huri hstream
    have hnot (hover : majorStartOverflow 0 0 more ()) : False := by
      apply hno
      change many1 TokenByte (fun _ => letter (chr ' ') uriOverflow) stream ()
      refine (many1_iff _ _ _ _).mpr ⟨method, _, ?_, hne, hmethod, _, rfl, uri, _, rfl, huri, _, rfl,
        _, rfl, _, rfl, _, rfl, _, rfl, more, rfl, hover⟩
      simp [hstream, lineUpToVersion]
    have hlargeNe {ds : List Byte} (hlarge : maxVersion < decimal ds) : ds ≠ [] := by
      rintro rfl
      exact absurd hlarge (by decide)
    constructor
    · intro ds rest hds hmore
      apply Nat.not_lt.mp
      intro hlarge
      exact hnot (Or.inl ((many1_iff _ _ _ _).mpr ⟨ds, rest, hmore, hlargeNe hlarge, hds, hlarge⟩))
    · intro ds es rest hdsNe hds hes hmore
      apply Nat.not_lt.mp
      intro hlarge
      refine hnot (Or.inr ((many1_iff _ _ _ _).mpr ⟨ds, _, hmore, hdsNe, hds, es ++ rest, rfl, ?_⟩))
      exact (many1_iff _ _ _ _).mpr ⟨es, rest, rfl, hlargeNe hlarge, hes, hlarge⟩

private theorem le_decimalFrom (k : Nat) (ds : List Byte) : k ≤ decimalFrom k ds := by
  induction ds generalizing k with
  | nil => exact le_rfl
  | cons d ds ih =>
      have hrest := ih (k * 10 + digitValue d)
      rw [decimalFrom, List.foldl_cons]
      exact Nat.le_trans (by omega) hrest

/-- Digits that are not too large are added up exactly. -/
theorem foldl_addDigit_toInt {ds : List Byte} (hn : 0 ≤ n.toInt) (hds : ∀ b ∈ ds, Digit b)
    (hbounded : decimalFrom n.toInt.toNat ds ≤ maxVersion) :
    (ds.foldl addDigit n).toInt = decimalFrom n.toInt.toNat ds := by
  induction ds generalizing n with
  | nil => exact (Int.toNat_of_nonneg hn).symm
  | cons d ds ih =>
      rw [List.forall_mem_cons] at hds
      rw [decimalFrom, List.foldl_cons] at hbounded
      have hfits : Fits n d :=
        (fits_iff hds.1 hn).mpr ((le_decimalFrom _ ds).trans hbounded)
      have hnext := addDigit_toNat hds.1 hn hfits
      have hexact := addDigit_toInt hds.1 hfits
      have hrest := ih (n := addDigit n d) (by omega) hds.2 (by rw [hnext]; exact hbounded)
      rw [List.foldl_cons, hrest, hnext]
      rfl

theorem Sentence.bytes_eq (s : Sentence) :
    ∃ rest, s.bytes = lineUpToVersion s.method s.uri ++ (s.major ++ chr '.' :: (s.minor ++ rest)) :=
  ⟨crlf ++ s.lines.flatMap HeaderLine.bytes ++ crlf, by simp [Sentence.bytes, lineUpToVersion]⟩

/-- The numbers of a request with which a bounded stream begins are read exactly. -/
theorem Sentence.request_exact {s : Sentence} {stream : List Byte}
    (hbounded : VersionsBounded stream) (hbegins : s.bytes <+: stream) :
    s.request.http_version_major.toInt = decimal s.major ∧
      s.request.http_version_minor.toInt = decimal s.minor := by
  obtain ⟨after, rfl⟩ := hbegins
  obtain ⟨rest, hbytes⟩ := s.bytes_eq
  obtain ⟨hmajor, hminor⟩ := hbounded s.method s.uri
    (s.major ++ chr '.' :: (s.minor ++ (rest ++ after))) s.method_ne_nil s.method_token s.uri_uriByte
    (by simp [hbytes])
  exact ⟨foldl_addDigit_toInt le_rfl s.major_digit (hmajor s.major _ s.major_digit rfl),
    foldl_addDigit_toInt le_rfl s.minor_digit
      (hminor s.major s.minor _ s.major_ne_nil s.major_digit s.minor_digit rfl)⟩

/-- The version numbers are added up without an overflow exactly when the stream does not
begin with one above `maxVersion`; then the numbers of the request are the ones in its line. -/
theorem versionExact_iff (buffer_ : List Byte) (major minor : Int32) (reads : List (List Byte)) :
    VersionExact ⟨buffer_, .fresh major minor, .new⟩ reads ↔ VersionsBounded reads.flatten := by
  have hfits : ReadsFit (Connection.parsing ⟨buffer_, .fresh major minor, .new⟩) reads ↔
      VersionsBounded reads.flatten := by
    rw [readsFit_iff, versionsBounded_iff major minor,
      ← not_updatesFit_iff (p := ⟨.new, .fresh major minor⟩) True.intro, Classical.not_not]
    rfl
  constructor
  · exact fun hexact => hfits.mp hexact.1
  · intro hbounded
    refine ⟨hfits.mpr hbounded, ?_⟩
    intro req hreq
    rw [(Connection.serve_eq _ reads).1, Connection.decision] at hreq
    split at hreq
    · next p' rest hparse =>
      cases hreq
      rw [parse_eq_feed] at hparse
      obtain ⟨w, hstream, hw⟩ := consume_decides.mem_of_feed hparse
      obtain ⟨s, rfl, hrequest⟩ := (rest_iff_sentence major minor w p'.req).mp hw
      have hbegins : s.bytes <+: reads.flatten := ⟨rest, hstream.symm⟩
      obtain ⟨hmajor, hminor⟩ := Sentence.request_exact hbounded hbegins
      exact ⟨s, hbegins, hrequest ▸ hmajor, hrequest ▸ hminor⟩
    · cases hreq
    · cases hreq

/-- The number of this request is an `int`, but not with the character `'0'` added. -/
theorem not_versionExact_2147483600 :
    ¬ VersionExact ⟨[], .fresh 0 0, .new⟩
      ["G / HTTP/21474".toList.map chr, "83600.0\r\n\r\n".toList.map chr] := by
  rintro ⟨hfits, _⟩
  rw [readsFit_iff] at hfits
  have hcounted : Counted ⟨.new, .fresh 0 0⟩ := True.intro
  have hline := (versionsBounded_iff 0 0 _).mpr
    (fun hover => (not_updatesFit_iff hcounted _).mpr hover hfits)
  have hlarge := (hline [chr 'G'] [chr '/'] ("2147483600.0\r\n\r\n".toList.map chr)
    (by decide) (by decide +kernel) (by decide +kernel) (by decide +kernel)).1
      ("2147483600".toList.map chr) (".0\r\n\r\n".toList.map chr) (by decide +kernel)
      (by decide +kernel)
  exact absurd hlarge (by decide +kernel)

end LearningCpp.Http
