import Mathlib.Computability.Language
import Mathlib.Tactic

/-!
Codes whose units announce their length: the first letter of a unit says how
many letters follow it, and those belong to a class of their own. A text of such
units is read with one counter, the letters that the current unit still owes.
-/

namespace LearningCpp.Library

/-- How many letters a letter announces when it begins a unit, if it may begin
one, and which letters may follow. -/
structure UnitCode (α : Type*) where
  announces : α → Option Nat
  follows : α → Bool

namespace UnitCode

open scoped Computability

variable {α : Type*} (C : UnitCode α)

/-- The units of the code. -/
def unit : Language α :=
  {u | ∃ b fs, u = b :: fs ∧ C.announces b = some fs.length ∧ ∀ f ∈ fs, C.follows f}

/-- The texts of the code: any number of units. -/
def text : Language α := C.unit∗

/-- After the `owed` letters of a unit that has begun, and any number of units
after it, what is left satisfies `P`. -/
def Reaches (P : List α → Prop) (owed : Nat) (w : List α) : Prop :=
  ∃ fs a r, w = fs ++ (a ++ r) ∧ fs.length = owed ∧ (∀ f ∈ fs, C.follows f) ∧ a ∈ C.text ∧ P r

/-- What is left satisfies `P` after some units of the text. -/
def AtUnit (P : List α → Prop) (w : List α) : Prop := C.Reaches P 0 w

variable {C} {P Q : List α → Prop}

theorem cons_mem_unit {b : α} {fs : List α} (hb : C.announces b = some fs.length)
    (hfs : ∀ f ∈ fs, C.follows f) : b :: fs ∈ C.unit :=
  ⟨b, fs, rfl, hb, hfs⟩

theorem nil_mem_text : [] ∈ C.text := Language.nil_mem_kstar C.unit

theorem append_mem_text {u a : List α} (hu : u ∈ C.unit) (ha : a ∈ C.text) : u ++ a ∈ C.text := by
  obtain ⟨us, rfl, hus⟩ := Language.mem_kstar.mp ha
  exact Language.join_mem_kstar (List.forall_mem_cons.mpr ⟨hu, hus⟩)

/-- A text is empty or begins with a unit. -/
theorem mem_text_cases {w : List α} (h : w ∈ C.text) :
    w = [] ∨ ∃ u a, w = u ++ a ∧ u ∈ C.unit ∧ a ∈ C.text := by
  obtain ⟨us, rfl, hus⟩ := Language.mem_kstar.mp h
  cases us with
  | nil => exact Or.inl rfl
  | cons u us =>
      rw [List.forall_mem_cons] at hus
      exact Or.inr ⟨u, us.flatten, rfl, hus.1, Language.join_mem_kstar hus.2⟩

theorem atUnit_iff {w : List α} : C.AtUnit P w ↔ ∃ a r, w = a ++ r ∧ a ∈ C.text ∧ P r := by
  constructor
  · rintro ⟨fs, a, r, rfl, hlength, _, ha, hr⟩
    obtain rfl := List.length_eq_zero_iff.mp hlength
    exact ⟨a, r, rfl, ha, hr⟩
  · rintro ⟨a, r, rfl, ha, hr⟩
    exact ⟨[], a, r, rfl, rfl, by simp, ha, hr⟩

theorem reaches_zero_nil : C.Reaches P 0 [] ↔ P [] := by
  constructor
  · rintro ⟨fs, a, r, hw, _, _, _, hr⟩
    obtain ⟨_, hrest⟩ := List.append_eq_nil_iff.mp hw.symm
    obtain ⟨_, rfl⟩ := List.append_eq_nil_iff.mp hrest
    exact hr
  · intro h
    exact ⟨[], [], [], rfl, rfl, by simp, nil_mem_text, h⟩

theorem not_reaches_succ_nil {owed : Nat} : ¬ C.Reaches P (owed + 1) [] := by
  rintro ⟨fs, a, r, hw, hlength, _⟩
  obtain ⟨rfl, _⟩ := List.append_eq_nil_iff.mp hw.symm
  cases hlength

theorem reaches_succ_cons {owed : Nat} {b : α} {w : List α} :
    C.Reaches P (owed + 1) (b :: w) ↔ C.follows b ∧ C.Reaches P owed w := by
  constructor
  · rintro ⟨fs, a, r, hw, hlength, hfs, ha, hr⟩
    cases fs with
    | nil => cases hlength
    | cons f fs =>
        obtain ⟨rfl, rfl⟩ := List.cons.inj hw
        rw [List.forall_mem_cons] at hfs
        exact ⟨hfs.1, fs, a, r, rfl, Nat.succ.inj hlength, hfs.2, ha, hr⟩
  · rintro ⟨hb, fs, a, r, rfl, rfl, hfs, ha, hr⟩
    exact ⟨b :: fs, a, r, rfl, rfl, List.forall_mem_cons.mpr ⟨hb, hfs⟩, ha, hr⟩

/-- A unit boundary is reached at once, or behind the unit that the first letter begins. -/
theorem reaches_zero_cons {b : α} {w : List α} :
    C.Reaches P 0 (b :: w) ↔ P (b :: w) ∨ ∃ owed, C.announces b = some owed ∧ C.Reaches P owed w := by
  constructor
  · intro h
    obtain ⟨a, r, hw, ha, hr⟩ := atUnit_iff.mp h
    rcases mem_text_cases ha with rfl | ⟨u, a', rfl, ⟨c, fs, rfl, hc, hfs⟩, ha'⟩
    · rw [List.nil_append] at hw
      exact Or.inl (hw ▸ hr)
    · simp only [List.cons_append, List.append_assoc] at hw
      obtain ⟨rfl, rfl⟩ := List.cons.inj hw
      exact Or.inr ⟨fs.length, hc, fs, a', r, rfl, rfl, hfs, ha', hr⟩
  · rintro (h | ⟨owed, hb, fs, a, r, rfl, rfl, hfs, ha, hr⟩)
    · exact atUnit_iff.mpr ⟨[], b :: w, rfl, nil_mem_text, h⟩
    · apply atUnit_iff.mpr
      refine ⟨b :: fs ++ a, r, ?_, append_mem_text (cons_mem_unit hb hfs) ha, hr⟩
      simp

/-- A text ends at a unit boundary. -/
theorem mem_text_iff {w : List α} : w ∈ C.text ↔ C.AtUnit (fun r => r = []) w := by
  rw [atUnit_iff]
  constructor
  · intro h
    exact ⟨w, [], by simp, h, rfl⟩
  · rintro ⟨a, r, rfl, ha, rfl⟩
    rwa [List.append_nil]

/-- A text, and then a word of another language. -/
theorem mem_text_mul_iff {L : Language α} {w : List α} :
    w ∈ C.text * L ↔ C.AtUnit (fun r => r ∈ L) w := by
  rw [atUnit_iff, Language.mem_mul]
  constructor
  · rintro ⟨a, ha, r, hr, rfl⟩
    exact ⟨a, r, rfl, ha, hr⟩
  · rintro ⟨a, r, rfl, ha, hr⟩
    exact ⟨a, ha, r, hr, rfl⟩

/-! ## One counter -/

variable (C) in
/-- One letter: what is owed before and after it, if it may stand there. -/
def step (owed : Nat) (b : α) : Option Nat :=
  match owed with
  | 0 => C.announces b
  | n + 1 => if C.follows b then some n else none

variable (C) in
/-- Read a word from the left. -/
def scan (owed : Nat) (w : List α) : Option Nat := w.foldlM C.step owed

theorem scan_cons (owed : Nat) (b : α) (w : List α) :
    C.scan owed (b :: w) = (C.step owed b).bind (fun n => C.scan n w) := rfl

theorem scan_append (owed : Nat) (w v : List α) :
    C.scan owed (w ++ v) = (C.scan owed w).bind (fun n => C.scan n v) := by
  rw [scan, List.foldlM_append]
  rfl

/-- The end of a text is reached by one more letter as the counter says. -/
theorem reaches_end_cons {owed : Nat} {b : α} {w : List α} :
    C.Reaches (fun r => r = []) owed (b :: w) ↔
      ∃ n, C.step owed b = some n ∧ C.Reaches (fun r => r = []) n w := by
  cases owed with
  | zero =>
      rw [reaches_zero_cons]
      simp [step]
  | succ owed =>
      rw [reaches_succ_cons]
      cases hb : C.follows b with
      | true => simp [step, hb]
      | false => simp [step, hb]

/-- Nothing is owed at the end exactly when the word ends at a unit boundary. -/
theorem scan_eq_zero_iff (owed : Nat) (w : List α) :
    C.scan owed w = some 0 ↔ C.Reaches (fun r => r = []) owed w := by
  induction w generalizing owed with
  | nil =>
      cases owed with
      | zero =>
          rw [reaches_zero_nil]
          exact ⟨fun _ => rfl, fun _ => rfl⟩
      | succ owed =>
          constructor
          · intro h
            cases h
          · intro h
            exact absurd h not_reaches_succ_nil
  | cons b w ih =>
      rw [reaches_end_cons, scan_cons, Option.bind_eq_some_iff]
      simp only [ih]

theorem scan_zero_iff (w : List α) : C.scan 0 w = some 0 ↔ w ∈ C.text := by
  rw [scan_eq_zero_iff, mem_text_iff, AtUnit]

/-- Letters that may follow pay what is owed. -/
theorem scan_replicate {f : α} (hf : C.follows f) (owed : Nat) :
    C.scan owed (List.replicate owed f) = some 0 := by
  induction owed with
  | zero => rfl
  | succ owed ih =>
      have hstep : C.step (owed + 1) f = some owed := by simp [step, hf]
      rw [List.replicate_succ, scan_cons, hstep]
      exact ih

/-- No letter of a word is refused exactly when the word begins a text. -/
theorem scan_isSome_iff {f : α} (hf : C.follows f) (w : List α) :
    (C.scan 0 w).isSome ↔ ∃ more, w ++ more ∈ C.text := by
  constructor
  · intro h
    obtain ⟨owed, howed⟩ := Option.isSome_iff_exists.mp h
    refine ⟨List.replicate owed f, (scan_zero_iff _).mp ?_⟩
    rw [scan_append, howed]
    exact scan_replicate hf owed
  · rintro ⟨more, hmore⟩
    rw [← scan_zero_iff, scan_append, Option.bind_eq_some_iff] at hmore
    obtain ⟨owed, howed, _⟩ := hmore
    rw [howed, Option.isSome_some]

/-! ## Fewer first letters -/

variable (C) in
/-- The code in which only the letters of a class begin a unit. -/
def restrict (begins : α → Bool) : UnitCode α where
  announces b := if begins b then C.announces b else none
  follows := C.follows

/-- The first letter of what is left is not of the class. -/
def HeadOutside (begins : α → Bool) (r : List α) : Prop := ∃ b ∈ r.head?, begins b = false

@[simp]
theorem headOutside_nil {begins : α → Bool} : ¬ HeadOutside begins [] := by
  rintro ⟨b, hb, _⟩
  cases hb

@[simp]
theorem headOutside_cons {begins : α → Bool} {b : α} {r : List α} :
    HeadOutside begins (b :: r) ↔ begins b = false := by
  simp [HeadOutside]

theorem atUnit_headOutside_iff {begins : α → Bool} {w : List α} :
    C.AtUnit (HeadOutside begins) w ↔
      ∃ a b r, w = a ++ b :: r ∧ a ∈ C.text ∧ begins b = false := by
  rw [atUnit_iff]
  constructor
  · rintro ⟨a, r, rfl, ha, b, hb, hbegins⟩
    obtain ⟨t, rfl⟩ := List.head?_eq_some_iff.mp hb
    exact ⟨a, b, t, rfl, ha, hbegins⟩
  · rintro ⟨a, b, r, rfl, ha, hbegins⟩
    exact ⟨a, b :: r, rfl, ha, headOutside_cons.mpr hbegins⟩

theorem restrict_announces_eq_some {begins : α → Bool} {b : α} {owed : Nat} :
    (C.restrict begins).announces b = some owed ↔ begins b ∧ C.announces b = some owed := by
  rw [restrict, Option.ite_none_right_eq_some]

theorem reaches_restrict_iff {begins : α → Bool} (owed : Nat) (w : List α) :
    (C.restrict begins).Reaches (fun r => r = []) owed w ↔
      C.Reaches (fun r => r = []) owed w ∧ ¬ C.Reaches (HeadOutside begins) owed w := by
  induction w generalizing owed with
  | nil =>
      cases owed with
      | zero => simp [reaches_zero_nil]
      | succ owed => simp [not_reaches_succ_nil]
  | cons b w ih =>
      cases owed with
      | zero =>
          simp only [reaches_zero_cons, restrict_announces_eq_some, headOutside_cons, ih]
          cases hb : begins b with
          | true =>
              cases hann : C.announces b with
              | none => simp
              | some n => simp
          | false => simp
      | succ owed =>
          have hfollows : (C.restrict begins).follows b = C.follows b := rfl
          simp only [reaches_succ_cons, ih, hfollows]
          tauto

/-- A text of the smaller code is a text in which no other letter begins a unit. -/
theorem mem_text_restrict_iff {begins : α → Bool} (w : List α) :
    w ∈ (C.restrict begins).text ↔ w ∈ C.text ∧ ¬ C.AtUnit (HeadOutside begins) w := by
  rw [mem_text_iff, mem_text_iff]
  exact reaches_restrict_iff 0 w

end UnitCode

end LearningCpp.Library
