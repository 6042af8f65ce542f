import LearningCpp.IniFile.Lines
import LearningCpp.Library.Machine

/-!
What the text of an INI file says of an item in a section, and where
`ReadStringFromIniFile` takes a line for something else. Both go through the lines and
know after each of them whether the section has come, whether it is over, and whether
the item is found.
-/

namespace LearningCpp.IniFile

open Library

/-- The lines of a text, each with the newline that ends it. -/
def linesOf : Text → List Text
  | [] => []
  | c :: text =>
      if c = 10 then [c] :: linesOf text
      else
        match linesOf text with
        | [] => [[c]]
        | line :: lines => (c :: line) :: lines

def IsHeader (line : Text) : Prop := (line.dropWhile blank).head? = some 91

def IsComment (line : Text) : Prop := (line.dropWhile blank).head? = some 59

instance (line : Text) : Decidable (IsHeader line) := inferInstanceAs (Decidable (_ = _))

instance (line : Text) : Decidable (IsComment line) := inferInstanceAs (Decidable (_ = _))

/-- The name in a header, if that is closed. -/
def headerName (line : Text) : Option Text :=
  let rest := (line.dropWhile blank).drop 1
  if 93 ∈ rest then some (rest.takeWhile (fun c => c ≠ 93)) else none

def lower (text : Text) : Text := text.map tolower

/-- A header of the section. -/
def Opens (frame line : Text) : Prop :=
  IsHeader line ∧ (headerName line).map lower = some (lower frame)

instance (frame line : Text) : Decidable (Opens frame line) := inferInstanceAs (Decidable (_ ∧ _))

/-- The two sides of the first `=` in a line, without the blanks around them. -/
def nameOf (line : Text) : Text := strip blank (line.takeWhile (fun c => c ≠ 61))

def valueOf (line : Text) : Text := strip blank ((line.dropWhile (fun c => c ≠ 61)).drop 1)

/-- The value that a line gives the item: `item = value` on a line that is neither a header nor
a comment. -/
def entry (item line : Text) : Option Text :=
  if ¬ IsHeader line ∧ ¬ IsComment line ∧ 61 ∈ line ∧ lower (nameOf line) = lower item ∧
      valueOf line ≠ [] then
    some (valueOf line)
  else none

/-- The lines after the first header of the section and before the next header. -/
def sectionLines (frame : Text) (lines : List Text) : List Text :=
  ((lines.dropWhile (fun line => ¬ Opens frame line)).drop 1).takeWhile
    (fun line => ¬ IsHeader line)

/-- The value of the first such line in the section that has one. -/
def iniValue (frame item text : Text) : Text :=
  ((sectionLines frame (linesOf text)).findSome? (entry item)).getD []

/-- What is known after some lines. -/
inductive Scan where
  | searching
  | inside
  | closed
  | found (value : Text)
  deriving DecidableEq, Repr

def Scan.value : Scan → Text
  | .found value => value
  | .searching | .inside | .closed => []

/-- What a line says. -/
def readLine (frame item : Text) : Scan → Text → Scan
  | .searching, line => if Opens frame line then .inside else .searching
  | .inside, line =>
      if IsHeader line then .closed
      else
        match entry item line with
        | some value => .found value
        | none => .inside
  | .closed, _ => .closed
  | .found value, _ => .found value

variable (boost : Boost)

/-- What the two loops make of a line. -/
def scanLine (frame item : Text) : Scan → Text → Scan
  | .searching, line =>
      match boost.regex_search reg (cstr line) with
      | none => .searching
      | some what =>
          if boost.to_lower frame = boost.to_lower (what.getD 2 []) then .inside else .searching
  | .inside, line =>
      match boost.regex_match reg (cstr line) with
      | some _ => .closed
      | none =>
          match boost.regex_search regItem (cstr line) with
          | none => .inside
          | some what =>
              if boost.to_lower (what.getD 1 []) = boost.to_lower item ∧
                  0 < (what.getD 5 []).length then
                .found (what.getD 5 [])
              else .inside
  | .closed, _ => .closed
  | .found value, _ => .found value

/-- A line that gives the item a value is one word, `=` and a value in one piece. Of other lines
with an `=`, neither the last word before it nor all that is before it is the item. -/
def PlainEntry (item line : Text) : Prop :=
  61 ∈ line → valueOf line ≠ [] →
    if IsComment line then
      lower (lastWord (line.takeWhile (fun c => c ≠ 61))) ≠ lower item
    else if (nameOf line).all (fun c => !blank c) then
      lower (nameOf line) = lower item → ∀ c ∈ valueOf line, isSeparator c = false
    else
      lower (nameOf line) ≠ lower item ∧
        lower (lastWord (line.takeWhile (fun c => c ≠ 61))) ≠ lower item

instance (item line : Text) : Decidable (PlainEntry item line) :=
  inferInstanceAs (Decidable (_ → _ → _))

/-- A line that is no header has no pair of brackets with the name of the section that is looked
for. A header that ends the section is closed. -/
def PlainLine (frame item : Text) : Scan → Text → Prop
  | .searching, line => ¬ IsHeader line → (bracketed line).map lower ≠ some (lower frame)
  | .inside, line => if IsHeader line then 93 ∈ line.dropWhile blank else PlainEntry item line
  | .closed, _ => True
  | .found _, _ => True

instance (frame item : Text) (s : Scan) (line : Text) : Decidable (PlainLine frame item s line) :=
  match s with
  | .searching =>
      inferInstanceAs
        (Decidable (¬ IsHeader line → (bracketed line).map lower ≠ some (lower frame)))
  | .inside =>
      inferInstanceAs
        (Decidable (if IsHeader line then 93 ∈ line.dropWhile blank else PlainEntry item line))
  | .closed | .found _ => isTrue trivial

/-- Where the text says that the reading has come to after `n` lines. -/
def readTo (frame item text : Text) (n : Nat) : Scan :=
  ((linesOf text).take n).foldl (readLine frame item) .searching

/-- The condition on the text: the lines that matter for the section and the item are plain. -/
def Plain (frame item text : Text) : Prop :=
  ∀ n (hn : n < (linesOf text).length),
    PlainLine frame item (readTo frame item text n) (linesOf text)[n]

instance (frame item text : Text) : Decidable (Plain frame item text) :=
  inferInstanceAs (Decidable (∀ n (hn : n < (linesOf text).length),
    PlainLine frame item (readTo frame item text n) (linesOf text)[n]))

/-- A text without NUL whose lines are shorter than what `fgets` is asked for. -/
def Readable (max_len : MaxLen) (text : Text) : Prop :=
  ∀ line ∈ linesOf text, line.length + 1 < max_len.size ∧ 0 ∉ line

theorem eq_nil_of_linesOf {text : Text} (h : linesOf text = []) : text = [] := by
  cases text with
  | nil => rfl
  | cons c text =>
      rw [linesOf] at h
      split at h
      · cases h
      · split at h
        · cases h
        · cases h

private theorem ne_nil_of_mem_linesOf {text line : Text} (h : line ∈ linesOf text) : line ≠ [] := by
  induction text generalizing line with
  | nil => cases h
  | cons c text ih =>
      rw [linesOf] at h
      split at h
      · obtain rfl | h := List.mem_cons.mp h
        · exact List.cons_ne_nil c []
        · exact ih h
      · cases hrest : linesOf text with
        | nil =>
            rw [hrest] at h
            rw [List.mem_singleton.mp h]
            exact List.cons_ne_nil c []
        | cons l ls =>
            rw [hrest] at h ih
            obtain rfl | h := List.mem_cons.mp h
            · exact List.cons_ne_nil c l
            · exact ih (List.mem_cons_of_mem l h)

/-- `fgets` reads the lines of the text when they are short enough. The line that is being
read has the bytes of `front` already. -/
theorem fgetsLines_eq {size room : Nat} {front file line : Text} {lines : List Text}
    (hfile : linesOf file = line :: lines) (hroom : line.length ≤ room)
    (hsize : ∀ l ∈ lines, l.length ≤ size) :
    fgetsLines size room front file = (front ++ line) :: lines := by
  induction file generalizing room front line lines with
  | nil => cases hfile
  | cons c file ih =>
      rw [linesOf] at hfile
      rw [fgetsLines]
      by_cases hc : c = 10
      · rw [if_pos hc] at hfile
        rw [if_pos (Or.inl hc)]
        cases hfile
        cases hrest : linesOf file with
        | nil =>
            rw [eq_nil_of_linesOf hrest, fgetsLines, if_pos rfl]
        | cons l ls =>
            rw [hrest] at hsize
            obtain ⟨hl, hls⟩ := List.forall_mem_cons.mp hsize
            rw [ih hrest hl hls, List.nil_append]
      · rw [if_neg hc] at hfile
        cases hrest : linesOf file with
        | nil =>
            rw [hrest] at hfile
            cases hfile
            rw [eq_nil_of_linesOf hrest]
            split
            · rw [fgetsLines, if_pos rfl]
            · rw [fgetsLines, if_neg (by simp)]
        | cons l ls =>
            rw [hrest] at hfile
            cases hfile
            have hlong : 0 < l.length := by
              apply List.length_pos_iff.mpr
              apply ne_nil_of_mem_linesOf
              rw [hrest]
              exact List.mem_cons_self
            rw [List.length_cons] at hroom
            rw [if_neg (not_or.mpr ⟨hc, by omega⟩), ih hrest (by omega) hsize, List.append_assoc,
              List.singleton_append]

theorem cstr_eq {line : Text} (h : 0 ∉ line) : cstr line = line := by
  rw [cstr, List.takeWhile_eq_self_iff]
  intro c hc
  exact decide_eq_true (fun heq => h (heq ▸ hc))

private theorem findItem_eq (frame item : Text) (lines : List Text) :
    (findItem boost (boost.to_lower item) lines).getD [] =
      (lines.foldl (scanLine boost frame item) .inside).value := by
  induction lines with
  | nil => rfl
  | cons line lines ih =>
      rw [findItem, List.foldl_cons, scanLine]
      cases boost.regex_match reg (cstr line) with
      | some what =>
          dsimp only
          rw [List.foldl_fixed' (fun _ => rfl)]
          rfl
      | none =>
          cases boost.regex_search regItem (cstr line) with
          | none => exact ih
          | some what =>
              dsimp only
              split
              · rw [List.foldl_fixed' (fun _ => rfl)]
                rfl
              · exact ih

/-- The two loops go through the lines once. -/
theorem findFrame_eq (frame item : Text) (lines : List Text) :
    ((findFrame boost (boost.to_lower frame) lines).bind
        (findItem boost (boost.to_lower item))).getD [] =
      (lines.foldl (scanLine boost frame item) .searching).value := by
  induction lines with
  | nil => rfl
  | cons line lines ih =>
      rw [findFrame, List.foldl_cons, scanLine]
      cases boost.regex_search reg (cstr line) with
      | none => exact ih
      | some what =>
          dsimp only
          split
          · exact findItem_eq boost frame item lines
          · exact ih

private theorem rs_eq (text iniFileName frame item : Text) (max_len : MaxLen) :
    (ReadStringFromIniFile boost (some text) iniFileName frame item max_len).rs =
      ((fgetsLines (max_len.size - 2) (max_len.size - 2) [] text).foldl
        (scanLine boost frame item) .searching).value := by
  rw [← findFrame_eq, ReadStringFromIniFile]
  cases (findFrame boost (boost.to_lower frame)
      (fgetsLines (max_len.size - 2) (max_len.size - 2) [] text)).bind
    (findItem boost (boost.to_lower item)) with
  | none => rfl
  | some rs => rfl

private theorem inside_eq (frame item : Text) (lines : List Text) :
    ((lines.takeWhile (fun line => ¬ IsHeader line)).findSome? (entry item)).getD [] =
      (lines.foldl (readLine frame item) .inside).value := by
  induction lines with
  | nil => rfl
  | cons line lines ih =>
      rw [List.foldl_cons, readLine]
      by_cases hheader : IsHeader line
      · rw [List.takeWhile_cons_of_neg (by simpa using hheader), if_pos hheader,
          List.foldl_fixed' (fun _ => rfl)]
        rfl
      · rw [List.takeWhile_cons_of_pos (by simpa using hheader), if_neg hheader,
          List.findSome?_cons]
        cases entry item line with
        | some value =>
            dsimp only
            rw [List.foldl_fixed' (fun _ => rfl)]
            rfl
        | none => exact ih

/-- The value that the text gives is found by reading its lines once. -/
theorem iniValue_eq (frame item text : Text) :
    iniValue frame item text = ((linesOf text).foldl (readLine frame item) .searching).value := by
  rw [iniValue, sectionLines]
  induction linesOf text with
  | nil => rfl
  | cons line lines ih =>
      rw [List.foldl_cons, readLine]
      by_cases hopens : Opens frame line
      · rw [List.dropWhile_cons_of_neg (by simpa using hopens), if_pos hopens, List.drop_one,
          List.tail_cons]
        exact inside_eq frame item lines
      · rw [List.dropWhile_cons_of_pos (by simpa using hopens), if_neg hopens]
        exact ih

theorem isHeader_iff (line : Text) : IsHeader line ↔ ∃ rest, line.dropWhile blank = 91 :: rest := by
  rw [IsHeader]
  cases line.dropWhile blank with
  | nil => simp
  | cons c rest => simp

/-- A header has its name in the first pair of brackets. -/
theorem bracketed_of_isHeader {line : Text} (h : IsHeader line) :
    bracketed line = headerName line := by
  obtain ⟨rest, hrest⟩ := (isHeader_iff line).mp h
  have hsplit : line = line.takeWhile blank ++ 91 :: rest := by
    rw [← hrest, List.takeWhile_append_dropWhile]
  have hbefore : 91 ∉ line.takeWhile blank := by
    apply not_mem_of_blank ?_ (by decide)
    exact fun _ => List.mem_takeWhile_imp
  have hdrop : line.dropWhile (fun c => c ≠ 91) = 91 :: rest := by
    rw [hsplit]
    exact dropWhile_ne hbefore
  rw [bracketed, headerName, hdrop, hrest, List.drop_one, List.tail_cons]

private theorem isSome_matchWhole_reg_iff (line : Text) :
    (matchWhole reg line).isSome ↔ IsHeader line ∧ 93 ∈ line.dropWhile blank := by
  rw [isSome_matchWhole_reg, isHeader_iff]
  constructor
  · rintro ⟨rest, hrest, hclose⟩
    exact ⟨⟨rest, hrest⟩, hrest ▸ List.mem_cons_of_mem 91 hclose⟩
  · rintro ⟨⟨rest, hrest⟩, hclose⟩
    rw [hrest] at hclose
    exact ⟨rest, hrest, (List.mem_cons.mp hclose).resolve_left (by decide)⟩

/-- On a line that is no header the code finds what the line says if and only if the line is
plain. -/
theorem entry_agrees_iff (item : Text) {line : Text} (hheader : ¬ IsHeader line) :
    (match assigned line with
      | none => Scan.inside
      | some (name, value) =>
          if lower name = lower item ∧ value ≠ [] then .found value else .inside) =
      (match entry item line with
        | some value => .found value
        | none => .inside) ↔
      PlainEntry item line := by
  rw [assigned, entry, PlainEntry]
  by_cases hsign : 61 ∈ line
  · have hnil := cutValue_eq_nil_iff ((line.dropWhile (fun c => c ≠ 61)).drop 1)
    have hcut := cutValue_eq_strip_iff ((line.dropWhile (fun c => c ≠ 61)).drop 1)
    have hone := @lastWord_eq_strip (line.takeWhile (fun c => c ≠ 61))
    have hmany := @lastWord_length_lt (line.takeWhile (fun c => c ≠ 61))
    rw [← valueOf] at hnil hcut
    rw [← nameOf] at hone hmany
    simp only [hheader, hsign, not_false_eq_true, true_and, true_imp_iff]
    generalize cutValue ((line.dropWhile (fun c => c ≠ 61)).drop 1) = cut at hnil hcut
    generalize lastWord (line.takeWhile (fun c => c ≠ 61)) = word at hone hmany
    by_cases hvalue : valueOf line = []
    · simp [hvalue, hnil.mpr hvalue]
    have hcutNe : cut ≠ [] := fun h => hvalue (hnil.mp h)
    by_cases hcomment : IsComment line
    · simp [hvalue, hcutNe, hcomment]
    have hletters : (nameOf line).all (fun c => !blank c) ↔ ∀ c ∈ nameOf line, blank c = false := by
      simp
    by_cases hword : (nameOf line).all (fun c => !blank c)
    · rw [hone (hletters.mp hword), if_neg hcomment, if_pos hword]
      by_cases hname : lower (nameOf line) = lower item
      · simp [hvalue, hcutNe, hcomment, hname, hcut]
      · simp [hcomment, hname]
    · -- the whole name and its last word cannot both be the item
      have hlower : lower (nameOf line) = lower item → lower word ≠ lower item := by
        intro hname heq
        have hlength := congrArg List.length (heq.trans hname.symm)
        rw [lower, lower, List.length_map, List.length_map] at hlength
        exact absurd hlength (hmany (fun hall => hword (hletters.mpr hall))).ne
      rw [if_neg hcomment, if_neg hword]
      by_cases hname : lower (nameOf line) = lower item
      · simp [hvalue, hcomment, hname, hlower hname]
      · simp [hvalue, hcutNe, hcomment, hname]
  · simp [hsign]

section

variable {line : Text} (hline : 0 ∉ line) (frame item : Text)

include hline

/-- The first loop stops at the first pair of brackets with the name of the section. -/
theorem scanLine_searching :
    scanLine boost frame item .searching line =
      if (bracketed line).map lower = some (lower frame) then .inside else .searching := by
  have hfound := search_reg line
  rw [scanLine, cstr_eq hline, boost.regex_search_eq]
  cases hsearch : search reg none line with
  | none =>
      rw [hsearch] at hfound
      rw [← hfound]
      rfl
  | some what =>
      rw [hsearch] at hfound
      rw [← hfound]
      simp only [boost.to_lower_eq, Option.map_some, Option.some.injEq, lower, eq_comm]

/-- The second loop stops at a closed header and at the last word before an `=`. -/
theorem scanLine_inside :
    scanLine boost frame item .inside line =
      if IsHeader line ∧ 93 ∈ line.dropWhile blank then .closed
      else
        match assigned line with
        | none => .inside
        | some (name, value) =>
            if lower name = lower item ∧ value ≠ [] then .found value else .inside := by
  have hitem := search_regItem line
  have hclosed := isSome_matchWhole_reg_iff line
  rw [scanLine, cstr_eq hline, boost.regex_match_eq, boost.regex_search_eq]
  cases hmatch : matchWhole reg line with
  | some what =>
      rw [hmatch] at hclosed
      rw [if_pos (hclosed.mp rfl)]
  | none =>
      rw [hmatch] at hclosed
      rw [if_neg (fun h => Bool.false_ne_true (hclosed.mpr h))]
      cases hsearch : search regItem none line with
      | none =>
          rw [hsearch] at hitem
          rw [← hitem]
          rfl
      | some what =>
          rw [hsearch] at hitem
          rw [← hitem]
          simp only [boost.to_lower_eq, Option.map_some, lower, List.length_pos_iff]
          rfl

/-- Outside the section the code and the text agree on the lines that are plain. -/
theorem scanLine_searching_iff :
    scanLine boost frame item .searching line = readLine frame item .searching line ↔
      PlainLine frame item .searching line := by
  rw [scanLine_searching boost hline, readLine, PlainLine]
  by_cases hheader : IsHeader line
  · rw [bracketed_of_isHeader hheader]
    simp only [Opens, hheader, true_and, not_true_eq_false, false_imp_iff]
  · simp only [Opens, hheader, false_and, if_false, not_false_eq_true, true_imp_iff]
    split
    · simp_all
    · simp_all

private theorem scanLine_inside_iff :
    scanLine boost frame item .inside line = readLine frame item .inside line ↔
      PlainLine frame item .inside line := by
  rw [scanLine_inside boost hline, readLine, PlainLine]
  by_cases hheader : IsHeader line
  · rw [if_pos hheader, if_pos hheader]
    by_cases hclose : 93 ∈ line.dropWhile blank
    · rw [if_pos ⟨hheader, hclose⟩]
      exact iff_of_true rfl hclose
    · rw [if_neg (fun h => hclose h.2)]
      apply iff_of_false ?_ hclose
      split
      · nofun
      · split
        · nofun
        · nofun
  · rw [if_neg hheader, if_neg hheader, if_neg (fun h => hheader h.1)]
    exact entry_agrees_iff item hheader

private theorem scanLine_iff (s : Scan) :
    scanLine boost frame item s line = readLine frame item s line ↔
      PlainLine frame item s line := by
  cases s with
  | searching => exact scanLine_searching_iff boost hline frame item
  | inside => exact scanLine_inside_iff boost hline frame item
  | closed => exact iff_of_true rfl trivial
  | found value => exact iff_of_true rfl trivial

end

/-- `fgets` reads the lines of a readable text. -/
theorem fgetsLines_of_readable {max_len : MaxLen} {text : Text} (h : Readable max_len text) :
    fgetsLines (max_len.size - 2) (max_len.size - 2) [] text = linesOf text := by
  have hshort : ∀ l ∈ linesOf text, l.length ≤ max_len.size - 2 := by
    intro l hl
    have hlength := (h l hl).1
    omega
  cases hlines : linesOf text with
  | nil =>
      rw [eq_nil_of_linesOf hlines, fgetsLines, if_pos rfl]
  | cons line lines =>
      rw [hlines] at hshort
      obtain ⟨hline, hrest⟩ := List.forall_mem_cons.mp hshort
      exact fgetsLines_eq hlines hline hrest

/-- The code reads the file as it is written: after every line it knows of the section and the
item what the lines up to there say, and it returns the value that the text gives. -/
def ReadAsWritten (boost : Boost) (max_len : MaxLen) (iniFileName frame item text : Text) : Prop :=
  (∀ n, ((fgetsLines (max_len.size - 2) (max_len.size - 2) [] text).take n).foldl
      (scanLine boost frame item) .searching = readTo frame item text n) ∧
    (ReadStringFromIniFile boost (some text) iniFileName frame item max_len).rs =
      iniValue frame item text

/-- A readable text is read as it is written if and only if it is plain for the section and
the item. -/
theorem read_as_written_iff (boost : Boost) (max_len : MaxLen) (iniFileName frame item text : Text)
    (hreadable : Readable max_len text) :
    ReadAsWritten boost max_len iniFileName frame item text ↔ Plain frame item text := by
  have hlines := fgetsLines_of_readable hreadable
  have hsteps : (∀ n, ((linesOf text).take n).foldl (scanLine boost frame item) .searching =
      readTo frame item text n) ↔ Plain frame item text := by
    simp only [readTo]
    rw [foldl_agree_iff]
    apply forall_congr'
    intro n
    apply forall_congr'
    intro hn
    exact scanLine_iff boost (hreadable _ (List.getElem_mem hn)).2 frame item _
  rw [ReadAsWritten, rs_eq, iniValue_eq, hlines, hsteps]
  constructor
  · intro h
    exact h.1
  · intro hplain
    refine ⟨hplain, ?_⟩
    have hall := hsteps.mpr hplain (linesOf text).length
    rw [readTo, List.take_length] at hall
    rw [hall]

/-- A file as the repository has one, with a carriage return, a comment and letters of both
cases. -/
def serverIni : Text :=
  bytes "[GLOG]\n;level\n\n[SERVER]\r\n; port\n Service_Port = 9999 \r\n[COMMON]\nDefault = 30\n"

theorem read_as_written_server :
    ReadAsWritten documented .default (bytes "server.ini") (bytes "server") (bytes "service_port")
        serverIni ∧
      iniValue (bytes "server") (bytes "service_port") serverIni = bytes "9999" := by
  constructor
  · apply (read_as_written_iff documented .default (bytes "server.ini") (bytes "server")
      (bytes "service_port") serverIni ?_).mpr
    · decide +kernel
    · intro line hline
      revert line
      decide +kernel
  · decide +kernel

/-- A comment before the section names it, and a comment in the section has an `=`. -/
theorem comments_are_read :
    (ReadStringFromIniFile documented (some (bytes "; see [A]\nx = 1\n[A]\nx = 2\n")) [] (bytes "A")
        (bytes "x") .default).rs = bytes "1" ∧
      iniValue (bytes "A") (bytes "x") (bytes "; see [A]\nx = 1\n[A]\nx = 2\n") = bytes "2" ∧
      (ReadStringFromIniFile documented (some (bytes "[A]\n; was x = 1\nx = 2\n")) [] (bytes "A")
        (bytes "x") .default).rs = bytes "1" ∧
      iniValue (bytes "A") (bytes "x") (bytes "[A]\n; was x = 1\nx = 2\n") = bytes "2" := by
  refine ⟨?_, ?_, ?_, ?_⟩
  · decide +kernel
  · decide +kernel
  · decide +kernel
  · decide +kernel

end LearningCpp.IniFile
