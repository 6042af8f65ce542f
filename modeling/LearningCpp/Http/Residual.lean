import LearningCpp.Http.Grammar
import LearningCpp.Library.Languages
import Mathlib.Data.List.ModifyLast

/-!
What each state of the parser stands for: the texts that still complete the
request filled in so far, with the request they lead to. One byte takes a state
to what is left after that byte.
-/

namespace LearningCpp.Http

open Library

namespace Request

def addHeader (req : Request) (h : Header) : Request := {req with headers := req.headers ++ [h]}

/-- Append to the name of the last header. -/
def addName (req : Request) (name : List Byte) : Request :=
  {req with headers := req.headers.modifyLast (fun h => {h with name := h.name ++ name})}

/-- Append to the value of the last header. -/
def addText (req : Request) (text : List Byte) : Request :=
  {req with headers := req.headers.modifyLast (fun h => {h with value := h.value ++ text})}

theorem modifyLast_modifyLast {α : Type*} (f g : α → α) (xs : List α) :
    (xs.modifyLast f).modifyLast g = xs.modifyLast (fun x => g (f x)) := by
  rcases List.eq_nil_or_concat xs with rfl | ⟨ys, y, rfl⟩
  · rfl
  · rw [List.concat_eq_append, List.modifyLast_concat, List.modifyLast_concat,
      List.modifyLast_concat]

private theorem addName_addName (req : Request) (first second : List Byte) :
    (req.addName first).addName second = req.addName (first ++ second) := by
  simp only [addName, modifyLast_modifyLast, List.append_assoc]

theorem addText_addText (req : Request) (first second : List Byte) :
    (req.addText first).addText second = req.addText (first ++ second) := by
  simp only [addText, modifyLast_modifyLast, List.append_assoc]

theorem pushName_eq (req : Request) (c : Byte) : req.pushName c = req.addName [c] := rfl

theorem pushValue_eq (req : Request) (c : Byte) : req.pushValue c = req.addText [c] := rfl

private theorem addHeader_addName (req : Request) (name more value : List Byte) :
    (req.addHeader ⟨name, value⟩).addName more = req.addHeader ⟨name ++ more, value⟩ := by
  simp only [addHeader, addName, List.modifyLast_concat]

theorem addHeader_addText (req : Request) (name value text : List Byte) :
    (req.addHeader ⟨name, value⟩).addText text = req.addHeader ⟨name, value ++ text⟩ := by
  simp only [addHeader, addText, List.modifyLast_concat]

private theorem addName_nil (req : Request) : req.addName [] = req := by
  rcases List.eq_nil_or_concat req.headers with h | ⟨hs, last, h⟩
  · cases req
    cases h
    rfl
  · cases req
    cases h
    simp only [addName, List.concat_eq_append, List.modifyLast_concat, List.append_nil]

theorem addText_nil (req : Request) : req.addText [] = req := by
  rcases List.eq_nil_or_concat req.headers with h | ⟨hs, last, h⟩
  · cases req
    cases h
    rfl
  · cases req
    cases h
    simp only [addText, List.concat_eq_append, List.modifyLast_concat, List.append_nil]

def addHeaders (req : Request) (hs : List Header) : Request :=
  {req with headers := req.headers ++ hs}

theorem addHeaders_nil (req : Request) : req.addHeaders [] = req := by
  rw [addHeaders, List.append_nil]

theorem addHeader_addHeaders (req : Request) (h : Header) (hs : List Header) :
    (req.addHeader h).addHeaders hs = req.addHeaders (h :: hs) := by
  simp only [addHeader, addHeaders, List.append_assoc, List.singleton_append]

theorem addHeader_headers_ne_nil (req : Request) (h : Header) : (req.addHeader h).headers ≠ [] :=
  List.append_ne_nil_of_right_ne_nil _ (List.cons_ne_nil _ _)

theorem addText_headers_ne_nil {req : Request} {text : List Byte} (h : req.headers ≠ []) :
    (req.addText text).headers ≠ [] := by
  rcases List.eq_nil_or_concat req.headers with hnil | ⟨hs, last, hlast⟩
  · exact absurd hnil h
  · rw [addText, hlast, List.concat_eq_append, List.modifyLast_concat]
    exact List.append_ne_nil_of_right_ne_nil _ (List.cons_ne_nil _ _)

end Request

/-- The end of a line, then the rest. -/
def lineEnd (k : Lang Byte Request) : Lang Byte Request := letter (chr '\r') (letter (chr '\n') k)

/-- The header lines, the lines that continue them and the empty line, from the
start of a line on. -/
inductive Lines : Request → List Byte → Request → Prop where
  | done (req : Request) : Lines req crlf req
  | line {req r : Request} {name value w : List Byte} (hne : name ≠ [])
      (hname : ∀ b ∈ name, TokenByte b) (hvalue : ∀ b ∈ value, TextByte b)
      (hrest : Lines (req.addHeader ⟨name, value⟩) w r) :
      Lines req (name ++ chr ':' :: chr ' ' :: (value ++ chr '\r' :: chr '\n' :: w)) r
  | continued {req r : Request} {w : List Byte} (hheaders : req.headers ≠ []) (c : Continuation)
      (hrest : Lines (req.addText c.text) w r) : Lines req (c.bytes ++ w) r

/-- Within the value of a header. -/
def valuePart (req : Request) : Lang Byte Request :=
  many TextByte (fun v => lineEnd (Lines (req.addText v)))

/-- Within the name of a header. -/
def namePart (req : Request) : Lang Byte Request :=
  many TokenByte (fun n => letter (chr ':') (letter (chr ' ') (valuePart (req.addName n))))

/-- After the leading blanks of a continuation. -/
def textPart (req : Request) : Lang Byte Request := fun w r =>
  lineEnd (Lines req) w r ∨
    ∃ c v, w = c :: v ∧ TextByte c ∧ c ≠ chr ' ' ∧ valuePart (req.addText [c]) v r

/-- Within the leading blanks of a continuation. -/
def blankPart (req : Request) : Lang Byte Request := many Blank (fun _ => textPart req)

def minorPart (req : Request) : Lang Byte Request :=
  many Digit (fun ds => lineEnd
    (Lines {req with http_version_minor := ds.foldl addDigit req.http_version_minor}))

def minorStart (req : Request) : Lang Byte Request :=
  many1 Digit (fun ds => lineEnd
    (Lines {req with http_version_minor := ds.foldl addDigit req.http_version_minor}))

def majorPart (req : Request) : Lang Byte Request :=
  many Digit (fun ds => letter (chr '.')
    (minorStart {req with http_version_major := ds.foldl addDigit req.http_version_major}))

def majorStart (req : Request) : Lang Byte Request :=
  many1 Digit (fun ds => letter (chr '.')
    (minorStart {req with http_version_major := ds.foldl addDigit req.http_version_major}))

def versionSlash (req : Request) : Lang Byte Request :=
  letter (chr '/') (majorStart {req with http_version_major := 0, http_version_minor := 0})

def versionPart (req : Request) : Lang Byte Request :=
  letter (chr 'H') (letter (chr 'T') (letter (chr 'T') (letter (chr 'P') (versionSlash req))))

def uriPart (req : Request) : Lang Byte Request :=
  many UriByte (fun u => letter (chr ' ') (versionPart {req with uri := req.uri ++ u}))

def methodStart (req : Request) : Lang Byte Request :=
  many1 TokenByte (fun m => letter (chr ' ') (uriPart {req with method := req.method ++ m}))

def methodPart (req : Request) : Lang Byte Request :=
  many TokenByte (fun m => letter (chr ' ') (uriPart {req with method := req.method ++ m}))

/-- The texts that complete a request from a state. -/
def rest (p : RequestParser.Parsing) : Lang Byte Request :=
  match p.parser.state_ with
  | .method_start => methodStart p.req
  | .method => methodPart p.req
  | .uri => uriPart p.req
  | .http_version_h => versionPart p.req
  | .http_version_t_1 =>
      letter (chr 'T') (letter (chr 'T') (letter (chr 'P') (versionSlash p.req)))
  | .http_version_t_2 => letter (chr 'T') (letter (chr 'P') (versionSlash p.req))
  | .http_version_p => letter (chr 'P') (versionSlash p.req)
  | .http_version_slash => versionSlash p.req
  | .http_version_major_start => majorStart p.req
  | .http_version_major => majorPart p.req
  | .http_version_minor_start => minorStart p.req
  | .http_version_minor => minorPart p.req
  | .expecting_newline_1 => letter (chr '\n') (Lines p.req)
  | .header_line_start => Lines p.req
  | .header_lws => blankPart p.req
  | .header_name => namePart p.req
  | .space_before_header_value => letter (chr ' ') (valuePart p.req)
  | .header_value => valuePart p.req
  | .expecting_newline_2 => letter (chr '\n') (Lines p.req)
  | .expecting_newline_3 => letter (chr '\n') (fun w r => w = [] ∧ r = p.req)

/-- What can stand at the start of a line. -/
theorem lines_iff (req r : Request) (w : List Byte) :
    Lines req w r ↔
      letter (chr '\r') (letter (chr '\n') (fun w r => w = [] ∧ r = req)) w r ∨
        many1 TokenByte (fun n => letter (chr ':') (letter (chr ' ')
          (valuePart (req.addHeader ⟨n, []⟩)))) w r ∨
        (req.headers ≠ [] ∧ many1 Blank (fun _ => textPart req) w r) := by
  constructor
  · intro h
    cases h with
    | done => exact Or.inl ⟨_, rfl, _, rfl, rfl, rfl⟩
    | line hne hname hvalue hrest =>
        refine Or.inr (Or.inl ((many1_iff _ _ _ _).mpr ⟨_, _, rfl, hne, hname, ?_⟩))
        refine ⟨_, rfl, _, rfl, _, _, rfl, hvalue, _, rfl, _, rfl, ?_⟩
        rw [Request.addHeader_addText]
        exact hrest
    | continued hheaders c hrest =>
        rename_i w
        refine Or.inr (Or.inr ⟨hheaders, (many1_iff _ _ _ _).mpr
          ⟨c.blanks, c.text ++ (crlf ++ w), ?_, c.blanks_ne_nil, c.blanks_blank, ?_⟩⟩)
        · simp only [Continuation.bytes, List.append_assoc]
        · cases htext : c.text with
          | nil =>
              rw [htext, Request.addText_nil] at hrest
              exact Or.inl ⟨_, rfl, _, rfl, hrest⟩
          | cons b text =>
              have hblank := c.text_head b (by rw [htext]; rfl)
              have hcontrol := c.text_textByte
              rw [htext, List.forall_mem_cons] at hcontrol
              refine Or.inr ⟨b, _, rfl, hcontrol.1, fun hb => hblank (Or.inl hb),
                text, crlf ++ w, rfl, hcontrol.2, _, rfl, _, rfl, ?_⟩
              rw [Request.addText_addText, List.singleton_append, ← htext]
              exact hrest
  · rintro (⟨_, rfl, _, rfl, rfl, rfl⟩ | hline | ⟨hheaders, hcontinued⟩)
    · exact .done r
    · obtain ⟨name, _, rfl, hne, hname, _, rfl, _, rfl, value, _, rfl, hvalue, _, rfl, _, rfl, hrest⟩ :=
        (many1_iff _ _ _ _).mp hline
      rw [Request.addHeader_addText, List.nil_append] at hrest
      exact .line hne hname hvalue hrest
    · obtain ⟨blanks, _, rfl, hne, hblank, htext⟩ := (many1_iff _ _ _ _).mp hcontinued
      rcases htext with ⟨_, rfl, v, rfl, hrest⟩ | ⟨c, _, rfl, hc, hspace, htext⟩
      · have hlines := Lines.continued hheaders
          { blanks := blanks, text := [], blanks_ne_nil := hne, blanks_blank := hblank
            text_head := by simp, text_textByte := by simp } (w := v) (r := r)
          (by rw [Request.addText_nil]; exact hrest)
        simpa [Continuation.bytes, crlf] using hlines
      · obtain ⟨text, _, rfl, hcontrol, _, rfl, v, rfl, hrest⟩ := htext
        have htab : c ≠ chr '\t' := by
          rintro rfl
          exact hc (by decide)
        have hlines := Lines.continued hheaders
          { blanks := blanks, text := c :: text, blanks_ne_nil := hne, blanks_blank := hblank
            text_head := by
              rintro b hb (rfl | rfl)
              · exact hspace (Option.some.inj hb)
              · exact htab (Option.some.inj hb)
            text_textByte := List.forall_mem_cons.mpr ⟨hc, hcontrol⟩ } (w := v) (r := r)
          (by rw [Request.addText_addText] at hrest; exact hrest)
        simpa [Continuation.bytes, crlf] using hlines

theorem Blank.not_tokenByte {b : Byte} (hb : Blank b) : ¬ TokenByte b := by
  rcases hb with rfl | rfl <;> decide

private theorem textPart_cons (req r : Request) (b : Byte) (w : List Byte) :
    textPart req (b :: w) r ↔ (b = chr '\r' ∧ letter (chr '\n') (Lines req) w r) ∨
      (TextByte b ∧ b ≠ chr ' ' ∧ valuePart (req.addText [b]) w r) := by
  rw [textPart, lineEnd, letter_cons]
  apply or_congr_right
  constructor
  · rintro ⟨c, v, hw, hc, hspace, hvalue⟩
    cases hw
    exact ⟨hc, hspace, hvalue⟩
  · rintro ⟨hb, hspace, hvalue⟩
    exact ⟨b, w, rfl, hb, hspace, hvalue⟩

open RequestParser

/-- The texts that complete a request after a step. -/
def restAfter : Tribool × Parsing → Lang Byte Request
  | (none, p) => rest p
  | (some true, p) => fun w r => w = [] ∧ r = p.req
  | (some false, _) => fun _ _ => False

theorem restAfter_goOn (state : State) (req : Request) :
    restAfter (Parsing.goOn state req) = rest ⟨⟨state⟩, req⟩ := rfl

theorem not_restAfter_refuse (p : Parsing) (w : List Byte) (r : Request) :
    ¬ restAfter p.refuse w r := fun h => h

theorem rest_cons_expect {p : Parsing} {c : Byte} {next : State}
    (hrest : rest p = letter c (rest ⟨⟨next⟩, p.req⟩)) (b : Byte) (w : List Byte) (r : Request) :
    rest p (b :: w) r ↔ restAfter (expect p c b next) w r := by
  rw [hrest, letter_cons, expect]
  split
  · next h => rw [restAfter_goOn, and_iff_right h]
  · next h => simp only [h, false_and, not_restAfter_refuse]

theorem restAfter_if {C : Prop} [Decidable C] (p : Parsing) (state : State) (req r : Request)
    (w : List Byte) :
    restAfter (if C then Parsing.goOn state req else p.refuse) w r ↔
      C ∧ rest ⟨⟨state⟩, req⟩ w r := by
  split
  · next h => rw [restAfter_goOn, and_iff_right h]
  · next h => simp only [h, false_and, not_restAfter_refuse]

theorem restAfter_unless {C : Prop} [Decidable C] (p : Parsing) (state : State) (req r : Request)
    (w : List Byte) :
    restAfter (if C then p.refuse else Parsing.goOn state req) w r ↔
      ¬ C ∧ rest ⟨⟨state⟩, req⟩ w r := by
  split
  · next h => simp only [h, not_true_eq_false, false_and, not_restAfter_refuse]
  · next h => rw [restAfter_goOn, and_iff_right h]

/-- One byte takes the texts of a state to the texts of the state after it. -/
theorem rest_cons (p : Parsing) (b : Byte) (w : List Byte) (r : Request) :
    rest p (b :: w) r ↔ restAfter (consume p b) w r := by
  obtain ⟨⟨state⟩, req⟩ := p
  have hspaceToken : ¬ TokenByte (chr ' ') := by decide
  have hcolonToken : ¬ TokenByte (chr ':') := by decide
  have hspaceUri : ¬ UriByte (chr ' ') := by decide
  have hdotDigit : ¬ Digit (chr '.') := by decide
  have hcrDigit : ¬ Digit (chr '\r') := by decide
  have hcrToken : ¬ TokenByte (chr '\r') := by decide
  have hcrText : ¬ TextByte (chr '\r') := by decide
  have hcontrolTab : ¬ TextByte (chr '\t') := by decide
  have hcrBlank : ¬ Blank (chr '\r') := by decide
  cases state with
  | http_version_h | http_version_t_1 | http_version_t_2 | http_version_p =>
      exact rest_cons_expect rfl b w r
  | expecting_newline_1 | expecting_newline_2 | space_before_header_value =>
      exact rest_cons_expect rfl b w r
  | method_start =>
      simp only [consume, token_test_iff, restAfter_unless, rest, methodStart, many1_cons, methodPart,
        Classical.not_not, List.append_assoc, List.singleton_append]
  | method =>
      simp only [consume, token_test_iff, rest, methodPart, many_letter_cons hspaceToken]
      split
      · simp only [restAfter_goOn, rest, List.append_nil]
      · simp only [restAfter_unless, rest, methodPart, Classical.not_not, List.append_assoc,
          List.singleton_append]
  | uri =>
      simp only [consume, is_ctl_iff, rest, uriPart, many_letter_cons hspaceUri]
      split
      · simp only [restAfter_goOn, rest, List.append_nil]
      · next h => simp only [restAfter_unless, rest, uriPart, UriByte, ne_eq, h, not_false_eq_true,
          and_true, List.append_assoc, List.singleton_append]
  | http_version_slash => 
      simp only [consume, restAfter_if, rest, versionSlash, letter_cons]
  | http_version_major_start =>
      simp only [consume, is_digit_iff, restAfter_if, rest, majorStart, majorPart, many1_cons,
        List.foldl_cons]
  | http_version_major =>
      simp only [consume, is_digit_iff, rest, majorPart, many_letter_cons hdotDigit]
      split
      · simp only [restAfter_goOn, rest, List.foldl_nil]
      · simp only [restAfter_if, rest, majorPart, List.foldl_cons]
  | http_version_minor_start =>
      simp only [consume, is_digit_iff, restAfter_if, rest, minorStart, minorPart, many1_cons,
        List.foldl_cons]
  | http_version_minor =>
      simp only [consume, is_digit_iff, rest, minorPart, lineEnd, many_letter_cons hcrDigit]
      split
      · simp only [restAfter_goOn, rest, List.foldl_nil]
      · simp only [restAfter_if, rest, minorPart, lineEnd, List.foldl_cons]
  | header_name =>
      simp only [consume, token_test_iff, rest, namePart, many_letter_cons hcolonToken]
      split
      · simp only [restAfter_goOn, rest, Request.addName_nil]
      · simp only [restAfter_unless, rest, namePart, Classical.not_not, Request.pushName_eq,
          Request.addName_addName, List.singleton_append]
  | header_value =>
      simp only [consume, is_ctl_iff, rest, valuePart, lineEnd, many_letter_cons hcrText]
      split
      · simp only [restAfter_goOn, rest, Request.addText_nil]
      · simp only [restAfter_unless, rest, valuePart, lineEnd, Request.pushValue_eq,
          Request.addText_addText, List.singleton_append, TextByte]
  | header_line_start =>
      simp only [consume, token_test_iff, rest, lines_iff, letter_cons, many1_cons]
      split
      · next h =>
        subst h
        simp only [restAfter_goOn, rest, hcrToken, hcrBlank, true_and, false_and, and_false,
          or_false]
      · next h =>
        split
        · next hblank =>
          simp only [restAfter_goOn, rest, blankPart, h, Blank.not_tokenByte hblank.2, Blank,
            hblank, false_and, true_and, false_or, ne_eq, not_false_eq_true]
        · next hblank =>
          have hcontinued : ¬ (req.headers ≠ [] ∧ Blank b ∧ many Blank (fun _ => textPart req) w r) :=
            fun hline => hblank ⟨hline.1, hline.2.1⟩
          have hheader : Request.mk req.method req.uri req.http_version_major req.http_version_minor
              (req.headers ++ [{name := [], value := []}]) = req.addHeader ⟨[], []⟩ := rfl
          simp only [restAfter_unless, rest, namePart, h, hcontinued, Classical.not_not, false_and,
            false_or, or_false, Request.pushName_eq, hheader, Request.addHeader_addName,
            List.nil_append, List.singleton_append]
  | header_lws =>
      simp only [consume, is_ctl_iff, rest, blankPart, many_cons, textPart_cons]
      split
      · next h =>
        subst h
        simp only [restAfter_goOn, rest, hcrBlank, hcrText, true_and, false_and, false_or, or_false]
      · next h =>
        split
        · next hblank =>
          have htext : ¬ (TextByte b ∧ b ≠ chr ' ' ∧ valuePart (req.addText [b]) w r) :=
            fun htext => hblank.elim htext.2.1 (fun htab => hcontrolTab (htab ▸ htext.1))
          simp only [restAfter_goOn, rest, blankPart, h, htext, false_and, or_false]
          exact and_iff_right hblank
        · next hblank => 
          have hspace : b ≠ chr ' ' := fun hb => hblank (Or.inl hb)
          have hnot : ¬ Blank b := hblank
          simp only [restAfter_unless, rest, Request.pushValue_eq, hnot, h, TextByte, hspace,
            false_and, false_or, ne_eq, not_false_eq_true, true_and]
  | expecting_newline_3 =>
      simp only [consume, rest, letter_cons]
      by_cases h : b = chr '\n'
      · simp only [h, decide_true, true_and, restAfter]
      · simp only [h, decide_false, false_and, restAfter]

private theorem not_lines_nil (req r : Request) : ¬ Lines req [] r := by
  rw [lines_iff]
  simp only [letter_nil, many1_nil, and_false, or_false, not_false_eq_true]

theorem lines_viable (req : Request) : ∃ w r, Lines req w r := ⟨crlf, req, .done req⟩

private theorem not_rest_nil (p : Parsing) (r : Request) : ¬ rest p [] r := by
  obtain ⟨⟨state⟩, req⟩ := p
  cases state <;>
    simp [rest, methodStart, methodPart, uriPart, versionPart, versionSlash, majorStart, majorPart, minorStart,
      minorPart, blankPart, textPart, lineEnd, namePart, valuePart, not_lines_nil]

theorem lineEnd_viable (req : Request) : ∃ w r, lineEnd (Lines req) w r :=
  letter_viable (letter_viable (lines_viable req))

theorem valuePart_viable (req : Request) : ∃ w r, valuePart req w r :=
  many_viable (lineEnd_viable _)

theorem minorStart_viable (req : Request) : ∃ w r, minorStart req w r :=
  many1_viable (c := chr '0') (by decide) (lineEnd_viable _)

theorem majorStart_viable (req : Request) : ∃ w r, majorStart req w r :=
  many1_viable (c := chr '0') (by decide) (letter_viable (minorStart_viable _))

theorem versionSlash_viable (req : Request) : ∃ w r, versionSlash req w r :=
  letter_viable (majorStart_viable _)

theorem uriPart_viable (req : Request) : ∃ w r, uriPart req w r :=
  many_viable (letter_viable (letter_viable (letter_viable (letter_viable (letter_viable
    (versionSlash_viable _))))))

private theorem methodStart_viable (req : Request) : ∃ w r, methodStart req w r :=
  many1_viable (c := chr 'G') (by decide) (letter_viable (uriPart_viable _))

private theorem rest_viable (p : Parsing) : ∃ w r, rest p w r := by
  obtain ⟨⟨state⟩, req⟩ := p
  cases state with
  | method_start => exact methodStart_viable req
  | method => exact many_viable (letter_viable (uriPart_viable _))
  | uri => exact uriPart_viable req
  | http_version_h =>
      exact letter_viable (letter_viable (letter_viable (letter_viable (versionSlash_viable req))))
  | http_version_t_1 =>
      exact letter_viable (letter_viable (letter_viable (versionSlash_viable req)))
  | http_version_t_2 => exact letter_viable (letter_viable (versionSlash_viable req))
  | http_version_p => exact letter_viable (versionSlash_viable req)
  | http_version_slash => exact versionSlash_viable req
  | http_version_major_start => exact majorStart_viable req
  | http_version_major => exact many_viable (letter_viable (minorStart_viable _))
  | http_version_minor_start => exact minorStart_viable req
  | http_version_minor => exact many_viable (lineEnd_viable _)
  | header_line_start => exact lines_viable req
  | header_lws =>
      obtain ⟨w, r, h⟩ := lineEnd_viable req
      exact many_viable ⟨w, r, Or.inl h⟩
  | header_name => exact many_viable (letter_viable (letter_viable (valuePart_viable _)))
  | space_before_header_value => exact letter_viable (valuePart_viable req)
  | header_value => exact valuePart_viable req
  | expecting_newline_1 | expecting_newline_2 => exact letter_viable (lines_viable req)
  | expecting_newline_3 => exact letter_viable ⟨[], req, rfl, rfl⟩

/-- The parser decides the texts that complete a request. -/
theorem consume_decides : Decides consume Parsing.req rest where
  nil := not_rest_nil
  more := by
    intro p p' b hstep w r
    rw [rest_cons, hstep]
    rfl
  accept := by
    intro p p' b hstep w r
    rw [rest_cons, hstep]
    rfl
  refuse := by
    intro p p' b hstep w r
    rw [rest_cons, hstep]
    exact fun h => h
  viable := rest_viable

end LearningCpp.Http
