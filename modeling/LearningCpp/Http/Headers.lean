import LearningCpp.Http.Parser
import Mathlib.Data.List.ModifyLast

/-!
The vector of headers. `consume` applies `headers.back()` in four states without a test;
none of them is reached before the first header has been pushed.
-/

namespace LearningCpp.Http

open RequestParser

/-- The states that take `headers.back()` to be there. -/
def State.UsesBack : State → Prop
  | .header_lws | .header_name | .space_before_header_value | .header_value => True
  | _ => False

/-- The vector on which a call of `consume` applies `headers.back()`, if it does. -/
def backVector (p : Parsing) (input : Byte) : Option (List Header) :=
  let headers := p.req.headers
  let c := toInt input
  match p.parser.state_ with
  | .header_line_start =>
      if input = chr '\r' then none
      else if headers ≠ [] ∧ (input = chr ' ' ∨ input = chr '\t') then none
      else if !is_char c || is_ctl c || is_tspecial c then none
      else some (headers ++ [{name := [], value := []}])
  | .header_lws =>
      if input = chr '\r' then none
      else if input = chr ' ' ∨ input = chr '\t' then none
      else if is_ctl c then none
      else some headers
  | .header_name =>
      if input = chr ':' then none
      else if !is_char c || is_ctl c || is_tspecial c then none
      else some headers
  | .header_value =>
      if input = chr '\r' then none
      else if is_ctl c then none
      else some headers
  | _ => none

/-- `consume` on one byte after the other, whatever it returns. -/
def consumed (p : Parsing) (bytes : List Byte) : Parsing :=
  bytes.foldl (fun p input => (consume p input).2) p

/-- Where `consume` needs a header, there is one. -/
def Founded (p : Parsing) : Prop := p.parser.state_.UsesBack → p.req.headers ≠ []

variable {p : Parsing} {req : Request}

theorem modifyLast_ne_nil {α : Type*} {l : List α} (f : α → α) (h : l ≠ []) :
    l.modifyLast f ≠ [] := by
  rw [← List.dropLast_concat_getLast h, List.modifyLast_concat]
  exact List.concat_ne_nil _ _

/-- A call of `consume` goes to such a state with a header only. -/
theorem Founded.consume (h : Founded p) (input : Byte) : Founded (consume p input).2 := by
  obtain ⟨⟨state⟩, req⟩ := p
  cases state with
  | header_line_start =>
      simp only [RequestParser.consume]
      split_ifs with hend hblank hbad
      · exact fun hback => hback.elim
      · exact fun _ => hblank.1
      · exact fun hback => hback.elim
      · exact fun _ => modifyLast_ne_nil _ (List.concat_ne_nil _ _)
  | header_lws | header_name | header_value =>
      have hheaders : req.headers ≠ [] := h trivial
      simp only [RequestParser.consume]
      split_ifs
      all_goals first
        | exact fun hback => hback.elim
        | exact fun _ => hheaders
        | exact fun _ => modifyLast_ne_nil _ hheaders
  | space_before_header_value =>
      have hheaders : req.headers ≠ [] := h trivial
      simp only [RequestParser.consume, expect]
      split_ifs
      · exact fun _ => hheaders
      · exact fun _ => hheaders
  | _ =>
      simp only [RequestParser.consume, expect]
      try split_ifs
      all_goals exact fun hback => hback.elim

theorem Founded.consumed (h : Founded p) (bytes : List Byte) : Founded (consumed p bytes) := by
  induction bytes generalizing p with
  | nil => exact h
  | cons input rest ih => exact ih (h.consume input)

theorem Founded.backVector (h : Founded p) (input : Byte) :
    ∀ headers ∈ backVector p input, headers ≠ [] := by
  obtain ⟨⟨state⟩, req⟩ := p
  intro headers hback
  cases state with
  | header_line_start =>
      simp only [Http.backVector, Option.mem_def] at hback
      split_ifs at hback
      rw [← Option.some.inj hback]
      exact List.concat_ne_nil _ _
  | header_lws | header_name | header_value =>
      simp only [Http.backVector, Option.mem_def] at hback
      split_ifs at hback
      rw [← Option.some.inj hback]
      exact h trivial
  | _ => cases hback

/-- Whatever bytes are consumed from the initial state on with a fresh request, there is a
header in each of the four states, and `headers.back()` is applied to no empty vector. -/
theorem headers_back_defined (major minor : Int32) (bytes : List Byte) :
    ((consumed ⟨.new, .fresh major minor⟩ bytes).parser.state_.UsesBack →
        (consumed ⟨.new, .fresh major minor⟩ bytes).req.headers ≠ []) ∧
      ∀ input, ∀ headers ∈ backVector (consumed ⟨.new, .fresh major minor⟩ bytes) input,
        headers ≠ [] := by
  have hstart : Founded ⟨.new, .fresh major minor⟩ := fun hback => hback.elim
  have hfounded := hstart.consumed bytes
  exact ⟨hfounded, hfounded.backVector⟩

end LearningCpp.Http
