import LearningCpp.HttpClient.Response

/-!
The handlers by which `client/async_client.cpp` of `ad_system/server3` reads the response, and
when what they print is what `client/sync_client.cpp` prints. A handler opens a stream of its
own over the buffer, where the synchronous client keeps one stream for the status line and the
headers.
-/

namespace LearningCpp.HttpClient

open Library Http

/-- What has gone to `std::cout`, up to the text of an error, and whether there is one. -/
structure Printed where
  out : List Byte
  error : Bool
  deriving DecidableEq, Repr

/-- What the synchronous client has printed. -/
def Outcome.printed : Outcome → Printed
  | .returned _ out => ⟨out, false⟩
  | .exception out => ⟨out, true⟩

/-- `handle_read_content`, for each piece and at the end of the stream. -/
def handle_read_content (ending : Ending) : List (List Byte) → Printed
  | [] => ⟨[], ending = .failed⟩
  | piece :: arriving =>
      let printed := handle_read_content ending arriving
      ⟨piece ++ printed.out, printed.error⟩

/-- `handle_read_headers`; there is no response when the read ended with an error. -/
def handle_read_headers (ending : Ending) : Option (Pieces Byte) → Printed
  | none => ⟨[], true⟩
  | some response =>
      let (lines, s) := printHeaders (.good response.buffer) []
      let printed := handle_read_content ending response.arriving
      ⟨lines ++ [10] ++ s.text ++ printed.out, printed.error⟩

/-- The version, the number and the stream after the line that they stand on. -/
def readStatusLine (status_code : UInt32) (text : List Byte) : List Byte × UInt32 × InStream :=
  let (http_version, s) := (InStream.good text).extractWord []
  let (status_code, s) := s.extractUnsigned status_code
  (http_version, status_code, (s.getline []).2)

/-- `handle_read_status_line`. -/
def handle_read_status_line (status_code : UInt32) (ending : Ending) :
    Option (Pieces Byte) → Printed
  | none => ⟨[], true⟩
  | some response =>
      let (http_version, status_code, s) := readStatusLine status_code response.buffer
      if s.fail ∨ http_version.take 5 ≠ bytes "HTTP/" then
        ⟨bytes "Invalid response\n", false⟩
      else if status_code ≠ 200 then
        ⟨bytes "Response returned with status code " ++ lexicalCast status_code.toNat ++ [10],
          false⟩
      else
        handle_read_headers ending
          (Pieces.readUntil [13, 10, 13, 10] s.text response.arriving)

/-- What `handle_write_request` starts when the request is sent. -/
def receiveAsync (status_code : UInt32) (arriving : List (List Byte)) (ending : Ending) : Printed :=
  handle_read_status_line status_code ending (Pieces.readUntil [13, 10] [] arriving)

/-- The status line is good, but it came without its end, after an empty line that was skipped;
and the headers come. -/
def Unended (status_code : UInt32) (arriving : List (List Byte)) : Prop :=
  ∃ response ∈ Pieces.readUntil [13, 10] [] arriving, ∃ http_version s,
    readStatusLine status_code response.buffer = (http_version, 200, s) ∧
      http_version.take 5 = bytes "HTTP/" ∧ s.fail = false ∧ s.eof = true ∧
        [13, 10, 13, 10] <:+: response.arriving.flatten

/-- An empty line and the status line arrive, and the end of that line with the headers. -/
example : Unended 0 [bytes "\r\nHTTP/1.0 200 OK", bytes "\r\nContent-Length: 1\r\n\r\na"] :=
  ⟨_, rfl, _, _, rfl, by decide, rfl, rfl, by decide⟩

theorem handle_read_content_eq (ending : Ending) (arriving : List (List Byte)) :
    handle_read_content ending arriving = ⟨arriving.flatten, ending = .failed⟩ := by
  induction arriving with
  | nil => rfl
  | cons piece arriving ih => rw [handle_read_content, ih, List.flatten_cons]

/-- From a good stream the headers are read by both clients alike. -/
theorem readHeaders_good (text : List Byte) (arriving : List (List Byte)) (ending : Ending) :
    (readHeaders (.good text) arriving ending).printed =
      handle_read_headers ending (Pieces.readUntil [13, 10, 13, 10] text arriving) := by
  have htext : (InStream.good text).text = text := rfl
  rw [readHeaders, htext]
  cases Pieces.readUntil [13, 10, 13, 10] text arriving with
  | none => rfl
  | some response =>
      have hstream : {InStream.good text with text := response.buffer} =
          InStream.good response.buffer := rfl
      simp only [hstream, handle_read_headers, handle_read_content_eq]
      cases ending <;> rfl

/-- An empty line that begins after another one is the next, or comes after the next. -/
theorem empty_line_after {line rest : List Byte} (hlf : 10 ∉ line)
    (h : [10, 13, 10] <:+: 10 :: (line ++ 10 :: rest)) :
    line = [13] ∨ [10, 13, 10] <:+: 10 :: rest := by
  rcases List.infix_cons_iff.mp h with hnext | hlater
  · left
    have hfront : [13, 10] <+: line ++ 10 :: rest := (List.cons_prefix_cons.mp hnext).2
    match line, hlf, hfront with
    | [], _, hfront => cases (List.cons_prefix_cons.mp hfront).1
    | [b], _, hfront =>
        rw [(List.cons_prefix_cons.mp hfront).1]
    | b :: c :: line, hlf, hfront =>
        have hc : 10 = c := (List.cons_prefix_cons.mp (List.cons_prefix_cons.mp hfront).2).1
        exact absurd (by simp [hc]) hlf
  · right
    exact Pieces.infix_of_notMem hlf hlater

private theorem lf_mem_of_empty_line {text : List Byte} (h : [10, 13, 10] <:+: 10 :: text) :
    10 ∈ text := by
  rcases List.infix_cons_iff.mp h with hnext | hlater
  · have hfront : [13, 10] <+: text := (List.cons_prefix_cons.mp hnext).2
    exact hfront.subset (by decide)
  · exact hlater.subset (by decide)

/-- The empty line is met, and is all that is not printed of a text that has one. -/
theorem printHeaders_length {text : List Byte} (h : [10, 13, 10] <:+: 10 :: text)
    (header : List Byte) :
    (printHeaders (.good text) header).1.length +
      (printHeaders (.good text) header).2.text.length + 2 = text.length := by
  induction hn : text.length using Nat.strong_induction_on generalizing text header with
  | _ n ih =>
      obtain ⟨line, rest, rfl, hline⟩ := List.eq_append_cons_of_mem (lf_mem_of_empty_line h)
      have hget := InStream.getline_good hline header rest
      rw [printHeaders, hget]
      by_cases hempty : line = [13]
      · rw [dif_neg (fun hmore => hmore.2 hempty), ← hn, hempty]
        simp [InStream.good]
      · have hrest : [10, 13, 10] <:+: 10 :: rest :=
          (empty_line_after hline h).resolve_left hempty
        have hlater := ih rest.length (by rw [← hn]; simp; omega) hrest line rfl
        rw [dif_pos ⟨rfl, hempty⟩, ← hn]
        simp only [List.length_append, List.length_cons, List.length_nil]
        omega

/-- At the end of its stream the synchronous client takes the headers for content. -/
theorem readHeaders_eof {arriving : List (List Byte)} {response : Pieces Byte}
    (hread : Pieces.readUntil [13, 10, 13, 10] [] arriving = some response) (ending : Ending) :
    (readHeaders ⟨[], true, false⟩ arriving ending).printed =
      ⟨10 :: response.text, ending = .failed⟩ := by
  have hline : printHeaders ⟨response.buffer, true, false⟩ [] =
      ([], ⟨response.buffer, true, true⟩) := by
    rw [printHeaders]
    rfl
  simp only [readHeaders, hread, hline]
  cases ending <;> rfl

/-- Of the empty line, which the synchronous client then prints too, only the end is printed. -/
theorem handle_read_headers_length {arriving : List (List Byte)} {response : Pieces Byte}
    (hread : Pieces.readUntil [13, 10, 13, 10] [] arriving = some response) (ending : Ending) :
    (handle_read_headers ending (some response)).out.length + 1 = response.text.length := by
  have hempty : [10, 13, 10] <:+: 10 :: response.buffer := by
    have hholds := (Pieces.readUntil_eq_some hread).2
    exact ((List.suffix_cons 13 [10, 13, 10]).isInfix.trans hholds).trans
      (List.suffix_cons 10 response.buffer).isInfix
  have hlength := printHeaders_length hempty []
  simp only [handle_read_headers, handle_read_content_eq, Pieces.text, List.length_append,
    List.length_cons, List.length_nil]
  omega

/-- The headers are read alike unless the stream of the synchronous client is at its end. -/
theorem handle_read_headers_eq_iff {s : InStream}
    (hs : (∃ text, s = .good text) ∨ s = ⟨[], true, false⟩) (arriving : List (List Byte))
    (ending : Ending) :
    handle_read_headers ending (Pieces.readUntil [13, 10, 13, 10] s.text arriving) =
        (readHeaders s arriving ending).printed ↔
      ¬ (s.eof = true ∧ [13, 10, 13, 10] <:+: arriving.flatten) := by
  obtain ⟨text, rfl⟩ | rfl := hs
  · rw [readHeaders_good]
    exact iff_of_true rfl fun h => Bool.false_ne_true h.1
  by_cases hheaders : [13, 10, 13, 10] <:+: arriving.flatten
  · have hinfix : [13, 10, 13, 10] <:+: [] ++ arriving.flatten := hheaders
    obtain ⟨response, hread⟩ := Pieces.readUntil_isSome hinfix
    refine iff_of_false ?_ (not_not.mpr ⟨rfl, hheaders⟩)
    intro heq
    have hlength := handle_read_headers_length hread ending
    rw [readHeaders_eof hread, hread] at heq
    rw [heq, List.length_cons] at hlength
    omega
  · have hread := Pieces.readUntil_eq_none (List.nil_append arriving.flatten ▸ hheaders)
    refine iff_of_true ?_ fun h => hheaders h.2
    simp only [handle_read_headers, readHeaders, hread, Outcome.printed]

section StatusLine

variable {status_code number : UInt32} {arriving : List (List Byte)} {response : Pieces Byte}
  {http_version : List Byte} {s : InStream}
  (hread : Pieces.readUntil [13, 10] [] arriving = some response)
  (hline : readStatusLine status_code response.buffer = (http_version, number, s))
include hread hline

theorem unended_iff :
    Unended status_code arriving ↔
      number = 200 ∧ http_version.take 5 = bytes "HTTP/" ∧ s.fail = false ∧ s.eof = true ∧
        [13, 10, 13, 10] <:+: response.arriving.flatten := by
  constructor
  · rintro ⟨response', hread', http_version', s', hline', hunended⟩
    cases hread.symm.trans hread'
    cases hline.symm.trans hline'
    exact ⟨rfl, hunended⟩
  · rintro ⟨rfl, hunended⟩
    exact ⟨response, hread, http_version, s, hline, hunended⟩

private theorem receive_printed (ending : Ending) :
    (receive status_code arriving ending).printed =
      if s.fail ∨ http_version.take 5 ≠ bytes "HTTP/" then
        ⟨bytes "Invalid response\n", false⟩
      else if number ≠ 200 then
        ⟨bytes "Response returned with status code " ++ lexicalCast number.toNat ++ [10], false⟩
      else (readHeaders s response.arriving ending).printed := by
  simp only [readStatusLine, Prod.mk.injEq] at hline
  obtain ⟨rfl, rfl, rfl⟩ := hline
  simp only [receive, hread]
  split_ifs <;> rfl

private theorem receiveAsync_printed (ending : Ending) :
    receiveAsync status_code arriving ending =
      if s.fail ∨ http_version.take 5 ≠ bytes "HTTP/" then
        ⟨bytes "Invalid response\n", false⟩
      else if number ≠ 200 then
        ⟨bytes "Response returned with status code " ++ lexicalCast number.toNat ++ [10], false⟩
      else
        handle_read_headers ending
          (Pieces.readUntil [13, 10, 13, 10] s.text response.arriving) := by
  simp only [receiveAsync, handle_read_status_line, hread, hline]

end StatusLine

private theorem readStatusLine_cases {http_version : List Byte} {status_code number : UInt32}
    {text : List Byte} {s : InStream}
    (hline : readStatusLine status_code text = (http_version, number, s)) (hfail : s.fail = false) :
    (∃ text, s = .good text) ∨ s = ⟨[], true, false⟩ := by
  simp only [readStatusLine, Prod.mk.injEq] at hline
  obtain ⟨rfl, rfl, rfl⟩ := hline
  exact InStream.getline_cases hfail

/-- The two clients print the same exactly when the status line came with its end. -/
theorem receiveAsync_eq_iff (status_code : UInt32) (arriving : List (List Byte))
    (ending : Ending) :
    receiveAsync status_code arriving ending = (receive status_code arriving ending).printed ↔
      ¬ Unended status_code arriving := by
  cases hread : Pieces.readUntil [13, 10] [] arriving with
  | none =>
      have hnever : ¬ Unended status_code arriving := by
        rintro ⟨response, hresponse, -⟩
        cases hread.symm.trans hresponse
      refine iff_of_true ?_ hnever
      simp only [receiveAsync, receive, hread, handle_read_status_line, Outcome.printed]
  | some response =>
      obtain ⟨http_version, number, s, hline⟩ :
          ∃ http_version number s, readStatusLine status_code response.buffer =
            (http_version, number, s) := ⟨_, _, _, rfl⟩
      rw [receiveAsync_printed hread hline, receive_printed hread hline, unended_iff hread hline]
      split_ifs with hbad hnumber
      · refine iff_of_true rfl ?_
        rintro ⟨-, hversion, hfail, -⟩
        rw [hfail] at hbad
        exact hbad.elim Bool.false_ne_true fun hne => hne hversion
      · exact iff_of_true rfl fun h => hnumber h.1
      · rw [not_or, not_not, Bool.not_eq_true] at hbad
        rw [handle_read_headers_eq_iff (readStatusLine_cases hline hbad.1)]
        simp only [not_not.mp hnumber, hbad, true_and]

/-- However a reply of the server is cut into pieces, both clients print the same. -/
theorem receiveAsync_reply (status_code : UInt32) {rep : Reply} {arriving : List (List Byte)}
    (harriving : arriving.flatten = rep.toBuffers.flatten) (ending : Ending) :
    receiveAsync status_code arriving ending = (receive status_code arriving ending).printed := by
  rw [receiveAsync_eq_iff]
  obtain ⟨response, hread, more, hbuffer, -⟩ := readUntil_reply rep harriving
  obtain ⟨s₁, s₂, line, hversion, hcode, hend⟩ :=
    status_line_extracted rep.status status_code more
  have hline : readStatusLine status_code response.buffer =
      (bytes "HTTP/1.0", UInt32.ofNat (statusCode rep.status), .good more) := by
    simp only [readStatusLine, hbuffer, hversion, hcode, hend]
  rw [unended_iff hread hline]
  rintro ⟨-, -, -, heof, -⟩
  cases heof

end LearningCpp.HttpClient
