import LearningCpp.Http.Reply
import LearningCpp.Library.Pieces
import LearningCpp.Runtime.InStream

/-!
How `client/sync_client.cpp` of `ad_system/server3` reads the response: a status line, the
headers up to an empty line, and the content up to the end of the stream. The response
arrives in pieces of any size.
-/

namespace LearningCpp.HttpClient

open Library Http

/-- How the stream ends after the last piece. -/
inductive Ending where
  | eof
  | failed
  deriving DecidableEq, Repr

/-- What `main` has written to `std::cout` when it returns, or when an exception ends its
`try` block; the text of the exception is not part of it. -/
inductive Outcome where
  | returned (code : Nat) (out : List Byte)
  | exception (out : List Byte)
  deriving DecidableEq, Repr

/-- `while (std::getline(response_stream, header) && header != "\r")`
`std::cout << header << "\n";` -/
def printHeaders (s : InStream) (header : List Byte) : List Byte × InStream :=
  if _h : (s.getline header).2.fail = false ∧ (s.getline header).1 ≠ [13] then
    let (out, s') := printHeaders (s.getline header).2 (s.getline header).1
    ((s.getline header).1 ++ [10] ++ out, s')
  else ([], (s.getline header).2)
termination_by s.text.length
decreasing_by exact InStream.getline_length_lt _h.1

/-- From "Read the response headers" to the end of the `try` block. -/
def readHeaders (s : InStream) (arriving : List (List Byte)) (ending : Ending) : Outcome :=
  match Pieces.readUntil [13, 10, 13, 10] s.text arriving with
  | none => .exception []
  | some response =>
      let (lines, s') := printHeaders {s with text := response.buffer} []
      let out := lines ++ [10] ++ s'.text ++ response.arriving.flatten
      match ending with
      | .eof => .returned 0 out
      | .failed => .exception out

/-- From "Read the response status line" to the end of `main`. `status_code` is the variable
before it is initialised. -/
def receive (status_code : UInt32) (arriving : List (List Byte)) (ending : Ending) : Outcome :=
  match Pieces.readUntil [13, 10] [] arriving with
  | none => .exception []
  | some response =>
      let (http_version, s₁) := (InStream.good response.buffer).extractWord []
      let (status_code, s₂) := s₁.extractUnsigned status_code
      let (_, s₃) := s₂.getline []
      if s₃.fail ∨ http_version.take 5 ≠ bytes "HTTP/" then
        .returned 1 (bytes "Invalid response\n")
      else if status_code ≠ 200 then
        .returned 1 (bytes "Response returned with status code " ++
          lexicalCast status_code.toNat ++ [10])
      else readHeaders s₃ response.arriving ending

/-- The numbers of `reply::status_type`. -/
def statusCode : StatusType → Nat
  | .ok => 200
  | .created => 201
  | .accepted => 202
  | .no_content => 204
  | .multiple_choices => 300
  | .moved_permanently => 301
  | .moved_temporarily => 302
  | .not_modified => 304
  | .bad_request => 400
  | .unauthorized => 401
  | .forbidden => 403
  | .not_found => 404
  | .internal_server_error => 500
  | .not_implemented => 501
  | .bad_gateway => 502
  | .service_unavailable => 503

theorem statusCode_eq_iff (status : StatusType) : statusCode status = 200 ↔ status = .ok := by
  cases status <;> decide

/-- The status line is the version, the number of the status and a message. -/
theorem statusLine_eq (status : StatusType) :
    ∃ message, 10 ∉ message ∧
      statusLine status =
        bytes "HTTP/1.0" ++ 32 :: (lexicalCast (statusCode status) ++ 32 :: message) := by
  have hsplit : statusLine status = bytes "HTTP/1.0" ++
        32 :: (lexicalCast (statusCode status) ++ 32 :: (statusLine status).drop 13) ∧
      10 ∉ (statusLine status).drop 13 := by
    cases status <;> exact ⟨by decide, by decide⟩
  exact ⟨_, hsplit.2, hsplit.1⟩

private theorem lexicalCast_statusCode (status : StatusType) :
    lexicalCast (statusCode status) ≠ [] ∧
      (∀ b ∈ lexicalCast (statusCode status), InStream.isdigit b) ∧
        InStream.number (lexicalCast (statusCode status)) = statusCode status := by
  cases status <;> exact ⟨by decide, by decide +kernel, by decide⟩

theorem statusCode_lt (status : StatusType) : statusCode status < 2 ^ 32 := by
  cases status <;> decide

/-- A header that stays on its line. -/
def OneLine (h : Header) : Prop :=
  13 ∉ h.name ∧ 10 ∉ h.name ∧ 13 ∉ h.value ∧ 10 ∉ h.value

instance (h : Header) : Decidable (OneLine h) := inferInstanceAs (Decidable (_ ∧ _))

theorem OneLine.lf_notMem {h : Header} (hline : OneLine h) : 10 ∉ headerLine h := by
  have hseparator : (10 : Byte) ∉ MiscStrings.nameValueSeparator := by decide
  simp only [headerLine, List.mem_append, not_or]
  exact ⟨⟨hline.2.1, hseparator⟩, hline.2.2.2⟩

/-- Lines are printed as they came, up to the empty one. -/
theorem printHeaders_terminated {lines : List (List Byte)} (hlf : ∀ line ∈ lines, 10 ∉ line)
    (hlines : ∀ line ∈ lines, IsLine 13 line) (header body : List Byte) :
    printHeaders (.good (terminated 13 10 lines ++ 13 :: 10 :: body)) header =
      (terminated 13 10 lines, .good body) := by
  induction lines generalizing header with
  | nil =>
      have hcr : (10 : Byte) ∉ ([13] : List Byte) := by decide
      have hget := InStream.getline_good hcr header body
      rw [printHeaders, terminated_nil, List.nil_append]
      rw [List.singleton_append] at hget
      rw [hget]
      simp
  | cons line lines ih =>
      obtain ⟨hline, hlines⟩ := List.forall_mem_cons.mp hlines
      obtain ⟨hlineLf, hlf⟩ := List.forall_mem_cons.mp hlf
      have hnoLf : 10 ∉ line ++ [13] := by
        simp only [List.mem_append, List.mem_singleton, not_or]
        exact ⟨hlineLf, by decide⟩
      have htext : terminated 13 10 (line :: lines) ++ 13 :: 10 :: body =
          line ++ [13] ++ 10 :: (terminated 13 10 lines ++ 13 :: 10 :: body) := by
        simp
      have hget := InStream.getline_good hnoLf header
        (terminated 13 10 lines ++ 13 :: 10 :: body)
      have hne : line ++ [13] ≠ [13] := by
        simpa using hline.1
      rw [printHeaders, htext, hget, dif_pos ⟨rfl, hne⟩, ih hlf hlines]
      simp

/-- After the status line, the lines of the headers and the content go to the output. -/
theorem readHeaders_terminated {lines : List (List Byte)} (hsome : lines ≠ [])
    (hlf : ∀ line ∈ lines, 10 ∉ line) (hlines : ∀ line ∈ lines, IsLine 13 line)
    {buffer body : List Byte} {arriving : List (List Byte)}
    (htext : buffer ++ arriving.flatten = terminated 13 10 lines ++ [13, 10] ++ body) :
    readHeaders (.good buffer) arriving .eof =
      .returned 0 (terminated 13 10 lines ++ [10] ++ body) := by
  have hne : (13 : Byte) ≠ 10 := by decide
  obtain ⟨head, hhead, hsplit, hfirst⟩ := terminated_splits hne hsome hlines body
  rw [hsplit] at hfirst htext
  obtain ⟨response, hresponse, more, hbuffer, hmore⟩ := Pieces.readUntil_of_first htext hfirst
  have hprinted : response.buffer = terminated 13 10 lines ++ 13 :: 10 :: more := by
    rw [hbuffer, hhead]
    simp
  have hheaders := printHeaders_terminated hlf hlines [] more
  rw [← hprinted] at hheaders
  have hread : Pieces.readUntil [13, 10, 13, 10] (InStream.good buffer).text arriving =
      some response := hresponse
  have hstream : {InStream.good buffer with text := response.buffer} =
      InStream.good response.buffer := rfl
  simp only [readHeaders, hread, hstream, hheaders, ← hmore, List.append_assoc]
  rfl

/-- What the three extractions make of a status line. -/
theorem status_line_extracted (status : StatusType) (old : UInt32) (more : List Byte) :
    ∃ s₁ s₂ line,
      (InStream.good (statusLine status ++ [13, 10] ++ more)).extractWord [] =
          (bytes "HTTP/1.0", s₁) ∧
        s₁.extractUnsigned old = (UInt32.ofNat (statusCode status), s₂) ∧
          s₂.getline [] = (line, .good more) := by
  obtain ⟨message, hmessage, hline⟩ := statusLine_eq status
  obtain ⟨hne, hdigits, hnumber⟩ := lexicalCast_statusCode status
  have hword : ∀ b ∈ bytes "HTTP/1.0", ¬ isspace b := by decide +kernel
  have hblank : isspace 32 := by decide
  have hafter : ¬ InStream.isdigit 32 := by decide
  have hlf : 10 ∉ (32 :: message ++ [13] : List Byte) := by
    simpa using hmessage
  have htext : statusLine status ++ [13, 10] ++ more =
      bytes "HTTP/1.0" ++
        32 :: (lexicalCast (statusCode status) ++ 32 :: (message ++ 13 :: 10 :: more)) := by
    rw [hline]
    simp
  have hrange : InStream.number (lexicalCast (statusCode status)) < 2 ^ 32 := by
    rw [hnumber]
    exact statusCode_lt status
  have hextracted := InStream.extractUnsigned_good hne hdigits hrange hafter hblank old
    (message ++ 13 :: 10 :: more)
  rw [hnumber] at hextracted
  have hrest : (32 :: (message ++ 13 :: 10 :: more) : List Byte) =
      32 :: message ++ [13] ++ 10 :: more := by
    simp
  refine ⟨_, _, 32 :: message ++ [13], ?_, hextracted, ?_⟩
  · rw [htext]
    exact InStream.extractWord_good (by decide) hword hblank [] _
  · rw [hrest]
    exact InStream.getline_good hlf [] more

/-- However a reply is cut into pieces, its status line is read with its end. -/
theorem readUntil_reply (rep : Reply) {arriving : List (List Byte)}
    (harriving : arriving.flatten = rep.toBuffers.flatten) :
    ∃ response, Pieces.readUntil [13, 10] [] arriving = some response ∧
      ∃ more, response.buffer = statusLine rep.status ++ [13, 10] ++ more ∧
        more ++ response.arriving.flatten =
          terminated 13 10 (rep.headers.map headerLine) ++ [13, 10] ++ rep.content := by
  have htext : [] ++ arriving.flatten = statusLine rep.status ++ [13, 10] ++
      (terminated 13 10 (rep.headers.map headerLine) ++ [13, 10] ++ rep.content) := by
    rw [harriving, toBuffers_flatten]
    simp
  have hfirst : ∀ before after, statusLine rep.status ++ [13, 10] ++
        (terminated 13 10 (rep.headers.map headerLine) ++ [13, 10] ++ rep.content) =
          before ++ [13, 10] ++ after →
      (statusLine rep.status).length ≤ before.length :=
    fun before after => Pieces.first_of_notMem (statusLine_isLine rep.status).2 before after
  exact Pieces.readUntil_of_first htext hfirst

/-- However a reply is cut into pieces, the client takes its status line off, and goes on only
when the status is `ok`. -/
theorem receive_status (old : UInt32) (rep : Reply) {arriving : List (List Byte)}
    (harriving : arriving.flatten = rep.toBuffers.flatten) (ending : Ending) :
    ∃ buffer later,
      buffer ++ List.flatten later =
          terminated 13 10 (rep.headers.map headerLine) ++ [13, 10] ++ rep.content ∧
        receive old arriving ending =
          if rep.status = .ok then readHeaders (.good buffer) later ending
          else
            .returned 1 (bytes "Response returned with status code " ++
              lexicalCast (statusCode rep.status) ++ [10]) := by
  obtain ⟨response, hresponse, more, hbuffer, hmore⟩ := readUntil_reply rep harriving
  obtain ⟨s₁, s₂, line, hversion, hcode, hline⟩ := status_line_extracted rep.status old more
  have hhttp : (bytes "HTTP/1.0").take 5 = bytes "HTTP/" := by decide
  have hnat : (UInt32.ofNat (statusCode rep.status)).toNat = statusCode rep.status :=
    UInt32.toNat_ofNat_of_lt' (statusCode_lt rep.status)
  have hok : UInt32.ofNat (statusCode rep.status) = 200 ↔ rep.status = .ok := by
    rw [← statusCode_eq_iff, ← UInt32.toNat_inj, hnat]
    rfl
  have hgood : (InStream.good more).fail = false := rfl
  refine ⟨more, response.arriving, hmore, ?_⟩
  simp only [receive, hresponse, hbuffer, hversion, hcode, hline, hgood, hhttp, hnat,
    Bool.false_eq_true, ne_eq, not_true_eq_false, or_self, if_false, hok, ite_not]

variable {rep : Reply} {arriving : List (List Byte)}

theorem receive_ok (old : UInt32) (hok : rep.status = .ok) (hsome : rep.headers ≠ [])
    (hlines : ∀ h ∈ rep.headers, OneLine h)
    (harriving : arriving.flatten = rep.toBuffers.flatten) :
    receive old arriving .eof =
      .returned 0 (terminated 13 10 (rep.headers.map headerLine) ++ [10] ++ rep.content) := by
  obtain ⟨buffer, later, htext, hreceive⟩ := receive_status old rep harriving .eof
  rw [hreceive, if_pos hok]
  apply readHeaders_terminated
  · simpa using hsome
  · intro text hmem
    obtain ⟨h, hheader, rfl⟩ := List.mem_map.mp hmem
    exact (hlines h hheader).lf_notMem
  · intro text hmem
    obtain ⟨h, hheader, rfl⟩ := List.mem_map.mp hmem
    exact headerLine_isLine (hlines h hheader).1 (hlines h hheader).2.2.1
  · exact htext

theorem receive_not_ok (old : UInt32) (hnot : rep.status ≠ .ok)
    (harriving : arriving.flatten = rep.toBuffers.flatten) (ending : Ending) :
    receive old arriving ending =
      .returned 1 (bytes "Response returned with status code " ++
        lexicalCast (statusCode rep.status) ++ [10]) := by
  obtain ⟨buffer, later, -, hreceive⟩ := receive_status old rep harriving ending
  rw [hreceive, if_neg hnot]

end LearningCpp.HttpClient
