import LearningCpp.GlobalHelper.SplitRequest
import LearningCpp.Http.Connection
import LearningCpp.HttpClient.Request
import LearningCpp.HttpClient.Response

/-!
A conversation of `client/sync_client.cpp` with the server that `serverframe.cpp` runs: the
request reaches a connection in reads of any size, `CServerWork::Work` makes the content of
the reply, and the reply reaches the client in pieces of any size.
-/

namespace LearningCpp.HttpClient

open Library Http RequestParser GlobalHelper EncodeConvert

/-- `CServerWork::Work(in, out)`: what it returns and leaves in `out`. The segments of the path
are split off and not looked at. -/
def Work (lib : Iconv) (input : List Byte) : Option (Except Fault (Bool × List Byte)) :=
  (splitRequest lib [] input).map fun result =>
    result.map fun _ => (true, bytes "process result: " ++ input)

/-- The default type with which `StartService` constructs the server. -/
def defaultReturnType : List Byte := bytes "txt"

/-- What the client prints for a path that the server has decoded to `q`. -/
def processed (q : List Byte) : List Byte :=
  bytes "Content-Length: " ++ lexicalCast (bytes "process result: " ++ withIndex q).length ++
    bytes "\r\nContent-Type: text/plain\r\n\nprocess result: " ++ withIndex q

/-- What the client is to print, and return, for its argument `path`. -/
def answer (path : List Byte) : Outcome :=
  match urlDecode path with
  | (true, q) =>
      if AbsolutePath q then .returned 0 (processed q)
      else .returned 1 (bytes "Response returned with status code 400\n")
  | (false, _) => .returned 1 (bytes "Response returned with status code 400\n")

/-- Whatever the reads, the connection of a client hands its request to the handler. -/
theorem serve_formRequest {server path : List Byte} (hplain : Plain server path)
    (buffer_ : List Byte) (major minor : Int32) {chunks : List (List Byte)}
    (hchunks : chunks.flatten = formRequest server path) :
    ((Connection.mk buffer_ (.fresh major minor) .new).serve chunks).1 =
      .handle_request (requested server path) := by
  obtain ⟨p, hparse, hreq⟩ := parse_formRequest major minor hplain
  have hdecision := (Connection.serve_eq ⟨buffer_, .fresh major minor, .new⟩ chunks).1
  rw [hdecision, hchunks, Connection.decision]
  have hparsing : (Connection.mk buffer_ (.fresh major minor) .new).parsing =
      ⟨.new, .fresh major minor⟩ := rfl
  simp only [hparsing, hparse, hreq]

/-- Two headers, set by the server, each on its line. -/
theorem setHeaders_oneLine (rep : Reply) {contentType : List Byte} (hcr : 13 ∉ contentType)
    (hlf : 10 ∉ contentType) : ∀ h ∈ (setHeaders rep contentType).headers, OneLine h := by
  have hlength : 10 ∉ lexicalCast rep.content.length := by
    intro hmem
    have hvalue := decimalValue_lexicalCast rep.content.length
    rw [decimalValue] at hvalue
    split at hvalue
    case isTrue hdigits =>
      have hdigit := of_decide_eq_true (List.all_eq_true.mp hdigits.2 10 hmem)
      exact absurd hdigit.1 (by decide)
    case isFalse => cases hvalue
  rw [setHeaders_headers]
  intro h hh
  have hlengthName : 13 ∉ bytes "Content-Length" ∧ 10 ∉ bytes "Content-Length" := by decide
  have htypeName : 13 ∉ bytes "Content-Type" ∧ 10 ∉ bytes "Content-Type" := by decide
  rcases List.mem_cons.mp hh with rfl | hh
  · exact ⟨hlengthName.1, hlengthName.2, lexicalCast_no_cr _, hlength⟩
  · obtain rfl := List.mem_singleton.mp hh
    exact ⟨htypeName.1, htypeName.2, hcr, hlf⟩

private theorem setHeaders_ne_nil (rep : Reply) (contentType : List Byte) :
    (setHeaders rep contentType).headers ≠ [] := by
  rw [setHeaders_headers]
  exact List.cons_ne_nil _ _

/-- The client returns with the number of a stock reply. -/
theorem receive_bad_request (old : UInt32) {arriving : List (List Byte)}
    (harriving : arriving.flatten = (Reply.stockReply .bad_request).toBuffers.flatten) :
    receive old arriving .eof =
      .returned 1 (bytes "Response returned with status code 400\n") := by
  have hnot : (Reply.stockReply .bad_request).status ≠ .ok := by decide
  have hcode : bytes "Response returned with status code " ++
      lexicalCast (statusCode (Reply.stockReply .bad_request).status) ++ [10] =
        bytes "Response returned with status code 400\n" := by decide
  rw [receive_not_ok old hnot harriving, hcode]

/-- The client prints the headers and the content of a reply that the worker has filled. -/
theorem receive_processed (old : UInt32) (status : StatusType) (q : List Byte)
    {arriving : List (List Byte)}
    (harriving : arriving.flatten =
      (fillOut ⟨status, [], [] ++ (bytes "process result: " ++ withIndex q)⟩
        defaultReturnType).toBuffers.flatten) :
    receive old arriving .eof = .returned 0 (processed q) := by
  have htype : extensionToType defaultReturnType = bytes "text/plain" := by decide
  have hplain : bytes "\r\nContent-Type: text/plain\r\n\nprocess result: " =
      [13, 10] ++ (bytes "Content-Type" ++ MiscStrings.nameValueSeparator ++ bytes "text/plain" ++
        [13, 10]) ++ [10] ++ bytes "process result: " := by decide
  have hlength : bytes "Content-Length: " =
      bytes "Content-Length" ++ MiscStrings.nameValueSeparator := by decide
  have hlines := setHeaders_oneLine ⟨.ok, [], [] ++ (bytes "process result: " ++ withIndex q)⟩
    (show 13 ∉ extensionToType defaultReturnType by decide)
    (show 10 ∉ extensionToType defaultReturnType by decide)
  have hsome := setHeaders_ne_nil ⟨.ok, [], [] ++ (bytes "process result: " ++ withIndex q)⟩
    (extensionToType defaultReturnType)
  rw [receive_ok old (setHeaders_status _ _) hsome hlines harriving, setHeaders_headers, htype,
    processed, hplain, hlength]
  simp only [List.map_cons, List.map_nil, headerLine, terminated_cons, terminated_nil,
    setHeaders_content, List.nil_append, List.append_assoc, List.cons_append]

/-- Whatever the reads of the connection and the pieces of the reply, the client prints what
the server's worker makes of the decoded path, or that the path was refused, when the request is
plain and the worker returns. -/
theorem conversation_answer (lib : Iconv) (fs : FileSystem) {handler : RequestHandler}
    {worker : List Byte → Bool × List Byte} (hworker : handler.coreWorker_ = some worker)
    {server path : List Byte} (hplain : Plain server path)
    (hwork : ∀ q, urlDecode path = (true, q) → AbsolutePath q →
      Work lib (withIndex q) = some (.ok (worker (withIndex q))))
    (buffer_ : List Byte) (major minor : Int32) (status : StatusType) (old : UInt32)
    {chunks : List (List Byte)} (hchunks : chunks.flatten = formRequest server path) :
    ∃ req out,
      ((Connection.mk buffer_ (.fresh major minor) .new).serve chunks).1 = .handle_request req ∧
        handler.handleRequest fs req ⟨status, [], []⟩ defaultReturnType = some out ∧
          ∀ arriving : List (List Byte), arriving.flatten = out.rep.toBuffers.flatten →
            receive old arriving .eof = answer path := by
  have hserve := serve_formRequest hplain buffer_ major minor hchunks
  have hcustom : Custom defaultReturnType := by decide
  have hrefused : ∀ arriving : List (List Byte),
      arriving.flatten = (Reply.stockReply .bad_request).toBuffers.flatten →
        receive old arriving .eof =
          .returned 1 (bytes "Response returned with status code 400\n") :=
    fun _ => receive_bad_request old
  have huri : (requested server path).uri = path := rfl
  cases hdecode : urlDecode path with
  | mk decodes q =>
      cases decodes with
      | false =>
          refine ⟨_, ⟨Reply.stockReply .bad_request, none⟩, hserve, ?_, ?_⟩
          · simp only [RequestHandler.handleRequest, huri, hdecode]
          · simpa only [answer, hdecode] using hrefused
      | true =>
          rcases Classical.em (AbsolutePath q) with habsolute | habsolute
          · have hdone := hwork q hdecode habsolute
            obtain ⟨pushed, hsplit, hresult⟩ : ∃ pushed, splitRequest lib [] (withIndex q) =
                some (.ok pushed) ∧
                  worker (withIndex q) = (true, bytes "process result: " ++ withIndex q) := by
              obtain ⟨result, hsplit, hresult⟩ := Option.map_eq_some_iff.mp hdone
              cases result with
              | error fault => cases hresult
              | ok pushed => exact ⟨pushed, hsplit, (Except.ok.inj hresult).symm⟩
            refine ⟨_, ⟨fillOut ⟨status, [], [] ++ (bytes "process result: " ++ withIndex q)⟩
              defaultReturnType, none⟩, hserve, ?_, ?_⟩
            · simp only [RequestHandler.handleRequest, huri, hdecode, habsolute, hcustom,
                not_true_eq_false, if_false, if_true, RequestHandler.askWorker, hworker, hresult]
            · intro arriving harriving
              rw [receive_processed old status q harriving]
              simp only [answer, hdecode, habsolute, if_true]
          · refine ⟨_, ⟨Reply.stockReply .bad_request, none⟩, hserve, ?_, ?_⟩
            · simp only [RequestHandler.handleRequest, huri, hdecode, habsolute,
                not_false_eq_true, if_true]
            · simpa only [answer, hdecode, habsolute, if_false] using hrefused

/-- `sync_client localhost /Ab`, with the request in two reads. -/
theorem conversation_answer_ab :
    ∃ req out,
      ((Connection.mk [] (.fresh 0 0) .new).serve
          [bytes "GET /Ab HTTP/1.0\r\nHost: loc",
            bytes "alhost\r\nAccept: */*\r\nConnection: close\r\n\r\n"]).1 =
          .handle_request req ∧
        RequestHandler.handleRequest
            ⟨bytes "./wwwroot", by decide, some fun path => (true, bytes "process result: " ++ path)⟩
            (fun _ => none) req ⟨.ok, [], []⟩ defaultReturnType = some out ∧
          ∀ arriving : List (List Byte), arriving.flatten = out.rep.toBuffers.flatten →
            receive 0 arriving .eof = answer (bytes "/Ab") := by
  have hdecode : urlDecode (bytes "/Ab") = (true, bytes "/Ab") := by decide +kernel
  have hwork : ∀ q, urlDecode (bytes "/Ab") = (true, q) → AbsolutePath q →
      Work sample (withIndex q) = some (.ok (true, bytes "process result: " ++ withIndex q)) := by
    intro q hq _
    obtain rfl : bytes "/Ab" = q := congrArg Prod.snd (hdecode.symm.trans hq)
    decide +kernel
  exact conversation_answer sample (fun _ => none) rfl
    (show Plain (bytes "localhost") (bytes "/Ab") from ⟨by decide +kernel, by decide +kernel⟩) hwork
    [] 0 0 .ok 0 (by decide)

end LearningCpp.HttpClient
