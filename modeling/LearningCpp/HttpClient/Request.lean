import LearningCpp.Http.Recognition
import LearningCpp.Http.Reply

/-!
The request that `client/sync_client.cpp` and `client/async_client.cpp` of
`ad_system/server3` form from their arguments, and what the parser of the server makes
of it.
-/

namespace LearningCpp.HttpClient

open Library Http RequestParser

/-- What is written to `request_stream`. -/
def formRequest (server path : List Byte) : List Byte :=
  bytes "GET " ++ path ++ bytes " HTTP/1.0\r\n" ++
    (bytes "Host: " ++ server ++ bytes "\r\n") ++
    bytes "Accept: */*\r\n" ++
    bytes "Connection: close\r\n\r\n"

/-- The request that the client means. -/
def requested (server path : List Byte) : Request :=
  { method := bytes "GET", uri := path, http_version_major := 1, http_version_minor := 0
    headers :=
      [{ name := bytes "Host", value := server },
        { name := bytes "Accept", value := bytes "*/*" },
        { name := bytes "Connection", value := bytes "close" }] }

/-- Arguments that stay in their place in the request: no space or control character in the
path, and none in the name of the server but for spaces. -/
def Plain (server path : List Byte) : Prop :=
  (∀ b ∈ path, UriByte b) ∧ ∀ b ∈ server, TextByte b

/-- A header on one line. -/
def plainLine (name value : List Byte) (hne : name ≠ []) (hname : ∀ b ∈ name, TokenByte b)
    (hvalue : ∀ b ∈ value, TextByte b) : HeaderLine where
  name := name
  value := value
  continuations := []
  name_ne_nil := hne
  name_token := hname
  value_textByte := hvalue

/-- The request as a sentence of the protocol. -/
def sentenceOf (server path : List Byte) (h : Plain server path) : Sentence where
  method := bytes "GET"
  uri := path
  major := bytes "1"
  minor := bytes "0"
  lines :=
    [plainLine (bytes "Host") server (by decide) (by decide +kernel) h.2,
      plainLine (bytes "Accept") (bytes "*/*") (by decide) (by decide +kernel) (by decide +kernel),
      plainLine (bytes "Connection") (bytes "close") (by decide) (by decide +kernel)
        (by decide +kernel)]
  method_ne_nil := by decide
  method_token := by decide +kernel
  uri_uriByte := h.1
  major_ne_nil := by decide
  major_digit := by decide +kernel
  minor_ne_nil := by decide
  minor_digit := by decide +kernel

variable {server path : List Byte}

private theorem sentenceOf_bytes (h : Plain server path) :
    (sentenceOf server path h).bytes = formRequest server path := by
  have hhost : bytes "Host: " = bytes "Host" ++ [chr ':', chr ' '] := by decide
  have haccept : bytes "Accept: */*\r\n" =
      bytes "Accept" ++ [chr ':', chr ' '] ++ bytes "*/*" ++ crlf := by decide
  have hconnection : bytes "Connection: close\r\n\r\n" =
      bytes "Connection" ++ [chr ':', chr ' '] ++ bytes "close" ++ crlf ++ crlf := by decide
  have hversion : bytes " HTTP/1.0\r\n" =
      [chr ' '] ++ "HTTP/".toList.map chr ++ bytes "1" ++ [chr '.'] ++ bytes "0" ++ crlf := by
    decide
  have hget : bytes "GET " = bytes "GET" ++ [chr ' '] := by decide
  have hend : bytes "\r\n" = crlf := by decide
  simp only [formRequest, hget, hversion, hhost, hend, haccept, hconnection, Sentence.bytes,
    sentenceOf, plainLine, HeaderLine.bytes, List.flatMap_cons, List.flatMap_nil, List.append_nil,
    List.append_assoc]

private theorem sentenceOf_request (h : Plain server path) :
    (sentenceOf server path h).request = requested server path := by
  have hmajor : (bytes "1").foldl addDigit 0 = 1 := by decide
  have hminor : (bytes "0").foldl addDigit 0 = 0 := by decide
  simp only [Sentence.request, sentenceOf, hmajor, hminor, requested, plainLine, List.map_cons,
    List.map_nil, HeaderLine.header, List.flatMap_nil, List.append_nil]

/-- A value that the parser has taken from a header, with the lines that continue it. -/
theorem header_textByte (l : HeaderLine) : ∀ b ∈ l.header.value, TextByte b := by
  intro b hb
  simp only [HeaderLine.header, List.mem_append, List.mem_flatMap] at hb
  rcases hb with hvalue | ⟨c, -, htext⟩
  · exact l.value_textByte b hvalue
  · exact c.text_textByte b htext

/-- The parser takes a request whose arguments stay in their places. -/
theorem parse_formRequest (major minor : Int32) (h : Plain server path) :
    ∃ p, parse ⟨.new, .fresh major minor⟩ (formRequest server path) = (some true, p, []) ∧
      p.req = requested server path := by
  obtain ⟨p, hfeed, hreq⟩ := consume_decides.feed_of_mem
    ((rest_iff_sentence major minor _ _).mpr ⟨sentenceOf server path h, rfl, rfl⟩) []
  rw [sentenceOf_bytes, List.append_nil, ← parse_eq_feed] at hfeed
  rw [sentenceOf_request] at hreq
  exact ⟨p, hfeed, hreq⟩

/-- From its initial state the parser of the server takes the whole of a request for the one
that the client means exactly when the arguments stay in their places. -/
theorem parse_formRequest_iff (major minor : Int32) (server path : List Byte) :
    (∃ p, parse ⟨.new, .fresh major minor⟩ (formRequest server path) = (some true, p, []) ∧
        p.req = requested server path) ↔
      Plain server path := by
  constructor
  · rintro ⟨p, hparse, hreq⟩
    rw [parse_eq_feed] at hparse
    obtain ⟨w, hinput, hw⟩ := consume_decides.mem_of_feed hparse
    obtain ⟨s, -, hs⟩ := (rest_iff_sentence major minor w _).mp hw
    rw [hreq] at hs
    constructor
    · have huri : s.uri = path := congrArg Request.uri hs
      exact huri ▸ s.uri_uriByte
    · have hheaders : s.lines.map HeaderLine.header = (requested server path).headers :=
        congrArg Request.headers hs
      have hmem : ({ name := bytes "Host", value := server } : Header) ∈
          s.lines.map HeaderLine.header := by
        rw [hheaders]
        exact List.mem_cons_self
      obtain ⟨l, -, hl⟩ := List.mem_map.mp hmem
      have hvalue : l.header.value = server := congrArg Header.value hl
      exact hvalue ▸ header_textByte l
  · exact parse_formRequest major minor

end LearningCpp.HttpClient
