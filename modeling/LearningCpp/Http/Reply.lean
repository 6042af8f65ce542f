import LearningCpp.Http.Parser
import LearningCpp.Library.Framing

/-!
The replies of `ad_system/server3`: `reply.cpp` and `mime_types.cpp`. A reply is
sent as its status line, its headers, an empty line and its content.
-/

namespace LearningCpp.Http

open Library

/-- The bytes of a string literal. -/
def bytes (s : String) : List Byte := s.toList.map chr

inductive StatusType where
  | ok
  | created
  | accepted
  | no_content
  | multiple_choices
  | moved_permanently
  | moved_temporarily
  | not_modified
  | bad_request
  | unauthorized
  | forbidden
  | not_found
  | internal_server_error
  | not_implemented
  | bad_gateway
  | service_unavailable
  deriving DecidableEq, Repr

structure Reply where
  status : StatusType
  headers : List Header
  content : List Byte
  deriving DecidableEq, Repr

/-- `status_strings::to_buffer`, without the CRLF that ends every one of them. -/
def statusLine : StatusType → List Byte
  | .ok => bytes "HTTP/1.0 200 OK"
  | .created => bytes "HTTP/1.0 201 Created"
  | .accepted => bytes "HTTP/1.0 202 Accepted"
  | .no_content => bytes "HTTP/1.0 204 No Content"
  | .multiple_choices => bytes "HTTP/1.0 300 Multiple Choices"
  | .moved_permanently => bytes "HTTP/1.0 301 Moved Permanently"
  | .moved_temporarily => bytes "HTTP/1.0 302 Moved Temporarily"
  | .not_modified => bytes "HTTP/1.0 304 Not Modified"
  | .bad_request => bytes "HTTP/1.0 400 Bad Request"
  | .unauthorized => bytes "HTTP/1.0 401 Unauthorized"
  | .forbidden => bytes "HTTP/1.0 403 Forbidden"
  | .not_found => bytes "HTTP/1.0 404 Not Found"
  | .internal_server_error => bytes "HTTP/1.0 500 Internal Server Error"
  | .not_implemented => bytes "HTTP/1.0 501 Not Implemented"
  | .bad_gateway => bytes "HTTP/1.0 502 Bad Gateway"
  | .service_unavailable => bytes "HTTP/1.0 503 Service Unavailable"

namespace MiscStrings

def crlf : List Byte := [13, 10]

def nameValueSeparator : List Byte := [chr ':', chr ' ']

end MiscStrings

/-- `status_strings::to_buffer` -/
def statusBuffer (status : StatusType) : List Byte := statusLine status ++ MiscStrings.crlf

/-- The buffers of a header: `name`, `": "`, `value` and CRLF. -/
def headerBuffers (h : Header) : List (List Byte) :=
  [h.name, MiscStrings.nameValueSeparator, h.value, MiscStrings.crlf]

def Reply.toBuffers (rep : Reply) : List (List Byte) :=
  [statusBuffer rep.status] ++ rep.headers.flatMap headerBuffers ++ [MiscStrings.crlf, rep.content]

/-- A page of `stock_replies`: `title` and `heading` in the markup they share. -/
def stockPage (title heading : String) : List Byte :=
  bytes "<html>" ++ bytes "<head><title>" ++ bytes title ++ bytes "</title></head>" ++
    bytes "<body><h1>" ++ bytes heading ++ bytes "</h1></body>" ++ bytes "</html>"

/-- `stock_replies::to_string` -/
def stockContent : StatusType → List Byte
  | .ok => []
  | .created => stockPage "Created" "201 Created"
  | .accepted => stockPage "Accepted" "202 Accepted"
  | .no_content => stockPage "No Content" "204 Content"
  | .multiple_choices => stockPage "Multiple Choices" "300 Multiple Choices"
  | .moved_permanently => stockPage "Moved Permanently" "301 Moved Permanently"
  | .moved_temporarily => stockPage "Moved Temporarily" "302 Moved Temporarily"
  | .not_modified => stockPage "Not Modified" "304 Not Modified"
  | .bad_request => stockPage "Bad Request" "400 Bad Request"
  | .unauthorized => stockPage "Unauthorized" "401 Unauthorized"
  | .forbidden => stockPage "Forbidden" "403 Forbidden"
  | .not_found => stockPage "Not Found" "404 Not Found"
  | .internal_server_error => stockPage "Internal Server Error" "500 Internal Server Error"
  | .not_implemented => stockPage "Not Implemented" "501 Not Implemented"
  | .bad_gateway => stockPage "Bad Gateway" "502 Bad Gateway"
  | .service_unavailable => stockPage "Service Unavailable" "503 Service Unavailable"

/-- `boost::lexical_cast<std::string>(n)` -/
def lexicalCast (n : Nat) : List Byte := (Nat.toDigits 10 n).map chr

/-- `headers.resize(n)` -/
def resize (headers : List Header) (n : Nat) : List Header :=
  (headers ++ List.replicate n (⟨[], []⟩ : Header)).take n

/-- `headers.resize(2)`, and then the names and values of the two headers. -/
def setHeaders (rep : Reply) (contentType : List Byte) : Reply :=
  { rep with
    headers := ((resize rep.headers 2).set 0
      { name := bytes "Content-Length", value := lexicalCast rep.content.length }).set 1
      { name := bytes "Content-Type", value := contentType } }

def Reply.stockReply (status : StatusType) : Reply :=
  setHeaders { status := status, headers := [], content := stockContent status }
    (bytes "text/html")

/-- The table of `mime_types.cpp`. -/
def mappings : List (List Byte × List Byte) :=
  [(bytes "gif", bytes "image/gif"),
    (bytes "htm", bytes "text/html"),
    (bytes "html", bytes "text/html"),
    (bytes "jpg", bytes "image/jpeg"),
    (bytes "png", bytes "image/png"),
    (bytes "xml", bytes "text/xml"),
    (bytes "txt", bytes "text/plain")]

def extensionToType (extension : List Byte) : List Byte :=
  match mappings.find? (fun m => m.1 = extension) with
  | some m => m.2
  | none => bytes "text/plain"

/-- The number that a text of decimal digits denotes. -/
def decimalValue (text : List Byte) : Option Nat :=
  if text ≠ [] ∧ text.all (fun c => 48 ≤ c ∧ c ≤ 57) then
    some (text.foldl (fun n c => 10 * n + (c.toNat - 48)) 0)
  else none

/-- The bytes that are sent end in the content after their first empty line, and
the header with the length of the content is there once and says it. -/
def Reply.Framed (rep : Reply) : Prop :=
  (∃ head, SplitsAtEmptyLine 13 10 rep.toBuffers.flatten head rep.content) ∧
    ∃ before h after, rep.headers = before ++ h :: after ∧ h.name = bytes "Content-Length" ∧
      decimalValue h.value = some rep.content.length ∧
      ∀ h' ∈ before ++ after, h'.name ≠ bytes "Content-Length"

theorem setHeaders_headers (rep : Reply) (contentType : List Byte) :
    (setHeaders rep contentType).headers =
      [{ name := bytes "Content-Length", value := lexicalCast rep.content.length },
        { name := bytes "Content-Type", value := contentType }] := by
  cases hheaders : rep.headers with
  | nil => simp [setHeaders, resize, hheaders]
  | cons first rest =>
      cases rest <;> simp [setHeaders, resize, hheaders]

@[simp]
theorem setHeaders_content (rep : Reply) (contentType : List Byte) :
    (setHeaders rep contentType).content = rep.content := rfl

@[simp]
theorem setHeaders_status (rep : Reply) (contentType : List Byte) :
    (setHeaders rep contentType).status = rep.status := rfl

theorem digitChar_bytes {d : Nat} (h : d < 10) :
    48 ≤ chr d.digitChar ∧ chr d.digitChar ≤ 57 ∧ (chr d.digitChar).toNat - 48 = d := by
  revert h
  revert d
  decide

/-- What `lexical_cast` writes is read back as the same number. -/
theorem decimalValue_lexicalCast (n : Nat) : decimalValue (lexicalCast n) = some n := by
  have hdigits : (∀ c ∈ lexicalCast n, 48 ≤ c ∧ c ≤ 57) ∧
      (lexicalCast n).foldl (fun n c => 10 * n + (c.toNat - 48)) 0 = n := by
    induction n using Nat.strongRecOn with
    | ind n ih =>
        by_cases hsmall : n < 10
        · obtain ⟨hlow, hhigh, hvalue⟩ := digitChar_bytes hsmall
          rw [lexicalCast, Nat.toDigits_of_lt_base hsmall]
          simpa using ⟨⟨hlow, hhigh⟩, hvalue⟩
        · have hbase : 10 ≤ n := Nat.not_lt.mp hsmall
          obtain ⟨hrange, hfold⟩ := ih (n / 10) (by omega)
          obtain ⟨hlow, hhigh, hvalue⟩ := digitChar_bytes (Nat.mod_lt n (by decide : 10 > 0))
          have hsplit : lexicalCast n = lexicalCast (n / 10) ++ [chr (n % 10).digitChar] := by
            rw [lexicalCast, Nat.toDigits_of_base_le (by decide) hbase, List.map_append]
            rfl
          rw [hsplit, List.foldl_append, hfold]
          refine ⟨?_, ?_⟩
          · rw [List.forall_mem_append]
            exact ⟨hrange, by simpa using ⟨hlow, hhigh⟩⟩
          · simp only [List.foldl_cons, List.foldl_nil, hvalue]
            omega
  have hnonempty : lexicalCast n ≠ [] := by
    rw [lexicalCast, ne_eq, List.map_eq_nil_iff]
    exact Nat.toDigits_ne_nil
  rw [decimalValue, if_pos ⟨hnonempty, by simpa using hdigits.1⟩, hdigits.2]

/-- A header as one line of the reply. -/
def headerLine (h : Header) : List Byte := h.name ++ MiscStrings.nameValueSeparator ++ h.value

/-- The bytes that are sent: lines, an empty line and the content. -/
theorem toBuffers_flatten (rep : Reply) :
    rep.toBuffers.flatten =
      terminated 13 10 (statusLine rep.status :: rep.headers.map headerLine) ++ [13, 10] ++
        rep.content := by
  have hheaders : (rep.headers.flatMap headerBuffers).flatten =
      terminated 13 10 (rep.headers.map headerLine) := by
    induction rep.headers with
    | nil => rfl
    | cons h hs ih =>
        rw [List.flatMap_cons, List.flatten_append, ih, List.map_cons, terminated_cons]
        simp only [headerBuffers, headerLine, MiscStrings.crlf, List.flatten_cons, List.flatten_nil,
          List.append_nil, List.append_assoc, List.cons_append, List.nil_append]
  rw [Reply.toBuffers, List.flatten_append, List.flatten_append, hheaders, terminated_cons]
  simp only [statusBuffer, MiscStrings.crlf, List.flatten_cons, List.flatten_nil, List.append_nil,
    List.append_assoc, List.cons_append, List.nil_append]

theorem statusLine_isLine (status : StatusType) : IsLine 13 (statusLine status) := by
  cases status <;> exact ⟨by decide, by decide⟩

/-- A name and a value without CR make a line. -/
theorem headerLine_isLine {h : Header} (hname : 13 ∉ h.name) (hvalue : 13 ∉ h.value) :
    IsLine 13 (headerLine h) := by
  have hseparator : (13 : Byte) ∉ MiscStrings.nameValueSeparator := by decide
  constructor
  · simp [headerLine, MiscStrings.nameValueSeparator]
  · rw [headerLine, List.mem_append, List.mem_append]
    rintro ((h | h) | h)
    · exact hname h
    · exact hseparator h
    · exact hvalue h

theorem lexicalCast_no_cr (n : Nat) : 13 ∉ lexicalCast n := by
  intro h
  have hvalue := decimalValue_lexicalCast n
  rw [decimalValue] at hvalue
  split at hvalue
  case isTrue hdigits =>
    have hcr := of_decide_eq_true (List.all_eq_true.mp hdigits.2 13 h)
    exact absurd hcr.1 (by decide)
  case isFalse => cases hvalue

/-- A reply whose two headers are set is framed, when its type is one line. -/
theorem setHeaders_framed (rep : Reply) {contentType : List Byte} (htype : 13 ∉ contentType) :
    (setHeaders rep contentType).Framed := by
  constructor
  · have hlines : ∀ line ∈ statusLine rep.status ::
        (setHeaders rep contentType).headers.map headerLine, IsLine 13 line := by
      rw [setHeaders_headers]
      intro line hline
      simp only [List.map_cons, List.map_nil, List.mem_cons, List.not_mem_nil, or_false] at hline
      obtain rfl | rfl | rfl := hline
      · exact statusLine_isLine rep.status
      · have hname : 13 ∉ bytes "Content-Length" := by decide
        exact headerLine_isLine hname (lexicalCast_no_cr _)
      · have hname : 13 ∉ bytes "Content-Type" := by decide
        exact headerLine_isLine hname htype
    have hne : (13 : Byte) ≠ 10 := by decide
    obtain ⟨head, _, hsplit⟩ := terminated_splits hne (List.cons_ne_nil _ _) hlines
      rep.content
    refine ⟨head, ?_⟩
    rw [toBuffers_flatten]
    exact hsplit
  · refine ⟨[], _, [_], setHeaders_headers rep contentType, rfl, ?_, ?_⟩
    · exact decimalValue_lexicalCast _
    · intro h hmem
      rw [List.nil_append, List.mem_singleton] at hmem
      subst hmem
      have hname : bytes "Content-Type" ≠ bytes "Content-Length" := by decide
      exact hname

theorem stockReply_framed (status : StatusType) : (Reply.stockReply status).Framed :=
  setHeaders_framed _ (by decide)

/-- Every type of the table is one line. -/
theorem extensionToType_no_cr (extension : List Byte) : 13 ∉ extensionToType extension := by
  have htable : ∀ m ∈ mappings, 13 ∉ m.2 := by decide
  rw [extensionToType]
  split
  case h_1 m hm => exact htable m (List.mem_of_find?_eq_some hm)
  case h_2 => decide

end LearningCpp.Http
