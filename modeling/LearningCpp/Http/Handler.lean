import LearningCpp.Http.Decode
import LearningCpp.Http.Reply
import Mathlib.Data.List.TakeWhile

/-!
`request_handler::handle_request` of `ad_system/server3`: from the URI to the
file that is opened, or to the worker that is asked, and to the reply.
-/

namespace LearningCpp.Http

open Library

/-- `c_str()` as a C function reads it: up to the first NUL. -/
def cString (s : List Byte) : List Byte := s.takeWhile (fun c => c ≠ 0)

/-- The content of the file that a C string names, or none when the stream that
is constructed with it is not good. -/
abbrev FileSystem := List Byte → Option (List Byte)

/-- The document root comes from a literal of `serverframe.cpp` or from `argv`,
so it holds no NUL. A worker is `NULL` until `setCoreWorker`; what it makes of a
path is the result of `Work` and what `Work` leaves in the string. -/
structure RequestHandler where
  doc_root_ : List Byte
  doc_root_cstring : 0 ∉ doc_root_
  coreWorker_ : Option (List Byte → Bool × List Byte)

/-- The reply, and the name that `std::ifstream` is constructed with, if one is. -/
structure Handled where
  rep : Reply
  opened : Option (List Byte)
  deriving DecidableEq, Repr

/-- `find_last_of(c)`; none is `npos`. -/
def findLastOf : List Byte → Byte → Option Nat
  | [], _ => none
  | d :: rest, c =>
      match findLastOf rest c with
      | some i => some (i + 1)
      | none => if d = c then some 0 else none

/-- What comes after the last dot, when that is after the last slash. -/
def extensionOf (path : List Byte) : List Byte :=
  match findLastOf path (chr '.'), findLastOf path (chr '/') with
  | some last_dot_pos, some last_slash_pos =>
      if last_slash_pos < last_dot_pos then path.drop (last_dot_pos + 1) else []
  | _, _ => []

/-- If the path ends in a slash, `index.html` is added. -/
def withIndex (path : List Byte) : List Byte :=
  if path.getLast? = some (chr '/') then path ++ bytes "index.html" else path

/-- `while (is.read(buf, sizeof(buf)).gcount() > 0) content.append(buf, is.gcount())`,
with what is left of the file. -/
def appendFile (file content : List Byte) : List Byte :=
  if _ : file.take 512 = [] then content
  else appendFile (file.drop 512) (content ++ file.take 512)
termination_by file.length
decreasing_by
  rename_i h
  simp only [List.take_eq_nil_iff, OfNat.ofNat_ne_zero, false_or] at h
  have hpos := List.length_pos_of_ne_nil h
  rw [List.length_drop]
  omega

/-- "Fill out the reply to be sent to the client." -/
def fillOut (rep : Reply) (extension : List Byte) : Reply :=
  setHeaders { rep with status := .ok } (extensionToType extension)

/-- A request path that is absolute and does not contain "..". -/
def AbsolutePath (path : List Byte) : Prop :=
  path.head? = some (chr '/') ∧ ¬ [chr '.', chr '.'] <:+: path

instance (path : List Byte) : Decidable (AbsolutePath path) :=
  inferInstanceAs (Decidable (_ ∧ _))

/-- The default types with a processing of their own: the worker is asked. -/
def Custom (defaultType : List Byte) : Prop :=
  defaultType = bytes "xml" ∨ defaultType = bytes "txt"

instance (defaultType : List Byte) : Decidable (Custom defaultType) :=
  inferInstanceAs (Decidable (_ ∨ _))

namespace RequestHandler

variable (handler : RequestHandler)

/-- The worker is asked for the content. Without a worker the call is undefined. -/
def askWorker (rep : Reply) (defaultType request_path : List Byte) : Option Handled :=
  match handler.coreWorker_ with
  | none => none
  | some work =>
      match work request_path with
      | (true, tmpResult) =>
          some {
            rep := fillOut { rep with content := rep.content ++ tmpResult } defaultType
            opened := none }
      | (false, _) => some { rep := Reply.stockReply .not_found, opened := none }

/-- The file of the request path is sent. -/
def sendFile (fs : FileSystem) (rep : Reply) (request_path : List Byte) : Handled :=
  let full_path := cString (handler.doc_root_ ++ request_path)
  match fs full_path with
  | none => { rep := Reply.stockReply .not_found, opened := some full_path }
  | some file =>
      { rep :=
          fillOut { rep with content := appendFile file rep.content } (extensionOf request_path)
        opened := some full_path }

/-- `handle_request(req, rep, defaultType)` -/
def handleRequest (fs : FileSystem) (req : Request) (rep : Reply) (defaultType : List Byte) :
    Option Handled :=
  match urlDecode req.uri with
  | (false, _) => some { rep := Reply.stockReply .bad_request, opened := none }
  | (true, request_path) =>
      if ¬ AbsolutePath request_path then
        some { rep := Reply.stockReply .bad_request, opened := none }
      else if Custom defaultType then
        handler.askWorker rep defaultType (withIndex request_path)
      else some (handler.sendFile fs rep (withIndex request_path))

end RequestHandler

theorem appendFile_eq (file content : List Byte) : appendFile file content = content ++ file := by
  induction file, content using appendFile.induct with
  | case1 file content h =>
      simp only [List.take_eq_nil_iff, OfNat.ofNat_ne_zero, false_or] at h
      rw [appendFile, dif_pos (by simp [h]), h, List.append_nil]
  | case2 file content h ih =>
      rw [appendFile, dif_neg h, ih, List.append_assoc, List.take_append_drop]

theorem cString_eq_self_iff (s : List Byte) : cString s = s ↔ 0 ∉ s := by
  rw [cString, List.takeWhile_eq_self_iff]
  constructor
  · intro h hzero
    simpa using h 0 hzero
  · intro h c hc
    simpa using fun hzero : c = 0 => h (hzero ▸ hc)

/-- A name is cut at its first NUL. -/
theorem cString_append {s : List Byte} (h : 0 ∉ s) (t : List Byte) :
    cString (s ++ t) = s ++ cString t := by
  rw [cString, List.takeWhile_append_of_pos]
  · rfl
  · intro c hc
    simpa using fun hzero : c = 0 => h (hzero ▸ hc)

theorem cString_isPrefix (s : List Byte) : cString s <+: s := List.takeWhile_prefix _

/-- `index.html` adds no "..", because it comes after a slash. -/
theorem AbsolutePath.withIndex {path : List Byte} (h : AbsolutePath path) :
    AbsolutePath (withIndex path) := by
  rw [Http.withIndex]
  split
  case isFalse => exact h
  case isTrue hlast =>
    refine ⟨?_, ?_⟩
    · rw [List.head?_append, h.1]
      rfl
    · intro hdots
      rcases List.infix_append_iff_ne_nil.mp hdots with hpath | hindex | hseam
      · exact h.2 hpath
      · exact absurd hindex (by decide)
      · -- the second dot would be the first letter of `index.html`
        obtain ⟨first, second, _, hsecond, hpair, _, rest, hrest⟩ := hseam
        obtain ⟨c, second, rfl⟩ := List.exists_cons_of_ne_nil hsecond
        have hdot : c ∈ [chr '.', chr '.'] := by
          rw [hpair]
          exact List.mem_append_right first List.mem_cons_self
        have hindex : some c = (bytes "index.html").head? := by
          rw [← hrest]
          rfl
        simp only [List.mem_cons, List.not_mem_nil, or_false, or_self] at hdot
        subst hdot
        exact absurd hindex (by decide)

theorem AbsolutePath.cString {path : List Byte} (h : AbsolutePath path) :
    AbsolutePath (cString path) := by
  obtain ⟨hhead, hdots⟩ := h
  refine ⟨?_, fun hcut => hdots (hcut.trans (cString_isPrefix path).isInfix)⟩
  cases path with
  | nil => cases hhead
  | cons c path =>
      cases hhead
      have hslash : chr '/' ≠ 0 := by decide
      rw [Http.cString, List.takeWhile_cons_of_pos (by simpa using hslash)]
      rfl

namespace RequestHandler

variable {handler : RequestHandler} {fs : FileSystem} {req : Request} {rep : Reply}
  {defaultType : List Byte} {out : Handled}

/-- What `handle_request` can do: refuse the URI, ask the worker or send a file. -/
theorem handleRequest_cases (h : handler.handleRequest fs req rep defaultType = some out) :
    out = { rep := Reply.stockReply .bad_request, opened := none } ∨
      ∃ path, urlDecode req.uri = (true, path) ∧ AbsolutePath path ∧
        (Custom defaultType ∧ handler.askWorker rep defaultType (withIndex path) = some out ∨
          ¬ Custom defaultType ∧ out = handler.sendFile fs rep (withIndex path)) := by
  unfold handleRequest at h
  split at h
  case h_1 =>
    cases h
    exact Or.inl rfl
  case h_2 path hpath =>
    split at h
    case isTrue =>
      cases h
      exact Or.inl rfl
    case isFalse habsolute =>
      refine Or.inr ⟨path, hpath, not_not.mp habsolute, ?_⟩
      split at h
      case isTrue hcustom => exact Or.inl ⟨hcustom, h⟩
      case isFalse hcustom =>
        cases h
        exact Or.inr ⟨hcustom, rfl⟩

private theorem askWorker_opened {path : List Byte}
    (h : handler.askWorker rep defaultType path = some out) : out.opened = none := by
  unfold askWorker at h
  split at h
  case h_1 => cases h
  case h_2 =>
    split at h <;>
      · cases h
        rfl

private theorem sendFile_opened (path : List Byte) :
    (handler.sendFile fs rep path).opened = some (handler.doc_root_ ++ cString path) := by
  unfold sendFile
  simp only [cString_append handler.doc_root_cstring]
  split <;> rfl

/-- A name that is opened is the document root and an absolute path without "..". -/
theorem opened_confined (h : handler.handleRequest fs req rep defaultType = some out)
    {name : List Byte} (hopened : out.opened = some name) :
    ∃ rest, name = handler.doc_root_ ++ rest ∧ rest.head? = some (chr '/') ∧
      ¬ [chr '.', chr '.'] <:+: rest := by
  rcases handleRequest_cases h with rfl | ⟨path, _, habsolute, ⟨_, hask⟩ | ⟨_, rfl⟩⟩
  · cases hopened
  · rw [askWorker_opened hask] at hopened
    cases hopened
  · rw [sendFile_opened] at hopened
    cases hopened
    exact ⟨cString (withIndex path), rfl, habsolute.withIndex.cString⟩

/-- `./wwwroot/` is answered with `./wwwroot/index.html`. -/
theorem opened_confined_index :
    ∃ rest, bytes "./wwwroot/index.html" = bytes "./wwwroot" ++ rest ∧
      rest.head? = some (chr '/') ∧ ¬ [chr '.', chr '.'] <:+: rest :=
  @opened_confined ⟨bytes "./wwwroot", by decide, none⟩ (fun _ => none)
    ⟨bytes "GET", bytes "/", 1, 0, []⟩ ⟨.ok, [], []⟩ []
    ⟨Reply.stockReply .not_found, some (bytes "./wwwroot/index.html")⟩ (by decide +kernel) _ rfl

/-- The bytes that are sent are those of the file with the name `name`, and the
`Content-Type` is the type of its extension. -/
def SendsFile (fs : FileSystem) (rep : Reply) (name : List Byte) (out : Handled) : Prop :=
  out.opened = some name ∧
    (∃ file, fs name = some file ∧ out.rep.content = rep.content ++ file) ∧
    ∃ length, out.rep.headers =
      [length, { name := bytes "Content-Type", value := extensionToType (extensionOf name) }]

end RequestHandler

theorem findLastOf_append_some {t : List Byte} {c : Byte} {i : Nat} (h : findLastOf t c = some i)
    (s : List Byte) : findLastOf (s ++ t) c = some (s.length + i) := by
  induction s with
  | nil => rw [List.nil_append, h, List.length_nil, Nat.zero_add]
  | cons d s ih =>
      rw [List.cons_append, findLastOf, ih, List.length_cons]
      simp only [Option.some.injEq]
      omega

private theorem findLastOf_append_none {t : List Byte} {c : Byte} (h : findLastOf t c = none)
    (s : List Byte) : findLastOf (s ++ t) c = findLastOf s c := by
  induction s with
  | nil => exact h
  | cons d s ih => rw [List.cons_append, findLastOf, ih, findLastOf]

private theorem findLastOf_lt {s : List Byte} {c : Byte} {i : Nat} (h : findLastOf s c = some i) :
    i < s.length := by
  induction s generalizing i with
  | nil => cases h
  | cons d s ih =>
      rw [findLastOf] at h
      cases hrest : findLastOf s c with
      | some j =>
          simp only [hrest, Option.some.injEq] at h
          have hj := ih hrest
          rw [List.length_cons]
          omega
      | none =>
          simp only [hrest] at h
          split at h
          · cases h
            exact Nat.succ_pos s.length
          · cases h

private theorem exists_findLastOf {s : List Byte} {c : Byte} (h : c ∈ s) :
    ∃ i, findLastOf s c = some i := by
  induction s with
  | nil => cases h
  | cons d s ih =>
      rw [findLastOf]
      cases hrest : findLastOf s c with
      | some i => exact ⟨i + 1, rfl⟩
      | none =>
          rcases List.mem_cons.mp h with rfl | hmem
          · exact ⟨0, by simp⟩
          · obtain ⟨i, hi⟩ := ih hmem
            rw [hrest] at hi
            cases hi

/-- The extension is that of the last component of a path. -/
theorem extensionOf_append {t : List Byte} (hslash : chr '/' ∈ t) (s : List Byte) :
    extensionOf (s ++ t) = extensionOf t := by
  obtain ⟨slash, hlast⟩ := exists_findLastOf hslash
  have hlastAll := findLastOf_append_some hlast s
  cases hdot : findLastOf t (chr '.') with
  | some dot =>
      have hdotAll := findLastOf_append_some hdot s
      simp only [extensionOf, hlast, hlastAll, hdot, hdotAll, Nat.add_lt_add_iff_left]
      have hdrop : (s ++ t).drop (s.length + dot + 1) = t.drop (dot + 1) := by
        rw [Nat.add_assoc, List.drop_length_add_append]
      rw [hdrop]
  | none =>
      have hdotAll := findLastOf_append_none hdot s
      cases hbefore : findLastOf s (chr '.') with
      | none => simp only [extensionOf, hlastAll, hdotAll, hbefore, hdot, hlast]
      | some dot =>
          -- the last dot of the whole is in `s`, before the slash in `t`
          have hlt := findLastOf_lt hbefore
          have hnot : ¬ s.length + slash < dot := by omega
          simp only [extensionOf, hlastAll, hdotAll, hbefore, hdot, hlast, if_neg hnot]

private theorem zero_mem_withIndex (path : List Byte) : 0 ∈ withIndex path ↔ 0 ∈ path := by
  have hindex : (0 : Byte) ∉ bytes "index.html" := by decide
  rw [withIndex]
  split
  case isTrue => rw [List.mem_append, or_iff_left hindex]
  case isFalse => rfl

theorem AbsolutePath.slash_mem {path : List Byte} (h : AbsolutePath path) : chr '/' ∈ path :=
  List.mem_of_mem_head? h.1

namespace RequestHandler

variable {handler : RequestHandler} {fs : FileSystem} {req : Request} {rep : Reply}
  {defaultType : List Byte} {out : Handled}

theorem sendFile_none {path : List Byte} (h : fs (handler.doc_root_ ++ cString path) = none) :
    handler.sendFile fs rep path =
      ⟨Reply.stockReply .not_found, some (handler.doc_root_ ++ cString path)⟩ := by
  simp only [sendFile, cString_append handler.doc_root_cstring, h]

theorem sendFile_some {path file : List Byte}
    (h : fs (handler.doc_root_ ++ cString path) = some file) :
    handler.sendFile fs rep path =
      ⟨fillOut { rep with content := rep.content ++ file } (extensionOf path),
        some (handler.doc_root_ ++ cString path)⟩ := by
  simp only [sendFile, cString_append handler.doc_root_cstring, h, appendFile_eq]

/-- A request that is answered with a file: the URI is decoded and the file is
found under the name that is cut at the first NUL. -/
theorem handleRequest_ok (h : handler.handleRequest fs req rep defaultType = some out)
    (hstatic : ¬ Custom defaultType) (hok : out.rep.status = .ok) :
    ∃ path file, urlDecode req.uri = (true, path) ∧ AbsolutePath path ∧
      fs (handler.doc_root_ ++ cString (withIndex path)) = some file ∧
      out = ⟨fillOut { rep with content := rep.content ++ file } (extensionOf (withIndex path)),
        some (handler.doc_root_ ++ cString (withIndex path))⟩ := by
  rcases handleRequest_cases h with rfl | ⟨path, hdecode, habsolute, ⟨hcustom, _⟩ | ⟨_, rfl⟩⟩
  · cases hok
  · exact absurd hcustom hstatic
  · cases hfile : fs (handler.doc_root_ ++ cString (withIndex path)) with
    | none =>
        rw [sendFile_none hfile] at hok
        cases hok
    | some file => exact ⟨path, file, hdecode, habsolute, hfile, sendFile_some hfile⟩

theorem handleRequest_file {path file : List Byte} (hdecode : urlDecode req.uri = (true, path))
    (habsolute : AbsolutePath path) (hstatic : ¬ Custom defaultType)
    (hfile : fs (handler.doc_root_ ++ cString (withIndex path)) = some file) :
    handler.handleRequest fs req rep defaultType =
      some ⟨fillOut { rep with content := rep.content ++ file } (extensionOf (withIndex path)),
        some (handler.doc_root_ ++ cString (withIndex path))⟩ := by
  rw [← sendFile_some hfile]
  simp only [handleRequest, hdecode, habsolute, hstatic, not_true_eq_false, if_false]

/-- The file that is sent is the one that the request path names, with the type
of its extension, exactly when the decoded URI holds no NUL. -/
theorem sends_named_file_iff (h : handler.handleRequest fs req rep defaultType = some out)
    (hstatic : ¬ Custom defaultType) (hok : out.rep.status = .ok) :
    SendsFile fs rep (handler.doc_root_ ++ withIndex (urlDecode req.uri).2) out ↔
      0 ∉ (urlDecode req.uri).2 := by
  obtain ⟨path, file, hdecode, habsolute, hfile, rfl⟩ := handleRequest_ok h hstatic hok
  rw [hdecode, ← zero_mem_withIndex, ← cString_eq_self_iff]
  constructor
  · intro hsends
    exact List.append_cancel_left (Option.some.inj hsends.1)
  · intro hcut
    rw [hcut] at hfile
    refine ⟨by rw [hcut], ⟨file, hfile, rfl⟩, ?_⟩
    rw [extensionOf_append habsolute.withIndex.slash_mem handler.doc_root_]
    exact ⟨_, setHeaders_headers _ _⟩

/-- `/a.txt` sends `./wwwroot/a.txt`. -/
theorem sends_named_file_text :
    ∃ out, handleRequest ⟨bytes "./wwwroot", by decide, none⟩ (fun _ => some (bytes "hello"))
        ⟨bytes "GET", bytes "/a.txt", 1, 0, []⟩ ⟨.ok, [], []⟩ (bytes "html") = some out ∧
      SendsFile (fun _ => some (bytes "hello")) ⟨.ok, [], []⟩
        (bytes "./wwwroot" ++ withIndex (urlDecode (bytes "/a.txt")).2) out := by
  have hdecode : urlDecode (bytes "/a.txt") = (true, bytes "/a.txt") := by decide +kernel
  have habsolute : AbsolutePath (bytes "/a.txt") := by decide
  have hstatic : ¬ Custom (bytes "html") := by decide
  have h := @handleRequest_file ⟨bytes "./wwwroot", by decide, none⟩
    (fun _ => some (bytes "hello")) ⟨bytes "GET", bytes "/a.txt", 1, 0, []⟩ ⟨.ok, [], []⟩
    (bytes "html") (bytes "/a.txt") (bytes "hello") hdecode habsolute hstatic rfl
  exact ⟨_, h, (sends_named_file_iff h hstatic rfl).mpr (by decide +kernel)⟩

theorem urlDecode_nul : urlDecode (bytes "/a.txt%00.html") =
    (true, bytes "/a.txt" ++ 0 :: bytes ".html") := by decide +kernel

/-- `/a.txt%00.html` sends the text file `./wwwroot/a.txt` as `text/html`. -/
theorem sends_file_behind_nul :
    ∃ out, handleRequest ⟨bytes "./wwwroot", by decide, none⟩
        (fun name => if name = bytes "./wwwroot/a.txt" then some (bytes "hello") else none)
        ⟨bytes "GET", bytes "/a.txt%00.html", 1, 0, []⟩ ⟨.ok, [], []⟩ (bytes "html") = some out ∧
      out.rep.status = .ok ∧ out.opened = some (bytes "./wwwroot/a.txt") ∧
      out.rep.headers.map Header.value = [bytes "5", bytes "text/html"] ∧
      extensionToType (extensionOf (bytes "./wwwroot/a.txt")) = bytes "text/plain" ∧
      out.opened ≠ some (bytes "./wwwroot" ++
        withIndex (urlDecode (bytes "/a.txt%00.html")).2) := by
  have habsolute : AbsolutePath (bytes "/a.txt" ++ 0 :: bytes ".html") := by decide
  have hstatic : ¬ Custom (bytes "html") := by decide
  have h := @handleRequest_file ⟨bytes "./wwwroot", by decide, none⟩
    (fun name => if name = bytes "./wwwroot/a.txt" then some (bytes "hello") else none)
    ⟨bytes "GET", bytes "/a.txt%00.html", 1, 0, []⟩ ⟨.ok, [], []⟩ (bytes "html") _
    (bytes "hello") urlDecode_nul habsolute hstatic (by decide +kernel)
  refine ⟨_, h, rfl, ?_, ?_, by decide +kernel, ?_⟩
  · decide +kernel
  · decide +kernel
  · rw [urlDecode_nul]
    decide +kernel

theorem fillOut_framed (rep : Reply) (extension : List Byte) : (fillOut rep extension).Framed :=
  setHeaders_framed _ (extensionToType_no_cr extension)

private theorem askWorker_framed {path : List Byte}
    (h : handler.askWorker rep defaultType path = some out) : out.rep.Framed := by
  unfold askWorker at h
  split at h
  case h_1 => cases h
  case h_2 =>
    split at h
    case h_1 =>
      cases h
      exact fillOut_framed _ _
    case h_2 =>
      cases h
      exact stockReply_framed .not_found

private theorem sendFile_framed (path : List Byte) : (handler.sendFile fs rep path).rep.Framed := by
  cases hfile : fs (handler.doc_root_ ++ cString path) with
  | none =>
      rw [sendFile_none hfile]
      exact stockReply_framed .not_found
  | some file =>
      rw [sendFile_some hfile]
      exact fillOut_framed _ _

private theorem handleRequest_framed (h : handler.handleRequest fs req rep defaultType = some out) :
    out.rep.Framed := by
  rcases handleRequest_cases h with rfl | ⟨path, _, _, ⟨_, hask⟩ | ⟨_, rfl⟩⟩
  · exact stockReply_framed .bad_request
  · exact askWorker_framed hask
  · exact sendFile_framed (withIndex path)

/-- With a worker, `handle_request` always makes a reply. -/
theorem handleRequest_isSome (hworker : handler.coreWorker_.isSome) :
    (handler.handleRequest fs req rep defaultType).isSome := by
  obtain ⟨work, hwork⟩ := Option.isSome_iff_exists.mp hworker
  have hask : ∀ path, (handler.askWorker rep defaultType path).isSome := by
    intro path
    unfold askWorker
    rw [hwork]
    cases hresult : work path with
    | mk found tmpResult => cases found <;> simp only [hresult, Option.isSome_some]
  unfold handleRequest
  split
  case h_1 => rfl
  case h_2 path _ =>
    split
    case isTrue => rfl
    case isFalse =>
      split
      case isTrue => exact hask (withIndex path)
      case isFalse => rfl

/-- Every reply of the server is framed: the stock replies, and what
`handle_request` makes of any file and of any result of the worker. -/
theorem replies_framed (hworker : handler.coreWorker_.isSome) :
    (∀ status, (Reply.stockReply status).Framed) ∧
      ∃ out, handler.handleRequest fs req rep defaultType = some out ∧ out.rep.Framed := by
  refine ⟨stockReply_framed, ?_⟩
  obtain ⟨out, hout⟩ := Option.isSome_iff_exists.mp
    (@handleRequest_isSome handler fs req rep defaultType hworker)
  exact ⟨out, hout, handleRequest_framed hout⟩

/-- A worker whose result looks like the end of the headers. -/
theorem replies_framed_crlf :
    (∀ status, (Reply.stockReply status).Framed) ∧
      ∃ out, handleRequest ⟨bytes "./wwwroot", by decide, some fun _ => (true, [13, 10, 13, 10])⟩
        (fun _ => none) ⟨bytes "GET", bytes "/", 1, 0, []⟩ ⟨.ok, [], []⟩ (bytes "txt") = some out ∧
        out.rep.Framed :=
  replies_framed rfl

end RequestHandler

end LearningCpp.Http
