import LearningCpp.Http.Residual

/-!
The parser decides the grammar: the texts that its initial state stands for are
the sentences, each with the request it spells out.
-/

namespace LearningCpp.Http

open Library RequestParser

private theorem lines_of_continuations (cs : List Continuation) {req r : Request} {w : List Byte}
    (hne : req.headers ≠ []) (h : Lines (req.addText (cs.flatMap Continuation.text)) w r) :
    Lines req (cs.flatMap Continuation.bytes ++ w) r := by
  induction cs generalizing req with
  | nil =>
      rw [List.flatMap_nil, Request.addText_nil] at h
      exact h
  | cons c cs ih =>
      rw [List.flatMap_cons, ← Request.addText_addText] at h
      rw [List.flatMap_cons, List.append_assoc]
      exact .continued hne c (ih (Request.addText_headers_ne_nil hne) h)

private theorem lines_of_headerLines (ls : List HeaderLine) (req : Request) :
    Lines req (ls.flatMap HeaderLine.bytes ++ crlf) (req.addHeaders (ls.map HeaderLine.header)) := by
  induction ls generalizing req with
  | nil =>
      rw [List.map_nil, Request.addHeaders_nil]
      exact .done req
  | cons l ls ih =>
      have hrest : Lines (req.addHeader ⟨l.name, l.value⟩)
          (l.continuations.flatMap Continuation.bytes ++ (ls.flatMap HeaderLine.bytes ++ crlf))
          (req.addHeaders ((l :: ls).map HeaderLine.header)) := by
        apply lines_of_continuations _ (Request.addHeader_headers_ne_nil req _)
        rw [Request.addHeader_addText, List.map_cons, ← Request.addHeader_addHeaders]
        exact ih _
      have hlines := Lines.line l.name_ne_nil l.name_token l.value_textByte hrest
      simpa [HeaderLine.bytes, crlf] using hlines

/-- Every text of the header lines splits into continuations of the last line
there is and header lines of its own. -/
theorem headerLines_of_lines {req r : Request} {w : List Byte} (h : Lines req w r) :
    ∃ (cs : List Continuation) (ls : List HeaderLine),
      w = cs.flatMap Continuation.bytes ++ ls.flatMap HeaderLine.bytes ++ crlf ∧
        (req.headers = [] → cs = []) ∧
        r = (req.addText (cs.flatMap Continuation.text)).addHeaders
          (ls.map HeaderLine.header) := by
  induction h with
  | done req => exact ⟨[], [], rfl, fun _ => rfl, by
      rw [List.flatMap_nil, Request.addText_nil, List.map_nil, Request.addHeaders_nil]⟩
  | @line req r name value w hne hname hvalue _ ih =>
      obtain ⟨cs, ls, rfl, -, rfl⟩ := ih
      let l : HeaderLine :=
        { name := name, value := value, continuations := cs, name_ne_nil := hne
          name_token := hname, value_textByte := hvalue }
      refine ⟨[], l :: ls, ?_, fun _ => rfl, ?_⟩
      · simp [HeaderLine.bytes, crlf, l]
      · rw [Request.addHeader_addText, Request.addHeader_addHeaders, List.flatMap_nil,
          Request.addText_nil]
        rfl
  | @continued req r w hheaders c _ ih =>
      obtain ⟨cs, ls, rfl, -, rfl⟩ := ih
      refine ⟨c :: cs, ls, ?_, fun hnil => absurd hnil hheaders, ?_⟩
      · simp only [List.flatMap_cons, List.append_assoc]
      · rw [Request.addText_addText, List.flatMap_cons]

/-- What the parser makes of a sentence. -/
def Sentence.request (s : Sentence) : Request :=
  { method := s.method, uri := s.uri
    http_version_major := s.major.foldl addDigit 0
    http_version_minor := s.minor.foldl addDigit 0
    headers := s.lines.map HeaderLine.header }

theorem rest_iff_sentence (major minor : Int32) (w : List Byte) (r : Request) :
    rest ⟨.new, .fresh major minor⟩ w r ↔ ∃ s : Sentence, s.bytes = w ∧ s.request = r := by
  constructor
  · intro h
    change methodStart _ w r at h
    obtain ⟨method, _, rfl, hmethodNe, hmethod, _, rfl, uri, _, rfl, huri, _, rfl, _, rfl, _, rfl, _,
      rfl, _, rfl, _, rfl, hmajor⟩ := (many1_iff _ _ _ _).mp h
    obtain ⟨majorDigits, _, rfl, hmajorNe, hmajorDigit, _, rfl, hminor⟩ :=
      (many1_iff _ _ _ _).mp hmajor
    obtain ⟨minorDigits, _, rfl, hminorNe, hminorDigit, _, rfl, v, rfl, hlines⟩ :=
      (many1_iff _ _ _ _).mp hminor
    obtain ⟨cs, ls, rfl, hcs, rfl⟩ := headerLines_of_lines hlines
    obtain rfl := hcs rfl
    let s : Sentence :=
      { method := method, uri := uri, major := majorDigits, minor := minorDigits, lines := ls
        method_ne_nil := hmethodNe, method_token := hmethod, uri_uriByte := huri
        major_ne_nil := hmajorNe, major_digit := hmajorDigit
        minor_ne_nil := hminorNe, minor_digit := hminorDigit }
    refine ⟨s, ?_, ?_⟩
    · simp [Sentence.bytes, s, crlf]
    · rw [List.flatMap_nil, Request.addText_nil]
      rfl
  · rintro ⟨s, rfl, rfl⟩
    have hlines := lines_of_headerLines s.lines
      { method := s.method, uri := s.uri, http_version_major := s.major.foldl addDigit 0
        http_version_minor := s.minor.foldl addDigit 0, headers := [] }
    change methodStart _ s.bytes s.request
    refine (many1_iff _ _ _ _).mpr ⟨s.method, _, ?_, s.method_ne_nil, s.method_token, _, rfl, s.uri,
      _, rfl, s.uri_uriByte, _, rfl, _, rfl, _, rfl, _, rfl, _, rfl, _, rfl, (many1_iff _ _ _ _).mpr
      ⟨s.major, _, rfl, s.major_ne_nil, s.major_digit, _, rfl, (many1_iff _ _ _ _).mpr
      ⟨s.minor, _, rfl, s.minor_ne_nil, s.minor_digit, _, rfl, _, rfl, hlines⟩⟩⟩
    simp [Sentence.bytes, crlf]

theorem isSentence_iff (major minor : Int32) (w : List Byte) :
    (∃ r, rest ⟨.new, .fresh major minor⟩ w r) ↔ IsSentence w := by
  constructor
  · rintro ⟨r, h⟩
    obtain ⟨s, hs, _⟩ := (rest_iff_sentence major minor w r).mp h
    exact ⟨s, hs⟩
  · rintro ⟨s, rfl⟩
    exact ⟨s.request, (rest_iff_sentence major minor _ _).mpr ⟨s, rfl, rfl⟩⟩

private theorem canComplete_iff (major minor : Int32) (w : List Byte) :
    (∃ more r, rest ⟨.new, .fresh major minor⟩ (w ++ more) r) ↔ CanComplete w :=
  exists_congr fun more => isSentence_iff major minor (w ++ more)

/-- From its initial state the parser accepts at the byte that completes a
sentence, with the request that the sentence spells out; it refuses at the first
byte after which no sentence can be completed, and is undecided otherwise. -/
theorem parse_recognizes (major minor : Int32) (input rest : List Byte) :
    (∀ s : Sentence, ∃ p, parse ⟨.new, .fresh major minor⟩ (s.bytes ++ rest) = (some true, p, rest) ∧
      p.req.method = s.method ∧ p.req.uri = s.uri ∧
        p.req.headers = s.lines.map HeaderLine.header) ∧
    ((∃ p, parse ⟨.new, .fresh major minor⟩ input = (some true, p, rest)) ↔
      ∃ w, IsSentence w ∧ input = w ++ rest) ∧
    ((∃ p, parse ⟨.new, .fresh major minor⟩ input = (some false, p, rest)) ↔
      ∃ w b, input = w ++ b :: rest ∧ ¬ IsSentence w ∧ CanComplete w ∧ ¬ CanComplete (w ++ [b])) ∧
    ((∃ p, parse ⟨.new, .fresh major minor⟩ input = (none, p, [])) ↔
      ¬ IsSentence input ∧ CanComplete input) := by
  simp only [parse_eq_feed]
  refine ⟨?_, ?_, ?_, ?_⟩
  · intro s
    obtain ⟨p, hfeed, hreq⟩ := consume_decides.feed_of_mem
      ((rest_iff_sentence major minor s.bytes s.request).mpr ⟨s, rfl, rfl⟩) rest
    exact ⟨p, hfeed, by rw [hreq]; rfl, by rw [hreq]; rfl, by rw [hreq]; rfl⟩
  · constructor
    · rintro ⟨p, hfeed⟩
      obtain ⟨w, hinput, hw⟩ := consume_decides.mem_of_feed hfeed
      exact ⟨w, (isSentence_iff major minor w).mp ⟨_, hw⟩, hinput⟩
    · rintro ⟨w, hw, rfl⟩
      obtain ⟨r, hr⟩ := (isSentence_iff major minor w).mpr hw
      obtain ⟨p, hfeed, _⟩ := consume_decides.feed_of_mem hr rest
      exact ⟨p, hfeed⟩
  · simp only [consume_decides.feed_refuses_iff, isSentence_iff, CanComplete, List.append_assoc,
      List.singleton_append]
  · rw [← isSentence_iff major minor, ← canComplete_iff major minor,
      ← consume_decides.feed_undecided_iff]
    constructor
    · rintro ⟨p, hfeed⟩
      rw [hfeed]
    · intro hnone
      have hrest := feed_rest_of_none (Prod.ext hnone rfl)
      exact ⟨_, Prod.ext hnone (Prod.ext rfl hrest)⟩

end LearningCpp.Http
