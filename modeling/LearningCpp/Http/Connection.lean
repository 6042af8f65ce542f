import LearningCpp.Http.Parser

/-!
A connection of `ad_system/server3`: it parses what each read delivers and goes
on reading until the parser has a verdict. What it decides depends on the bytes
of the stream alone, not on the reads they arrive in.
-/

namespace LearningCpp.Http

open Library RequestParser

/-- What `handle_read` starts next. -/
inductive Decision where
  | handle_request (req : Request)
  | bad_request
  | async_read_some
  | destroyed
  deriving DecidableEq, Repr

structure Connection where
  buffer_ : List Byte
  request_ : Request
  request_parser_ : RequestParser
  deriving DecidableEq, Repr

namespace Connection

/-- A read puts its bytes at the front of `buffer_`. -/
def receive (c : Connection) (data : List Byte) : Connection :=
  {c with buffer_ := data ++ c.buffer_.drop data.length}

/-- `handle_read(e, bytes_transferred)` -/
def handle_read (c : Connection) (e : Bool) (bytes_transferred : Nat) : Decision × Connection :=
  if e then (.destroyed, c)
  else
    let (result, p, _) := parse ⟨c.request_parser_, c.request_⟩ (c.buffer_.take bytes_transferred)
    let read := {c with request_ := p.req, request_parser_ := p.parser}
    match result with
    | some true => (.handle_request p.req, read)
    | some false => (.bad_request, read)
    | none => (.async_read_some, read)

/-- The reads of a connection, one after the other, until it decides. -/
def serve (c : Connection) : List (List Byte) → Decision × Connection
  | [] => (.async_read_some, c)
  | data :: later =>
      match (c.receive data).handle_read false data.length with
      | (.async_read_some, c') => serve c' later
      | decided => decided

/-- What parsing a stretch of the stream decides. -/
def decision (p : Parsing) (input : List Byte) : Decision :=
  match parse p input with
  | (some true, p', _) => .handle_request p'.req
  | (some false, _, _) => .bad_request
  | (none, _, _) => .async_read_some

/-- The parser of a connection and its request. -/
def parsing (c : Connection) : Parsing := ⟨c.request_parser_, c.request_⟩

private theorem handle_read_eq (c : Connection) (data : List Byte) :
    ((c.receive data).handle_read false data.length).1 = decision c.parsing data ∧
      ((c.receive data).handle_read false data.length).2.parsing = (parse c.parsing data).2.1 := by
  have htake : (c.receive data).buffer_.take data.length = data := by
    rw [receive, List.take_left]
  simp only [handle_read, htake, Bool.false_eq_true, ↓reduceIte, decision]
  have hparsing : (⟨(c.receive data).request_parser_, (c.receive data).request_⟩ : Parsing) =
      c.parsing := rfl
  rw [hparsing]
  cases hparse : parse c.parsing data with
  | mk result p =>
      cases result with
      | none => exact ⟨rfl, rfl⟩
      | some result => cases result <;> exact ⟨rfl, rfl⟩

/-- Parsing goes on where it stopped without a verdict, and a verdict is final. -/
theorem parse_append (p : Parsing) (first second : List Byte) :
    parse p (first ++ second) =
      match parse p first with
      | (none, p', _) => parse p' second
      | (some result, p', rest) => (some result, p', rest ++ second) := by
  simp only [parse_eq_feed, feed_append]
  cases feed consume p first with
  | mk result reached =>
      cases result with
      | none => rfl
      | some result => rfl

private theorem serve_cons_of_read {c : Connection} {data : List Byte} (later : List (List Byte))
    (h : ((c.receive data).handle_read false data.length).1 = .async_read_some) :
    c.serve (data :: later) = ((c.receive data).handle_read false data.length).2.serve later := by
  cases hread : (c.receive data).handle_read false data.length with
  | mk decided c' =>
      rw [hread] at h
      obtain rfl : decided = .async_read_some := h
      simp only [serve, hread]

private theorem serve_cons_of_decided {c : Connection} {data : List Byte} (later : List (List Byte))
    (h : ((c.receive data).handle_read false data.length).1 ≠ .async_read_some) :
    c.serve (data :: later) = (c.receive data).handle_read false data.length := by
  cases hread : (c.receive data).handle_read false data.length with
  | mk decided c' =>
      rw [hread] at h
      cases decided with
      | async_read_some => exact absurd rfl h
      | _ => simp only [serve, hread]

/-- Whatever the reads, what is decided and what is in the request is what the
parser makes of the stream. -/
theorem serve_eq (c : Connection) (chunks : List (List Byte)) :
    (c.serve chunks).1 = decision c.parsing chunks.flatten ∧
      (c.serve chunks).2.parsing = (parse c.parsing chunks.flatten).2.1 := by
  induction chunks generalizing c with
  | nil => exact ⟨rfl, rfl⟩
  | cons data later ih =>
      obtain ⟨hdecision, hparsing⟩ := handle_read_eq c data
      have hsplit := parse_append c.parsing data later.flatten
      rw [List.flatten_cons]
      cases hparse : parse c.parsing data with
      | mk result reached =>
          obtain ⟨p', rest⟩ := reached
          rw [hparse] at hsplit hparsing
          simp only [decision, hparse] at hdecision
          cases result with
          | none =>
              obtain ⟨hlater, hlaterParsing⟩ :=
                ih ((c.receive data).handle_read false data.length).2
              rw [hparsing] at hlater hlaterParsing
              rw [serve_cons_of_read later hdecision, hlater, hlaterParsing, decision, decision,
                hsplit]
              exact ⟨rfl, rfl⟩
          | some result =>
              have hdecided : ((c.receive data).handle_read false data.length).1 ≠
                  .async_read_some := by
                rw [hdecision]
                cases result <;> exact fun h => Decision.noConfusion h
              rw [serve_cons_of_decided later hdecided, hdecision, hparsing, decision, hsplit]
              cases result <;> exact ⟨rfl, rfl⟩

/-- A connection decides the same, with the same request, however its stream is
cut into reads, and nothing that follows the bytes it has decided on changes it. -/
theorem serve_as_one_read (c : Connection) (chunks : List (List Byte)) :
    ((c.serve chunks).1 = (c.serve [chunks.flatten]).1 ∧
      (c.serve chunks).2.request_ = (c.serve [chunks.flatten]).2.request_ ∧
      (c.serve chunks).2.request_parser_ = (c.serve [chunks.flatten]).2.request_parser_) ∧
    ∀ more, (c.serve chunks).1 = .async_read_some ∨
      ((c.serve [chunks.flatten ++ more]).1 = (c.serve chunks).1 ∧
        (c.serve [chunks.flatten ++ more]).2.request_ = (c.serve chunks).2.request_) := by
  obtain ⟨hdecision, hparsing⟩ := serve_eq c chunks
  have hone (input : List Byte) : (c.serve [input]).1 = decision c.parsing input ∧
      (c.serve [input]).2.parsing = (parse c.parsing input).2.1 := by
    have h := serve_eq c [input]
    rwa [List.flatten_singleton] at h
  constructor
  · have hsame := hparsing.trans (hone chunks.flatten).2.symm
    exact ⟨hdecision.trans (hone _).1.symm, congrArg Parsing.req hsame,
      congrArg Parsing.parser hsame⟩
  · intro more
    have hsplit := parse_append c.parsing chunks.flatten more
    cases hparse : parse c.parsing chunks.flatten with
    | mk result reached =>
        obtain ⟨p', rest⟩ := reached
        rw [hparse] at hsplit hparsing
        simp only [decision, hparse] at hdecision
        cases result with
        | none => exact Or.inl hdecision
        | some result =>
            right
            have hsame : (c.serve [chunks.flatten ++ more]).2.parsing = (c.serve chunks).2.parsing := by
              rw [(hone _).2, hsplit, hparsing]
            refine ⟨?_, congrArg Parsing.req hsame⟩
            rw [(hone _).1, decision, hsplit, hdecision]
            cases result <;> rfl

end Connection

end LearningCpp.Http
