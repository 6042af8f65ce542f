import LearningCpp.Library.Recognizer

/-!
The request parser of `ad_system/server3`: a state machine over the bytes of a
request that fills in the request as it goes. `char` is signed, so the bytes
from 128 on reach the tests of `request_parser.cpp` as negative numbers.
-/

namespace LearningCpp.Http

open Library

abbrev Byte := UInt8

/-- A `char` as the `int` it is promoted to. -/
def toInt (input : Byte) : Int := input.toInt8.toInt

/-- A character of the source text. -/
def chr (c : Char) : Byte := c.toUInt8

structure Header where
  name : List Byte
  value : List Byte
  deriving DecidableEq, Repr

structure Request where
  method : List Byte
  uri : List Byte
  http_version_major : Int32
  http_version_minor : Int32
  headers : List Header
  deriving DecidableEq, Repr

namespace Request

/-- A request as it is constructed: its two version numbers are not initialised. -/
def fresh (major minor : Int32) : Request :=
  { method := [], uri := [], http_version_major := major, http_version_minor := minor
    headers := [] }

/-- `headers.back().name.push_back(c)` -/
def pushName (req : Request) (c : Byte) : Request :=
  {req with headers := req.headers.modifyLast (fun h => {h with name := h.name ++ [c]})}

/-- `headers.back().value.push_back(c)` -/
def pushValue (req : Request) (c : Byte) : Request :=
  {req with headers := req.headers.modifyLast (fun h => {h with value := h.value ++ [c]})}

end Request

/-- `boost::tribool`; `none` is `indeterminate`. -/
abbrev Tribool := Option Bool

inductive State where
  | method_start
  | method
  | uri
  | http_version_h
  | http_version_t_1
  | http_version_t_2
  | http_version_p
  | http_version_slash
  | http_version_major_start
  | http_version_major
  | http_version_minor_start
  | http_version_minor
  | expecting_newline_1
  | header_line_start
  | header_lws
  | header_name
  | space_before_header_value
  | header_value
  | expecting_newline_2
  | expecting_newline_3
  deriving DecidableEq, Repr

def is_char (c : Int) : Bool := 0 ≤ c && c ≤ 127

def is_ctl (c : Int) : Bool := (0 ≤ c && c ≤ 31) || c = 127

def is_tspecial (c : Int) : Bool :=
  c ∈ ['(', ')', '<', '>', '@', ',', ';', ':', '\\', '"', '/', '[', ']', '?', '=', '\x7b',
    '\x7d', ' ', '\t'].map (fun t => toInt (chr t))

def is_digit (c : Int) : Bool := toInt (chr '0') ≤ c && c ≤ toInt (chr '9')

/-- `n * 10 + input - '0'` -/
def addDigit (n : Int32) (input : Byte) : Int32 := n * 10 + input.toInt8.toInt32 - 48

structure RequestParser where
  state_ : State
  deriving DecidableEq, Repr

namespace RequestParser

/-- `request_parser()` and `reset()` -/
def new : RequestParser := ⟨.method_start⟩

/-- The parser and the request it fills in. -/
structure Parsing where
  parser : RequestParser
  req : Request
  deriving DecidableEq, Repr

namespace Parsing

/-- Go on in `state` with `req`. -/
def goOn (state : State) (req : Request) : Tribool × Parsing := (none, ⟨⟨state⟩, req⟩)

def refuse (p : Parsing) : Tribool × Parsing := (some false, p)

end Parsing

open Parsing

/-- `state_ = next` on the one character that may stand here. -/
def expect (p : Parsing) (c input : Byte) (next : State) : Tribool × Parsing :=
  if input = c then goOn next p.req else p.refuse

def consume (p : Parsing) (input : Byte) : Tribool × Parsing :=
  let req := p.req
  let c := toInt input
  match p.parser.state_ with
  | .method_start =>
      if !is_char c || is_ctl c || is_tspecial c then p.refuse
      else goOn .method {req with method := req.method ++ [input]}
  | .method =>
      if input = chr ' ' then goOn .uri req
      else if !is_char c || is_ctl c || is_tspecial c then p.refuse
      else goOn .method {req with method := req.method ++ [input]}
  | .uri =>
      if input = chr ' ' then goOn .http_version_h req
      else if is_ctl c then p.refuse
      else goOn .uri {req with uri := req.uri ++ [input]}
  | .http_version_h => expect p (chr 'H') input .http_version_t_1
  | .http_version_t_1 => expect p (chr 'T') input .http_version_t_2
  | .http_version_t_2 => expect p (chr 'T') input .http_version_p
  | .http_version_p => expect p (chr 'P') input .http_version_slash
  | .http_version_slash =>
      if input = chr '/' then
        goOn .http_version_major_start {req with http_version_major := 0, http_version_minor := 0}
      else p.refuse
  | .http_version_major_start =>
      if is_digit c then
        goOn .http_version_major
          {req with http_version_major := addDigit req.http_version_major input}
      else p.refuse
  | .http_version_major =>
      if input = chr '.' then goOn .http_version_minor_start req
      else if is_digit c then
        goOn .http_version_major
          {req with http_version_major := addDigit req.http_version_major input}
      else p.refuse
  | .http_version_minor_start =>
      if is_digit c then
        goOn .http_version_minor
          {req with http_version_minor := addDigit req.http_version_minor input}
      else p.refuse
  | .http_version_minor =>
      if input = chr '\r' then goOn .expecting_newline_1 req
      else if is_digit c then
        goOn .http_version_minor
          {req with http_version_minor := addDigit req.http_version_minor input}
      else p.refuse
  | .expecting_newline_1 => expect p (chr '\n') input .header_line_start
  | .header_line_start =>
      if input = chr '\r' then goOn .expecting_newline_3 req
      else if req.headers ≠ [] ∧ (input = chr ' ' ∨ input = chr '\t') then goOn .header_lws req
      else if !is_char c || is_ctl c || is_tspecial c then p.refuse
      else goOn .header_name
        (Request.pushName {req with headers := req.headers ++ [{name := [], value := []}]} input)
  | .header_lws =>
      if input = chr '\r' then goOn .expecting_newline_2 req
      else if input = chr ' ' ∨ input = chr '\t' then goOn .header_lws req
      else if is_ctl c then p.refuse
      else goOn .header_value (req.pushValue input)
  | .header_name =>
      if input = chr ':' then goOn .space_before_header_value req
      else if !is_char c || is_ctl c || is_tspecial c then p.refuse
      else goOn .header_name (req.pushName input)
  | .space_before_header_value => expect p (chr ' ') input .header_value
  | .header_value =>
      if input = chr '\r' then goOn .expecting_newline_2 req
      else if is_ctl c then p.refuse
      else goOn .header_value (req.pushValue input)
  | .expecting_newline_2 => expect p (chr '\n') input .header_line_start
  | .expecting_newline_3 => (some (input = chr '\n'), p)

/-- `parse(req, begin, end)`: the result, the parser and the request after it, and
what is left from the returned iterator on. -/
def parse (p : Parsing) : List Byte → Tribool × Parsing × List Byte
  | [] => (none, p, [])
  | input :: rest =>
      match consume p input with
      | (none, p') => parse p' rest
      | (some result, p') => (some result, p', rest)

theorem parse_eq_feed (p : Parsing) (input : List Byte) : parse p input = feed consume p input := by
  induction input generalizing p with
  | nil => rfl
  | cons b bs ih =>
      cases hstep : consume p b with
      | mk result p' =>
          cases result with
          | none => simp only [parse, feed, hstep, ih]
          | some result => simp only [parse, feed, hstep]

end RequestParser

example : (RequestParser.parse ⟨.new, .fresh 0 0⟩
    ("G / HTTP/1.0\r\na: b\r\n c\r\n\r\nx".toList.map chr)).1 = some true := by decide

end LearningCpp.Http
