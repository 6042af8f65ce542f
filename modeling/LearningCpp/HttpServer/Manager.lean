import LearningCpp.Http.Connection
import LearningCpp.Library.Machine
import LearningCpp.Library.Mutex
import Mathlib.Data.Finset.Basic

/-!
The server of `boost/http_server`: `server`, `connection_manager` and its connections,
whose completion handlers one thread runs. Closing a socket cancels the operation that
waits on it, but not a completion that is already queued.
-/

namespace LearningCpp.HttpServer

open Library Http RequestParser
open Http.Connection (decision parse_append)

/-- The error codes that the handlers tell apart. -/
inductive Failure where
  | operation_aborted
  | other
  deriving DecidableEq, Repr

/-- The operation of a connection: it waits, or its completion is queued. A reply is written in
parts, and `partDone` is the completion of a part with more to write. -/
inductive Operation where
  | reading
  | readDone (data : List Byte)
  | readFailed (ec : Failure)
  | writing
  | partDone
  | writeDone
  | writeFailed (ec : Failure)
  deriving DecidableEq, Repr

def Operation.Waits (op : Operation) : Prop := op = .reading ∨ op = .writing

def Operation.Reads : Operation → Prop
  | .reading | .readDone _ | .readFailed _ => True
  | _ => False

def Operation.Aborted (op : Operation) : Prop :=
  op = .readFailed .operation_aborted ∨ op = .writeFailed .operation_aborted

/-- A connection, which is destroyed when no operation refers to it and the manager does not.
Kept for the specification: how its parser began, the bytes its reads delivered, and what it
began to write. -/
structure Connection where
  socket_open : Bool
  parsing : Parsing
  operation : Option Operation
  first : Parsing
  received : List Byte
  replies : List Decision
  deriving DecidableEq, Repr

namespace Connection

/-- `async_read_some`; on a closed socket it fails with `bad_descriptor`. -/
def do_read (c : Connection) : Connection :=
  {c with operation := some (if c.socket_open then .reading else .readFailed .other)}

/-- `async_write` of a reply. -/
def do_write (c : Connection) (reply : Decision) : Connection :=
  {c with
    operation := some (if c.socket_open then .writing else .writeFailed .other)
    replies := c.replies ++ [reply] }

/-- What closing the socket makes of an operation. -/
def cancelled : Operation → Operation
  | .reading => .readFailed .operation_aborted
  | .writing => .writeFailed .operation_aborted
  | op => op

/-- `socket_.close()` -/
def stop (c : Connection) : Connection :=
  {c with socket_open := false, operation := c.operation.map cancelled}

/-- The handler of a read that delivered `data`. -/
def handle_read (c : Connection) (data : List Byte) : Connection :=
  let (result, p, _) := parse c.parsing data
  let c := {c with parsing := p, received := c.received ++ data}
  match result with
  | some true => c.do_write (.handle_request p.req)
  | some false => c.do_write .bad_request
  | none => c.do_read

/-- No operation refers to the connection any more. -/
def release (c : Connection) : Connection := {c with operation := none}

end Connection

/-- The accept operation. -/
inductive Accepting where
  | idle
  | waiting
  | queued (ok : Bool)
  deriving DecidableEq, Repr

/-- The wait for a signal. -/
inductive Signals where
  | waiting
  | queued
  | handled
  deriving DecidableEq, Repr

/-- The server; a connection is known by its number among all that were made. -/
structure Server where
  acceptor_open : Bool
  accepting : Accepting
  signals_ : Signals
  connections_ : Finset Nat
  all : List Connection
  deriving DecidableEq

/-- What the system completes: an accept, a read, a part of a write that is or is not the last,
or the wait for a signal. What the thread runs: the handler of one of them. A request is
constructed with two version numbers that are not initialised. -/
inductive Act where
  | accept (ok : Bool)
  | accepted (major minor : Int32)
  | read (i : Nat) (data : List Byte)
  | readError (i : Nat)
  | part (i : Nat)
  | write (i : Nat)
  | writeError (i : Nat)
  | handle (i : Nat)
  | signal
  | stopped
  deriving DecidableEq, Repr

/-- The server after its constructor. -/
def start : Server where
  acceptor_open := true
  accepting := .waiting
  signals_ := .waiting
  connections_ := ∅
  all := []

namespace Server

/-- Connection `i` goes on as `c`. -/
def put (s : Server) (i : Nat) (c : Connection) : Server := {s with all := s.all.set i c}

/-- `connection_manager_.start(c)` -/
def startConnection (s : Server) (major minor : Int32) : Server :=
  let first : Parsing := ⟨.new, .fresh major minor⟩
  let c : Connection :=
    { socket_open := true, parsing := first, operation := none, first := first, received := []
      replies := [] }
  {s with connections_ := insert s.all.length s.connections_, all := s.all ++ [c.do_read]}

/-- `connection_manager_.stop(c)` from the handler of connection `i`. -/
def stopConnection (s : Server) (i : Nat) (c : Connection) : Server :=
  {s.put i c.stop with connections_ := s.connections_.erase i}

/-- `connection_manager_.stop_all()` -/
def stop_all (s : Server) : Server :=
  {s with
    connections_ := ∅
    all := s.all.mapIdx fun i c => if i ∈ s.connections_ then c.stop else c }

/-- `do_accept()` -/
def do_accept (s : Server) : Server := {s with accepting := .waiting}

/-- The completion handler of connection `i`. -/
def handle (s : Server) (i : Nat) (c : Connection) : Option Server :=
  match c.operation with
  | some (.readDone data) => some (s.put i (c.handle_read data))
  | some (.readFailed .operation_aborted) => some (s.put i c.release)
  | some (.readFailed .other) => some (s.stopConnection i c.release)
  | some .partDone =>
      some (s.put i {c with
        operation := some (if c.socket_open then .writing else .writeFailed .other) })
  | some .writeDone => some (s.stopConnection i c.release)
  | some (.writeFailed .operation_aborted) => some (s.put i c.release)
  | some (.writeFailed .other) => some (s.stopConnection i c.release)
  | _ => none

/-- The operation of connection `i` that waits is completed. -/
def complete (s : Server) (i : Nat) (waiting completed : Operation) : Option Server :=
  match s.all[i]? with
  | none => none
  | some c =>
      if c.operation = some waiting then some (s.put i {c with operation := some completed})
      else none

def step (s : Server) : Act → Option Server
  | .accept ok => if s.accepting = .waiting then some {s with accepting := .queued ok} else none
  | .accepted major minor =>
      match s.accepting with
      | .queued ok =>
          if s.acceptor_open then
            some (if ok then (s.startConnection major minor).do_accept else s.do_accept)
          else some {s with accepting := .idle}
      | _ => none
  | .read i data => s.complete i .reading (.readDone data)
  | .readError i => s.complete i .reading (.readFailed .other)
  | .part i => s.complete i .writing .partDone
  | .write i => s.complete i .writing .writeDone
  | .writeError i => s.complete i .writing (.writeFailed .other)
  | .handle i =>
      match s.all[i]? with
      | none => none
      | some c => s.handle i c
  | .signal => if s.signals_ = .waiting then some {s with signals_ := .queued} else none
  | .stopped =>
      if s.signals_ = .queued then
        some {s.stop_all with
          acceptor_open := false
          accepting := if s.accepting = .waiting then .queued false else s.accepting
          signals_ := .handled }
      else none

end Server

/-- States that the server can come to. -/
def Reachable (s : Server) : Prop := ∃ as, runSteps Server.step start as = some s

namespace Connection

/-- What is true of a connection at all times. Until it has a verdict it reads and its parser
has seen all it received; from then on it has one reply, the verdict on what it received. -/
structure Sound (c : Connection) : Prop where
  operation_of_open : c.socket_open → ∃ op, c.operation = some op ∧ ¬ op.Aborted
  waits_open : ∀ {op}, c.operation = some op → op.Waits → c.socket_open
  undecided : (∃ op, c.operation = some op ∧ op.Reads) → c.replies = []
  decided : (∃ op, c.operation = some op ∧ ¬ op.Reads) → c.replies ≠ []
  parsing_eq : c.replies = [] → c.parsing = (parse c.first c.received).2.1 ∧
    decision c.first c.received = .async_read_some
  replies_eq : c.replies ≠ [] → c.replies = [decision c.first c.received] ∧
    decision c.first c.received ≠ .async_read_some

variable {c : Connection}

theorem Sound.stop (h : c.Sound) : c.stop.Sound where
  operation_of_open := fun hopen => absurd hopen Bool.false_ne_true
  waits_open := by
    rintro op hop (rfl | rfl) <;>
      · obtain ⟨old, -, hold⟩ := Option.map_eq_some_iff.mp hop
        cases old <;> cases hold
  undecided := by
    rintro ⟨op, hop, hreads⟩
    obtain ⟨old, hold, rfl⟩ := Option.map_eq_some_iff.mp hop
    refine h.undecided ⟨old, hold, ?_⟩
    cases old <;> trivial
  decided := by
    rintro ⟨op, hop, hreads⟩
    obtain ⟨old, hold, rfl⟩ := Option.map_eq_some_iff.mp hop
    refine h.decided ⟨old, hold, ?_⟩
    cases old <;> exact hreads
  parsing_eq := h.parsing_eq
  replies_eq := h.replies_eq

/-- A connection whose socket is closed, or is closed now, may be left without operation. -/
theorem Sound.release (h : c.Sound) (hclosed : c.socket_open = false) : c.release.Sound where
  operation_of_open := fun hopen => absurd (hclosed ▸ hopen) Bool.false_ne_true
  waits_open := fun hop => by cases hop
  undecided := by
    rintro ⟨op, hop, -⟩
    cases hop
  decided := by
    rintro ⟨op, hop, -⟩
    cases hop
  parsing_eq := h.parsing_eq
  replies_eq := h.replies_eq

theorem Sound.release_stop (h : c.Sound) : c.release.stop.Sound :=
  h.stop.release rfl

/-- An operation that waits is completed, and not because it was cancelled. -/
theorem Sound.complete (h : c.Sound) {waiting completed : Operation}
    (hop : c.operation = some waiting) (hreads : completed.Reads ↔ waiting.Reads)
    (hnot : ¬ completed.Aborted) (hdone : ¬ completed.Waits) :
    {c with operation := some completed}.Sound where
  operation_of_open := fun _ => ⟨completed, rfl, hnot⟩
  waits_open := by
    intro op hnew hwaits
    cases hnew
    exact absurd hwaits hdone
  undecided := by
    rintro ⟨op, hnew, hop'⟩
    cases hnew
    exact h.undecided ⟨waiting, hop, hreads.mp hop'⟩
  decided := by
    rintro ⟨op, hnew, hop'⟩
    cases hnew
    exact h.decided ⟨waiting, hop, fun hold => hop' (hreads.mpr hold)⟩
  parsing_eq := h.parsing_eq
  replies_eq := h.replies_eq

/-- The next part of a reply is written. -/
theorem Sound.next_part (h : c.Sound) (hop : c.operation = some .partDone) :
    {c with operation := some (if c.socket_open then .writing else .writeFailed .other)}.Sound where
  operation_of_open := by
    intro hopen
    refine ⟨.writing, ?_, ?_⟩
    · simp only [if_pos hopen]
    · rintro (h | h) <;> cases h
  waits_open := by
    intro op hnew hwaits
    by_contra hclosed
    simp only [Bool.not_eq_true] at hclosed
    simp only [hclosed, Bool.false_eq_true, if_false, Option.some.injEq] at hnew
    subst hnew
    rcases hwaits with h | h <;> cases h
  undecided := by
    rintro ⟨op, hnew, hreads⟩
    simp only [Option.some.injEq] at hnew
    subst hnew
    split at hreads <;> cases hreads
  decided := fun _ => h.decided ⟨.partDone, hop, id⟩
  parsing_eq := h.parsing_eq
  replies_eq := h.replies_eq

theorem do_read_sound (hreplies : c.replies = [])
    (hparsing : c.parsing = (parse c.first c.received).2.1)
    (hdecision : decision c.first c.received = .async_read_some) : c.do_read.Sound where
  operation_of_open := by
    intro hopen
    refine ⟨.reading, ?_, ?_⟩
    · have hopen : c.socket_open = true := hopen
      simp only [do_read, if_pos hopen]
    · rintro (h | h) <;> cases h
  waits_open := by
    intro op hnew hwaits
    by_contra hopen
    have hclosed : c.socket_open = false := Bool.eq_false_of_not_eq_true hopen
    simp only [do_read, hclosed, Bool.false_eq_true, if_false, Option.some.injEq] at hnew
    subst hnew
    rcases hwaits with h | h <;> cases h
  undecided := fun _ => hreplies
  decided := by
    rintro ⟨op, hnew, hreads⟩
    simp only [do_read, Option.some.injEq] at hnew
    subst hnew
    split at hreads <;> exact absurd trivial hreads
  parsing_eq := fun _ => ⟨hparsing, hdecision⟩
  replies_eq := fun hne => absurd hreplies hne

private theorem do_write_sound {reply : Decision} (hreplies : c.replies = [])
    (hreply : reply = decision c.first c.received) (hnot : reply ≠ .async_read_some) :
    (c.do_write reply).Sound where
  operation_of_open := by
    intro hopen
    refine ⟨.writing, ?_, ?_⟩
    · have hopen : c.socket_open = true := hopen
      simp only [do_write, if_pos hopen]
    · rintro (h | h) <;> cases h
  waits_open := by
    intro op hnew hwaits
    by_contra hopen
    have hclosed : c.socket_open = false := Bool.eq_false_of_not_eq_true hopen
    simp only [do_write, hclosed, Bool.false_eq_true, if_false, Option.some.injEq] at hnew
    subst hnew
    rcases hwaits with h | h <;> cases h
  undecided := by
    rintro ⟨op, hnew, hreads⟩
    simp only [do_write, Option.some.injEq] at hnew
    subst hnew
    split at hreads <;> cases hreads
  decided := fun _ => by simp [do_write]
  parsing_eq := by simp [do_write]
  replies_eq := by
    intro _
    refine ⟨?_, hreply ▸ hnot⟩
    simp only [do_write, hreplies, List.nil_append, hreply]

/-- The handler of a read decides as one read of all that was received would. -/
theorem Sound.handle_read (h : c.Sound) {data : List Byte}
    (hop : c.operation = some (.readDone data)) : (c.handle_read data).Sound := by
  have hreplies := h.undecided ⟨_, hop, trivial⟩
  obtain ⟨hparsing, hdecision⟩ := h.parsing_eq hreplies
  have hsplit := parse_append c.first c.received data
  cases hbefore : parse c.first c.received with
  | mk result reached =>
      obtain ⟨p, rest⟩ := reached
      rw [hbefore] at hsplit hparsing
      obtain rfl : result = none := by
        cases result with
        | none => rfl
        | some verdict => cases verdict <;> simp [decision, hbefore] at hdecision
      simp only at hsplit hparsing
      cases hparse : parse p data with
      | mk result reached =>
          obtain ⟨p', rest'⟩ := reached
          rw [hparse] at hsplit
          rw [Connection.handle_read, hparsing, hparse]
          cases result with
          | none =>
              refine do_read_sound hreplies ?_ ?_
              · simp only [hsplit]
              · simp only [decision, hsplit]
          | some verdict =>
              cases verdict <;>
                · refine do_write_sound hreplies ?_ Decision.noConfusion
                  simp only [decision, hsplit]

end Connection

end LearningCpp.HttpServer
