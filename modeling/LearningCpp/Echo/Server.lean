import LearningCpp.Library.Machine
import Mathlib.Logic.Function.Basic

/-!
The echo server on `epoll` (`Linux_Net/04.使用epoll函数提高服务器处理能力/server.cpp`).
All connections share one buffer: a message is read into it, and written back
from it when the descriptor is next reported as writable.
-/

namespace LearningCpp.Echo

def MAXSIZE : Nat := 1024

def EPOLLEVENTS : Nat := 100

/-- What a descriptor is watched for: `EPOLLIN` or `EPOLLOUT`. -/
inductive Interest where
  | epollin
  | epollout
  deriving DecidableEq, Repr

/-- `epoll_event`, with the two bits that `handle_events` tests. -/
structure Event where
  fd : Nat
  epollin : Bool
  epollout : Bool
  deriving DecidableEq, Repr

/-- A connection. Of its history the messages that were read from it are kept, how
much it took at each write, and what was written to it. -/
structure Client where
  state : Interest
  received : List (List UInt8)
  room : List Nat
  written : List UInt8
  deriving DecidableEq, Repr

/-- The server: `buf`, the events of this round that are still to be handled, and
the open connections by descriptor. It is `overrun` once a string function has
read past the end of `buf`. -/
structure Server where
  clients : Nat → Option Client
  closed : List Client
  buf : List UInt8
  events : List Event
  overrun : Bool

/-- What the system calls return when they are made: `none` for -1. A `write` takes
as many of the bytes as there is room for. -/
structure Kernel where
  accept : Option Nat
  read : Option (List UInt8)
  write : Option Nat

inductive Act where
  | epoll_wait (events : List Event)
  | handle (kernel : Kernel)

/-- What `read` returns in this step, where it is made. -/
def Act.read : Act → Option (List UInt8)
  | .epoll_wait _ => none
  | .handle kernel => kernel.read

/-- `memset(buf,0,MAXSIZE)` -/
def zeros : List UInt8 := List.replicate MAXSIZE 0

/-- The bytes that `strlen` counts. -/
def cstring (bytes : List UInt8) : List UInt8 := bytes.takeWhile (· ≠ 0)

def Server.init : Server where
  clients := fun _ => none
  closed := []
  buf := zeros
  events := []
  overrun := false

/-- `modify_event`, or `add_event` for a new client. -/
def Server.put (s : Server) (fd : Nat) (c : Client) : Server :=
  {s with clients := Function.update s.clients fd (some c)}

/-- `close` and `delete_event` -/
def Server.close (s : Server) (fd : Nat) (c : Client) : Server :=
  {s with clients := Function.update s.clients fd none, closed := c :: s.closed}

/-- A new descriptor is one that is not in use. -/
def handle_accept (s : Server) (listenfd : Nat) : Option Nat → Option Server
  | none => some s
  | some newfd =>
      if newfd = listenfd ∨ (s.clients newfd).isSome then none
      else some (s.put newfd {state := .epollin, received := [], room := [], written := []})

/-- The message is printed as a string when it has been read. -/
def do_read (s : Server) (fd : Nat) (c : Client) : Option (List UInt8) → Option Server
  | none => some (s.close fd c)
  | some [] => some (s.close fd c)
  | some (byte :: bytes) =>
      let msg := byte :: bytes
      if MAXSIZE < msg.length then none
      else
        let buf := msg ++ s.buf.drop msg.length
        if 0 ∈ buf then
          some {s.put fd {c with state := .epollout, received := c.received ++ [msg]} with buf := buf}
        else some {s with overrun := true}

def do_write (s : Server) (fd : Nat) (c : Client) (write : Option Nat) : Option Server :=
  if 0 ∈ s.buf then
    match write with
    | none => some {s.close fd c with buf := zeros}
    | some room =>
        some {s.put fd
            {c with
              state := .epollin
              room := c.room ++ [room]
              written := c.written ++ (cstring s.buf).take room} with buf := zeros}
  else some {s with overrun := true}

/-- One round of the loop in `handle_events`. -/
def handle_event (listenfd : Nat) (s : Server) (e : Event) (k : Kernel) : Option Server :=
  if e.fd = listenfd ∧ e.epollin then handle_accept s listenfd k.accept
  else
    match s.clients e.fd with
    | none => some s
    | some c =>
        if e.epollin then do_read s e.fd c k.read
        else if e.epollout then do_write s e.fd c k.write
        else some s

/-- An event is reported for what its descriptor is watched for. -/
def Event.matches (e : Event) (listenfd : Nat) (clients : Nat → Option Client) : Bool :=
  if e.fd = listenfd then !e.epollout
  else
    match clients e.fd with
    | none => false
    | some c =>
        (!e.epollin || c.state = .epollin) && (!e.epollout || c.state = .epollout)

/-- `epoll_wait` reports at most `EPOLLEVENTS` descriptors, and none of them twice. -/
def Reported (listenfd : Nat) (clients : Nat → Option Client) (events : List Event) : Prop :=
  events.length ≤ EPOLLEVENTS ∧ (events.map Event.fd).Nodup ∧
    ∀ e ∈ events, e.matches listenfd clients

instance (listenfd : Nat) (clients : Nat → Option Client) (events : List Event) :
    Decidable (Reported listenfd clients events) :=
  inferInstanceAs (Decidable (_ ∧ _ ∧ _))

/-- The loop of `do_epoll`, an event at a time. -/
def step (listenfd : Nat) (s : Server) : Act → Option Server
  | .epoll_wait events =>
      if s.overrun = false ∧ s.events = [] ∧ Reported listenfd s.clients events then
        some {s with events := events}
      else none
  | .handle k =>
      match s.events with
      | [] => none
      | e :: rest =>
          if s.overrun = false then handle_event listenfd {s with events := rest} e k else none

/-- The bytes a client gets from a server of its own: of each message the string,
as far as there was room for it. -/
def Client.echo (c : Client) : List UInt8 :=
  (List.zipWith (fun msg room => (cstring msg).take room) c.received c.room).flatten

/-- A client that was connected at some time. -/
def Server.Served (s : Server) (c : Client) : Prop := (∃ fd, s.clients fd = some c) ∨ c ∈ s.closed

/-- Nothing is read past the buffer, and every client got what a server of its own
would have written to it, which are bytes that it has sent itself, in order. -/
structure Server.Separate (s : Server) : Prop where
  overrun : s.overrun = false
  echo : ∀ c, s.Served c → c.written = c.echo
  own : ∀ c, s.Served c → c.written.Sublist c.received.flatten

/-- When a message is read, no client is waiting for its own to be written, and a
message that fills the buffer has the end of a string in it. -/
def OneAtATime (listenfd : Nat) (s : Server) : Act → Prop
  | .epoll_wait _ => True
  | .handle k =>
      ∀ e rest, s.events = e :: rest → e.epollin → e.fd ≠ listenfd →
        ∀ msg, k.read = some msg → msg ≠ [] →
          (∀ fd c, s.clients fd = some c → c.state = .epollin) ∧
          (msg.length = MAXSIZE → 0 ∈ msg)

end LearningCpp.Echo
