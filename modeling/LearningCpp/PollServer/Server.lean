import LearningCpp.Library.Machine
import LearningCpp.Runtime.Memory

/-!
The server of `poll_conncurrent/server.c`. `poll` writes the `revents` of the entries up to
`maxi`. The entry that a new connection takes may lie behind them, and the scan of the same
round looks at it; nothing has been written to its `revents` then. The result of `poll` is
not tested for an error either.
-/

namespace LearningCpp.PollServer

open Library Runtime

def MAXLINE : Nat := 80

def OPEN_MAX : Nat := 1024

def POLLIN : UInt16 := 1

/-- `POLLERR`, `POLLHUP` and `POLLNVAL`, which `poll` reports unasked. -/
def unasked : UInt16 := 8 ||| 16 ||| 32

/-- `struct pollfd` -/
structure PollFd where
  fd : Int
  events : UInt16
  revents : UInt16
  deriving DecidableEq, Repr

/-- `revents & POLLIN` -/
def pollin (revents : UInt16) : Bool := revents &&& POLLIN ≠ 0

/-- The variables of `main` that outlive a round, and the descriptors in use. The array
`client` has the elements below `OPEN_MAX`. -/
structure Server where
  listenfd : Nat
  client : Nat → PollFd
  maxi : Nat
  opened : Finset Nat

/-- What `Read` returns: bytes, none of them at the end of the stream, or -1 with `errno`. -/
inductive Result where
  | bytes (buf : {buf : List UInt8 // buf.length ≤ MAXLINE})
  | ECONNRESET
  | error

/-- What the kernel does in a round: `poll` fails or not and leaves `revents`, `Accept`
returns a descriptor or ends the process, and `Read` gets something from a descriptor. -/
structure Answer where
  failed : Bool
  revents : Nat → UInt16
  connfd : Option Nat
  read : Nat → Result

/-- A round under way, with the descriptors read and what was written back to them. -/
structure Round where
  server : Server
  served : List (Nat × List UInt8)
  exited : Bool

/-- The server before its first round, with what stood in the memory of `client`. -/
def start (garbage : Nat → PollFd) (listenfd : Nat) (others : Finset Nat) : Server where
  listenfd := listenfd
  client := fun i =>
    if i = 0 then {garbage i with fd := listenfd, events := POLLIN} else {garbage i with fd := -1}
  maxi := 0
  opened := insert listenfd others

namespace Server

/-- `nready` -/
def nready (s : Server) (a : Answer) : Int :=
  if a.failed then -1 else (List.range (s.maxi + 1)).countP fun i => a.revents i ≠ 0

/-- `poll(client, maxi+1, -1)` -/
def poll (s : Server) (a : Answer) : Server :=
  {s with client := fun i =>
    if i ≤ s.maxi then {s.client i with revents := a.revents i} else s.client i}

/-- The connection is kept in `client[i]`. -/
def place (s : Server) (i connfd : Nat) : Server :=
  {s with
    client := Function.update s.client i {s.client i with fd := connfd, events := POLLIN}
    maxi := if i > s.maxi then i else s.maxi
    opened := insert connfd s.opened }

/-- The branch for a new connection; `none` for the exit with too many clients. -/
def accept (s : Server) (connfd : Nat) : Option Server :=
  ((List.range' 1 (OPEN_MAX - 1)).find? fun i => (s.client i).fd < 0).map fun i =>
    s.place i connfd

/-- `Close(sockfd); client[i].fd = -1;` -/
def close (s : Server) (i : Nat) (sockfd : Nat) : Server :=
  {s with
    client := Function.update s.client i {s.client i with fd := -1}
    opened := s.opened.erase sockfd }

end Server

namespace Round

/-- Nothing has been read yet. -/
def new (server : Server) : Round := {server := server, served := [], exited := false}

/-- `client[i]` is in use and `POLLIN` stands in its `revents`. -/
def ready (r : Round) (i : Nat) : Bool :=
  0 ≤ (r.server.client i).fd ∧ pollin (r.server.client i).revents

/-- Read from `client[i]` and answer, or close it. -/
def serve (read : Nat → Result) (r : Round) (i : Nat) : Round :=
  let sockfd := (r.server.client i).fd.toNat
  match read sockfd with
  | .ECONNRESET =>
      {r with server := r.server.close i sockfd, served := r.served ++ [(sockfd, [])]}
  | .error => {r with served := r.served ++ [(sockfd, [])], exited := true}
  | .bytes buf =>
      if buf.val.length = 0 then
        {r with server := r.server.close i sockfd, served := r.served ++ [(sockfd, [])]}
      else {r with served := r.served ++ [(sockfd, buf.val.map toupper)]}

/-- `for (i = 1; i <= maxi; i++)`, left when `nready` has come down to 0 or the process
ends. -/
def scan (read : Nat → Result) : List Nat → Int → Round → Round
  | [], _, r => r
  | i :: is, nready, r =>
      if r.ready i then
        if (r.serve read i).exited ∨ nready - 1 ≤ 0 then r.serve read i
        else scan read is (nready - 1) (r.serve read i)
      else scan read is nready r

/-- The descriptors read. -/
def fds (r : Round) : List Nat := r.served.map Prod.fst

end Round

def Server.scan (s : Server) (a : Answer) (nready : Int) : Round :=
  Round.scan a.read (List.range' 1 s.maxi) nready (.new s)

/-- One round of the loop. -/
def Server.round (s : Server) (a : Answer) : Round :=
  let nready := s.nready a
  let s := s.poll a
  if pollin (s.client 0).revents then
    match a.connfd.bind s.accept with
    | none => {Round.new s with exited := true}
    | some s =>
        if nready - 1 ≤ 0 then .new s
        else s.scan a (nready - 1)
  else s.scan a nready

/-- `poll` blocks until an entry has something to report. It reports what it was asked for, and
nothing for an entry that is not in use; when it fails, anything may be left in `revents`.
`accept` returns an unused descriptor. -/
def Server.Allows (s : Server) (a : Answer) : Prop :=
  (∀ connfd ∈ a.connfd, connfd ∉ s.opened) ∧
    (a.failed = false →
      (∃ i ≤ s.maxi, a.revents i ≠ 0) ∧
        ∀ i ≤ s.maxi, ((s.client i).fd < 0 → a.revents i = 0) ∧
          a.revents i &&& ~~~((s.client i).events ||| unasked) = 0)

instance (s : Server) (a : Answer) : Decidable (s.Allows a) :=
  inferInstanceAs (Decidable (_ ∧ (_ → _ ∧ _)))

/-- A round that the process outlives. -/
def step (s : Server) (a : Answer) : Option Server :=
  if s.Allows a ∧ (s.round a).exited = false then some (s.round a).server else none

end LearningCpp.PollServer
