import LearningCpp.Library.LeastUnused
import LearningCpp.Library.Machine

/-!
The reactor of `Reactor/01_simple_reactor.c`. An entry of `myevents` is free when its `fd`
is 0, and the entry behind the ones for clients belongs to the listener. `initAccept` takes
the entry at which its search has stopped, also when it has found no free one.
-/

namespace LearningCpp.SimpleReactor

open Library

/-- `_BUF_LEN_` -/
def BUF_LEN : Nat := 1024

/-- `_EVENT_SIZE_` -/
def EVENT_SIZE : Nat := 1024

/-- The address of an element of `myevents`. The last one is for the listener. -/
abbrev Slot := Fin (EVENT_SIZE + 1)

inductive Events where
  | EPOLLIN
  | EPOLLOUT
  deriving DecidableEq, Repr

inductive Callback where
  | null
  | initAccept
  | read_data
  | send_data
  deriving DecidableEq, Repr

/-- No `events` stands for 0. -/
structure XEvent where
  fd : Nat
  events : Option Events
  call_back : Callback
  buf : List UInt8
  buflen : Int
  deriving DecidableEq, Repr

/-- A global variable, or an entry after the `memset` of `event_del`. -/
def XEvent.zero : XEvent :=
  { fd := 0, events := none, call_back := .null, buf := List.replicate BUF_LEN 0, buflen := 0 }

/-- The program with the tree `g_epfd` and the open descriptors. `pending` is what the round
has still to handle of `events_vec`, without the bits nobody asks for, and `written` is what
`Write` was called with. -/
structure Loop where
  myevents : Slot → XEvent
  tree : Nat → Option (Events × Slot)
  opened : Finset Nat
  pending : List (Option Events × Slot)
  written : List (Nat × List UInt8)

/-- The descriptor that `Accept` returns, or none when it ends the process, and the bytes that
`Read` gets, or none for -1. -/
structure Results where
  accept : Option Nat
  read : Option {buf : List UInt8 // buf.length ≤ BUF_LEN}

namespace Loop

def put (s : Loop) (xev : Slot) (e : XEvent) : Loop :=
  {s with myevents := Function.update s.myevents xev e}

inductive Op where
  | ADD
  | MOD
  | DEL
  deriving DecidableEq, Repr

/-- `epoll_ctl`, which changes nothing when the request is not valid. -/
def epoll_ctl (s : Loop) (op : Op) (fd : Nat) (events : Events) (xev : Slot) : Loop :=
  match op with
  | .ADD =>
      if fd ∈ s.opened ∧ s.tree fd = none then
        {s with tree := Function.update s.tree fd (some (events, xev))}
      else s
  | .MOD =>
      if s.tree fd = none then s
      else {s with tree := Function.update s.tree fd (some (events, xev))}
  | .DEL => {s with tree := Function.update s.tree fd none}

/-- `Close` also removes the descriptor from the tree; it ends the process when the descriptor
is not open. -/
def close (s : Loop) (fd : Nat) : Option Loop :=
  if fd ∈ s.opened then
    some {s with tree := Function.update s.tree fd none, opened := s.opened.erase fd}
  else none

def event_add (s : Loop) (fd : Nat) (events : Events) (call_back : Callback) (xev : Slot) : Loop :=
  (s.put xev {s.myevents xev with
    fd := fd, events := some events, call_back := call_back}).epoll_ctl .ADD fd events xev

def event_set (s : Loop) (fd : Nat) (events : Events) (call_back : Callback) (xev : Slot) : Loop :=
  (s.put xev {s.myevents xev with
    fd := fd, events := some events, call_back := call_back}).epoll_ctl .MOD fd events xev

def event_del (s : Loop) (fd : Nat) (events : Events) (xev : Slot) : Loop :=
  (s.put xev .zero).epoll_ctl .DEL fd events xev

/-- `xev->buflen = Read(fd, xev->buf, sizeof(xev->buf))` -/
def receive (s : Loop) (xev : Slot) (read : Option {buf : List UInt8 // buf.length ≤ BUF_LEN}) :
    Loop :=
  let e := s.myevents xev
  match read with
  | none => s.put xev {e with buflen := -1}
  | some buf =>
      s.put xev {e with
        buf := buf.val ++ e.buf.drop buf.val.length
        buflen := buf.val.length }

def read_data (s : Loop) (fd : Nat) (xev : Slot)
    (read : Option {buf : List UInt8 // buf.length ≤ BUF_LEN}) : Option Loop :=
  let s := s.receive xev read
  if 0 < (s.myevents xev).buflen then some (s.event_set fd .EPOLLOUT .send_data xev)
  else if (s.myevents xev).buflen = 0 then
    (s.close fd).map fun s => s.event_del fd .EPOLLIN xev
  else some s

/-- `Write(fd, xev->buf, xev->buflen)` -/
def write (s : Loop) (fd : Nat) (xev : Slot) : Loop :=
  let e := s.myevents xev
  {s with written := s.written ++ [(fd, e.buf.take e.buflen.toNat)]}

def send_data (s : Loop) (fd : Nat) (xev : Slot) : Loop :=
  (s.write fd xev).event_set fd .EPOLLIN .read_data xev

/-- Where `for (i = 0; i < _EVENT_SIZE_; i++)` stops: the first `i` with `myevents[i].fd == 0`,
or `_EVENT_SIZE_`. -/
def available (s : Loop) : Slot :=
  (((List.finRange EVENT_SIZE).map Fin.castSucc).find? fun i => (s.myevents i).fd = 0).getD
    (Fin.last EVENT_SIZE)

/-- `accept` returns an unused descriptor. -/
def initAccept (s : Loop) : Option Nat → Option Loop
  | none => none
  | some cfd =>
      if cfd ∈ s.opened then none
      else
        some (event_add {s with opened := insert cfd s.opened} cfd .EPOLLIN .read_data s.available)

/-- `xev->call_back(xev->fd, xev->events, xev)`; none when the process ends. -/
def call (s : Loop) (xev : Slot) (r : Results) : Option Loop :=
  let e := s.myevents xev
  match e.call_back with
  | .null => none
  | .initAccept => s.initAccept r.accept
  | .read_data => s.read_data e.fd xev r.read
  | .send_data => some (s.send_data e.fd xev)

/-- The body of the loop over `events_vec`. -/
def handle (s : Loop) (reported : Option Events) (xev : Slot) (r : Results) : Option Loop :=
  if reported.isSome ∧ (s.myevents xev).events = reported then s.call xev r else some s

/-- What `epoll_wait` puts into `events_vec` for a ready descriptor: the event that the
descriptor is registered for, or only `EPOLLERR` or `EPOLLHUP`. -/
def report (s : Loop) (ready : Nat × Bool) : Option (Option Events × Slot) :=
  (s.tree ready.1).map fun e => (if ready.2 then some e.1 else none, e.2)

end Loop

/-- `epoll_wait` returns with the ready descriptors; the next event is handled. -/
inductive Act where
  | wait (ready : List (Nat × Bool))
  | handle (r : Results)

/-- `none` when the process ends. `epoll_wait` reports a descriptor of the tree at most once,
and 1024 of them at most. -/
def step (s : Loop) : Act → Option Loop
  | .wait ready =>
      if s.pending = [] ∧ ready ≠ [] ∧ ready.length ≤ 1024 ∧ (ready.map Prod.fst).Nodup ∧
          (ready.all fun e => (s.tree e.1).isSome) = true then
        some {s with pending := ready.filterMap s.report}
      else none
  | .handle r =>
      match s.pending with
      | [] => none
      | (reported, xev) :: rest =>
          (s.handle reported xev r).map fun s' => {s' with pending := rest}

/-- `main` before its loop, with the descriptors that are open when it starts. -/
def start (others : Finset Nat) : Loop :=
  let lfd := leastUnused others
  let g_epfd := leastUnused (insert lfd others)
  Loop.event_add
    { myevents := fun _ => .zero
      tree := fun _ => none
      opened := insert g_epfd (insert lfd others)
      pending := []
      written := [] } lfd .EPOLLIN .initAccept (Fin.last EVENT_SIZE)

end LearningCpp.SimpleReactor
