import Mathlib.Tactic
import LearningCpp.Library.Machine

/-!
The reactor of `Reactor/02_epoll_loop.c`: the slots `g_events`, the tree of descriptors
that `epoll_wait` watches, and the callbacks that the main loop invokes on slots. What is
registered is kept twice, as `status` in the slot and in the tree.
-/

namespace LearningCpp.Reactor

def MAX_EVENTS : Nat := 1024

def BUFLEN : Nat := 4096

/-- The address of an element of `g_events`. The last one is for the listener. -/
abbrev Slot := Fin (MAX_EVENTS + 1)

inductive Events where
  | EPOLLIN
  | EPOLLOUT
  deriving DecidableEq, Repr

inductive Callback where
  | null
  | acceptconn
  | recvdata
  | senddata
  deriving DecidableEq, Repr

/-- `struct myevent_s`; no `events` stands for 0, and `status` for `status == 1`. -/
structure MyEvent where
  fd : Nat
  events : Option Events
  arg : Slot
  call_back : Callback
  status : Bool
  buf : List UInt8
  len : Nat
  last_active : Int
  deriving DecidableEq, Repr

/-- What is behind an open descriptor. -/
inductive Socket where
  | other
  | connection (id : Nat)
  deriving DecidableEq, Repr

/-- The bytes that went over a connection. -/
structure Conn where
  received : List UInt8
  sent : List UInt8
  deriving DecidableEq, Repr

/-- The main loop is about to wait, or has still to handle events of the last wait, which
are given by `events` and `data.ptr`; or it has been left. -/
inductive Phase where
  | wait
  | handle (events : List (Events × Slot))
  | left
  deriving DecidableEq, Repr

/-- The program with the tree `g_efd` and the open descriptors. Kept for the specification:
the traffic of all connections ever accepted, the slots on which callbacks were invoked
with their `status` then, and whether something was written behind a `buf`. -/
structure Loop where
  g_events : Slot → MyEvent
  checkpos : Slot
  phase : Phase
  tree : Nat → Option (Events × Slot)
  opened : Nat → Option Socket
  conns : List Conn
  calls : List (Slot × Bool)
  overrun : Bool

/-- What the calls made by a callback give: a descriptor from `accept`, whether `fcntl`
succeeds, bytes from `recv`, how many bytes `send` takes, and the time; `none` for -1. -/
structure Results where
  accept : Option Nat
  fcntl : Bool
  recv : Option {buf : List UInt8 // buf.length ≤ BUFLEN}
  send : Option Nat
  now : Int

namespace Loop

def setEvent (s : Loop) (ev : Slot) (e : MyEvent) : Loop :=
  {s with g_events := Function.update s.g_events ev e}

inductive Op where
  | ADD
  | MOD
  | DEL
  deriving DecidableEq, Repr

/-- `epoll_ctl`, which changes nothing when the request is not valid. -/
def epoll_ctl (s : Loop) (op : Op) (fd : Nat) (events : Events) (ev : Slot) : Loop :=
  match op with
  | .ADD =>
      if (s.opened fd).isSome ∧ s.tree fd = none then
        {s with tree := Function.update s.tree fd (some (events, ev))}
      else s
  | .MOD =>
      if s.tree fd = none then s
      else {s with tree := Function.update s.tree fd (some (events, ev))}
  | .DEL => {s with tree := Function.update s.tree fd none}

/-- `close` also removes the descriptor from the tree. -/
def close (s : Loop) (fd : Nat) : Loop :=
  {s with tree := Function.update s.tree fd none, opened := Function.update s.opened fd none}

def eventset (s : Loop) (ev : Slot) (fd : Nat) (call_back : Callback) (arg : Slot)
    (now : Int) : Loop :=
  s.setEvent ev {s.g_events ev with
    fd := fd
    call_back := call_back
    events := none
    arg := arg
    status := false
    last_active := now }

def eventadd (s : Loop) (events : Events) (ev : Slot) : Loop :=
  (s.setEvent ev {s.g_events ev with events := some events, status := true}).epoll_ctl
    (if (s.g_events ev).status then .MOD else .ADD) (s.g_events ev).fd events ev

def eventdel (s : Loop) (ev : Slot) : Loop :=
  if (s.g_events ev).status then
    (s.setEvent ev {s.g_events ev with status := false}).epoll_ctl .DEL (s.g_events ev).fd
      .EPOLLIN ev
  else s

/-- The traffic of the connection behind a descriptor. -/
def record (s : Loop) (fd : Nat) (f : Conn → Conn) : Loop :=
  match s.opened fd with
  | some (.connection id) => {s with conns := s.conns.modify id f}
  | _ => s

/-- The first `i < MAX_EVENTS` with `g_events[i].status == 0`. -/
def freeSlot (s : Loop) : Option Slot :=
  ((List.finRange MAX_EVENTS).map Fin.castSucc).find? fun i => !(s.g_events i).status

/-- `accept` returns an unused descriptor. -/
def acceptconn (s : Loop) (r : Results) : Option Loop :=
  match r.accept with
  | none => some s
  | some cfd =>
      if (s.opened cfd).isSome then none
      else
        let s' : Loop := {s with
          opened := Function.update s.opened cfd (some (.connection s.conns.length))
          conns := s.conns ++ [{received := [], sent := []}] }
        match s'.freeSlot with
        | none => some s'
        | some i =>
            if !r.fcntl then some s'
            else some ((s'.eventset i cfd .recvdata i r.now).eventadd .EPOLLIN i)

/-- `ev->len = len; ev->buf[len] = '\0';` -/
def terminate (s : Loop) (ev : Slot) (len : Nat) : Loop :=
  {s.setEvent ev {s.g_events ev with len := len, buf := (s.g_events ev).buf.set len 0} with
    overrun := s.overrun || !decide (len < BUFLEN)}

/-- `recv(fd, ev->buf, sizeof(ev->buf), 0)` has got these bytes. -/
def receive (s : Loop) (fd : Nat) (ev : Slot) (buf : List UInt8) : Loop :=
  (s.setEvent ev {s.g_events ev with buf := buf ++ (s.g_events ev).buf.drop buf.length}).record fd
    fun conn => {conn with received := conn.received ++ buf}

def recvdata (s : Loop) (fd : Nat) (ev : Slot) (r : Results) : Loop :=
  match r.recv with
  | none => (s.eventdel ev).close ((s.eventdel ev).g_events ev).fd
  | some buf =>
      let s' := (s.receive fd ev buf.val).eventdel ev
      if 0 < buf.val.length then
        ((s'.terminate ev buf.val.length).eventset ev fd .senddata ev r.now).eventadd .EPOLLOUT ev
      else s'.close (s'.g_events ev).fd

/-- `send(fd, ev->buf, ev->len, 0)` takes at most `ev->len` bytes. -/
def senddata (s : Loop) (fd : Nat) (ev : Slot) (r : Results) : Loop :=
  let e := s.g_events ev
  match r.send with
  | none => (s.close e.fd).eventdel ev
  | some n =>
      if 0 < min n e.len then
        let s' := s.record fd fun conn => {conn with sent := conn.sent ++ e.buf.take (min n e.len)}
        ((s'.eventdel ev).eventset ev fd .recvdata ev r.now).eventadd .EPOLLIN ev
      else (s.close e.fd).eventdel ev

/-- `ev->call_back(ev->fd, events[i].events, ev->arg)` -/
def call (s : Loop) (ev : Slot) (r : Results) : Option Loop :=
  let e := s.g_events ev
  let s' := {s with calls := s.calls ++ [(ev, e.status)]}
  match e.call_back with
  | .null => none
  | .acceptconn => s'.acceptconn r
  | .recvdata => some (s'.recvdata e.fd e.arg r)
  | .senddata => some (s'.senddata e.fd e.arg r)

/-- The body of the loop over the events, with what its two callbacks would be given. -/
def handle (s : Loop) (events : Events) (ev : Slot) (r r' : Results) : Option Loop :=
  let readable :=
    if events = .EPOLLIN ∧ (s.g_events ev).events = some .EPOLLIN then s.call ev r else some s
  readable.bind fun s =>
    if events = .EPOLLOUT ∧ (s.g_events ev).events = some .EPOLLOUT then s.call ev r' else some s

/-- One round of the loop that looks for clients that were idle for 60 seconds. -/
def check (now : Int) (s : Loop) : Loop :=
  let pos : Slot := if s.checkpos = Fin.last MAX_EVENTS then 0 else s.checkpos
  let e := s.g_events pos
  let s' := if e.status ∧ now - e.last_active ≥ 60 then (s.close e.fd).eventdel pos else s
  {s' with checkpos := pos + 1}

end Loop

/-- The timeout scan; the return of `epoll_wait` with the ready descriptors, or with an
error; the next event is handled. -/
inductive Act where
  | scan (now : Int)
  | wait (fds : List Nat)
  | waitError
  | handle (r r' : Results)

/-- `epoll_wait` reports every descriptor of the tree at most once, with the event it is
registered for. -/
def step (s : Loop) : Act → Option Loop
  | .scan now =>
      if s.phase = .handle [] then some {(Loop.check now)^[100] s with phase := .wait} else none
  | .wait fds =>
      if s.phase = .wait ∧ fds.Nodup ∧ ∀ fd ∈ fds, s.tree fd ≠ none then
        some {s with phase := .handle (fds.filterMap s.tree)}
      else none
  | .waitError => if s.phase = .wait then some {s with phase := .left} else none
  | .handle r r' =>
      match s.phase with
      | .handle ((events, ev) :: rest) =>
          (s.handle events ev r r').map fun s' => {s' with phase := .handle rest}
      | _ => none

/-- The reactor after `initlistensocket` has registered the listener `lfd`, which was not
among the descriptors open before. -/
def start (others : Finset Nat) (lfd : Nat) (now : Int) : Loop :=
  let blank : Loop :=
    { g_events := fun _ =>
        { fd := 0, events := none, arg := 0, call_back := .null, status := false
          buf := List.replicate BUFLEN 0, len := 0, last_active := 0 }
      checkpos := 0
      phase := .handle []
      tree := fun _ => none
      opened := fun fd => if fd = lfd ∨ fd ∈ others then some .other else none
      conns := []
      calls := []
      overrun := false }
  (blank.eventset (Fin.last MAX_EVENTS) lfd .acceptconn (Fin.last MAX_EVENTS) now).eventadd
    .EPOLLIN (Fin.last MAX_EVENTS)

end LearningCpp.Reactor
