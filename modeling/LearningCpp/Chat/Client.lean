import LearningCpp.Chat.Message
import LearningCpp.Chat.Room
import LearningCpp.Library.Frames

/-!
The client of `boost/3.chat_client.cpp`, its connection to a session of the room, and every
order in which the handlers of the clients and of the server can run. What one side has
written to a socket the other side reads, in pieces and later.
-/

namespace LearningCpp.Chat

open LearningCpp.Library

/-- A `chat_client` that is connected: what it reads next, its queue, of every write that has
not completed the bytes still to write, the bytes written to its socket, how many bytes of its
session it has read and what it has printed. Then how many of its bytes the session has read.
Kept for the specification: the lines it was given, the messages it has heard, and the messages
its session has given to the room. -/
structure ChatClient where
  reading : Reading
  write_msgs : List ChatMessage
  outstanding : List (List UInt8)
  written : List UInt8
  taken : Nat
  cout : List UInt8
  served : Nat
  said : List Line
  heard : List ChatMessage
  given : List ChatMessage
  deriving DecidableEq

namespace ChatClient

/-- A client whose connection has been established, which reads its first header. -/
def connected : ChatClient where
  reading := .header
  write_msgs := []
  outstanding := []
  written := []
  taken := 0
  cout := []
  served := 0
  said := []
  heard := []
  given := []

/-- `do_write`: an `async_write` of the front message. -/
def do_write (c : ChatClient) : ChatClient :=
  match c.write_msgs with
  | [] => c
  | msg :: _ => {c with outstanding := c.outstanding ++ [msg.data]}

/-- The handler that `write` posts. -/
def write (c : ChatClient) (line : Line) : ChatClient :=
  let write_in_progress := !c.write_msgs.isEmpty
  let c' := {c with write_msgs := c.write_msgs ++ [line.message], said := c.said ++ [line]}
  if !write_in_progress then c'.do_write else c'

/-- A write gets `k` more of its bytes through; on a closed socket none. -/
def write_some (c : ChatClient) (j k : Nat) : Option ChatClient :=
  match c.outstanding[j]? with
  | none => none
  | some bytes =>
      if c.reading ≠ .stopped ∧ 0 < k ∧ k ≤ bytes.length then
        some {c with
          outstanding := c.outstanding.set j (bytes.drop k)
          written := c.written ++ bytes.take k }
      else none

/-- The handler of a write that has got all its bytes through. -/
def write_completed (c : ChatClient) (j : Nat) : Option ChatClient :=
  match c.outstanding[j]?, c.write_msgs with
  | some [], _ :: write_msgs =>
      let c' := {c with outstanding := c.outstanding.eraseIdx j, write_msgs := write_msgs}
      some (if !write_msgs.isEmpty then c'.do_write else c')
  | _, _ => none

/-- `socket_.close()`, which ends the reading as well. -/
def close (c : ChatClient) : ChatClient := {c with reading := .stopped}

/-- The handler of `do_read_header`. -/
def read_header (c : ChatClient) (data : List UInt8) : ChatClient :=
  match decode_header data with
  | none => {c with taken := c.taken + data.length}.close
  | some header => {c with reading := .body header, taken := c.taken + data.length}

/-- The handler of `do_read_body`: the body is printed and a header read next. -/
def read_body (c : ChatClient) (msg : ChatMessage) : ChatClient :=
  {c with
    reading := .header
    taken := c.taken + msg.body.length
    cout := c.cout ++ (msg.body ++ [10])
    heard := c.heard ++ [msg] }

/-- The client's queue and writes are those of a session. -/
def queue (c : ChatClient) : ChatSession where
  reading := .header
  write_msgs := c.write_msgs
  outstanding := c.outstanding
  written := c.written
  joined := 0
  left := none

theorem queue_do_write (c : ChatClient) : c.do_write.queue = c.queue.do_write := by
  unfold do_write ChatSession.do_write
  cases hqueue : c.write_msgs with
  | nil => simp only [queue, hqueue]
  | cons msg msgs => simp only [queue, hqueue]

theorem queue_write (c : ChatClient) (line : Line) :
    (c.write line).queue = c.queue.deliver line.message := by
  unfold write ChatSession.deliver
  have hqueue : c.queue.write_msgs = c.write_msgs := rfl
  simp only [hqueue]
  split
  · exact queue_do_write _
  · rfl

theorem queue_write_some {c c' : ChatClient} {j k : Nat} (h : c.write_some j k = some c') :
    c.queue.write_some j k = some c'.queue := by
  unfold write_some at h
  unfold ChatSession.write_some
  have houtstanding : c.queue.outstanding = c.outstanding := rfl
  rw [houtstanding]
  revert h
  cases c.outstanding[j]? with
  | none => exact nofun
  | some bytes =>
      intro h
      simp only at h ⊢
      split at h
      case isFalse => cases h
      case isTrue hk =>
        cases h
        rw [if_pos hk.2]
        rfl

theorem queue_write_completed {c c' : ChatClient} {j : Nat} (h : c.write_completed j = some c') :
    c.queue.write_completed j = some c'.queue := by
  unfold write_completed at h
  unfold ChatSession.write_completed
  have houtstanding : c.queue.outstanding = c.outstanding := rfl
  have hqueue : c.queue.write_msgs = c.write_msgs := rfl
  rw [houtstanding, hqueue]
  revert h
  cases c.outstanding[j]? with
  | none => exact nofun
  | some bytes =>
      cases bytes with
      | cons b bytes => exact nofun
      | nil =>
          cases c.write_msgs with
          | nil => exact nofun
          | cons msg msgs =>
              intro h
              cases h
              simp only
              split
              · rw [queue_do_write]
                rfl
              · rfl

/-- Everything but the queue and the writes. -/
def SameReader (c c' : ChatClient) : Prop :=
  c'.reading = c.reading ∧ c'.taken = c.taken ∧ c'.cout = c.cout ∧ c'.served = c.served ∧
    c'.heard = c.heard ∧ c'.given = c.given

theorem sameReader_do_write (c : ChatClient) :
    c.SameReader c.do_write ∧ c.do_write.said = c.said := by
  unfold do_write
  split <;> exact ⟨⟨rfl, rfl, rfl, rfl, rfl, rfl⟩, rfl⟩

theorem sameReader_write (c : ChatClient) (line : Line) :
    c.SameReader (c.write line) ∧ (c.write line).said = c.said ++ [line] := by
  unfold write
  simp only
  split
  · exact sameReader_do_write {c with
      write_msgs := c.write_msgs ++ [line.message], said := c.said ++ [line] }
  · exact ⟨⟨rfl, rfl, rfl, rfl, rfl, rfl⟩, rfl⟩

theorem sameReader_write_some {c c' : ChatClient} {j k : Nat} (h : c.write_some j k = some c') :
    c.SameReader c' ∧ c'.said = c.said := by
  unfold write_some at h
  split at h
  · cases h
  · split at h
    · cases h
      exact ⟨⟨rfl, rfl, rfl, rfl, rfl, rfl⟩, rfl⟩
    · cases h

theorem sameReader_write_completed {c c' : ChatClient} {j : Nat}
    (h : c.write_completed j = some c') : c.SameReader c' ∧ c'.said = c.said := by
  unfold write_completed at h
  split at h
  · simp only [Option.some.injEq] at h
    subst h
    split
    · exact sameReader_do_write _
    · exact ⟨⟨rfl, rfl, rfl, rfl, rfl, rfl⟩, rfl⟩
  · cases h

end ChatClient

/-- The clients and the room; client `i` is connected to session `i`. Kept for the
specification: of every message delivered to the room, whose it was. -/
structure ChatSystem where
  room : ChatRoom
  clients : List ChatClient
  origins : List Nat
  deriving DecidableEq

/-- What may happen next: a client connects or is given a line; a part of a write of a client or
of a session gets through, or the write has completed; a session or a client handles a header
or a body that has arrived; a client closes its socket; the connection fails for a session. -/
inductive Event where
  | connect
  | write (i : Nat) (line : Line)
  | clientWriteSome (i j k : Nat)
  | clientWriteCompleted (i j : Nat)
  | sessionRead (i : Nat)
  | sessionWriteSome (i j k : Nat)
  | sessionWriteCompleted (i j : Nat)
  | clientRead (i : Nat)
  | clientClose (i : Nat)
  | sessionError (i : Nat)
  deriving DecidableEq

/-- The next `k` of the bytes that were written, when they have all arrived. -/
def arrived (written : List UInt8) (taken k : Nat) : Option (List UInt8) :=
  if taken + k ≤ written.length then some ((written.drop taken).take k) else none

namespace ChatSystem

/-- The server and no clients. -/
def start : ChatSystem where
  room := ChatRoom.start
  clients := []
  origins := []

/-- Client `i` goes on as `c`. -/
def put (chat : ChatSystem) (i : Nat) (c : ChatClient) : ChatSystem :=
  {chat with clients := chat.clients.set i c}

/-- The room takes a step, and client `i` goes on as `c`. -/
def serve (chat : ChatSystem) (i : Nat) (c : ChatClient) (a : Act) : Option ChatSystem :=
  (chat.room.step a).map fun room => {chat.put i c with room := room}

/-- Session `i` handles a header, or the body of a message it gives to the room. -/
def sessionRead (chat : ChatSystem) (i : Nat) (c : ChatClient) (s : ChatSession) :
    Option ChatSystem :=
  match s.reading with
  | .header =>
      match arrived c.written c.served header_length with
      | none => none
      | some data =>
          chat.serve i {c with served := c.served + header_length} (.header i data)
  | .body header =>
      match arrived c.written c.served header.body_length with
      | none => none
      | some data =>
          if hsize : data.length = header.body_length then
            (chat.serve i
              {c with
                served := c.served + header.body_length
                given := c.given ++ [{header := header, body := data, size := hsize}] }
              (.body i data)).map
                fun next => {next with origins := next.origins ++ [i]}
          else none
  | .stopped => none

/-- Client `i` handles a header, or the body of a message it prints. -/
def clientRead (chat : ChatSystem) (i : Nat) (c : ChatClient) (s : ChatSession) :
    Option ChatSystem :=
  match c.reading with
  | .header =>
      (arrived s.written c.taken header_length).map fun data => chat.put i (c.read_header data)
  | .body header =>
      match arrived s.written c.taken header.body_length with
      | none => none
      | some data =>
          if hsize : data.length = header.body_length then
            some (chat.put i (c.read_body {header := header, body := data, size := hsize}))
          else none
  | .stopped => none

/-- A step of client `i` and its session. -/
def stepAt (chat : ChatSystem) (i : Nat) (f : ChatClient → ChatSession → Option ChatSystem) :
    Option ChatSystem :=
  match chat.clients[i]?, chat.room.sessions[i]? with
  | some c, some s => f c s
  | _, _ => none

def step (chat : ChatSystem) : Event → Option ChatSystem
  | .connect =>
      (chat.room.step .accept).map fun room =>
        {chat with room := room, clients := chat.clients ++ [.connected]}
  | .write i line => chat.stepAt i fun c _ => some (chat.put i (c.write line))
  | .clientWriteSome i j k => chat.stepAt i fun c _ => (c.write_some j k).map (chat.put i)
  | .clientWriteCompleted i j => chat.stepAt i fun c _ => (c.write_completed j).map (chat.put i)
  | .sessionRead i => chat.stepAt i (chat.sessionRead i)
  | .sessionWriteSome i j k => chat.stepAt i fun c _ => chat.serve i c (.writeSome i j k)
  | .sessionWriteCompleted i j => chat.stepAt i fun c _ => chat.serve i c (.writeCompleted i j)
  | .clientRead i => chat.stepAt i (chat.clientRead i)
  | .clientClose i => chat.stepAt i fun c _ => some (chat.put i c.close)
  | .sessionError i => chat.stepAt i fun c _ => chat.serve i c (.readError i)

end ChatSystem

end LearningCpp.Chat
