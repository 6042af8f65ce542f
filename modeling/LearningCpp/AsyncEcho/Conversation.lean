import LearningCpp.AsyncEcho.Session
import LearningCpp.Library.Measure

/-!
The sessions of `boost/1.异步分配内存.cpp` and their clients, `blocking_tcp_echo_client.cpp`. No
connection is reset. However the bytes are cut and the steps interleaved, every client prints
the line that it has sent, and the sessions end when their clients have returned.
-/

namespace LearningCpp.AsyncEcho

open Library

/-- `std::cin.getline(request, max_length)` -/
def getline (cin : List UInt8) : List UInt8 := (cin.takeWhile (· ≠ 10)).take (max_length - 1)

/-- The first `std::strlen(request)` bytes. -/
def request_of (cin : List UInt8) : List UInt8 := (getline cin).takeWhile (· ≠ 0)

/-- Where a client is: in `write` with the bytes still to be written, in `read` with those that
have come, or at its end. -/
inductive Doing where
  | writing (rest : List UInt8)
  | reading (reply : List UInt8)
  | returned
  deriving DecidableEq, Repr

structure Client where
  request : List UInt8
  doing : Doing
  cout : List UInt8
  deriving DecidableEq, Repr

def ascii (text : String) : List UInt8 := text.toList.map fun c => UInt8.ofNat c.toNat

namespace Client

/-- `read` has filled the first bytes of `reply`; when it has all they are printed. -/
def got (c : Client) (reply : List UInt8) : Client :=
  if reply.length = c.request.length then
    {c with doing := .returned, cout := c.cout ++ ascii "Reply is: " ++ reply ++ ascii "\n"}
  else {c with doing := .reading reply}

/-- `write` has `rest` still to write. -/
def wrote (c : Client) (rest : List UInt8) : Client :=
  if rest = [] then c.got [] else {c with doing := .writing rest}

/-- The client is connected and has read its line. -/
def main (cin : List UInt8) : Client :=
  wrote ⟨request_of cin, .writing [], ascii "Enter message: "⟩ (request_of cin)

/-- What is still to be written. -/
def rest (c : Client) : List UInt8 :=
  match c.doing with
  | .writing rest => rest
  | _ => []

/-- What has come back. -/
def reply (c : Client) : List UInt8 :=
  match c.doing with
  | .writing _ => []
  | .reading reply => reply
  | .returned => c.request

/-- What a client prints when it has the reply `text`. -/
def printout (text : List UInt8) : List UInt8 :=
  ascii "Enter message: " ++ ascii "Reply is: " ++ text ++ ascii "\n"

/-- A client that has not returned has something to do, and has printed its prompt only. -/
structure Sound (c : Client) : Prop where
  rest_ne_nil : ∀ {rest}, c.doing = .writing rest → rest ≠ []
  reply_lt : ∀ {reply}, c.doing = .reading reply → reply.length < c.request.length
  printed : c.cout =
    if c.doing = .returned then printout c.request else ascii "Enter message: "

theorem got_request (c : Client) (reply : List UInt8) : (c.got reply).request = c.request := by
  unfold got
  split <;> rfl

theorem wrote_request (c : Client) (rest : List UInt8) : (c.wrote rest).request = c.request := by
  unfold wrote
  split
  · exact got_request c []
  · rfl

/-- A client that reads has the beginning of what it waits for. -/
theorem got_spec {c : Client} {reply : List UInt8} (hfront : reply <+: c.request)
    (hprompt : c.cout = ascii "Enter message: ") :
    (c.got reply).Sound ∧ (c.got reply).rest = [] ∧ (c.got reply).reply = reply := by
  unfold got
  split
  case isTrue hall =>
    have hreply : reply = c.request := hfront.eq_of_length hall
    refine ⟨⟨nofun, nofun, ?_⟩, rfl, hreply.symm⟩
    simp only [hprompt, if_pos, printout, hreply]
  case isFalse hnot =>
    refine ⟨⟨nofun, ?_, ?_⟩, rfl, rfl⟩
    · intro reply' heq
      cases heq
      exact Nat.lt_of_le_of_ne hfront.length_le hnot
    · simp only [reduceCtorEq, if_false, hprompt]

theorem wrote_spec {c : Client} (rest : List UInt8) (hprompt : c.cout = ascii "Enter message: ") :
    (c.wrote rest).Sound ∧ (c.wrote rest).rest = rest ∧ (c.wrote rest).reply = [] := by
  unfold wrote
  split
  case isTrue hnil =>
    obtain ⟨hsound, hrest, hreply⟩ := got_spec (List.nil_prefix (l := c.request)) hprompt
    exact ⟨hsound, hrest.trans hnil.symm, hreply⟩
  case isFalse hnot =>
    refine ⟨⟨?_, nofun, ?_⟩, rfl, rfl⟩
    · intro rest' heq
      cases heq
      exact hnot
    · simp only [reduceCtorEq, if_false, hprompt]

private theorem main_request (cin : List UInt8) : (main cin).request = request_of cin :=
  wrote_request _ _

theorem Sound.prompt {c : Client} (h : c.Sound) (hdoing : c.doing ≠ .returned) :
    c.cout = ascii "Enter message: " := by
  rw [h.printed, if_neg hdoing]

end Client

/-- A client, and the bytes on their way to the server and from it. -/
structure Connection where
  client : Client
  toServer : List UInt8
  toClient : List UInt8
  deriving DecidableEq, Repr

/-- Session `i` of the server is the one of connection `i`. -/
structure System where
  connections : List Connection
  server : Server
  deriving DecidableEq

/-- A client connects, with what its user types; the next connection is accepted; a client writes
`k` bytes, or reads them; a session reads or writes them; a session reads to the end. -/
inductive Event where
  | connect (cin : List UInt8)
  | accept (data_ : Buffer) (block : Nat)
  | clientWrite (i k : Nat)
  | clientRead (i k : Nat)
  | read (i k block : Nat)
  | write (i k block : Nat)
  | eof (i : Nat)
  deriving DecidableEq

namespace System

def start : System := ⟨[], Server.start⟩

/-- What session `i` has still to write. -/
def pending (s : System) (i : Nat) : List UInt8 :=
  (s.server.sessions[i]?.map Session.pending).getD []

variable (sizes : Sizes)

def step (s : System) : Event → Option System
  | .connect cin => some {s with connections := s.connections ++ [⟨Client.main cin, [], []⟩]}
  | .accept data_ block =>
      if s.server.sessions.length < s.connections.length then
        (s.server.step sizes (.accept data_ block)).map fun server => {s with server := server}
      else none
  | .clientWrite i k =>
      match s.connections[i]? with
      | none => none
      | some c =>
          match c.client.doing with
          | .writing rest =>
              if 0 < k ∧ k ≤ rest.length then
                some {s with connections := s.connections.set i {c with
                  client := c.client.wrote (rest.drop k)
                  toServer := c.toServer ++ rest.take k } }
              else none
          | _ => none
  | .clientRead i k =>
      match s.connections[i]? with
      | none => none
      | some c =>
          match c.client.doing with
          | .reading reply =>
              if 0 < k ∧ k ≤ c.toClient.length ∧ reply.length + k ≤ c.client.request.length then
                some {s with connections := s.connections.set i {c with
                  client := c.client.got (reply ++ c.toClient.take k)
                  toClient := c.toClient.drop k } }
              else none
          | _ => none
  | .read i k block =>
      match s.connections[i]? with
      | none => none
      | some c =>
          (s.server.step sizes (.read_some i (c.toServer.take k) block)).map fun server =>
            ⟨s.connections.set i {c with toServer := c.toServer.drop k}, server⟩
  | .write i k block =>
      match s.connections[i]? with
      | none => none
      | some c =>
          (s.server.step sizes (.write_some i k block)).map fun server =>
            ⟨s.connections.set i {c with toClient := c.toClient ++ (s.pending i).take k}, server⟩
  | .eof i =>
      match s.connections[i]?, s.server.underway i with
      | some c, some (_, .read_some, _) =>
          if c.toServer = [] ∧ c.client.doing = .returned then
            (s.server.step sizes (.fail i)).map fun server => {s with server := server}
          else none
      | _, _ => none

end System

/-- What a session has still to write, if there is one. -/
def pendingOf (session : Option Session) : List UInt8 := (session.map Session.pending).getD []

/-- The line of a client is spread over the connection: what has come back, is on its way back,
is in the session, on its way to it and still to be written. A session only ends after its
client. -/
structure Linked (c : Connection) (session : Option Session) : Prop where
  flow : c.client.reply ++ c.toClient ++ pendingOf session ++ c.toServer ++ c.client.rest =
    c.client.request
  client : c.client.Sound
  gone : ∀ e, session = some e → e.operation = none → c.client.doing = .returned

/-- A byte moves four times; a session begins once and ends once. -/
def weight (c : Connection) (session : Option Session) : Nat :=
  4 * c.client.rest.length + 3 * c.toServer.length + 2 * (pendingOf session).length +
    c.toClient.length +
    match session with
    | none => 2
    | some e => if e.operation = none then 0 else 1

section Links

variable {c : Connection} {session : Option Session} {k : Nat}

/-- The client writes. -/
theorem Linked.wrote (h : Linked c session) {rest : List UInt8}
    (hdoing : c.client.doing = .writing rest) (hk : 0 < k) (hle : k ≤ rest.length) (c' : Connection)
    (hc' : c' = {c with
      client := c.client.wrote (rest.drop k)
      toServer := c.toServer ++ rest.take k }) :
    Linked c' session ∧ weight c' session < weight c session := by
  have hprompt := h.client.prompt (by rw [hdoing]; exact Doing.noConfusion)
  obtain ⟨hsound, hrest, hreply⟩ := Client.wrote_spec (rest.drop k) hprompt
  have hold : c.client.rest = rest := by rw [Client.rest, hdoing]
  have hnone : c.client.reply = [] := by rw [Client.reply, hdoing]
  subst hc'
  refine ⟨⟨?_, hsound, ?_⟩, ?_⟩
  · have hflow := h.flow
    rw [hold, hnone] at hflow
    simp only [hrest, hreply, Client.wrote_request]
    rw [← hflow]
    simp only [List.append_assoc, List.take_append_drop]
  · intro e he hidle
    have hreturned := h.gone e he hidle
    rw [hdoing] at hreturned
    cases hreturned
  · simp only [weight, hrest, hold, List.length_drop, List.length_append, List.length_take]
    omega

/-- The client reads. -/
theorem Linked.got (h : Linked c session) {reply : List UInt8}
    (hdoing : c.client.doing = .reading reply) (hk : 0 < k) (hle : k ≤ c.toClient.length)
    (c' : Connection)
    (hc' : c' = {c with
      client := c.client.got (reply ++ c.toClient.take k)
      toClient := c.toClient.drop k }) :
    Linked c' session ∧ weight c' session < weight c session := by
  have hprompt := h.client.prompt (by rw [hdoing]; exact Doing.noConfusion)
  have hold : c.client.rest = [] := by rw [Client.rest, hdoing]
  have hreply : c.client.reply = reply := by rw [Client.reply, hdoing]
  have hflow := h.flow
  rw [hold, hreply] at hflow
  have hsplit : reply ++ c.toClient.take k ++ c.toClient.drop k ++ pendingOf session ++
      c.toServer ++ [] = c.client.request := by
    rw [← hflow]
    simp only [List.append_assoc, List.take_append_drop]
  have hfront : reply ++ c.toClient.take k <+: c.client.request := by
    refine ⟨c.toClient.drop k ++ pendingOf session ++ c.toServer ++ [], ?_⟩
    rw [← hsplit]
    simp only [List.append_assoc]
  obtain ⟨hsound, hrest, hreply'⟩ := Client.got_spec hfront hprompt
  subst hc'
  refine ⟨⟨?_, hsound, ?_⟩, ?_⟩
  · simp only [hrest, hreply', Client.got_request]
    exact hsplit
  · intro e he hidle
    have hreturned := h.gone e he hidle
    rw [hdoing] at hreturned
    cases hreturned
  · simp only [weight, hrest, hold, List.length_drop]
    omega

/-- When the client has returned nothing is left on the way. -/
theorem Linked.nothing_left (h : Linked c session) (hdoing : c.client.doing = .returned) :
    c.toClient = [] ∧ pendingOf session = [] ∧ c.toServer = [] := by
  have hreply : c.client.reply = c.client.request := by rw [Client.reply, hdoing]
  have hlength := congrArg List.length h.flow
  rw [hreply] at hlength
  simp only [List.length_append] at hlength
  refine ⟨List.eq_nil_of_length_eq_zero ?_, List.eq_nil_of_length_eq_zero ?_,
    List.eq_nil_of_length_eq_zero ?_⟩ <;> omega

variable {e e' : Session} {i block : Nat} {next : Option Operation} {p : Pointer}

/-- The session reads what is on its way. -/
theorem Linked.read (h : Linked c (some e))
    (hgoes : Server.Goes i (.read_some i (c.toServer.take k) block) e e' next) (c' : Connection)
    (hc' : c' = {c with toServer := c.toServer.drop k}) :
    Linked c' (some {e' with operation := next.map fun op => (op, p)}) ∧
      weight c' (some {e' with operation := next.map fun op => (op, p)}) < weight c (some e) := by
  cases hgoes with
  | read hop hbytes hlength =>
      have hpending : pendingOf (some e) = [] := by
        simp only [pendingOf, Option.map_some, Option.getD_some, Session.pending, hop]
      have hflow := h.flow
      rw [hpending] at hflow
      have hpos : 0 < (c.toServer.take k).length := List.length_pos_iff.mpr hbytes
      have htotal : (c.toServer.take k).length + (c.toServer.drop k).length = c.toServer.length := by
        rw [← List.length_append, List.take_append_drop]
      subst hc'
      refine ⟨⟨?_, h.client, ?_⟩, ?_⟩
      · simp only [pendingOf, Option.map_some, Option.getD_some, Session.pending,
          Buffer.slice_fill e.data_ hlength]
        rw [← hflow]
        simp only [List.append_assoc, List.nil_append, List.take_append_drop]
      · intro e₁ he₁ hidle
        cases he₁
        cases hidle
      · simp only [weight, hpending, hop]
        simp only [pendingOf, Option.map_some, Option.getD_some, Session.pending,
          Buffer.slice_fill e.data_ hlength, reduceCtorEq, if_false, List.length_nil]
        omega

/-- The session writes a part of what it has read. -/
theorem Linked.write (h : Linked c (some e)) (hecho : e.Echo)
    (hgoes : Server.Goes i (.write_some i k block) e e' next) (c' : Connection)
    (hc' : c' = {c with toClient := c.toClient ++ (pendingOf (some e)).take k}) :
    Linked c' (some {e' with operation := next.map fun op => (op, p)}) ∧
      weight c' (some {e' with operation := next.map fun op => (op, p)}) < weight c (some e) := by
  obtain ⟨hafter, hk, hle, hnext, hlive⟩ : pendingOf (some {e' with
      operation := next.map fun op => (op, p) }) = (pendingOf (some e)).drop k ∧ 0 < k ∧
      k ≤ (pendingOf (some e)).length ∧ next ≠ none ∧ e.operation ≠ none := by
    cases hgoes with
    | part hop hk hlt =>
        rename_i q offset length
        have hlength : (e.data_.slice offset length).length = length - offset :=
          Buffer.length_slice e.data_ (hecho.inside hop).2
        simp only [pendingOf, Option.map_some, Option.getD_some, Session.pending, hop]
        rw [hlength]
        refine ⟨?_, hk, by omega, Option.some_ne_none _, Option.some_ne_none _⟩
        rw [Buffer.slice, Buffer.slice, List.drop_drop]
    | written hop hk hend =>
        rename_i q offset length
        have hlength : (e.data_.slice offset length).length = length - offset :=
          Buffer.length_slice e.data_ (hecho.inside hop).2
        simp only [pendingOf, Option.map_some, Option.getD_some, Session.pending, hop]
        rw [hlength]
        refine ⟨?_, hk, by omega, Option.some_ne_none _, Option.some_ne_none _⟩
        rw [List.drop_eq_nil_of_le (by omega)]
  subst hc'
  obtain ⟨op, rfl⟩ := Option.ne_none_iff_exists'.mp hnext
  simp only [Option.map_some] at hafter ⊢
  refine ⟨⟨?_, h.client, ?_⟩, ?_⟩
  · rw [hafter, ← h.flow]
    simp only [List.append_assoc, List.take_append_drop]
  · intro e₁ he₁ hidle
    cases he₁
    cases hidle
  · have hlength := congrArg List.length hafter
    rw [List.length_drop] at hlength
    simp only [weight, if_neg hlive, reduceCtorEq, if_false, List.length_append, List.length_take]
    omega

/-- The session reads to the end. -/
theorem Linked.eof (h : Linked c (some e)) (hreading : e.operation = some (.read_some, p))
    (hdoing : c.client.doing = .returned) :
    Linked c (some {e with operation := none}) ∧
      weight c (some {e with operation := none}) < weight c (some e) := by
  have hnone : pendingOf (some e) = [] := (h.nothing_left hdoing).2.1
  have hafter : pendingOf (some {e with operation := none}) = [] := rfl
  refine ⟨⟨?_, h.client, fun _ _ _ => hdoing⟩, ?_⟩
  · have hflow := h.flow
    rw [hnone] at hflow
    rw [hafter]
    exact hflow
  · simp only [weight, hnone, hafter, hreading, reduceCtorEq, if_false, if_true]
    omega

/-- The session begins. -/
theorem Linked.accepted (h : Linked c none) (data_ : Buffer) (p : Pointer) :
    Linked c (some ⟨data_, some (.read_some, p), [], []⟩) ∧
      weight c (some ⟨data_, some (.read_some, p), [], []⟩) < weight c none := by
  have hafter : pendingOf (some ⟨data_, some (.read_some, p), [], []⟩) = [] := rfl
  have hnone : pendingOf none = [] := rfl
  refine ⟨⟨h.flow, h.client, nofun⟩, ?_⟩
  simp only [weight, hafter, hnone, reduceCtorEq, if_false]
  omega

end Links

namespace System

structure Sound (sizes : Sizes) (s : System) : Prop where
  server : s.server.Sound sizes
  accepted : s.server.sessions.length ≤ s.connections.length
  linked : ∀ {i : Nat} {c : Connection}, s.connections[i]? = some c →
    Linked c s.server.sessions[i]?

/-- What is left to do. -/
def measure (s : System) : Nat :=
  ∑ i ∈ Finset.range s.connections.length,
    (s.connections[i]?.map fun c => weight c s.server.sessions[i]?).getD 0

/-- What a client that connects adds to it, with the step itself. -/
def charge : Event → Nat
  | .connect cin => 4 * (request_of cin).length + 3
  | _ => 0

variable {sizes : Sizes} {s s' : System} {i : Nat} {c c' : Connection}

/-- One connection moves, and the others stay as they are. -/
structure Moves (sizes : Sizes) (s s' : System) (i : Nat) (c c' : Connection) : Prop where
  before : s.connections[i]? = some c
  after : s'.connections = s.connections.set i c'
  server : s'.server.Sound sizes
  accepted : s'.server.sessions.length ≤ s.connections.length
  others : ∀ {j : Nat}, j ≠ i → s'.server.sessions[j]? = s.server.sessions[j]?
  linked : Linked c' s'.server.sessions[i]?
  request : c'.client.request = c.client.request
  lighter : weight c' s'.server.sessions[i]? < weight c s.server.sessions[i]?

theorem Moves.sound (h : Sound sizes s) (hmoves : Moves sizes s s' i c c') : Sound sizes s' where
  server := hmoves.server
  accepted := by
    rw [hmoves.after, List.length_set]
    exact hmoves.accepted
  linked := by
    intro j d hd
    rw [hmoves.after] at hd
    refine forall_replaced (P := fun j d => Linked d s'.server.sessions[j]?) hmoves.linked ?_ hd
    intro j d hne hd
    rw [hmoves.others hne]
    exact h.linked hd

theorem Moves.measure_lt (hmoves : Moves sizes s s' i c c') : s'.measure < s.measure := by
  obtain ⟨hi, -⟩ := List.getElem?_eq_some_iff.mp hmoves.before
  have hlength : s'.connections.length = s.connections.length := by
    rw [hmoves.after, List.length_set]
  unfold measure
  rw [hlength]
  have hat : ∀ j ≠ i,
      ((s'.connections[j]?.map fun c => weight c s'.server.sessions[j]?).getD 0) =
        (s.connections[j]?.map fun c => weight c s.server.sessions[j]?).getD 0 := by
    intro j hne
    rw [hmoves.after, List.getElem?_set_ne hne.symm, hmoves.others hne]
  refine Finset.sum_lt_sum ?_ ⟨i, Finset.mem_range.mpr hi, ?_⟩
  · intro j hj
    rcases eq_or_ne j i with rfl | hne
    · rw [hmoves.after, List.getElem?_set_self hi, hmoves.before]
      exact hmoves.lighter.le
    · exact (hat j hne).le
  · rw [hmoves.after, List.getElem?_set_self hi, hmoves.before]
    exact hmoves.lighter

theorem Moves.of_client (h : Sound sizes s) (hc : s.connections[i]? = some c)
    (hrequest : c'.client.request = c.client.request)
    (hnext : Linked c' s.server.sessions[i]? ∧
      weight c' s.server.sessions[i]? < weight c s.server.sessions[i]?) :
    Moves sizes s {s with connections := s.connections.set i c'} i c c' where
  before := hc
  after := rfl
  server := h.server
  accepted := h.accepted
  others _ := rfl
  linked := hnext.1
  request := hrequest
  lighter := hnext.2

theorem Moves.of_server {server : Server} {a : Act} {e e' : Session} (h : Sound sizes s)
    (hstep : s.server.step sizes a = some server) (hc : s.connections[i]? = some c)
    (he : s.server.sessions[i]? = some e) (hsessions : server.sessions = s.server.sessions.set i e')
    (hrequest : c'.client.request = c.client.request)
    (hnext : Linked c' (some e') ∧ weight c' (some e') < weight c (some e)) :
    Moves sizes s ⟨s.connections.set i c', server⟩ i c c' := by
  obtain ⟨hi, -⟩ := List.getElem?_eq_some_iff.mp he
  have he' : server.sessions[i]? = some e' := by rw [hsessions, List.getElem?_set_self hi]
  refine ⟨hc, rfl, h.server.step hstep, ?_, ?_, ?_, hrequest, ?_⟩
  · rw [hsessions, List.length_set]
    exact h.accepted
  · intro j hne
    rw [hsessions, List.getElem?_set_ne hne.symm]
  · rw [he']
    exact hnext.1
  · rw [he', he]
    exact hnext.2

theorem Moves.of_accept {server : Server} {data_ : Buffer} {p : Pointer} {a : Act}
    (h : Sound sizes s) (hstep : s.server.step sizes a = some server)
    (hc : s.connections[s.server.sessions.length]? = some c)
    (hsessions : server.sessions =
      s.server.sessions ++ [⟨data_, some (.read_some, p), [], []⟩]) :
    Moves sizes s {s with server := server} s.server.sessions.length c c := by
  obtain ⟨hlt, hat⟩ := List.getElem?_eq_some_iff.mp hc
  have hnone := List.getElem?_eq_none (Nat.le_refl s.server.sessions.length)
  have hsome : server.sessions[s.server.sessions.length]? =
      some ⟨data_, some (.read_some, p), [], []⟩ := by
    rw [hsessions, List.getElem?_concat_length]
  have hlinked := h.linked hc
  rw [hnone] at hlinked
  obtain ⟨hlinked', hlighter⟩ := hlinked.accepted data_ p
  refine ⟨hc, ?_, h.server.step hstep, ?_, ?_, ?_, rfl, ?_⟩
  · rw [← hat, List.set_getElem_self hlt]
  · rw [hsessions, List.length_append, List.length_singleton]
    exact hlt
  · intro j hne
    rw [hsessions]
    rcases Nat.lt_or_ge j s.server.sessions.length with hj | hj
    · rw [List.getElem?_append_left hj]
    · rw [List.getElem?_eq_none hj, List.getElem?_eq_none]
      rw [List.length_append, List.length_singleton]
      omega
  · rw [hsome]
    exact hlinked'
  · rw [hsome, hnone]
    exact hlighter

/-- Every event but a new connection moves one connection on. -/
theorem step_moves {a : Event} (h : Sound sizes s) (hstep : s.step sizes a = some s') :
    (∃ cin, a = .connect cin ∧
      s' = {s with connections := s.connections ++ [⟨Client.main cin, [], []⟩] }) ∨
      ∃ i c c', Moves sizes s s' i c c' := by
  cases a with
  | connect cin =>
      cases hstep
      exact Or.inl ⟨cin, rfl, rfl⟩
  | accept data_ block =>
      simp only [step] at hstep
      split at hstep
      case isFalse hnot => cases hstep
      case isTrue hlt =>
        obtain ⟨server, hserver, rfl⟩ := Option.map_eq_some_iff.mp hstep
        rcases Server.step_sessions hserver with ⟨data', p, block', -, hsessions⟩ |
          ⟨i, e, e', next, p, -, hgoes, -⟩
        · exact Or.inr ⟨_, _, _, .of_accept h hserver (List.getElem?_eq_getElem hlt) hsessions⟩
        · cases hgoes
  | clientWrite i k =>
      simp only [step] at hstep
      split at hstep
      case h_1 => cases hstep
      case h_2 c hc =>
        split at hstep
        case h_2 => cases hstep
        case h_1 rest hdoing =>
          split at hstep
          case isFalse hnot => cases hstep
          case isTrue hk =>
            cases hstep
            exact Or.inr ⟨i, c, _, .of_client h hc (Client.wrote_request _ _)
              ((h.linked hc).wrote hdoing hk.1 hk.2 _ rfl)⟩
  | clientRead i k =>
      simp only [step] at hstep
      split at hstep
      case h_1 => cases hstep
      case h_2 c hc =>
        split at hstep
        case h_2 => cases hstep
        case h_1 reply hdoing =>
          split at hstep
          case isFalse hnot => cases hstep
          case isTrue hk =>
            cases hstep
            exact Or.inr ⟨i, c, _, .of_client h hc (Client.got_request _ _)
              ((h.linked hc).got hdoing hk.1 hk.2.1 _ rfl)⟩
  | read i k block =>
      simp only [step] at hstep
      split at hstep
      case h_1 => cases hstep
      case h_2 c hc =>
        obtain ⟨server, hserver, rfl⟩ := Option.map_eq_some_iff.mp hstep
        obtain ⟨e, e', next, p, he, hgoes, hsessions⟩ := Server.step_session hserver rfl
        have hlinked := h.linked hc
        rw [he] at hlinked
        exact Or.inr ⟨i, c, _, .of_server h hserver hc he hsessions rfl
          (hlinked.read hgoes _ rfl)⟩
  | write i k block =>
      simp only [step] at hstep
      split at hstep
      case h_1 => cases hstep
      case h_2 c hc =>
        obtain ⟨server, hserver, rfl⟩ := Option.map_eq_some_iff.mp hstep
        obtain ⟨e, e', next, p, he, hgoes, hsessions⟩ := Server.step_session hserver rfl
        have hlinked := h.linked hc
        rw [he] at hlinked
        have hpending : s.pending i = pendingOf (some e) := by rw [pending, he, pendingOf]
        rw [hpending]
        exact Or.inr ⟨i, c, _, .of_server h hserver hc he hsessions rfl
          (hlinked.write (h.server.echo he) hgoes _ rfl)⟩
  | eof i =>
      simp only [step] at hstep
      split at hstep
      case h_2 => cases hstep
      case h_1 c e₀ p₀ hc hway =>
        split at hstep
        case isFalse hnot => cases hstep
        case isTrue hdone =>
          obtain ⟨server, hserver, rfl⟩ := Option.map_eq_some_iff.mp hstep
          obtain ⟨e, e', next, p, he, hgoes, hsessions⟩ := Server.step_session hserver rfl
          obtain ⟨he₀, hreading⟩ := Server.underway_eq_some hway
          rw [he, Option.some.injEq] at he₀
          subst he₀
          have hlinked := h.linked hc
          rw [he] at hlinked
          cases hgoes with
          | failed hop =>
              have hmoves := Moves.of_server h hserver hc he hsessions rfl
                (hlinked.eof hreading hdone.2)
              obtain ⟨hi, hat⟩ := List.getElem?_eq_some_iff.mp hc
              rw [← hat, List.set_getElem_self hi] at hmoves
              exact Or.inr ⟨i, _, _, hmoves⟩

theorem Sound.step {a : Event} (h : Sound sizes s) (hstep : s.step sizes a = some s') :
    Sound sizes s' := by
  rcases step_moves h hstep with ⟨cin, -, rfl⟩ | ⟨i, c, c', hmoves⟩
  · refine ⟨h.server, ?_, ?_⟩
    · rw [List.length_append, List.length_singleton]
      exact Nat.le_succ_of_le h.accepted
    · intro i c hc
      refine forall_concat (P := fun i c => Linked c s.server.sessions[i]?) ?_ h.linked hc
      rw [List.getElem?_eq_none h.accepted]
      obtain ⟨hsound, hrest, hreply⟩ := Client.wrote_spec (c := ⟨request_of cin, .writing [],
        ascii "Enter message: "⟩) (request_of cin) rfl
      refine ⟨?_, hsound, nofun⟩
      rw [Client.main_request, Client.main, hrest, hreply]
      rfl
  · exact hmoves.sound h

theorem Sound.run {as : List Event} (h : Sound sizes s)
    (hrun : runSteps (System.step sizes) s as = some s') : Sound sizes s' :=
  invariant_run (fun hsound hstep => hsound.step hstep) h hrun

theorem start_sound (sizes : Sizes) : Sound sizes start where
  server := Server.start_sound sizes
  accepted := Nat.le_refl _
  linked hc := by cases hc

/-- A step makes what is left to do smaller, but for what a new client adds. -/
theorem measure_step {a : Event} (h : Sound sizes s) (hstep : s.step sizes a = some s') :
    s'.measure < s.measure + charge a := by
  rcases step_moves h hstep with ⟨cin, rfl, rfl⟩ | ⟨i, c, c', hmoves⟩
  · have hnew : weight ⟨Client.main cin, [], []⟩ s.server.sessions[s.connections.length]? =
        4 * (request_of cin).length + 2 := by
      obtain ⟨-, hrest, -⟩ := Client.wrote_spec (c := ⟨request_of cin, .writing [],
        ascii "Enter message: "⟩) (request_of cin) rfl
      rw [List.getElem?_eq_none h.accepted]
      simp only [weight, Client.main, hrest]
      rfl
    have hold : ∀ i ∈ Finset.range s.connections.length,
        (((s.connections ++ [⟨Client.main cin, [], []⟩])[i]?.map fun c =>
          weight c s.server.sessions[i]?).getD 0) =
        (s.connections[i]?.map fun c => weight c s.server.sessions[i]?).getD 0 := by
      intro i hi
      rw [List.getElem?_append_left (Finset.mem_range.mp hi)]
    simp only [measure, charge, List.length_append, List.length_singleton]
    rw [Finset.sum_range_succ, Finset.sum_congr rfl hold, List.getElem?_concat_length,
      Option.map_some, Option.getD_some, hnew]
    omega
  · exact Nat.lt_of_lt_of_le hmoves.measure_lt (Nat.le_add_right _ _)

/-- Every client has returned and every session is gone. -/
def Done (s : System) : Prop :=
  ∀ (i : Nat) (c : Connection), s.connections[i]? = some c → c.client.doing = .returned ∧
    ∃ e, s.server.sessions[i]? = some e ∧ e.operation = none

/-- A session that reads goes on, or its client does, or it reads to the end. -/
theorem Sound.exists_step_reading (h : Sound sizes s) {e : Session} {p : Pointer}
    (hc : s.connections[i]? = some c) (he : s.server.sessions[i]? = some e)
    (hop : e.operation = some (.read_some, p)) {block : Nat} (hblock : block ∉ s.server.store.heap) :
    ∃ a s', s.step sizes a = some s' ∧ charge a = 0 := by
  have hlinked := h.linked hc
  rw [he] at hlinked
  cases hway : c.toServer with
  | cons b bs =>
      have hone : c.toServer.take 1 ≠ [] := by
        rw [hway]
        exact List.cons_ne_nil b []
      have hfits : (c.toServer.take 1).length ≤ max_length := by
        rw [List.length_take]
        exact Nat.le_trans (Nat.min_le_left _ _) (by decide)
      obtain ⟨server, hserver⟩ := h.server.exists_read he hop hone hfits hblock
      have hstep : s.step sizes (.read i 1 block) =
          some ⟨s.connections.set i {c with toServer := c.toServer.drop 1}, server⟩ := by
        simp only [System.step, hc, hserver, Option.map_some]
      exact ⟨_, _, hstep, rfl⟩
  | nil =>
      cases hdoing : c.client.doing with
      | writing rest =>
          have hpos := List.length_pos_iff.mpr (hlinked.client.rest_ne_nil hdoing)
          have hguard : 0 < 1 ∧ 1 ≤ rest.length := ⟨Nat.one_pos, hpos⟩
          have hstep : s.step sizes (.clientWrite i 1) =
              some {s with connections := s.connections.set i {c with
                client := c.client.wrote (rest.drop 1)
                toServer := c.toServer ++ rest.take 1 } } := by
            simp only [System.step, hc, hdoing, if_pos hguard]
          exact ⟨_, _, hstep, rfl⟩
      | reading reply =>
          have hlt := hlinked.client.reply_lt hdoing
          have hlength := congrArg List.length hlinked.flow
          have hidle : pendingOf (some e) = [] := by
            simp only [pendingOf, Option.map_some, Option.getD_some, Session.pending, hop]
          have hrest : c.client.rest = [] := by rw [Client.rest, hdoing]
          have hreply : c.client.reply = reply := by rw [Client.reply, hdoing]
          simp only [List.length_append, hidle, hway, hrest, hreply, List.length_nil] at hlength
          have hguard : 0 < 1 ∧ 1 ≤ c.toClient.length ∧
              reply.length + 1 ≤ c.client.request.length := ⟨Nat.one_pos, by omega, hlt⟩
          have hstep : s.step sizes (.clientRead i 1) =
              some {s with connections := s.connections.set i {c with
                client := c.client.got (reply ++ c.toClient.take 1)
                toClient := c.toClient.drop 1 } } := by
            simp only [System.step, hc, hdoing, if_pos hguard]
          exact ⟨_, _, hstep, rfl⟩
      | returned =>
          obtain ⟨server, hserver⟩ := h.server.exists_fail he hop
          have hunderway : s.server.underway i = some (e, .read_some, p) := by
            simp only [Server.underway, he, hop, Option.bind_some, Option.map_some]
          have hstep : s.step sizes (.eof i) = some {s with server := server} := by
            simp only [System.step, hc, hunderway, if_pos (And.intro hway hdoing), hserver,
              Option.map_some]
          exact ⟨_, _, hstep, rfl⟩

/-- As long as not all is done there is a step. -/
theorem Sound.exists_step (h : Sound sizes s) (hnot : ¬ s.Done) :
    ∃ a s', s.step sizes a = some s' ∧ charge a = 0 := by
  obtain ⟨block, hblock⟩ := Infinite.exists_notMem_finset s.server.store.heap
  simp only [Done, not_forall] at hnot
  obtain ⟨i, c, hc, hnot⟩ := hnot
  obtain ⟨hi, -⟩ := List.getElem?_eq_some_iff.mp hc
  rcases Nat.lt_or_ge i s.server.sessions.length with hlt | hge
  · have he := List.getElem?_eq_getElem hlt
    have hlinked := h.linked hc
    rw [he] at hlinked
    cases hop : s.server.sessions[i].operation with
    | none => exact absurd ⟨hlinked.gone _ rfl hop, _, he, hop⟩ hnot
    | some current =>
        obtain ⟨op, p⟩ := current
        cases op with
        | read_some => exact h.exists_step_reading hc he hop hblock
        | write offset length =>
            have hinside := ((h.server.echo he).inside hop).1
            obtain ⟨server, hserver⟩ := h.server.exists_write he hop Nat.one_pos hinside hblock
            have hstep : s.step sizes (.write i 1 block) =
                some ⟨s.connections.set i {c with
                  toClient := c.toClient ++ (s.pending i).take 1 }, server⟩ := by
              simp only [System.step, hc, hserver, Option.map_some]
            exact ⟨_, _, hstep, rfl⟩
  · have hlt : s.server.sessions.length < s.connections.length := by omega
    obtain ⟨server, hserver⟩ := h.server.exists_accept Server.blank hblock
    refine ⟨.accept Server.blank block, ⟨s.connections, server⟩, ?_, rfl⟩
    rw [System.step, if_pos hlt, hserver, Option.map_some]

/-- What the clients have to say. -/
def requests (s : System) : List (List UInt8) := s.connections.map fun c => c.client.request

theorem Moves.requests (hmoves : Moves sizes s s' i c c') : s'.requests = s.requests := by
  obtain ⟨hi, hat⟩ := List.getElem?_eq_some_iff.mp hmoves.before
  unfold System.requests
  rw [hmoves.after, List.map_set, hmoves.request]
  refine List.ext_getElem? ?_
  intro j
  rcases eq_or_ne j i with rfl | hne
  · rw [List.getElem?_set_self (by rw [List.length_map]; exact hi), List.getElem?_map,
      hmoves.before, Option.map_some]
  · rw [List.getElem?_set_ne hne.symm]

theorem measure_lt_of_step {a : Event} (h : Sound sizes s) (hstep : s.step sizes a = some s')
    (ha : charge a = 0) : s'.measure < s.measure ∧ s'.requests = s.requests := by
  rcases step_moves h hstep with ⟨cin, rfl, -⟩ | ⟨i, c, c', hmoves⟩
  · cases ha
  · exact ⟨hmoves.measure_lt, hmoves.requests⟩

/-- When all is done no memory is in use. -/
theorem Sound.done (h : Sound sizes s) (hdone : s.Done) :
    s.server.store.heap = ∅ ∧ ∀ m ∈ s.server.store.memories, m.in_use_ = false := by
  have hidle : ∀ {e : Session}, e ∈ s.server.sessions → e.operation = none := by
    intro e he
    obtain ⟨i, hi⟩ := List.mem_iff_getElem?.mp he
    obtain ⟨hlt, -⟩ := List.getElem?_eq_some_iff.mp hi
    have hc := List.getElem?_eq_getElem (Nat.lt_of_lt_of_le hlt h.accepted)
    obtain ⟨-, e', he', hnone⟩ := hdone i _ hc
    rw [hi, Option.some.injEq] at he'
    rw [he']
    exact hnone
  have hheld : s.server.held = [] := by
    refine List.filterMap_eq_nil_iff.mpr ?_
    intro e he
    rw [Session.pointer, hidle he, Option.map_none]
  have hfree : ∀ p, ¬ s.server.store.InUse p := by
    intro p huse
    have hmem := (h.server.owes.mem_iff p).mpr huse
    rw [hheld] at hmem
    cases hmem
  refine ⟨Finset.eq_empty_of_forall_notMem fun b => hfree (.heap b), ?_⟩
  intro m hm
  obtain ⟨i, hi⟩ := List.mem_iff_getElem?.mp hm
  have hnot := hfree (.storage i)
  rw [Store.InUse, hi, Option.map_some, Option.some.injEq, Bool.not_eq_true] at hnot
  exact hnot

/-- However the lines are cut on the wires and the steps of the clients and sessions interleaved:
a run has a bounded number of steps, who has returned has printed the line it sent, and the run
can go on until every client has and no session and no memory is left in use. -/
theorem every_client_is_answered (sizes : Sizes) (as : List Event) (s : System)
    (hrun : runSteps (System.step sizes) start as = some s) :
    as.length + s.measure ≤ (as.map charge).sum ∧
      (∀ c ∈ s.connections, c.client.doing = .returned →
        c.client.cout = Client.printout c.client.request) ∧
      ∃ bs t, runSteps (System.step sizes) s bs = some t ∧ bs.length ≤ s.measure ∧
        t.connections.map (fun c => c.client.cout) = s.requests.map Client.printout ∧
        t.server.store.heap = ∅ ∧ ∀ m ∈ t.server.store.memories, m.in_use_ = false := by
  have h : Sound sizes s := (start_sound sizes).run hrun
  have hprinted : ∀ {s : System}, Sound sizes s → ∀ c ∈ s.connections,
      c.client.doing = .returned → c.client.cout = Client.printout c.client.request := by
    intro s h c hc hdoing
    obtain ⟨i, hi⟩ := List.mem_iff_getElem?.mp hc
    rw [(h.linked hi).client.printed, if_pos hdoing]
  refine ⟨?_, hprinted h, ?_⟩
  · have hbound := @length_le_of_charged _ _ (System.step sizes) (Sound sizes) System.measure charge
      (fun hsound hstep => hsound.step hstep) (fun hsound hstep => measure_step hsound hstep) _ _ _
      (start_sound sizes) hrun
    have hzero : start.measure = 0 := rfl
    rw [hzero, Nat.zero_add] at hbound
    exact hbound
  · have hnext : ∀ {t : System}, (Sound sizes t ∧ t.requests = s.requests) → ¬ t.Done →
        ∃ a t', t.step sizes a = some t' ∧ (Sound sizes t' ∧ t'.requests = s.requests) ∧
          t'.measure < t.measure := by
      intro t hsound hnot
      obtain ⟨a, t', hstep, ha⟩ := hsound.1.exists_step hnot
      obtain ⟨hless, hrequests⟩ := measure_lt_of_step hsound.1 hstep ha
      exact ⟨a, t', hstep, ⟨hsound.1.step hstep, hrequests.trans hsound.2⟩, hless⟩
    obtain ⟨bs, t, hrun', hsound, hdone, hlength⟩ :=
      @exists_run_done _ _ (System.step sizes) (fun t => Sound sizes t ∧ t.requests = s.requests)
        System.measure Done hnext _ ⟨h, rfl⟩
    obtain ⟨hheap, hmemories⟩ := hsound.1.done hdone
    refine ⟨bs, t, hrun', hlength, ?_, hheap, hmemories⟩
    rw [← hsound.2, requests, List.map_map]
    apply List.map_congr_left
    intro c hc
    obtain ⟨i, hi⟩ := List.mem_iff_getElem?.mp hc
    exact hprinted hsound.1 c hc (hdone i c hi).1

def talk : List Event :=
  [.connect [104, 105, 10], .accept Server.blank 7, .clientWrite 0 2, .read 0 1 7, .read 0 1 7]

/-- The second byte is not read before the first is written. -/
theorem every_client_is_answered_hi :
    runSteps (System.step ⟨100, 2000⟩) start talk = none ∧
      ∃ s, runSteps (System.step ⟨100, 2000⟩) start (talk.take 4) = some s ∧
        4 + s.measure ≤ 11 := by
  refine ⟨rfl, ?_⟩
  obtain ⟨s, hrun⟩ := Option.isSome_iff_exists.mp
    (show (runSteps (System.step ⟨100, 2000⟩) start (talk.take 4)).isSome = true from rfl)
  exact ⟨s, hrun, (every_client_is_answered _ _ s hrun).1⟩

end System

end LearningCpp.AsyncEcho
