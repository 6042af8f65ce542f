import Mathlib.Data.List.DropRight
import LearningCpp.ExpConf.Text
import LearningCpp.Runtime.Memory

/-!
The messages and the sessions of `boost/3.chat_server.cpp`. A session queues what is
delivered to it and starts a write only when the queue was empty, or when a write has
completed and the queue is not: there is one write at a time, of the front message.
-/

namespace LearningCpp.Chat

def header_length : Nat := 4

def max_body_length : Nat := 512

/-- A header that `decode_header` has accepted. -/
structure Header where
  data : List UInt8
  body_length : Nat
  size : data.length = header_length
  fits : body_length ≤ max_body_length
  deriving DecidableEq

/-- A `ChatMessage` that has been read. -/
structure ChatMessage where
  header : Header
  body : List UInt8
  size : body.length = header.body_length
  deriving DecidableEq

/-- The bytes `data_[0 .. length())`. -/
def ChatMessage.data (msg : ChatMessage) : List UInt8 := msg.header.data ++ msg.body

/-- The value `decode_header` gives to `body_length_`: `strncat` stops at a NUL, and a
negative number becomes a huge `size_t`. -/
def body_length (data : List UInt8) : Nat :=
  intToSize (ExpConf.atoi ((data.takeWhile (· ≠ 0)).map fun c => Char.ofNat c.toNat))

def decode_header (data : List UInt8) : Option Header :=
  if hsize : data.length = header_length then
    if hfits : body_length data ≤ max_body_length then
      some {data := data, body_length := body_length data, size := hsize, fits := hfits}
    else none
  else none

/-- What a session waits for: a header, the body after a header, or nothing any more. -/
inductive Reading where
  | header
  | body (header : Header)
  | stopped
  deriving DecidableEq

/-- A `ChatSession`: of every `async_write` that has not completed, the bytes it has
still to write, and the bytes written to `socket_`. Kept for the specification: how many
messages the room had been given when the session joined, and when it left. -/
structure ChatSession where
  reading : Reading
  write_msgs : List ChatMessage
  outstanding : List (List UInt8)
  written : List UInt8
  joined : Nat
  left : Option Nat
  deriving DecidableEq

namespace ChatSession

/-- `do_write`: an `async_write` of the front message. -/
def do_write (s : ChatSession) : ChatSession :=
  match s.write_msgs with
  | [] => s
  | msg :: _ => {s with outstanding := s.outstanding ++ [msg.data]}

def deliver (s : ChatSession) (msg : ChatMessage) : ChatSession :=
  let write_in_progress := !s.write_msgs.isEmpty
  let s' := {s with write_msgs := s.write_msgs ++ [msg]}
  if !write_in_progress then s'.do_write else s'

/-- A write gets `k` more of its bytes through. -/
def write_some (s : ChatSession) (j k : Nat) : Option ChatSession :=
  match s.outstanding[j]? with
  | none => none
  | some bytes =>
      if 0 < k ∧ k ≤ bytes.length then
        some {s with
          outstanding := s.outstanding.set j (bytes.drop k)
          written := s.written ++ bytes.take k }
      else none

/-- The handler of a write that has got all its bytes through. -/
def write_completed (s : ChatSession) (j : Nat) : Option ChatSession :=
  match s.outstanding[j]?, s.write_msgs with
  | some [], _ :: write_msgs =>
      let s' := {s with outstanding := s.outstanding.eraseIdx j, write_msgs := write_msgs}
      some (if !write_msgs.isEmpty then s'.do_write else s')
  | _, _ => none

/-- What holds of a session to which these messages have been delivered: those before
the queue are written, and of the front of the queue a part. -/
structure Sound (delivered : List ChatMessage) (s : ChatSession) : Prop where
  idle : s.write_msgs = [] → s.outstanding = [] ∧ s.written = delivered.flatMap (·.data)
  busy : ∀ {msg msgs}, s.write_msgs = msg :: msgs → ∃ done sent rest,
    delivered = done ++ msg :: msgs ∧ msg.data = sent ++ rest ∧
      s.outstanding = [rest] ∧ s.written = done.flatMap (·.data) ++ sent

variable {s s' : ChatSession} {delivered : List ChatMessage}

theorem Sound.outstanding_length_le (h : s.Sound delivered) : s.outstanding.length ≤ 1 := by
  cases hqueue : s.write_msgs with
  | nil => simp [(h.idle hqueue).1]
  | cons msg msgs =>
    obtain ⟨done, sent, rest, -, -, houtstanding, -⟩ := h.busy hqueue
    simp [houtstanding]

theorem Sound.outstanding_iff (h : s.Sound delivered) :
    s.outstanding ≠ [] ↔ s.write_msgs ≠ [] := by
  cases hqueue : s.write_msgs with
  | nil => simp [(h.idle hqueue).1]
  | cons msg msgs =>
    obtain ⟨done, sent, rest, -, -, houtstanding, -⟩ := h.busy hqueue
    simp [houtstanding]

theorem Sound.written_prefix (h : s.Sound delivered) :
    s.written <+: delivered.flatMap (·.data) := by
  cases hqueue : s.write_msgs with
  | nil => rw [(h.idle hqueue).2]
  | cons msg msgs =>
    obtain ⟨done, sent, rest, rfl, hdata, -, hwritten⟩ := h.busy hqueue
    rw [hwritten, List.flatMap_append, List.flatMap_cons, hdata, List.append_assoc,
      List.prefix_append_right_inj]
    exact List.prefix_append _ _

theorem Sound.deliver (h : s.Sound delivered) (msg : ChatMessage) :
    (s.deliver msg).Sound (delivered ++ [msg]) := by
  unfold ChatSession.deliver
  cases hqueue : s.write_msgs with
  | nil =>
    obtain ⟨houtstanding, hwritten⟩ := h.idle hqueue
    simp only [List.isEmpty_nil, Bool.not_true, Bool.not_false, List.nil_append, if_true, do_write]
    constructor
    · simp
    · intro front msgs hcons
      simp only [List.cons.injEq] at hcons
      obtain ⟨rfl, rfl⟩ := hcons
      exact ⟨delivered, [], msg.data, rfl, rfl, by simp [houtstanding], by simp [hwritten]⟩
  | cons front msgs =>
    obtain ⟨done, sent, rest, rfl, hdata, houtstanding, hwritten⟩ := h.busy hqueue
    simp only [List.isEmpty_cons, Bool.not_false, Bool.not_true, if_false, List.cons_append,
      Bool.false_eq_true]
    constructor
    · simp
    · intro front' msgs' hcons
      simp only [List.cons.injEq] at hcons
      obtain ⟨rfl, rfl⟩ := hcons
      exact ⟨done, sent, rest, by simp, hdata, houtstanding, hwritten⟩

theorem Sound.foldl_deliver (h : s.Sound delivered) (msgs : List ChatMessage) :
    (msgs.foldl ChatSession.deliver s).Sound (delivered ++ msgs) := by
  induction msgs generalizing s delivered with
  | nil => simpa using h
  | cons msg msgs ih =>
    have hrest := ih (h.deliver msg)
    rwa [List.append_assoc, List.singleton_append] at hrest

/-- Everything but the messages and the writes. -/
def SameMember (s s' : ChatSession) : Prop :=
  s'.reading = s.reading ∧ s'.joined = s.joined ∧ s'.left = s.left

theorem sameMember_do_write (s : ChatSession) : s.SameMember s.do_write := by
  unfold do_write
  split <;> exact ⟨rfl, rfl, rfl⟩

theorem sameMember_deliver (s : ChatSession) (msg : ChatMessage) :
    s.SameMember (s.deliver msg) := by
  unfold deliver
  simp only
  split
  · exact sameMember_do_write _
  · exact ⟨rfl, rfl, rfl⟩

theorem sameMember_foldl_deliver (s : ChatSession) (msgs : List ChatMessage) :
    s.SameMember (msgs.foldl deliver s) := by
  induction msgs generalizing s with
  | nil => exact ⟨rfl, rfl, rfl⟩
  | cons msg msgs ih =>
    obtain ⟨hreading, hjoined, hleft⟩ := ih (s.deliver msg)
    obtain ⟨hreading', hjoined', hleft'⟩ := sameMember_deliver s msg
    exact ⟨hreading.trans hreading', hjoined.trans hjoined', hleft.trans hleft'⟩

theorem sameMember_write_some {j k : Nat} (h : s.write_some j k = some s') : s.SameMember s' := by
  unfold write_some at h
  split at h
  · cases h
  · split at h
    · cases h
      exact ⟨rfl, rfl, rfl⟩
    · cases h

theorem sameMember_write_completed {j : Nat} (h : s.write_completed j = some s') :
    s.SameMember s' := by
  unfold write_completed at h
  split at h
  · simp only [Option.some.injEq] at h
    subst h
    split
    · exact sameMember_do_write _
    · exact ⟨rfl, rfl, rfl⟩
  · cases h

theorem Sound.write_some (h : s.Sound delivered) {j k : Nat}
    (hwrite : s.write_some j k = some s') : s'.Sound delivered := by
  unfold ChatSession.write_some at hwrite
  cases hget : s.outstanding[j]? with
  | none => simp [hget] at hwrite
  | some bytes =>
    simp only [hget] at hwrite
    split at hwrite
    next hk =>
      cases hwrite
      cases hqueue : s.write_msgs with
      | nil =>
        rw [(h.idle hqueue).1] at hget
        cases hget
      | cons msg msgs =>
        obtain ⟨done, sent, rest, hsplit, hdata, houtstanding, hwritten⟩ := h.busy hqueue
        rw [houtstanding, List.getElem?_singleton] at hget
        split at hget
        next hj =>
          subst hj
          cases hget
          constructor
          · intro hnil
            simp at hnil
          · intro front msgs' hcons
            simp only [List.cons.injEq] at hcons
            obtain ⟨rfl, rfl⟩ := hcons
            refine ⟨done, sent ++ bytes.take k, bytes.drop k, hsplit, ?_, ?_, ?_⟩
            · rw [hdata, List.append_assoc, List.take_append_drop]
            · simp [houtstanding]
            · simp [hwritten]
        next => cases hget
    next => cases hwrite

theorem Sound.write_completed (h : s.Sound delivered) {j : Nat}
    (hwrite : s.write_completed j = some s') : s'.Sound delivered := by
  unfold ChatSession.write_completed at hwrite
  split at hwrite
  next msg msgs hget hqueue =>
    obtain ⟨done, sent, rest, hsplit, hdata, houtstanding, hwritten⟩ := h.busy hqueue
    rw [houtstanding, List.getElem?_singleton] at hget
    split at hget
    next hj =>
      subst hj
      cases hget
      rw [List.append_nil] at hdata
      have hdone : s.written = (done ++ [msg]).flatMap (·.data) := by
        rw [hwritten, List.flatMap_append, List.flatMap_singleton, hdata]
      cases hwrite
      cases msgs with
      | nil =>
        constructor
        · intro _
          exact ⟨by simp [houtstanding], by rw [hsplit]; exact hdone⟩
        · intro front msgs' hcons
          simp at hcons
      | cons next msgs =>
        simp only [List.isEmpty_cons, Bool.not_false, if_true, do_write]
        constructor
        · simp
        · intro front msgs' hcons
          simp only [List.cons.injEq] at hcons
          obtain ⟨rfl, rfl⟩ := hcons
          exact ⟨done ++ [msg], [], next.data, by simp [hsplit], rfl, by simp [houtstanding],
            by simpa using hdone⟩
    next => cases hget
  next => cases hwrite

end ChatSession

end LearningCpp.Chat
