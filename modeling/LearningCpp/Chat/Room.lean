import LearningCpp.Chat.Session
import LearningCpp.Library.Machine
import LearningCpp.Library.Mutex

/-!
The room of `boost/3.chat_server.cpp` and every order in which its handlers can run.
A session is sent the recent messages the room holds when it joins, and then what is
delivered to the room until it leaves.
-/

namespace LearningCpp.Chat

open LearningCpp.Library

def max_recent_msgs : Nat := 100

/-- `while (recent_msgs_.size() > max_recent_msgs) recent_msgs_.pop_front();` -/
def trim : List ChatMessage → List ChatMessage
  | [] => []
  | msg :: msgs => if (msg :: msgs).length > max_recent_msgs then trim msgs else msg :: msgs

/-- A `chat_room` with all the sessions that were started. `delivered` keeps all that
was ever given to the room, for the specification. -/
structure ChatRoom where
  participants : Finset Nat
  recent_msgs : List ChatMessage
  sessions : List ChatSession
  delivered : List ChatMessage
  deriving DecidableEq

namespace ChatRoom

/-- A session that reads its first header and has been sent nothing. -/
def participant (room : ChatRoom) : ChatSession where
  reading := .header
  write_msgs := []
  outstanding := []
  written := []
  joined := room.delivered.length
  left := none

/-- `start` of a new session, which joins the room. -/
def join (room : ChatRoom) : ChatRoom :=
  {room with
    participants := insert room.sessions.length room.participants
    sessions := room.sessions ++ [room.recent_msgs.foldl ChatSession.deliver room.participant] }

def leave (room : ChatRoom) (i : Nat) (s : ChatSession) : ChatRoom :=
  {room with
    participants := room.participants.erase i
    sessions := room.sessions.set i
      {s with reading := .stopped, left := some room.delivered.length} }

def deliver (room : ChatRoom) (msg : ChatMessage) : ChatRoom :=
  { participants := room.participants
    recent_msgs := trim (room.recent_msgs ++ [msg])
    sessions := room.sessions.mapIdx fun i s =>
      if i ∈ room.participants then s.deliver msg else s
    delivered := room.delivered ++ [msg] }

/-- The handler of `do_read_header`. -/
def read_header (room : ChatRoom) (i : Nat) (s : ChatSession) (data : List UInt8) : ChatRoom :=
  match decode_header data with
  | none => room.leave i s
  | some header => {room with sessions := room.sessions.set i {s with reading := .body header}}

/-- The handler of `do_read_body`: the message is delivered and a header read next. -/
def read_body (room : ChatRoom) (i : Nat) (s : ChatSession) (msg : ChatMessage) : ChatRoom :=
  ChatRoom.deliver {room with sessions := room.sessions.set i {s with reading := .header}} msg

end ChatRoom

/-- What the `io_context` may run next. -/
inductive Act where
  | accept
  | header (i : Nat) (data : List UInt8)
  | body (i : Nat) (data : List UInt8)
  | readError (i : Nat)
  | writeSome (i j k : Nat)
  | writeCompleted (i j : Nat)
  deriving DecidableEq

def ChatRoom.step (room : ChatRoom) : Act → Option ChatRoom
  | .accept => some room.join
  | .header i data =>
      match room.sessions[i]? with
      | none => none
      | some s =>
          if s.reading = .header ∧ data.length = header_length then some (room.read_header i s data)
          else none
  | .body i data =>
      match room.sessions[i]? with
      | none => none
      | some s =>
          match s.reading with
          | .body header =>
              if hsize : data.length = header.body_length then
                some (room.read_body i s {header := header, body := data, size := hsize})
              else none
          | _ => none
  | .readError i =>
      match room.sessions[i]? with
      | none => none
      | some s => if s.reading = .stopped then none else some (room.leave i s)
  | .writeSome i j k =>
      match room.sessions[i]? with
      | none => none
      | some s => (s.write_some j k).map fun s' => {room with sessions := room.sessions.set i s'}
  | .writeCompleted i j =>
      match room.sessions[i]? with
      | none => none
      | some s =>
          (s.write_completed j).map fun s' => {room with sessions := room.sessions.set i s'}

/-- The server before the first connection. -/
def ChatRoom.start : ChatRoom where
  participants := ∅
  recent_msgs := []
  sessions := []
  delivered := []

/-- What is delivered to a session: the last messages before it joined, and those that
come while it is a member. -/
def ChatRoom.addressed (room : ChatRoom) (s : ChatSession) : List ChatMessage :=
  (room.delivered.take s.joined).rtake max_recent_msgs ++
    (room.delivered.take (s.left.getD room.delivered.length)).drop s.joined

theorem trim_eq (msgs : List ChatMessage) : trim msgs = msgs.rtake max_recent_msgs := by
  induction msgs with
  | nil => rfl
  | cons msg msgs ih =>
    unfold trim
    rw [List.rtake]
    split
    next hlong =>
      simp only [List.length_cons] at hlong
      rw [ih, List.rtake, List.length_cons,
        show msgs.length + 1 - max_recent_msgs = msgs.length - max_recent_msgs + 1 by omega,
        List.drop_succ_cons]
    next hshort =>
      rw [Nat.sub_eq_zero_of_le (by omega), List.drop_zero]

/-- The last `n` are known from the last `n` before. -/
theorem rtake_concat_rtake {α : Type} (xs : List α) (x : α) (n : Nat) :
    (xs.rtake n ++ [x]).rtake n = (xs ++ [x]).rtake n := by
  have hdrop : xs.rtake n ++ [x] = (xs ++ [x]).drop (xs.length - n) :=
    (List.drop_append_of_le_length (by omega)).symm
  rw [hdrop, List.rtake, List.rtake, List.drop_drop, List.length_drop, List.length_append,
    List.length_singleton]
  congr 1
  omega

/-- What holds of session `i`. -/
structure ChatRoom.Serves (room : ChatRoom) (i : Nat) (s : ChatSession) : Prop where
  sound : s.Sound (room.addressed s)
  joined_le : s.joined ≤ room.delivered.length
  left_le : ∀ n ∈ s.left, n ≤ room.delivered.length
  member : i ∈ room.participants ↔ s.left = none
  reading : s.reading = .stopped ↔ s.left ≠ none

structure ChatRoom.Sound (room : ChatRoom) : Prop where
  recent : room.recent_msgs = room.delivered.rtake max_recent_msgs
  serves : ∀ {i s}, room.sessions[i]? = some s → room.Serves i s

variable {room room' : ChatRoom} {i : Nat} {s s' : ChatSession}

theorem ChatRoom.addressed_congr (hdelivered : room'.delivered = room.delivered)
    (hsame : s.SameMember s') : room'.addressed s' = room.addressed s := by
  obtain ⟨-, hjoined, hleft⟩ := hsame
  unfold addressed
  rw [hdelivered, hjoined, hleft]

/-- A session stays served when nothing is delivered to the room and its place in the
room is the same. -/
theorem ChatRoom.Serves.frame (h : room.Serves i s) (hdelivered : room'.delivered = room.delivered)
    (hmember : i ∈ room'.participants ↔ i ∈ room.participants) (hsame : s.SameMember s')
    (hsound : s'.Sound (room.addressed s)) : room'.Serves i s' := by
  obtain ⟨hreading, hjoined, hleft⟩ := hsame
  constructor
  · rwa [addressed_congr hdelivered ⟨hreading, hjoined, hleft⟩]
  · rw [hdelivered, hjoined]
    exact h.joined_le
  · rw [hdelivered, hleft]
    exact h.left_le
  · rw [hmember, hleft]
    exact h.member
  · rw [hreading, hleft]
    exact h.reading

/-- One session changes, and is still served. -/
theorem ChatRoom.Sound.set (h : room.Sound) (hs : room.sessions[i]? = some s)
    (hnew : Serves {room with sessions := room.sessions.set i s'} i s') :
    ChatRoom.Sound {room with sessions := room.sessions.set i s'} := by
  refine ⟨h.recent, ?_⟩
  intro j t ht
  rcases (Mutex.getElem?_set_of_some hs j).1 ht with ⟨rfl, rfl⟩ | ⟨_, hold⟩
  · exact hnew
  · have hserves := h.serves hold
    exact hserves.frame rfl Iff.rfl ⟨rfl, rfl, rfl⟩ hserves.sound

theorem ChatRoom.start_sound : start.Sound := by
  refine ⟨rfl, ?_⟩
  intro i s hs
  simp [start] at hs

/-- A new session is addressed with the messages the room remembers. -/
theorem ChatRoom.Sound.serves_participant (h : room.Sound) :
    room.join.Serves room.sessions.length
      (room.recent_msgs.foldl ChatSession.deliver room.participant) := by
  have hfresh : room.participant.Sound [] := ⟨fun _ => ⟨rfl, rfl⟩, nofun⟩
  have hsound := hfresh.foldl_deliver room.recent_msgs
  obtain ⟨hreading, hjoined, hleft⟩ :=
    ChatSession.sameMember_foldl_deliver room.participant room.recent_msgs
  constructor
  · unfold addressed
    rw [hjoined, hleft]
    simpa [participant, ChatRoom.join, ← h.recent] using hsound
  · rw [hjoined]
    exact le_rfl
  · rw [hleft]
    nofun
  · rw [hleft]
    simp [ChatRoom.join, participant]
  · rw [hreading, hleft]
    simp [participant]

theorem ChatRoom.Sound.join (h : room.Sound) : room.join.Sound := by
  refine ⟨h.recent, ?_⟩
  intro i s hs
  simp only [ChatRoom.join, List.getElem?_append] at hs
  split at hs
  next hi =>
    have hserves := h.serves hs
    refine hserves.frame rfl ?_ ⟨rfl, rfl, rfl⟩ hserves.sound
    simp [ChatRoom.join, hi.ne]
  next hi =>
    rw [List.getElem?_singleton] at hs
    split at hs
    next hzero =>
      rw [Option.some.injEq] at hs
      rw [show i = room.sessions.length by omega, ← hs]
      exact h.serves_participant
    next => cases hs

theorem ChatRoom.Sound.leave (h : room.Sound) (hs : room.sessions[i]? = some s)
    (hreading : s.reading ≠ .stopped) : (room.leave i s).Sound := by
  have hserves := h.serves hs
  have hmember : s.left = none := by
    by_contra hleft
    exact hreading (hserves.reading.2 hleft)
  refine ⟨h.recent, ?_⟩
  intro j t ht
  rcases (Mutex.getElem?_set_of_some hs j).1 ht with ⟨rfl, rfl⟩ | ⟨hne, hold⟩
  · constructor
    · have hsound := hserves.sound
      unfold addressed at hsound ⊢
      rw [hmember] at hsound
      exact ⟨hsound.idle, hsound.busy⟩
    · exact hserves.joined_le
    · simp [ChatRoom.leave]
    · simp [ChatRoom.leave]
    · simp
  · have hother := h.serves hold
    refine hother.frame rfl ?_ ⟨rfl, rfl, rfl⟩ hother.sound
    simp [ChatRoom.leave, hne]

/-- The session goes on to read something else. -/
theorem ChatRoom.Sound.set_reading (h : room.Sound) (hs : room.sessions[i]? = some s)
    (hreading : s.reading ≠ .stopped) (reading : Reading) (hnew : reading ≠ .stopped) :
    ChatRoom.Sound {room with sessions := room.sessions.set i {s with reading := reading}} := by
  have hserves := h.serves hs
  apply h.set hs
  constructor
  · have hsound := hserves.sound
    exact ⟨hsound.idle, hsound.busy⟩
  · exact hserves.joined_le
  · exact hserves.left_le
  · exact hserves.member
  · simp only [hnew, false_iff]
    exact hserves.reading.not.1 hreading

theorem ChatRoom.addressed_deliver (h : room.Serves i s) (msg : ChatMessage) :
    (room.deliver msg).addressed s =
      if i ∈ room.participants then room.addressed s ++ [msg] else room.addressed s := by
  have hjoined := h.joined_le
  unfold addressed
  simp only [ChatRoom.deliver, List.length_append, List.length_singleton]
  rw [List.take_append_of_le_length hjoined]
  split
  next hmember =>
    have hall : (room.delivered ++ [msg]).take (room.delivered.length + 1) =
        room.delivered ++ [msg] := List.take_of_length_le (by simp)
    rw [h.member.1 hmember, Option.getD_none, Option.getD_none, hall, List.take_length,
      List.drop_append_of_le_length hjoined, List.append_assoc]
  next hmember =>
    obtain ⟨n, hn⟩ := Option.ne_none_iff_exists'.1 (h.member.not.1 hmember)
    have hle := h.left_le n hn
    rw [hn, Option.getD_some, Option.getD_some, List.take_append_of_le_length hle]

theorem ChatRoom.Sound.deliver (h : room.Sound) (msg : ChatMessage) : (room.deliver msg).Sound := by
  constructor
  · simp only [ChatRoom.deliver]
    rw [trim_eq, h.recent]
    exact rtake_concat_rtake _ _ _
  · intro i t ht
    simp only [ChatRoom.deliver, List.getElem?_mapIdx, Option.map_eq_some_iff] at ht
    obtain ⟨s, hs, rfl⟩ := ht
    have hserves := h.serves hs
    have haddressed := addressed_deliver hserves msg
    split
    next hmember =>
      rw [if_pos hmember] at haddressed
      obtain ⟨hreading, hjoined, hleft⟩ := ChatSession.sameMember_deliver s msg
      constructor
      · unfold addressed at haddressed ⊢
        rw [hjoined, hleft, haddressed]
        exact hserves.sound.deliver msg
      · rw [hjoined]
        simp only [ChatRoom.deliver, List.length_append]
        have hle := hserves.joined_le
        omega
      · rw [hleft, hserves.member.1 hmember]
        nofun
      · rw [hleft]
        exact hserves.member
      · rw [hreading, hleft]
        exact hserves.reading
    next hmember =>
      rw [if_neg hmember] at haddressed
      constructor
      · rw [haddressed]
        exact hserves.sound
      · simp only [ChatRoom.deliver, List.length_append]
        have hle := hserves.joined_le
        omega
      · intro n hn
        simp only [ChatRoom.deliver, List.length_append]
        have hle := hserves.left_le n hn
        omega
      · exact hserves.member
      · exact hserves.reading

/-- A completed or partial write of session `i`. -/
theorem ChatRoom.Sound.set_written (h : room.Sound) (hs : room.sessions[i]? = some s)
    (hsame : s.SameMember s') (hsound : s'.Sound (room.addressed s)) :
    ChatRoom.Sound {room with sessions := room.sessions.set i s'} :=
  h.set hs ((h.serves hs).frame rfl Iff.rfl hsame hsound)

theorem ChatRoom.Sound.read_header (h : room.Sound) (hs : room.sessions[i]? = some s)
    (hreading : s.reading ≠ .stopped) (data : List UInt8) : (room.read_header i s data).Sound := by
  unfold ChatRoom.read_header
  split
  · exact h.leave hs hreading
  · exact h.set_reading hs hreading _ (by simp)

theorem ChatRoom.Sound.read_body (h : room.Sound) (hs : room.sessions[i]? = some s)
    (hreading : s.reading ≠ .stopped) (msg : ChatMessage) : (room.read_body i s msg).Sound := by
  have hset := h.set_reading hs hreading .header (by simp)
  exact hset.deliver msg

theorem ChatRoom.Sound.step (h : room.Sound) {a : Act} (hstep : room.step a = some room') :
    room'.Sound := by
  cases a with
  | accept =>
    cases hstep
    exact h.join
  | header i data =>
    simp only [ChatRoom.step] at hstep
    split at hstep
    next => cases hstep
    next s hs =>
      split at hstep
      next hready =>
        cases hstep
        exact h.read_header hs (by rw [hready.1]; nofun) data
      next => cases hstep
  | body i data =>
    simp only [ChatRoom.step] at hstep
    split at hstep
    next => cases hstep
    next s hs =>
      split at hstep
      next header hreading =>
        split at hstep
        · cases hstep
          exact h.read_body hs (by rw [hreading]; nofun) _
        · cases hstep
      next => cases hstep
  | readError i =>
    simp only [ChatRoom.step] at hstep
    split at hstep
    next => cases hstep
    next s hs =>
      split at hstep
      next => cases hstep
      next hreading =>
        cases hstep
        exact h.leave hs hreading
  | writeSome i j k =>
    simp only [ChatRoom.step] at hstep
    split at hstep
    next => cases hstep
    next s hs =>
      obtain ⟨s', hwrite, rfl⟩ := Option.map_eq_some_iff.1 hstep
      exact h.set_written hs (ChatSession.sameMember_write_some hwrite)
        ((h.serves hs).sound.write_some hwrite)
  | writeCompleted i j =>
    simp only [ChatRoom.step] at hstep
    split at hstep
    next => cases hstep
    next s hs =>
      obtain ⟨s', hwrite, rfl⟩ := Option.map_eq_some_iff.1 hstep
      exact h.set_written hs (ChatSession.sameMember_write_completed hwrite)
        ((h.serves hs).sound.write_completed hwrite)

/-- In every run a session has at most one write outstanding, and one exactly when its
queue is not empty; and what is written to its socket is a prefix of the last messages
before it joined and of those delivered while it was in the room, one after the other. -/
theorem chat_session_writes_in_order {as : List Act}
    (hrun : runSteps ChatRoom.step ChatRoom.start as = some room)
    (hs : room.sessions[i]? = some s) :
    s.outstanding.length ≤ 1 ∧ (s.outstanding.length = 1 ↔ s.write_msgs ≠ []) ∧
      s.written <+: ((room.delivered.take s.joined).rtake max_recent_msgs ++
        (room.delivered.take (s.left.getD room.delivered.length)).drop s.joined).flatMap (·.data) := by
  have hsound := invariant_run (fun h hstep => ChatRoom.Sound.step h hstep) ChatRoom.start_sound hrun
  have hserves := (hsound.serves hs).sound
  refine ⟨hserves.outstanding_length_le, ?_, hserves.written_prefix⟩
  have hle := hserves.outstanding_length_le
  rw [← hserves.outstanding_iff, ← List.length_pos_iff]
  omega

/-- The first of two clients says `hi`; three bytes of it are on their way to the second. -/
theorem chat_session_writes_in_order_hi :
    ∃ room s, runSteps ChatRoom.step ChatRoom.start
        [.accept, .accept, .header 0 [32, 32, 32, 50], .body 0 [104, 105], .writeSome 1 0 3] =
          some room ∧
      room.sessions[1]? = some s ∧ s.written = [32, 32, 32] ∧ s.outstanding.length ≤ 1 := by
  have hrun : runSteps ChatRoom.step ChatRoom.start
      [.accept, .accept, .header 0 [32, 32, 32, 50], .body 0 [104, 105], .writeSome 1 0 3] =
        some _ := rfl
  exact ⟨_, _, hrun, rfl, rfl, (chat_session_writes_in_order hrun (i := 1) rfl).1⟩

end LearningCpp.Chat
