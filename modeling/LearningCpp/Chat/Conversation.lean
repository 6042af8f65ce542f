import LearningCpp.Chat.Client

/-!
What holds in every run of the chat: what a client said reaches the room whole and in order,
and a client prints what is addressed to its session, in the order of the room.
-/

namespace LearningCpp.Chat

open LearningCpp.Library

/-- The stream of the messages, as a reader of heads and bodies takes it apart. -/
abbrev MessageReads (msgs heard : List ChatMessage) (next : Option ChatMessage) (taken : Nat) :
    Prop :=
  Reads (fun msg : ChatMessage => msg.header.data) ChatMessage.body msgs heard next taken

/-- How far a reader has come that has taken `taken` bytes of the stream of `msgs`. -/
def ReadsAt (reading : Reading) (msgs heard : List ChatMessage) (taken : Nat) : Prop :=
  match reading with
  | .header => MessageReads msgs heard none taken
  | .body header => ∃ msg, msg.header = header ∧ MessageReads msgs heard (some msg) taken
  | .stopped => heard <+: msgs

variable {reading : Reading} {msgs more heard : List ChatMessage} {taken : Nat}
  {w data : List UInt8}

theorem ReadsAt.extend (h : ReadsAt reading msgs heard taken) (hmore : msgs <+: more) :
    ReadsAt reading more heard taken := by
  cases reading with
  | header => exact Reads.extend h hmore
  | body header =>
      obtain ⟨msg, hheader, hreads⟩ := h
      exact ⟨msg, hheader, hreads.extend hmore⟩
  | stopped => exact h.trans hmore

theorem ReadsAt.heard_prefix (h : ReadsAt reading msgs heard taken) : heard <+: msgs := by
  cases reading with
  | header => exact Reads.heard_prefix h
  | body header =>
      obtain ⟨msg, -, hreads⟩ := h
      exact hreads.heard_prefix
  | stopped => exact h

theorem arrived_eq_some {written : List UInt8} {k : Nat} (h : arrived written taken k = some data) :
    taken + k ≤ written.length ∧ (written.drop taken).take k = data := by
  simpa [arrived] using h

/-- A header that has arrived is that of the next message. -/
theorem ReadsAt.header_arrived (h : ReadsAt .header msgs heard taken)
    (hw : w <+: msgs.flatMap (·.data)) (hencoded : ∀ msg ∈ msgs, msg.Encoded)
    (harrived : arrived w taken header_length = some data) :
    ∃ header, decode_header data = some header ∧
      ReadsAt (.body header) msgs heard (taken + header_length) := by
  obtain ⟨hlong, hdata⟩ := arrived_eq_some harrived
  obtain ⟨msg, hmem, hhead, hreads⟩ := Reads.read_head h hw (fun msg _ => msg.header.size)
    (by decide) hlong
  refine ⟨msg.header, ?_, msg, rfl, hreads⟩
  rw [← hdata, hhead]
  exact hencoded msg hmem

/-- A body that has arrived makes the next message whole. -/
theorem ReadsAt.body_arrived {header : Header} (h : ReadsAt (.body header) msgs heard taken)
    (hw : w <+: msgs.flatMap (·.data)) (harrived : arrived w taken header.body_length = some data)
    (hsize : data.length = header.body_length) :
    ReadsAt .header msgs (heard ++ [{header := header, body := data, size := hsize}])
      (taken + header.body_length) := by
  obtain ⟨msg, rfl, hreads⟩ := h
  obtain ⟨hlong, hdata⟩ := arrived_eq_some harrived
  rw [← msg.size] at hlong hdata
  obtain ⟨hbody, hnext⟩ := hreads.read_body hw hlong
  obtain rfl : msg.body = data := hbody.symm.trans hdata
  rw [← msg.size]
  exact hnext

/-- A delivery leaves what was addressed to a session before, and what the session reads. -/
theorem addressed_deliver_prefix {room : ChatRoom} {i : Nat} {s : ChatSession}
    (h : room.Serves i s) (msg : ChatMessage) :
    (if i ∈ room.participants then s.deliver msg else s).reading = s.reading ∧
      room.addressed s <+:
        (room.deliver msg).addressed (if i ∈ room.participants then s.deliver msg else s) := by
  have haddressed := ChatRoom.addressed_deliver h msg
  split
  case isTrue hmember =>
    have hsame := ChatSession.sameMember_deliver s msg
    rw [if_pos hmember] at haddressed
    rw [ChatRoom.addressed_congr rfl hsame, haddressed]
    exact ⟨hsame.1, List.prefix_append _ _⟩
  case isFalse hmember =>
    rw [if_neg hmember] at haddressed
    rw [haddressed]
    exact ⟨rfl, List.prefix_refl _⟩

namespace ChatSystem

/-- The messages that session `i` has given to the room. -/
def deliveredBy (chat : ChatSystem) (i : Nat) : List ChatMessage :=
  (chat.room.delivered.zip chat.origins).filterMap fun p => if p.2 = i then some p.1 else none

/-- What holds of client `i` and its session. -/
structure Serves (chat : ChatSystem) (i : Nat) (c : ChatClient) (s : ChatSession) : Prop where
  queue : c.queue.Sound (c.said.map Line.message)
  up : ReadsAt s.reading (c.said.map Line.message) c.given c.served
  down : ReadsAt c.reading (chat.room.addressed s) c.heard c.taken
  cout : c.cout = c.heard.flatMap fun msg => msg.body ++ [10]
  given : c.given = chat.deliveredBy i

/-- What is true of the chat at all times. -/
structure Sound (chat : ChatSystem) : Prop where
  room : chat.room.Sound
  paired : chat.clients.length = chat.room.sessions.length
  tagged : chat.origins.length = chat.room.delivered.length
  known : ∀ i ∈ chat.origins, i < chat.clients.length
  encoded : ∀ msg ∈ chat.room.delivered, msg.Encoded
  serves : ∀ {i : Nat} {c : ChatClient} {s : ChatSession}, chat.clients[i]? = some c →
    chat.room.sessions[i]? = some s → chat.Serves i c s

variable {chat chat' : ChatSystem} {i : Nat} {c c' : ChatClient} {s s' : ChatSession}

theorem start_sound : start.Sound where
  room := ChatRoom.start_sound
  paired := rfl
  tagged := rfl
  known := nofun
  encoded := nofun
  serves := fun hc => by cases hc

/-- A step of client `i` alone. -/
theorem Sound.put (h : chat.Sound) (hc : chat.clients[i]? = some c)
    (hs : chat.room.sessions[i]? = some s) (hnew : chat.Serves i c' s) :
    (chat.put i c').Sound where
  room := h.room
  paired := by
    simp only [ChatSystem.put, List.length_set]
    exact h.paired
  tagged := h.tagged
  known := by
    simp only [ChatSystem.put, List.length_set]
    exact h.known
  encoded := h.encoded
  serves := by
    intro j d t hd ht
    rcases (Mutex.getElem?_set_of_some hc j).mp hd with ⟨rfl, rfl⟩ | ⟨-, hold⟩
    · obtain rfl := Option.some.inj (hs.symm.trans ht)
      exact ⟨hnew.queue, hnew.up, hnew.down, hnew.cout, hnew.given⟩
    · have hserves := h.serves hold ht
      exact ⟨hserves.queue, hserves.up, hserves.down, hserves.cout, hserves.given⟩

/-- A step of session `i` with which nothing is delivered. -/
theorem Sound.serve_set (h : chat.Sound) (hc : chat.clients[i]? = some c)
    (hs : chat.room.sessions[i]? = some s) {room : ChatRoom} (hroom : room.Sound)
    (hsessions : room.sessions = chat.room.sessions.set i s')
    (hdelivered : room.delivered = chat.room.delivered)
    (haddressed : room.addressed s' = chat.room.addressed s) {served : Nat}
    (hup : ReadsAt s'.reading (c.said.map Line.message) c.given served) :
    Sound {chat.put i {c with served := served} with room := room} where
  room := hroom
  paired := by
    simp only [ChatSystem.put, List.length_set, hsessions]
    exact h.paired
  tagged := by
    simp only [ChatSystem.put, hdelivered]
    exact h.tagged
  known := by
    simp only [ChatSystem.put, List.length_set]
    exact h.known
  encoded := by
    simp only [hdelivered]
    exact h.encoded
  serves := by
    have hby : ∀ j, deliveredBy {chat.put i {c with served := served} with room := room} j =
        chat.deliveredBy j := by
      intro j
      simp only [deliveredBy, ChatSystem.put, hdelivered]
    have hold := h.serves hc hs
    intro j d t hd ht
    simp only [hsessions] at ht
    rcases (Mutex.getElem?_set_of_some hc j).mp hd with ⟨rfl, rfl⟩ | ⟨hne, hold⟩
    · obtain ⟨-, rfl⟩ :=
        (Mutex.getElem?_set_of_some hs j).mp ht |>.resolve_right (fun hr => hr.1 rfl)
      exact ⟨hold.queue, hup, haddressed ▸ hold.down, hold.cout, (hby j).symm ▸ hold.given⟩
    · obtain ⟨-, hold'⟩ :=
        (Mutex.getElem?_set_of_some hs j).mp ht |>.resolve_left (fun hl => hne hl.1)
      have hserves := h.serves hold hold'
      have hsame : room.addressed t = chat.room.addressed t :=
        ChatRoom.addressed_congr hdelivered ⟨rfl, rfl, rfl⟩
      exact ⟨hserves.queue, hserves.up, hsame.symm ▸ hserves.down, hserves.cout,
        (hby j).symm ▸ hserves.given⟩

/-- One more message is delivered, and it is from session `i`. -/
theorem deliveredBy_concat (h : chat.Sound) {room : ChatRoom} {msg : ChatMessage}
    (hdelivered : room.delivered = chat.room.delivered ++ [msg]) (clients : List ChatClient)
    (i j : Nat) :
    deliveredBy {room := room, clients := clients, origins := chat.origins ++ [i]} j =
      chat.deliveredBy j ++ if i = j then [msg] else [] := by
  simp only [deliveredBy, hdelivered]
  rw [List.zip_append h.tagged.symm, List.filterMap_append]
  congr 1
  split
  case isTrue heq => simp [heq]
  case isFalse hne => simp [hne]

/-- Session `i` gives the room a message that its client has sent. -/
theorem Sound.serve_body (h : chat.Sound) (hc : chat.clients[i]? = some c)
    (hs : chat.room.sessions[i]? = some s) (hreading : s.reading ≠ .stopped) {msg : ChatMessage}
    (hencoded : msg.Encoded) {served : Nat}
    (hup : ReadsAt .header (c.said.map Line.message) (c.given ++ [msg]) served) :
    Sound
      { room := chat.room.read_body i s msg
        clients := chat.clients.set i {c with served := served, given := c.given ++ [msg]}
        origins := chat.origins ++ [i] } where
  room := h.room.read_body hs hreading msg
  paired := by
    simp only [List.length_set, ChatRoom.read_body, ChatRoom.deliver, List.length_mapIdx]
    exact h.paired
  tagged := by
    simp only [ChatRoom.read_body, ChatRoom.deliver, List.length_append, List.length_singleton,
      h.tagged]
  known := by
    intro j hj
    rw [List.length_set]
    rcases List.mem_append.mp hj with hold | hnew
    · exact h.known j hold
    · obtain rfl := List.mem_singleton.mp hnew
      exact (List.getElem?_eq_some_iff.mp hc).1
  encoded := by
    intro m hm
    rcases List.mem_append.mp hm with hold | hnew
    · exact h.encoded m hold
    · obtain rfl := List.mem_singleton.mp hnew
      exact hencoded
  serves := by
    have hbase := h.room.set_reading hs hreading .header (by simp)
    intro j d t hd ht
    -- session `j` as it is when the message is delivered, before it is sent to the session
    simp only [ChatRoom.read_body, ChatRoom.deliver, List.getElem?_mapIdx,
      Option.map_eq_some_iff] at ht
    obtain ⟨t₀, ht₀, rfl⟩ := ht
    obtain ⟨hsame, hextends⟩ := addressed_deliver_prefix (hbase.serves ht₀) msg
    have hdelivered : (chat.room.read_body i s msg).delivered = chat.room.delivered ++ [msg] := rfl
    have hby := deliveredBy_concat h hdelivered
      (chat.clients.set i {c with served := served, given := c.given ++ [msg]}) i j
    rcases (Mutex.getElem?_set_of_some hc j).mp hd with ⟨rfl, rfl⟩ | ⟨hne, hold⟩
    · obtain ⟨-, rfl⟩ :=
        (Mutex.getElem?_set_of_some hs j).mp ht₀ |>.resolve_right (fun hr => hr.1 rfl)
      have hserves := h.serves hc hs
      rw [if_pos rfl, ← hserves.given] at hby
      exact ⟨hserves.queue, hsame.symm ▸ hup, hserves.down.extend hextends, hserves.cout, hby.symm⟩
    · obtain ⟨-, hold'⟩ :=
        (Mutex.getElem?_set_of_some hs j).mp ht₀ |>.resolve_left (fun hl => hne hl.1)
      have hserves := h.serves hold hold'
      rw [if_neg hne.symm, List.append_nil, ← hserves.given] at hby
      exact ⟨hserves.queue, hsame.symm ▸ hserves.up, hserves.down.extend hextends, hserves.cout,
        hby.symm⟩

/-- A client connects, and is addressed with what the room remembers. -/
theorem Sound.connect (h : chat.Sound) :
    Sound {chat with room := chat.room.join, clients := chat.clients ++ [.connected]} where
  room := h.room.join
  paired := by
    simp only [ChatRoom.join, List.length_append, List.length_singleton, h.paired]
  tagged := h.tagged
  known := by
    intro j hj
    rw [List.length_append]
    exact Nat.lt_add_right 1 (h.known j hj)
  encoded := h.encoded
  serves := by
    intro j d t hd ht
    have hroom := h.room.join.serves ht
    simp only [ChatRoom.join] at ht
    rcases lt_or_ge j chat.clients.length with hlt | hge
    · rw [List.getElem?_append_left hlt] at hd
      rw [List.getElem?_append_left (h.paired ▸ hlt)] at ht
      have hserves := h.serves hd ht
      exact ⟨hserves.queue, hserves.up, hserves.down, hserves.cout, hserves.given⟩
    · rw [List.getElem?_append_right hge, List.getElem?_singleton] at hd
      rw [List.getElem?_append_right (h.paired ▸ hge), List.getElem?_singleton] at ht
      split at hd
      case isFalse => cases hd
      case isTrue hzero =>
        rw [if_pos (h.paired ▸ hzero)] at ht
        cases hd
        cases ht
        obtain ⟨hreading, -, -⟩ :=
          ChatSession.sameMember_foldl_deliver chat.room.participant chat.room.recent_msgs
        refine ⟨⟨fun _ => ⟨rfl, rfl⟩, ?_⟩, ?_, Reads.start _, rfl, ?_⟩
        · intro first rest hmsgs
          cases hmsgs
        · rw [hreading]
          exact Reads.start _
        · -- nothing was delivered by a session that did not exist
          symm
          rw [deliveredBy, ChatClient.connected, List.filterMap_eq_nil_iff]
          intro p hp
          rw [if_neg]
          rintro rfl
          exact absurd (h.known p.2 (List.of_mem_zip hp).2) (Nat.not_lt.mpr hge)

/-- The bytes of a client are those of its messages, as far as they were written. -/
theorem Serves.written_prefix (h : chat.Serves i c s) :
    c.written <+: (c.said.map Line.message).flatMap (·.data) := h.queue.written_prefix

theorem said_encoded (c : ChatClient) : ∀ msg ∈ c.said.map Line.message, msg.Encoded := by
  intro msg hmem
  obtain ⟨line, -, rfl⟩ := List.mem_map.mp hmem
  exact line.message_encoded

/-- What was addressed to a session was delivered to the room. -/
theorem addressed_encoded (h : chat.Sound) (s : ChatSession) :
    ∀ msg ∈ chat.room.addressed s, msg.Encoded := by
  intro msg hmem
  apply h.encoded
  rcases List.mem_append.mp hmem with hbefore | hafter
  · exact List.mem_of_mem_take (List.mem_of_mem_drop hbefore)
  · exact List.mem_of_mem_take (List.mem_of_mem_drop hafter)

theorem addressed_leave {room : ChatRoom} (h : room.Serves i s) (hreading : s.reading ≠ .stopped) :
    (room.leave i s).addressed {s with reading := .stopped, left := some room.delivered.length} =
      room.addressed s := by
  have hmember : s.left = none := by
    by_contra hleft
    exact hreading (h.reading.2 hleft)
  simp only [ChatRoom.addressed, ChatRoom.leave, hmember, Option.getD_some, Option.getD_none]

theorem Sound.sessionRead (h : chat.Sound) (hc : chat.clients[i]? = some c)
    (hs : chat.room.sessions[i]? = some s) (hstep : chat.sessionRead i c s = some chat') :
    chat'.Sound := by
  have hserves := h.serves hc hs
  have hup := hserves.up
  unfold ChatSystem.sessionRead at hstep
  split at hstep
  case h_3 => cases hstep
  case h_1 hreading =>
    have hlive : s.reading ≠ .stopped := by
      rw [hreading]
      intro hstopped
      cases hstopped
    split at hstep
    case h_1 => cases hstep
    case h_2 data harrived =>
      rw [hreading] at hup
      obtain ⟨header, hdecode, hnext⟩ :=
        hup.header_arrived hserves.written_prefix (said_encoded c) harrived
      have hlength : data.length = header_length := by
        rw [← decode_header_data hdecode]
        exact header.size
      simp only [serve, ChatRoom.step, hs, if_pos (And.intro hreading hlength), Option.map_some,
        Option.some.injEq, ChatRoom.read_header, hdecode] at hstep
      subst hstep
      exact h.serve_set hc hs (h.room.set_reading hs hlive (.body header) (by simp)) rfl rfl rfl
        hnext
  case h_2 header hreading =>
    have hlive : s.reading ≠ .stopped := by
      rw [hreading]
      intro hstopped
      cases hstopped
    split at hstep
    case h_1 => cases hstep
    case h_2 data harrived =>
      split at hstep
      case isFalse => cases hstep
      case isTrue hsize =>
        rw [hreading] at hup
        have hnext := hup.body_arrived hserves.written_prefix harrived hsize
        simp only [serve, ChatRoom.step, hs, hreading, dif_pos hsize, Option.map_some,
          Option.some.injEq] at hstep
        subst hstep
        have hencoded := said_encoded c _ (hnext.heard_prefix.mem
          (List.mem_append_right c.given (List.mem_singleton_self _)))
        exact h.serve_body hc hs hlive hencoded hnext

theorem Sound.clientRead (h : chat.Sound) (hc : chat.clients[i]? = some c)
    (hs : chat.room.sessions[i]? = some s) (hstep : chat.clientRead i c s = some chat') :
    chat'.Sound := by
  have hserves := h.serves hc hs
  have hdown := hserves.down
  have hwritten := (h.room.serves hs).sound.written_prefix
  unfold ChatSystem.clientRead at hstep
  split at hstep
  case h_3 => cases hstep
  case h_1 hreading =>
    obtain ⟨data, harrived, rfl⟩ := Option.map_eq_some_iff.mp hstep
    rw [hreading] at hdown
    obtain ⟨header, hdecode, hnext⟩ :=
      hdown.header_arrived hwritten (addressed_encoded h s) harrived
    have hlength : data.length = header_length := by
      rw [← decode_header_data hdecode]
      exact header.size
    apply h.put hc hs
    rw [ChatClient.read_header, hdecode, hlength]
    exact ⟨hserves.queue, hserves.up, hnext, hserves.cout, hserves.given⟩
  case h_2 header hreading =>
    split at hstep
    case h_1 => cases hstep
    case h_2 data harrived =>
      split at hstep
      case isFalse => cases hstep
      case isTrue hsize =>
        cases hstep
        rw [hreading] at hdown
        have hnext := hdown.body_arrived hwritten harrived hsize
        apply h.put hc hs
        refine ⟨hserves.queue, hserves.up, ?_, ?_, hserves.given⟩
        · simp only [ChatClient.read_body, hsize]
          exact hnext
        · simp only [ChatClient.read_body, hserves.cout, List.flatMap_append,
            List.flatMap_singleton]

/-- A write of a client leaves what it reads, and what is read of it. -/
theorem Sound.put_written (h : chat.Sound) (hc : chat.clients[i]? = some c)
    (hs : chat.room.sessions[i]? = some s) (hsame : c.SameReader c')
    (hsaid : c.said.map Line.message <+: c'.said.map Line.message)
    (hqueue : c'.queue.Sound (c'.said.map Line.message)) : (chat.put i c').Sound := by
  obtain ⟨hreading, htaken, hcout, hserved, hheard, hgiven⟩ := hsame
  have hserves := h.serves hc hs
  apply h.put hc hs
  refine ⟨hqueue, ?_, ?_, ?_, ?_⟩
  · rw [hgiven, hserved]
    exact hserves.up.extend hsaid
  · rw [hreading, hheard, htaken]
    exact hserves.down
  · rw [hcout, hheard]
    exact hserves.cout
  · rw [hgiven]
    exact hserves.given

/-- A write of a session leaves what it reads. -/
theorem Sound.serve_written (h : chat.Sound) (hc : chat.clients[i]? = some c)
    (hs : chat.room.sessions[i]? = some s) (hsame : s.SameMember s')
    (hsound : s'.Sound (chat.room.addressed s)) :
    Sound {chat.put i c with room := {chat.room with sessions := chat.room.sessions.set i s'}} := by
  have hup : ReadsAt s'.reading (c.said.map Line.message) c.given c.served := by
    rw [hsame.1]
    exact (h.serves hc hs).up
  exact h.serve_set hc hs (h.room.set_written hs hsame hsound) rfl rfl
    (ChatRoom.addressed_congr rfl hsame) hup

theorem stepAt_eq_some {f : ChatClient → ChatSession → Option ChatSystem}
    (hstep : chat.stepAt i f = some chat') :
    ∃ c s, chat.clients[i]? = some c ∧ chat.room.sessions[i]? = some s ∧ f c s = some chat' := by
  unfold stepAt at hstep
  split at hstep
  case h_1 c s hc hs => exact ⟨c, s, hc, hs, hstep⟩
  case h_2 => cases hstep

theorem Sound.step (h : chat.Sound) {e : Event} (hstep : chat.step e = some chat') :
    chat'.Sound := by
  cases e with
  | connect =>
      cases hstep
      exact h.connect
  | write i line =>
      obtain ⟨c, s, hc, hs, hstep⟩ := stepAt_eq_some hstep
      cases hstep
      obtain ⟨hsame, hsaid⟩ := c.sameReader_write line
      apply h.put_written hc hs hsame
      · rw [hsaid, List.map_append]
        exact List.prefix_append _ _
      · rw [ChatClient.queue_write, hsaid, List.map_append]
        exact (h.serves hc hs).queue.deliver line.message
  | clientWriteSome i j k =>
      obtain ⟨c, s, hc, hs, hstep⟩ := stepAt_eq_some hstep
      obtain ⟨c', hwrite, rfl⟩ := Option.map_eq_some_iff.mp hstep
      obtain ⟨hsame, hsaid⟩ := ChatClient.sameReader_write_some hwrite
      apply h.put_written hc hs hsame
      · rw [hsaid]
      · rw [hsaid]
        exact (h.serves hc hs).queue.write_some (ChatClient.queue_write_some hwrite)
  | clientWriteCompleted i j =>
      obtain ⟨c, s, hc, hs, hstep⟩ := stepAt_eq_some hstep
      obtain ⟨c', hwrite, rfl⟩ := Option.map_eq_some_iff.mp hstep
      obtain ⟨hsame, hsaid⟩ := ChatClient.sameReader_write_completed hwrite
      apply h.put_written hc hs hsame
      · rw [hsaid]
      · rw [hsaid]
        exact (h.serves hc hs).queue.write_completed (ChatClient.queue_write_completed hwrite)
  | sessionRead i =>
      obtain ⟨c, s, hc, hs, hstep⟩ := stepAt_eq_some hstep
      exact h.sessionRead hc hs hstep
  | sessionWriteSome i j k =>
      obtain ⟨c, s, hc, hs, hstep⟩ := stepAt_eq_some hstep
      obtain ⟨room, hroom, rfl⟩ := Option.map_eq_some_iff.mp hstep
      simp only [ChatRoom.step, hs] at hroom
      obtain ⟨s', hwrite, rfl⟩ := Option.map_eq_some_iff.mp hroom
      exact h.serve_written hc hs (ChatSession.sameMember_write_some hwrite)
        ((h.room.serves hs).sound.write_some hwrite)
  | sessionWriteCompleted i j =>
      obtain ⟨c, s, hc, hs, hstep⟩ := stepAt_eq_some hstep
      obtain ⟨room, hroom, rfl⟩ := Option.map_eq_some_iff.mp hstep
      simp only [ChatRoom.step, hs] at hroom
      obtain ⟨s', hwrite, rfl⟩ := Option.map_eq_some_iff.mp hroom
      exact h.serve_written hc hs (ChatSession.sameMember_write_completed hwrite)
        ((h.room.serves hs).sound.write_completed hwrite)
  | clientRead i =>
      obtain ⟨c, s, hc, hs, hstep⟩ := stepAt_eq_some hstep
      exact h.clientRead hc hs hstep
  | clientClose i =>
      obtain ⟨c, s, hc, hs, hstep⟩ := stepAt_eq_some hstep
      cases hstep
      have hserves := h.serves hc hs
      apply h.put hc hs
      exact ⟨hserves.queue, hserves.up, hserves.down.heard_prefix, hserves.cout, hserves.given⟩
  | sessionError i =>
      obtain ⟨c, s, hc, hs, hstep⟩ := stepAt_eq_some hstep
      obtain ⟨room, hroom, rfl⟩ := Option.map_eq_some_iff.mp hstep
      simp only [ChatRoom.step, hs] at hroom
      split at hroom
      case isTrue => cases hroom
      case isFalse hlive =>
        cases hroom
        exact h.serve_set hc hs (h.room.leave hs hlive) rfl rfl
          (addressed_leave (h.room.serves hs) hlive) (h.serves hc hs).up.heard_prefix

theorem run_sound {es : List Event} (hrun : runSteps step start es = some chat) : chat.Sound :=
  invariant_run (fun h hstep => Sound.step h hstep) start_sound hrun

/-- In every run, the messages of the room that came from a client's session are, in order, the
first of those that the client made of its lines; and what a client has printed is, in order,
the first of the messages addressed to its session, each with the end of its line. -/
theorem chat_in_order {es : List Event} (hrun : runSteps step start es = some chat)
    (hc : chat.clients[i]? = some c) (hs : chat.room.sessions[i]? = some s) :
    chat.deliveredBy i <+: c.said.map Line.message ∧
      c.cout <+: (chat.room.addressed s).flatMap (fun msg => msg.body ++ [10]) ∧
        chat.origins.length = chat.room.delivered.length ∧
          ∀ j ∈ chat.origins, j < chat.clients.length := by
  have hsound := run_sound hrun
  have hserves := hsound.serves hc hs
  refine ⟨?_, ?_, hsound.tagged, hsound.known⟩
  · rw [← hserves.given]
    exact hserves.up.heard_prefix
  · rw [hserves.cout]
    obtain ⟨rest, hrest⟩ := hserves.down.heard_prefix
    rw [← hrest, List.flatMap_append]
    exact List.prefix_append _ _

/-- The first of two clients says `hi`, and the second hears it. -/
theorem chat_in_order_hi :
    ∃ chat c s, runSteps step start
        [.connect, .connect, .write 0 ⟨[104, 105], by decide⟩, .clientWriteSome 0 0 6,
          .sessionRead 0, .sessionRead 0, .sessionWriteSome 1 0 6, .clientRead 1, .clientRead 1] =
          some chat ∧
      chat.clients[1]? = some c ∧ chat.room.sessions[1]? = some s ∧ c.cout = [104, 105, 10] ∧
        c.cout <+: (chat.room.addressed s).flatMap (fun msg => msg.body ++ [10]) := by
  have hrun : runSteps step start
      [.connect, .connect, .write 0 ⟨[104, 105], by decide⟩, .clientWriteSome 0 0 6,
        .sessionRead 0, .sessionRead 0, .sessionWriteSome 1 0 6, .clientRead 1, .clientRead 1] =
        some _ := rfl
  exact ⟨_, _, _, hrun, rfl, rfl, rfl, (chat_in_order hrun (i := 1) rfl rfl).2.1⟩

end ChatSystem

end LearningCpp.Chat
