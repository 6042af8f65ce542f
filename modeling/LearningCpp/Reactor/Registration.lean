import LearningCpp.Reactor.Model

/-!
A slot has status 1 exactly when its descriptor is in the tree with the slot as data.
Every callback either drops its slot, which closes the descriptor, or arms it for the
other event; `acceptconn` arms a free slot for a new descriptor. So the slots of the
events that a round has still to handle keep their status.
-/

namespace LearningCpp.Reactor

open Library

namespace Loop

variable {s : Loop} {ev : Slot} {fd : Nat}

/-- The descriptor of a slot is closed, and the slot is free. -/
def drop (s : Loop) (ev : Slot) : Loop :=
  {s with
    g_events := Function.update s.g_events ev {s.g_events ev with status := false}
    tree := Function.update s.tree (s.g_events ev).fd none
    opened := Function.update s.opened (s.g_events ev).fd none }

/-- A slot is registered with a descriptor, with these values in its other fields. -/
def arm (s : Loop) (ev : Slot) (e : MyEvent) (fd : Nat) (call_back : Callback) (events : Events)
    (now : Int) : Loop :=
  {s with
    g_events := Function.update s.g_events ev {e with
      fd := fd
      call_back := call_back
      events := some events
      arg := ev
      status := true
      last_active := now }
    tree := Function.update s.tree fd (some (events, ev)) }

variable {e : MyEvent} {call_back : Callback} {events : Events} {now : Int} {ev' : Slot}

@[simp]
theorem arm_self : (s.arm ev e fd call_back events now).g_events ev = {e with
    fd := fd
    call_back := call_back
    events := some events
    arg := ev
    status := true
    last_active := now } :=
  Function.update_self ..

@[simp]
theorem arm_of_ne (hne : ev' ≠ ev) :
    (s.arm ev e fd call_back events now).g_events ev' = s.g_events ev' :=
  Function.update_of_ne hne ..

@[simp]
theorem drop_self : (s.drop ev).g_events ev = {s.g_events ev with status := false} :=
  Function.update_self ..

@[simp]
theorem drop_of_ne (hne : ev' ≠ ev) : (s.drop ev).g_events ev' = s.g_events ev' :=
  Function.update_of_ne hne ..

@[simp]
theorem record_g_events (f : Conn → Conn) : (s.record fd f).g_events = s.g_events := by
  unfold record
  split <;> rfl

@[simp]
theorem record_tree (f : Conn → Conn) : (s.record fd f).tree = s.tree := by
  unfold record
  split <;> rfl

@[simp]
theorem record_opened (f : Conn → Conn) : (s.record fd f).opened = s.opened := by
  unfold record
  split <;> rfl

theorem eventdel_eq (hstatus : (s.g_events ev).status = true) :
    s.eventdel ev = {s with
      g_events := Function.update s.g_events ev {s.g_events ev with status := false}
      tree := Function.update s.tree (s.g_events ev).fd none } := by
  unfold eventdel
  rw [if_pos hstatus]
  rfl

/-- The two orders in which a slot is given up come to the same. -/
theorem close_eventdel (hstatus : (s.g_events ev).status = true) :
    (s.close (s.g_events ev).fd).eventdel ev = s.drop ev := by
  rw [eventdel_eq (s := s.close (s.g_events ev).fd) hstatus]
  unfold close drop
  simp only [Function.update_idem]

theorem eventdel_close (hstatus : (s.g_events ev).status = true) :
    (s.eventdel ev).close ((s.eventdel ev).g_events ev).fd = s.drop ev := by
  rw [eventdel_eq hstatus]
  unfold close drop
  simp only [Function.update_self, Function.update_idem]

theorem eventset_eventadd (hopen : (s.opened fd).isSome) (hfree : s.tree fd = none)
    (call_back : Callback) (now : Int) (events : Events) :
    (s.eventset ev fd call_back ev now).eventadd events ev =
      s.arm ev (s.g_events ev) fd call_back events now := by
  unfold eventset eventadd setEvent epoll_ctl arm
  simp [hopen, hfree]

/-- A slot that is taken off the tree and put on it again. -/
theorem eventdel_eventset_eventadd (hstatus : (s.g_events ev).status = true)
    (hfd : (s.g_events ev).fd = fd) (hopen : (s.opened fd).isSome) (call_back : Callback)
    (now : Int) (events : Events) :
    ((s.eventdel ev).eventset ev fd call_back ev now).eventadd events ev =
      s.arm ev (s.g_events ev) fd call_back events now := by
  have hdel := eventdel_eq hstatus
  rw [eventset_eventadd (s := s.eventdel ev) (by rwa [hdel]) (by simp [hdel, hfd]), hdel]
  unfold arm
  simp [hfd]

private theorem record_id : s.record fd (fun conn => conn) = s := by
  unfold record
  split
  · have hmodify (id : Nat) : s.conns.modify id (fun conn => conn) = s.conns := List.modify_id _ _
    rw [hmodify]
  · rfl

@[simp]
theorem terminate_tree (len : Nat) : (s.terminate ev len).tree = s.tree := rfl

@[simp]
theorem terminate_opened (len : Nat) : (s.terminate ev len).opened = s.opened := rfl

@[simp]
theorem receive_opened (buf : List UInt8) : (s.receive fd ev buf).opened = s.opened := by
  simp [receive, setEvent]

@[simp]
theorem receive_g_events_fd (buf : List UInt8) :
    ((s.receive fd ev buf).g_events ev).fd = (s.g_events ev).fd := by
  simp [receive, setEvent]

@[simp]
theorem receive_g_events_status (buf : List UInt8) :
    ((s.receive fd ev buf).g_events ev).status = (s.g_events ev).status := by
  simp [receive, setEvent]

/-- Bytes from the client are in the slot, which waits to send them. -/
def hold (s : Loop) (ev : Slot) (buf : List UInt8) (now : Int) : Loop :=
  (Loop.record {s with overrun := s.overrun || !decide (buf.length < BUFLEN)} (s.g_events ev).fd
    fun conn => {conn with received := conn.received ++ buf}).arm ev
      {s.g_events ev with
        buf := (buf ++ (s.g_events ev).buf.drop buf.length).set buf.length 0
        len := buf.length } (s.g_events ev).fd .senddata .EPOLLOUT now

/-- Bytes of the slot have been sent, and it waits for the client. -/
def release (s : Loop) (ev : Slot) (n : Nat) (now : Int) : Loop :=
  (s.record (s.g_events ev).fd fun conn => {conn with
    sent := conn.sent ++ (s.g_events ev).buf.take n }).arm ev (s.g_events ev) (s.g_events ev).fd
      .recvdata .EPOLLIN now

/-- What `recvdata` does to its slot. -/
theorem recvdata_eq (hstatus : (s.g_events ev).status = true)
    (hopen : (s.opened (s.g_events ev).fd).isSome) (r : Results) :
    s.recvdata (s.g_events ev).fd ev r =
      match r.recv with
      | none => s.drop ev
      | some buf => if 0 < buf.val.length then s.hold ev buf.val r.now else s.drop ev := by
  unfold recvdata
  cases r.recv with
  | none => exact eventdel_close hstatus
  | some buf =>
    simp only
    have hstatus' : ((s.receive (s.g_events ev).fd ev buf.val).g_events ev).status = true := by
      simpa using hstatus
    have hdel := eventdel_eq hstatus'
    split
    next =>
      rw [eventset_eventadd (by simpa [hdel] using hopen) (by simp [hdel]), hdel]
      unfold hold arm terminate receive record setEvent
      cases hsocket : s.opened (s.g_events ev).fd with
      | none => simp
      | some socket => cases socket <;> simp
    next hempty =>
      have hnil : buf.val = [] := List.eq_nil_of_length_eq_zero (by omega)
      rw [eventdel_close hstatus', hnil]
      unfold receive
      simp only [List.nil_append, List.append_nil, List.length_nil, List.drop_zero, record_id]
      unfold drop setEvent
      simp

/-- What `senddata` does to its slot. -/
theorem senddata_eq (hstatus : (s.g_events ev).status = true)
    (hopen : (s.opened (s.g_events ev).fd).isSome) (r : Results) :
    s.senddata (s.g_events ev).fd ev r =
      match r.send with
      | none => s.drop ev
      | some n =>
          if 0 < min n (s.g_events ev).len then
            s.release ev (min n (s.g_events ev).len) r.now
          else s.drop ev := by
  unfold senddata
  cases r.send with
  | none => exact close_eventdel hstatus
  | some n =>
    simp only
    split
    · rw [eventdel_eventset_eventadd (by simpa using hstatus) (by simp) (by simpa using hopen)]
      simp [release]
    · exact close_eventdel hstatus

/-- A connection is accepted. -/
def connect (s : Loop) (cfd : Nat) : Loop :=
  {s with
    opened := Function.update s.opened cfd (some (.connection s.conns.length))
    conns := s.conns ++ [{received := [], sent := []}] }

private theorem status_of_freeSlot {i : Slot} (h : s.freeSlot = some i) :
    i ≠ Fin.last MAX_EVENTS ∧ (s.g_events i).status = false := by
  unfold freeSlot at h
  obtain ⟨j, -, rfl⟩ := List.mem_map.1 (List.mem_of_find?_eq_some h)
  exact ⟨(Fin.castSucc_lt_last j).ne, by simpa using List.find?_some h⟩

/-- What `acceptconn` does: nothing, or a connection is accepted, and a free slot armed
for it if there is one. -/
theorem acceptconn_cases {s' : Loop} {r : Results} (h : s.acceptconn r = some s')
    (hunwatched : ∀ cfd, s.opened cfd = none → s.tree cfd = none) :
    s' = s ∨ ∃ cfd, s.opened cfd = none ∧ (s' = s.connect cfd ∨ ∃ i : Slot,
      i ≠ Fin.last MAX_EVENTS ∧ (s.g_events i).status = false ∧
        s' = (s.connect cfd).arm i (s.g_events i) cfd .recvdata .EPOLLIN r.now) := by
  unfold acceptconn at h
  cases haccept : r.accept with
  | none =>
    simp only [haccept, Option.some.injEq] at h
    exact Or.inl h.symm
  | some cfd =>
    simp only [haccept] at h
    split at h
    next => cases h
    next hunused =>
      have hnone : s.opened cfd = none := by simpa using hunused
      refine Or.inr ⟨cfd, hnone, ?_⟩
      split at h
      next => exact Or.inl (Option.some.inj h).symm
      next i hfree =>
        obtain ⟨hlast, hstatus⟩ := status_of_freeSlot hfree
        split at h
        · exact Or.inl (Option.some.inj h).symm
        · have harm : ((s.connect cfd).eventset i cfd .recvdata i r.now).eventadd .EPOLLIN i =
              (s.connect cfd).arm i (s.g_events i) cfd .recvdata .EPOLLIN r.now :=
            eventset_eventadd (s := s.connect cfd) (by simp [connect]) (hunwatched cfd hnone) ..
          exact Or.inr ⟨i, hlast, hstatus, (Option.some.inj h).symm.trans harm⟩

/-- What a round of the timeout scan does: at most one client is dropped. -/
theorem check_cases (now : Int) (s : Loop) :
    ∃ pos, s.check now = {s with checkpos := pos} ∨ ∃ ev : Slot, ev ≠ Fin.last MAX_EVENTS ∧
      (s.g_events ev).status = true ∧ s.check now = {s.drop ev with checkpos := pos} := by
  obtain ⟨ev, hev, hne⟩ : ∃ ev : Slot, ev = (if s.checkpos = Fin.last MAX_EVENTS then 0
      else s.checkpos) ∧ ev ≠ Fin.last MAX_EVENTS := by
    refine ⟨_, rfl, ?_⟩
    split
    · decide
    · assumption
  refine ⟨ev + 1, ?_⟩
  unfold check
  rw [← hev]
  simp only
  split
  next hidle =>
    exact Or.inr ⟨ev, hne, hidle.1, by rw [close_eventdel hidle.1]⟩
  next => exact Or.inl rfl

end Loop

/-- Which callback a slot has for which event. -/
inductive Fits (ev : Slot) : Callback → Events → Prop where
  | listener : ev = Fin.last MAX_EVENTS → Fits ev .acceptconn .EPOLLIN
  | reader : ev ≠ Fin.last MAX_EVENTS → Fits ev .recvdata .EPOLLIN
  | writer : ev ≠ Fin.last MAX_EVENTS → Fits ev .senddata .EPOLLOUT

/-- The slots and the tree agree. -/
structure Registered (s : Loop) : Prop where
  slot : ∀ {fd events ev}, s.tree fd = some (events, ev) →
    (s.g_events ev).fd = fd ∧ (s.g_events ev).status = true ∧ (s.g_events ev).events = some events
  tree : ∀ {ev}, (s.g_events ev).status = true →
    ∃ events, s.tree (s.g_events ev).fd = some (events, ev)
  opened : ∀ {fd}, s.opened fd = none → s.tree fd = none
  fits : ∀ {ev events}, (s.g_events ev).events = some events →
    (s.g_events ev).arg = ev ∧ Fits ev (s.g_events ev).call_back events

namespace Registered

variable {s : Loop} {ev : Slot}

theorem congr (h : Registered s) {t : Loop} (hslots : t.g_events = s.g_events)
    (htree : t.tree = s.tree) (hopened : t.opened = s.opened) : Registered t := by
  obtain ⟨hslot, hwatched, hclosed, hfits⟩ := h
  rw [← hslots, ← htree] at hslot hwatched
  rw [← hopened, ← htree] at hclosed
  rw [← hslots] at hfits
  exact ⟨hslot, hwatched, hclosed, hfits⟩

theorem isSome_opened (h : Registered s) (hstatus : (s.g_events ev).status = true) :
    (s.opened (s.g_events ev).fd).isSome := by
  obtain ⟨events, htree⟩ := h.tree hstatus
  by_contra hclosed
  have hnone := h.opened (by simpa using hclosed)
  rw [htree] at hnone
  cases hnone

/-- Two slots with status 1 have different descriptors. -/
theorem fd_ne (h : Registered s) {ev' : Slot} (hstatus : (s.g_events ev).status = true)
    (hstatus' : (s.g_events ev').status = true) (hne : ev ≠ ev') :
    (s.g_events ev).fd ≠ (s.g_events ev').fd := by
  intro heq
  obtain ⟨events, htree⟩ := h.tree hstatus
  obtain ⟨events', htree'⟩ := h.tree hstatus'
  rw [heq, htree', Option.some.injEq, Prod.mk.injEq] at htree
  exact hne htree.2.symm

theorem drop (h : Registered s) (hstatus : (s.g_events ev).status = true) :
    Registered (s.drop ev) := by
  constructor
  · intro fd events' ev' htree'
    simp only [Loop.drop, Function.update_apply] at htree' ⊢
    split at htree'
    next => cases htree'
    next hfd =>
      have hslot := h.slot htree'
      have hne : ev' ≠ ev := by
        rintro rfl
        exact hfd hslot.1.symm
      simpa [hne] using hslot
  · intro ev' hstatus'
    simp only [Loop.drop, Function.update_apply] at hstatus' ⊢
    split at hstatus'
    next => cases hstatus'
    next hne =>
      obtain ⟨events', htree'⟩ := h.tree hstatus'
      refine ⟨events', ?_⟩
      rw [if_neg hne, if_neg (h.fd_ne hstatus' hstatus hne)]
      exact htree'
  · intro fd hclosed
    simp only [Loop.drop, Function.update_apply] at hclosed ⊢
    split
    next => rfl
    next hfd =>
      rw [if_neg hfd] at hclosed
      exact h.opened hclosed
  · intro ev' events' hevents'
    simp only [Loop.drop, Function.update_apply] at hevents' ⊢
    split
    next heq =>
      rw [heq] at hevents' ⊢
      exact h.fits (by simpa using hevents')
    next hne =>
      rw [if_neg hne] at hevents'
      exact h.fits hevents'

/-- A slot is armed for its own descriptor, or a free slot for one that is not watched. -/
theorem arm (h : Registered s) {fd : Nat} {call_back : Callback} {events : Events}
    (hown : (s.g_events ev).status = true → (s.g_events ev).fd = fd)
    (hfree : ∀ events' ev', s.tree fd = some (events', ev') → ev' = ev)
    (hopen : (s.opened fd).isSome) (hfits : Fits ev call_back events) (e : MyEvent) (now : Int) :
    Registered (s.arm ev e fd call_back events now) := by
  constructor
  · intro fd' events' ev' htree'
    simp only [Loop.arm, Function.update_apply] at htree' ⊢
    split at htree'
    next hfd =>
      simp only [Option.some.injEq, Prod.mk.injEq] at htree'
      obtain ⟨rfl, rfl⟩ := htree'
      simp [hfd]
    next hfd =>
      have hslot := h.slot htree'
      have hne : ev' ≠ ev := by
        rintro rfl
        exact hfd (hslot.1.symm.trans (hown hslot.2.1))
      simpa [hne] using hslot
  · intro ev' hstatus'
    simp only [Loop.arm, Function.update_apply] at hstatus' ⊢
    split at hstatus'
    next heq =>
      exact ⟨events, by simp [heq]⟩
    next hne =>
      obtain ⟨events', htree'⟩ := h.tree hstatus'
      refine ⟨events', ?_⟩
      rw [if_neg hne, if_neg ?_]
      · exact htree'
      · intro hfd
        rw [hfd] at htree'
        exact hne (hfree _ _ htree')
  · intro fd' hclosed
    simp only [Loop.arm, Function.update_apply] at hclosed ⊢
    rw [if_neg ?_]
    · exact h.opened hclosed
    · rintro rfl
      rw [hclosed] at hopen
      cases hopen
  · intro ev' events' hevents'
    simp only [Loop.arm, Function.update_apply] at hevents' ⊢
    split
    next heq =>
      rw [if_pos heq, Option.some.injEq] at hevents'
      rw [heq, ← hevents']
      exact ⟨rfl, hfits⟩
    next hne =>
      rw [if_neg hne] at hevents'
      exact h.fits hevents'

/-- A slot with status 1 is armed again for its descriptor, when what changed meanwhile does
not concern the registration. -/
theorem rearm (h : Registered s) {t : Loop} (hslots : t.g_events = s.g_events)
    (htree : t.tree = s.tree) (hopened : t.opened = s.opened)
    (hstatus : (s.g_events ev).status = true) {call_back : Callback} {events : Events}
    (hfits : Fits ev call_back events) (e : MyEvent) (now : Int) :
    Registered (t.arm ev e (s.g_events ev).fd call_back events now) := by
  refine (h.congr hslots htree hopened).arm ?_ ?_ ?_ hfits e now
  · intro _
    rw [hslots]
  · intro events' ev' htree'
    obtain ⟨events'', hwatched⟩ := h.tree hstatus
    rw [htree, hwatched, Option.some.injEq, Prod.mk.injEq] at htree'
    exact htree'.2.symm
  · rw [hopened]
    exact h.isSome_opened hstatus

theorem client (h : Registered s) (hstatus : (s.g_events ev).status = true)
    (hback : (s.g_events ev).call_back ≠ .acceptconn) : ev ≠ Fin.last MAX_EVENTS := by
  obtain ⟨events, htree⟩ := h.tree hstatus
  obtain ⟨-, hfits⟩ := h.fits (h.slot htree).2.2
  generalize (s.g_events ev).call_back = call_back at hback hfits
  cases hfits with
  | listener => exact absurd rfl hback
  | reader hclient => exact hclient
  | writer hclient => exact hclient

/-- A connection is accepted. -/
theorem connect (h : Registered s) {cfd : Nat} : Registered (s.connect cfd) := by
  constructor
  · exact h.slot
  · exact h.tree
  · intro fd hclosed
    simp only [Loop.connect, Function.update_apply] at hclosed
    split at hclosed
    · cases hclosed
    · exact h.opened hclosed
  · exact h.fits

end Registered

end LearningCpp.Reactor
