import LearningCpp.Reactor.Rounds

/-!
The echo law of the reactor: what a connection has received is what was sent back followed
by the batch that waits in its slot. `senddata` goes back to reading whatever number of
bytes `send` took, and `recvdata` writes a terminator behind a batch that fills the slot. So
the law holds along the runs in which neither happens, and it breaks at the first such step.
-/

namespace LearningCpp.Reactor

open Library

/-- The bytes of a slot that wait to be sent. -/
def MyEvent.batch (e : MyEvent) : List UInt8 :=
  if e.call_back = .senddata then e.buf.take e.len else []

/-- On the connection of every client slot the bytes sent are the bytes received up to the
batch that waits; on every other connection they are so up to one batch that was lost when it
was closed; and nothing was written behind a `buf`. -/
structure Echoes (s : Loop) : Prop where
  slot : ∀ {ev}, ev ≠ Fin.last MAX_EVENTS → (s.g_events ev).status = true →
    ∃ id conn, s.opened (s.g_events ev).fd = some (.connection id) ∧ s.conns[id]? = some conn ∧
      conn.received = conn.sent ++ (s.g_events ev).batch
  conns : ∀ conn ∈ s.conns, ∃ batch : List UInt8, batch.length ≤ BUFLEN ∧
    conn.received = conn.sent ++ batch
  overrun : s.overrun = false

/-- The law with what it needs to be kept: no connection has two descriptors. -/
structure Faithful (s : Loop) : Prop extends Echoes s where
  known : ∀ {fd id}, s.opened fd = some (.connection id) → id < s.conns.length
  unique : ∀ {fd fd' id}, s.opened fd = some (.connection id) →
    s.opened fd' = some (.connection id) → fd = fd'
  room : ∀ ev, (s.g_events ev).len ≤ (s.g_events ev).buf.length

/-- A `recv` leaves room for the terminator, and a `send` that takes something takes the
whole batch. -/
def Whole (s : Loop) : Act → Prop
  | .handle r r' => ∀ events ev rest, s.phase = .handle ((events, ev) :: rest) →
      ((s.g_events ev).call_back = .recvdata → ∀ buf ∈ r.recv, buf.val.length < BUFLEN) ∧
      ((s.g_events ev).call_back = .senddata → ∀ n ∈ r'.send, n = 0 ∨ (s.g_events ev).len ≤ n)
  | _ => True

theorem Loop.record_eq {s : Loop} {fd id : Nat} (hopen : s.opened fd = some (.connection id))
    (f : Conn → Conn) : s.record fd f = {s with conns := s.conns.modify id f} := by
  unfold Loop.record
  simp only [hopen]

namespace Faithful

variable {s : Loop} {ev : Slot} {id : Nat}

theorem congr (h : Faithful s) {t : Loop} (hslots : t.g_events = s.g_events)
    (hopened : t.opened = s.opened) (hconns : t.conns = s.conns)
    (hoverrun : t.overrun = s.overrun) : Faithful t := by
  obtain ⟨⟨hslot, hlost, hbounded⟩, hknown, hunique, hroom⟩ := h
  rw [← hslots, ← hopened, ← hconns] at hslot
  rw [← hconns] at hlost
  rw [← hoverrun] at hbounded
  rw [← hopened, ← hconns] at hknown
  rw [← hopened] at hunique
  rw [← hslots] at hroom
  exact ⟨⟨hslot, hlost, hbounded⟩, hknown, hunique, hroom⟩

/-- A client is dropped, with the batch that waits in its slot. -/
theorem drop (h : Faithful s) (hreg : Registered s) (hstatus : (s.g_events ev).status = true) :
    Faithful (s.drop ev) := by
  refine ⟨⟨?_, h.conns, h.overrun⟩, ?_, ?_, ?_⟩
  · intro ev' hclient hstatus'
    by_cases hne : ev' = ev
    · rw [hne, Loop.drop_self] at hstatus'
      cases hstatus'
    · rw [Loop.drop_of_ne hne] at hstatus' ⊢
      obtain ⟨id, conn, hopen, hconn⟩ := h.slot hclient hstatus'
      refine ⟨id, conn, ?_, hconn⟩
      exact (Function.update_of_ne (hreg.fd_ne hstatus' hstatus hne) ..).trans hopen
  · intro fd id hopen
    simp only [Loop.drop, Function.update_apply] at hopen
    split at hopen
    · cases hopen
    · exact h.known hopen
  · intro fd fd' id hopen hopen'
    simp only [Loop.drop, Function.update_apply] at hopen hopen'
    split at hopen
    · cases hopen
    · split at hopen'
      · cases hopen'
      · exact h.unique hopen hopen'
  · exact (Function.forall_update_iff s.g_events (p := fun _ e => e.len ≤ e.buf.length)).2 ⟨h.room ev, fun ev' _ => h.room ev'⟩

/-- A connection is accepted, with a descriptor that was not open. -/
theorem connect (h : Faithful s) {cfd : Nat} (hclosed : s.opened cfd = none) :
    Faithful (s.connect cfd) := by
  refine ⟨⟨?_, ?_, h.overrun⟩, ?_, ?_, h.room⟩
  · intro ev hclient hstatus
    obtain ⟨id, conn, hopen, hconn, hlaw⟩ := h.slot hclient hstatus
    refine ⟨id, conn, ?_, ?_, hlaw⟩
    · refine (Function.update_of_ne ?_ ..).trans hopen
      intro heq
      rw [← heq] at hclosed
      exact absurd (hopen.symm.trans hclosed) nofun
    · exact (List.getElem?_append_left (h.known hopen)).trans hconn
  · intro conn hmem
    simp only [Loop.connect, List.mem_append, List.mem_singleton] at hmem
    obtain hmem | rfl := hmem
    · exact h.conns conn hmem
    · exact ⟨[], Nat.zero_le _, rfl⟩
  · intro fd id hopen
    simp only [Loop.connect, Function.update_apply, List.length_append, List.length_singleton]
      at hopen ⊢
    split at hopen
    · cases hopen
      exact Nat.lt_succ_self _
    · exact Nat.lt_succ_of_lt (h.known hopen)
  · intro fd fd' id hopen hopen'
    simp only [Loop.connect, Function.update_apply] at hopen hopen'
    split at hopen
    next hfd =>
      cases hopen
      split at hopen'
      next hfd' =>
        exact hfd.trans hfd'.symm
      next => exact absurd (h.known hopen') (Nat.lt_irrefl _)
    next =>
      split at hopen'
      · cases hopen'
        exact absurd (h.known hopen) (Nat.lt_irrefl _)
      · exact h.unique hopen hopen'

/-- A free slot is armed for a connection on which nothing has come yet. -/
theorem serve (h : Faithful s) {cfd : Nat} {call_back : Callback} {events : Events}
    (hopen : s.opened cfd = some (.connection id)) (hnew : s.conns[id]? = some ⟨[], []⟩)
    (hback : call_back ≠ .senddata) (now : Int) :
    Faithful (s.arm ev (s.g_events ev) cfd call_back events now) := by
  refine ⟨⟨?_, h.conns, h.overrun⟩, h.known, h.unique, ?_⟩
  · intro ev' hclient hstatus'
    by_cases hne : ev' = ev
    · rw [hne, Loop.arm_self]
      exact ⟨id, ⟨[], []⟩, hopen, hnew, by simp [MyEvent.batch, hback]⟩
    · rw [Loop.arm_of_ne hne] at hstatus' ⊢
      exact h.slot hclient hstatus'
  · exact (Function.forall_update_iff s.g_events (p := fun _ e => e.len ≤ e.buf.length)).2 ⟨h.room ev, fun ev' _ => h.room ev'⟩

/-- Bytes go over the connection of a slot, and it is armed again. -/
theorem exchange (h : Faithful s) (hreg : Registered s) (hclient : ev ≠ Fin.last MAX_EVENTS)
    (hstatus : (s.g_events ev).status = true) {f : Conn → Conn} {e : MyEvent}
    {call_back : Callback} {events : Events} {now : Int} (hroom : e.len ≤ e.buf.length)
    (hlaw : ∀ {conn}, conn.received = conn.sent ++ (s.g_events ev).batch →
      (f conn).received = (f conn).sent ++ {e with call_back := call_back}.batch)
    (hlength : {e with call_back := call_back}.batch.length ≤ BUFLEN) :
    Faithful ((s.record (s.g_events ev).fd f).arm ev e (s.g_events ev).fd call_back events now) := by
  obtain ⟨id, conn, hopen, hconn, hold⟩ := h.slot hclient hstatus
  rw [Loop.record_eq hopen]
  refine ⟨⟨?_, ?_, h.overrun⟩, ?_, h.unique, ?_⟩
  · intro ev' hclient' hstatus'
    by_cases hne : ev' = ev
    · rw [hne, Loop.arm_self]
      refine ⟨id, f conn, hopen, ?_, hlaw hold⟩
      simp [Loop.arm, hconn]
    · rw [Loop.arm_of_ne hne] at hstatus' ⊢
      obtain ⟨id', conn', hopen', hconn', hold'⟩ := h.slot hclient' hstatus'
      refine ⟨id', conn', hopen', ?_, hold'⟩
      have hid : id ≠ id' := by
        rintro rfl
        exact hreg.fd_ne hstatus' hstatus hne (h.unique hopen' hopen)
      simpa [Loop.arm, List.getElem?_modify, hid] using hconn'
  · intro conn' hmem
    obtain ⟨i, hi⟩ := List.mem_iff_getElem?.1 hmem
    obtain rfl | hid := eq_or_ne id i
    · have heq : f conn = conn' := by simpa [Loop.arm, hconn] using hi
      exact ⟨_, hlength, heq ▸ hlaw hold⟩
    · have hold' : s.conns[i]? = some conn' := by
        simpa [Loop.arm, List.getElem?_modify, hid] using hi
      exact h.conns conn' (List.mem_of_getElem? hold')
  · intro fd id' hopen'
    simpa [Loop.arm] using h.known hopen'
  · exact (Function.forall_update_iff s.g_events (p := fun _ e => e.len ≤ e.buf.length)).2 ⟨hroom, fun ev' _ => h.room ev'⟩

/-- `recvdata` adds to an empty batch. -/
theorem hold (h : Faithful s) (hreg : Registered s) (hclient : ev ≠ Fin.last MAX_EVENTS)
    (hstatus : (s.g_events ev).status = true) (hback : (s.g_events ev).call_back = .recvdata)
    {buf : List UInt8} (hroom : buf.length < BUFLEN) (now : Int) : Faithful (s.hold ev buf now) := by
  have hbounded : Faithful {s with overrun := s.overrun || !decide (buf.length < BUFLEN)} :=
    h.congr rfl rfl rfl (by simp [hroom])
  have hbatch : ((buf ++ (s.g_events ev).buf.drop buf.length).set buf.length 0).take buf.length =
      buf := by
    rw [List.take_set_of_le (Nat.le_refl _), List.take_left]
  refine hbounded.exchange (hreg.congr rfl rfl rfl) hclient hstatus ?_ ?_ ?_
  · simp
  · intro conn hlaw
    simp only [MyEvent.batch, hback, if_true, reduceCtorEq, if_false, List.append_nil] at hlaw ⊢
    rw [hlaw, hbatch]
  · simp only [MyEvent.batch, if_true, hbatch]
    exact hroom.le

/-- `senddata` sends the whole batch. -/
theorem release (h : Faithful s) (hreg : Registered s) (hclient : ev ≠ Fin.last MAX_EVENTS)
    (hstatus : (s.g_events ev).status = true) (hback : (s.g_events ev).call_back = .senddata)
    (now : Int) : Faithful (s.release ev (s.g_events ev).len now) := by
  refine h.exchange hreg hclient hstatus (h.room ev) ?_ ?_
  · intro conn hlaw
    simpa [MyEvent.batch, hback] using hlaw
  · simp [MyEvent.batch]

/-- A callback that gets and sends whole batches keeps the law. -/
theorem effect (h : Faithful s) (hreg : Registered s) (hstatus : (s.g_events ev).status = true)
    {r : Results} {t : Loop} (heffect : Loop.Effect s ev r t)
    (hrecv : (s.g_events ev).call_back = .recvdata → ∀ buf ∈ r.recv, buf.val.length < BUFLEN)
    (hsend : (s.g_events ev).call_back = .senddata →
      ∀ n ∈ r.send, n = 0 ∨ (s.g_events ev).len ≤ n) : Faithful t := by
  cases heffect with
  | refused => exact h
  | admitted _ hclosed => exact h.connect hclosed
  | accepted _ hclosed =>
    refine (h.connect hclosed).serve (Function.update_self ..) ?_ ?_ _
    · simp [Loop.connect]
    · decide
  | dropped => exact h.drop hreg hstatus
  | held hback hbuf =>
    exact h.hold hreg (hreg.client hstatus (by simp [hback])) hstatus hback (hrecv hback _ hbuf) _
  | @released n hback hn hpos =>
    have hmin : min n (s.g_events ev).len = (s.g_events ev).len := by
      have hwhole := hsend hback _ hn
      omega
    rw [hmin]
    exact h.release hreg (hreg.client hstatus (by simp [hback])) hstatus hback _

/-- After a callback that got too much, or sent less than the batch, the law does not hold. -/
theorem whole_of_echoes (h : Faithful s) (hreg : Registered s)
    (hstatus : (s.g_events ev).status = true) {r : Results} {t : Loop}
    (heffect : Loop.Effect s ev r t) (hechoes : Echoes t) :
    ((s.g_events ev).call_back = .recvdata → ∀ buf ∈ r.recv, buf.val.length < BUFLEN) ∧
      ((s.g_events ev).call_back = .senddata → ∀ n ∈ r.send, n = 0 ∨ (s.g_events ev).len ≤ n) := by
  cases heffect with
  | refused hback => simp [hback]
  | admitted hback => simp [hback]
  | accepted hback => simp [hback]
  | dropped _ hrecv hsend =>
    constructor
    · intro hback buf hmem
      rw [hrecv hback buf hmem]
      decide
    · intro hback n hmem
      have hmin := hsend hback n hmem
      omega
  | held hback hbuf =>
    refine ⟨?_, by simp [hback]⟩
    rintro - _ hmem
    cases hbuf.symm.trans hmem
    have hbounded := hechoes.overrun
    simp only [Loop.hold, Loop.arm, Loop.record_overrun, Bool.or_eq_false_iff] at hbounded
    simpa using hbounded.2
  | @released n hback hn =>
    refine ⟨by simp [hback], ?_⟩
    rintro - _ hmem
    cases hn.symm.trans hmem
    have hclient := hreg.client hstatus (by simp [hback])
    obtain ⟨id, conn, hopen, hconn, hlaw⟩ := h.slot hclient hstatus
    obtain ⟨id', conn', hopen', hconn', hlaw'⟩ := hechoes.slot hclient (by simp [Loop.release])
    simp only [Loop.release, Loop.arm_self, Loop.record_eq hopen] at hopen' hconn' hlaw'
    cases hopen.symm.trans hopen'
    simp only [Loop.arm, List.getElem?_modify_eq, hconn, Option.map_eq_map, Option.map_some,
      Option.some.injEq] at hconn'
    rw [← hconn'] at hlaw'
    simp only [MyEvent.batch, hback, if_true, reduceCtorEq, if_false, List.append_nil] at hlaw hlaw'
    rw [hlaw, List.append_cancel_left_eq] at hlaw'
    have hlengths := congrArg List.length hlaw'
    have hroom := h.room ev
    simp only [List.length_take] at hlengths
    omega

end Faithful

private theorem faithful_start (others : Finset Nat) (lfd : Nat) (now : Int) :
    Faithful (start others lfd now) := by
  rw [start_eq]
  refine ⟨⟨?_, nofun, rfl⟩, ?_, ?_, ?_⟩
  · intro ev hclient hstatus
    rw [Loop.arm_of_ne hclient] at hstatus
    cases hstatus
  · intro fd id hopen
    simp only [Loop.arm] at hopen
    split at hopen <;> cases hopen
  · intro fd fd' id hopen
    simp only [Loop.arm] at hopen
    split at hopen <;> cases hopen
  · intro ev
    by_cases hne : ev = Fin.last MAX_EVENTS
    · rw [hne, Loop.arm_self]
      exact Nat.zero_le _
    · rw [Loop.arm_of_ne hne]
      exact Nat.zero_le _

/-- The condition on a step is one on the callback that is invoked. -/
theorem whole_handle_iff {s : Loop} (h : Sound s) {events : Events} {ev : Slot}
    {rest : List (Events × Slot)} (hphase : s.phase = .handle ((events, ev) :: rest))
    (r r' : Results) :
    Whole s (.handle r r') ↔
      ((s.g_events ev).call_back = .recvdata →
        ∀ buf ∈ (match events with | .EPOLLIN => r | .EPOLLOUT => r').recv,
          buf.val.length < BUFLEN) ∧
      ((s.g_events ev).call_back = .senddata →
        ∀ n ∈ (match events with | .EPOLLIN => r | .EPOLLOUT => r').send,
          n = 0 ∨ (s.g_events ev).len ≤ n) := by
  have hunfold : Whole s (.handle r r') ↔
      ((s.g_events ev).call_back = .recvdata → ∀ buf ∈ r.recv, buf.val.length < BUFLEN) ∧
        ((s.g_events ev).call_back = .senddata →
          ∀ n ∈ r'.send, n = 0 ∨ (s.g_events ev).len ≤ n) := by
    constructor
    · intro hwhole
      exact hwhole events ev rest hphase
    · rintro hwhole _ _ _ hphase'
      cases hphase.symm.trans hphase'
      exact hwhole
  rw [hunfold]
  obtain ⟨-, hfits⟩ := h.registered.fits (h.pending hphase _ List.mem_cons_self).2
  generalize (s.g_events ev).call_back = call_back at hfits ⊢
  cases hfits <;> simp

/-- A step in which a callback gets or sends a whole batch keeps the law; and the law holds
after no other one. -/
theorem whole_iff_echoes {s s' : Loop} {a : Act} (h : Sound s ∧ Faithful s)
    (hstep : step s a = some s') :
    (Whole s a → Faithful s') ∧ (Echoes s' → Whole s a) := by
  obtain ⟨hsound, hfaithful⟩ := h
  cases a with
  | scan now =>
    simp only [step] at hstep
    split at hstep
    · obtain rfl := Option.some.inj hstep
      refine ⟨fun _ => ?_, fun _ => trivial⟩
      have hscan := scan_induction (P := fun t => Registered t ∧ Faithful t)
        (fun _ ht => ⟨ht.1.congr rfl rfl rfl, ht.2.congr rfl rfl rfl rfl⟩)
        (fun ht _ hstatus => ⟨ht.1.drop hstatus, ht.2.drop ht.1 hstatus⟩) now 100
        ⟨hsound.registered, hfaithful⟩
      generalize (Loop.check now)^[100] s = t at hscan ⊢
      exact hscan.2.congr rfl rfl rfl rfl
    · cases hstep
  | wait fds =>
    simp only [step] at hstep
    split at hstep
    · cases hstep
      exact ⟨fun _ => hfaithful.congr rfl rfl rfl rfl, fun _ => trivial⟩
    · cases hstep
  | waitError =>
    simp only [step] at hstep
    split at hstep
    · cases hstep
      exact ⟨fun _ => hfaithful.congr rfl rfl rfl rfl, fun _ => trivial⟩
    · cases hstep
  | handle r r' =>
    obtain ⟨events, ev, rest, t, hphase, hstatus, heffect, rfl⟩ := handle_cases hsound hstep
    have hreg : Registered {s with calls := s.calls ++ [(ev, true)]} :=
      hsound.registered.congr rfl rfl rfl
    have hkept : Faithful {s with calls := s.calls ++ [(ev, true)]} :=
      hfaithful.congr rfl rfl rfl rfl
    rw [whole_handle_iff hsound hphase]
    constructor
    · rintro ⟨hrecv, hsend⟩
      exact (hkept.effect hreg hstatus heffect hrecv hsend).congr rfl rfl rfl rfl
    · intro hechoes
      exact hkept.whole_of_echoes hreg hstatus heffect
        ⟨hechoes.slot, hechoes.conns, hechoes.overrun⟩

/-- In a run every `recv` leaves room for the terminator and every `send` takes the whole
batch if and only if the echo law holds after each of its steps. -/
theorem reactor_echoes_iff (others : Finset Nat) (lfd : Nat) (now : Int) (acts : List Act)
    (s : Loop) (hrun : runSteps step (start others lfd now) acts = some s) :
    Along step Whole (start others lfd now) acts ↔
      Along step (fun t a => ∀ t', step t a = some t' → Echoes t') (start others lfd now) acts := by
  apply along_iff_after (I := fun t => Sound t ∧ Faithful t)
  · intro t t' a hinv hstep hwhole
    exact ⟨hinv.1.step hstep, (whole_iff_echoes hinv hstep).1 hwhole⟩
  · exact fun hinv => hinv.2.toEchoes
  · exact fun hinv hstep hechoes => (whole_iff_echoes hinv hstep).2 hechoes
  · exact ⟨sound_start others lfd now, faithful_start others lfd now⟩
  · exact hrun

/-- A client that is accepted as descriptor 5 and sends some bytes. -/
def comes (buf : {buf : List UInt8 // buf.length ≤ BUFLEN}) : List Act :=
  [Act.scan 0, Act.wait [3], Act.handle {nothing with accept := some 5} nothing, Act.scan 1,
    Act.wait [5], Act.handle {nothing with recv := some buf} nothing]

theorem reactor_echoes_iff_received :
    ∃ s, runSteps step (start {0, 1, 2, 4} 3 0) (comes ⟨[104, 105, 33], by decide⟩) = some s ∧
      Along step (fun t a => ∀ t', step t a = some t' → Echoes t') (start {0, 1, 2, 4} 3 0)
        (comes ⟨[104, 105, 33], by decide⟩) := by
  have hruns : (runSteps step (start {0, 1, 2, 4} 3 0)
      (comes ⟨[104, 105, 33], by decide⟩)).isSome = true := by
    decide +kernel
  obtain ⟨s, hrun⟩ := Option.isSome_iff_exists.1 hruns
  refine ⟨s, hrun, (reactor_echoes_iff _ _ _ _ s hrun).1 (along_of_forall ?_ _)⟩
  intro a hmem t
  simp only [comes, List.mem_cons, List.not_mem_nil, or_false] at hmem
  obtain rfl | rfl | rfl | rfl | rfl | rfl := hmem
  · trivial
  · trivial
  · simp [Whole, nothing]
  · trivial
  · trivial
  · rintro events ev rest -
    refine ⟨?_, nofun⟩
    rintro - _ ⟨⟩
    decide

/-- `send` takes two of three bytes, and the third is never sent: the slot goes back to reading.
A batch that fills the slot is terminated behind it. -/
theorem senddata_loses_rest :
    (∃ s, runSteps step (start {0, 1, 2, 4} 3 0) (comes ⟨[104, 105, 33], by decide⟩ ++
        [Act.scan 2, Act.wait [5], Act.handle nothing {nothing with send := some 2}]) = some s ∧
      s.conns = [{received := [104, 105, 33], sent := [104, 105]}] ∧ ¬Echoes s) ∧
    ∃ s, runSteps step (start {0, 1, 2, 4} 3 0)
        (comes ⟨List.replicate BUFLEN 104, by simp⟩) = some s ∧ s.overrun = true := by
  constructor
  · have hruns : (runSteps step (start {0, 1, 2, 4} 3 0) (comes ⟨[104, 105, 33], by decide⟩ ++
        [Act.scan 2, Act.wait [5], Act.handle nothing {nothing with send := some 2}])).map
          (fun s => (s.conns, (s.g_events 0).status, (s.g_events 0).call_back,
            s.opened (s.g_events 0).fd)) =
        some ([{received := [104, 105, 33], sent := [104, 105]}], true, .recvdata,
          some (.connection 0)) := by
      decide +kernel
    obtain ⟨s, hrun, hseen⟩ := Option.map_eq_some_iff.1 hruns
    simp only [Prod.mk.injEq] at hseen
    obtain ⟨hconns, hstatus, hback, hopened⟩ := hseen
    refine ⟨s, hrun, hconns, ?_⟩
    intro hechoes
    have hclient : (0 : Slot) ≠ Fin.last MAX_EVENTS := by decide
    obtain ⟨id, conn, hopen, hconn, hlaw⟩ := hechoes.slot hclient hstatus
    cases hopened.symm.trans hopen
    rw [hconns] at hconn
    cases hconn
    simp [MyEvent.batch, hback] at hlaw
  · have hruns : (runSteps step (start {0, 1, 2, 4} 3 0)
        (comes ⟨List.replicate BUFLEN 104, by simp⟩)).map (fun s => s.overrun) = some true := by
      decide +kernel
    exact Option.map_eq_some_iff.1 hruns

end LearningCpp.Reactor
