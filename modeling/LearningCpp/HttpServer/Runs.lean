import LearningCpp.HttpServer.Manager
import LearningCpp.Library.Measure

/-!
What holds in every run of the server of `boost/http_server`: the manager has the
connections that are open, each of them has an operation outstanding and sends one reply,
and after a signal the handlers that are left are few and start nothing.
-/

namespace LearningCpp.HttpServer

open Library Http RequestParser
open Http.Connection (decision)

namespace Server

/-- What is true of the server at all times. -/
structure Sound (s : Server) : Prop where
  connection : ∀ {i : Nat} {c : Connection}, s.all[i]? = some c → c.Sound
  managed : ∀ {i : Nat} {c : Connection}, s.all[i]? = some c →
    (i ∈ s.connections_ ↔ c.socket_open = true)
  known : ∀ i ∈ s.connections_, i < s.all.length
  acceptor : s.acceptor_open = true ↔ s.signals_ ≠ .handled
  accepts : s.acceptor_open = true → s.accepting ≠ .idle
  stopped : s.acceptor_open = false → s.accepting ≠ .waiting ∧ s.connections_ = ∅

variable {s s' : Server} {i : Nat} {c c' : Connection}

/-- A connection goes on without its socket being closed. -/
theorem Sound.put (h : s.Sound) (hc : s.all[i]? = some c) (hsound : c'.Sound)
    (hopen : c'.socket_open = c.socket_open) : (s.put i c').Sound where
  connection := Mutex.forall_set hc hsound fun _ hother => h.connection hother
  managed := by
    intro j c₀ hj
    rcases (Mutex.getElem?_set_of_some hc j).mp hj with ⟨rfl, rfl⟩ | ⟨-, hold⟩
    · rw [hopen]
      exact h.managed hc
    · exact h.managed hold
  known := by
    intro j hj
    simpa [Server.put] using h.known j hj
  acceptor := h.acceptor
  accepts := h.accepts
  stopped := h.stopped

theorem Sound.stopConnection (h : s.Sound) (hc : s.all[i]? = some c) :
    (s.stopConnection i c.release).Sound where
  connection :=
    Mutex.forall_set hc (h.connection hc).release_stop fun _ hother => h.connection hother
  managed := by
    intro j c₀ hj
    rcases (Mutex.getElem?_set_of_some hc j).mp hj with ⟨rfl, rfl⟩ | ⟨hne, hold⟩
    · simp [Server.stopConnection, Connection.stop]
    · simp only [Server.stopConnection, Finset.mem_erase, ne_eq, hne, not_false_eq_true, true_and]
      exact h.managed hold
  known := by
    intro j hj
    simpa [Server.stopConnection, Server.put] using h.known j (Finset.mem_of_mem_erase hj)
  acceptor := h.acceptor
  accepts := h.accepts
  stopped := by
    intro hclosed
    obtain ⟨hwaiting, hempty⟩ := h.stopped hclosed
    refine ⟨hwaiting, ?_⟩
    rw [Server.stopConnection, hempty, Finset.erase_empty]

/-- The operation that waited is completed with a result of its kind. -/
theorem Sound.complete (h : s.Sound) {waiting completed : Operation}
    (hreads : completed.Reads ↔ waiting.Reads) (hnot : ¬ completed.Aborted)
    (hdone : ¬ completed.Waits) (hstep : s.complete i waiting completed = some s') :
    s'.Sound := by
  unfold Server.complete at hstep
  split at hstep
  case h_1 => cases hstep
  case h_2 c hc =>
    split at hstep
    case isFalse => cases hstep
    case isTrue hop =>
      cases hstep
      exact h.put hc ((h.connection hc).complete hop hreads hnot hdone) rfl

/-- A read was cancelled only when its socket was closed. -/
theorem closed_of_aborted (h : c.Sound) {op : Operation} (hop : c.operation = some op)
    (haborted : op.Aborted) : c.socket_open = false := by
  apply Bool.eq_false_of_not_eq_true
  intro hopen
  obtain ⟨op', hop', hnot⟩ := h.operation_of_open hopen
  rw [hop, Option.some.injEq] at hop'
  exact hnot (hop' ▸ haborted)

private theorem handle_read_open (data : List Byte) :
    (c.handle_read data).socket_open = c.socket_open := by
  unfold Connection.handle_read
  split
  split <;> rfl

theorem Sound.handle (h : s.Sound) (hc : s.all[i]? = some c) (hstep : s.handle i c = some s') :
    s'.Sound := by
  have hsound := h.connection hc
  unfold Server.handle at hstep
  split at hstep
  case h_1 data hop =>
    cases hstep
    exact h.put hc (hsound.handle_read hop) (handle_read_open data)
  case h_2 hop =>
    cases hstep
    have hclosed := closed_of_aborted hsound hop (Or.inl rfl)
    exact h.put hc (hsound.release hclosed) rfl
  case h_4 hop =>
    cases hstep
    exact h.put hc (hsound.next_part hop) rfl
  case h_6 hop =>
    cases hstep
    have hclosed := closed_of_aborted hsound hop (Or.inr rfl)
    exact h.put hc (hsound.release hclosed) rfl
  case h_8 => cases hstep
  all_goals
    cases hstep
    exact h.stopConnection hc

theorem Sound.startConnection (h : s.Sound) (hopen : s.acceptor_open = true)
    (major minor : Int32) : (s.startConnection major minor).Sound where
  connection := by
    intro j c₀ hj
    simp only [Server.startConnection] at hj
    rcases lt_or_ge j s.all.length with hlt | hge
    · rw [List.getElem?_append_left hlt] at hj
      exact h.connection hj
    · rw [List.getElem?_append_right hge, List.getElem?_singleton] at hj
      split at hj
      · cases hj
        exact Connection.do_read_sound rfl rfl rfl
      · cases hj
  managed := by
    intro j c₀ hj
    simp only [Server.startConnection] at hj ⊢
    rw [Finset.mem_insert]
    rcases lt_or_ge j s.all.length with hlt | hge
    · rw [List.getElem?_append_left hlt] at hj
      rw [or_iff_right (Nat.ne_of_lt hlt)]
      exact h.managed hj
    · rw [List.getElem?_append_right hge, List.getElem?_singleton] at hj
      split at hj
      · cases hj
        refine iff_of_true (Or.inl ?_) rfl
        omega
      · cases hj
  known := by
    intro j hj
    simp only [Server.startConnection, List.length_append, List.length_singleton]
    rcases Finset.mem_insert.mp hj with rfl | hold
    · exact Nat.lt_succ_self _
    · exact Nat.lt_succ_of_lt (h.known j hold)
  acceptor := h.acceptor
  accepts := h.accepts
  stopped := by
    intro hclosed
    have hclosed : s.acceptor_open = false := hclosed
    rw [hopen] at hclosed
    cases hclosed

theorem Sound.do_accept (h : s.Sound) (hopen : s.acceptor_open = true) : s.do_accept.Sound where
  connection := h.connection
  managed := h.managed
  known := h.known
  acceptor := h.acceptor
  accepts := fun _ => by simp [Server.do_accept]
  stopped := by
    intro hclosed
    have hclosed : s.acceptor_open = false := hclosed
    rw [hopen] at hclosed
    cases hclosed

/-- After the signal no connection is open. -/
theorem stop_all_getElem? (h : s.Sound) (hc : s.stop_all.all[i]? = some c) :
    c.Sound ∧ c.socket_open = false := by
  simp only [stop_all, List.getElem?_mapIdx, Option.map_eq_some_iff] at hc
  obtain ⟨old, hold, rfl⟩ := hc
  split
  case isTrue => exact ⟨(h.connection hold).stop, rfl⟩
  case isFalse hnot =>
    refine ⟨h.connection hold, Bool.eq_false_of_not_eq_true ?_⟩
    exact fun hopen => hnot ((h.managed hold).mpr hopen)

theorem Sound.step (h : s.Sound) {a : Act} (hstep : s.step a = some s') : s'.Sound := by
  cases a with
  | accept ok =>
      simp only [Server.step, Option.ite_none_right_eq_some, Option.some.injEq] at hstep
      obtain ⟨hwaiting, rfl⟩ := hstep
      exact { h with
        accepts := fun _ => by simp
        stopped := fun hclosed => absurd hwaiting (h.stopped hclosed).1 }
  | accepted major minor =>
      simp only [Server.step] at hstep
      split at hstep
      case h_2 => cases hstep
      case h_1 ok hqueued =>
        split at hstep
        case isTrue hopen =>
          cases hstep
          cases ok with
          | true => exact (h.startConnection hopen major minor).do_accept hopen
          | false => exact h.do_accept hopen
        case isFalse hclosed =>
          cases hstep
          exact { h with
            accepts := fun hopen => absurd hopen hclosed
            stopped := fun hfalse => ⟨Accepting.noConfusion, (h.stopped hfalse).2⟩ }
  | read i data =>
      exact h.complete (by simp [Operation.Reads]) (by simp [Operation.Aborted])
        (by simp [Operation.Waits]) hstep
  | readError i =>
      exact h.complete (by simp [Operation.Reads]) (by simp [Operation.Aborted])
        (by simp [Operation.Waits]) hstep
  | part i =>
      exact h.complete (by simp [Operation.Reads]) (by simp [Operation.Aborted])
        (by simp [Operation.Waits]) hstep
  | write i =>
      exact h.complete (by simp [Operation.Reads]) (by simp [Operation.Aborted])
        (by simp [Operation.Waits]) hstep
  | writeError i =>
      exact h.complete (by simp [Operation.Reads]) (by simp [Operation.Aborted])
        (by simp [Operation.Waits]) hstep
  | handle i =>
      simp only [Server.step] at hstep
      split at hstep
      case h_1 => cases hstep
      case h_2 c hc => exact h.handle hc hstep
  | signal =>
      simp only [Server.step, Option.ite_none_right_eq_some, Option.some.injEq] at hstep
      obtain ⟨hwaiting, rfl⟩ := hstep
      exact { h with acceptor := by simp [h.acceptor, hwaiting] }
  | stopped =>
      simp only [Server.step, Option.ite_none_right_eq_some, Option.some.injEq] at hstep
      obtain ⟨-, rfl⟩ := hstep
      refine ⟨fun hc => (stop_all_getElem? h hc).1, ?_, ?_, by simp, by simp, ?_⟩
      · intro j c hc
        rw [(stop_all_getElem? h hc).2]
        simp [Server.stop_all]
      · simp [Server.stop_all]
      · intro _
        refine ⟨?_, rfl⟩
        simp only
        split <;> simp_all

theorem start_sound : start.Sound where
  connection := fun hc => by cases hc
  managed := fun hc => by cases hc
  known := by simp [start]
  acceptor := by simp [start]
  accepts := by simp [start]
  stopped := by simp [start]

theorem sound_of_reachable (h : Reachable s) : s.Sound := by
  obtain ⟨as, hrun⟩ := h
  exact invariant_run (fun hsound hstep => Sound.step hsound hstep) start_sound hrun

/-- `connections_` has the connections whose sockets are open, each of them has an operation
whose handler will run and see no cancellation, and nothing waits on a closed socket. As long
as the acceptor is open an accept is outstanding, and from then on no connection is open. -/
theorem manages_open_connections (h : Reachable s) :
    (∀ i c, s.all[i]? = some c →
      (i ∈ s.connections_ ↔ c.socket_open = true) ∧
        (c.socket_open = true → ∃ op, c.operation = some op ∧ ¬ op.Aborted) ∧
        ∀ op, c.operation = some op → op.Waits → c.socket_open = true) ∧
      (∀ i ∈ s.connections_, i < s.all.length) ∧
        (s.acceptor_open = true → s.accepting ≠ .idle) ∧
          (s.acceptor_open = false → s.connections_ = ∅) := by
  have hsound := sound_of_reachable h
  refine ⟨?_, hsound.known, hsound.accepts, fun hclosed => (hsound.stopped hclosed).2⟩
  intro i c hc
  have hconnection := hsound.connection hc
  exact ⟨hsound.managed hc, hconnection.operation_of_open,
    fun op hop hwaits => hconnection.waits_open hop hwaits⟩

/-- One client was accepted. -/
theorem manages_open_connections_one :
    ∃ s, runSteps step start [.accept true, .accepted 0 0] = some s ∧
      (∀ i c, s.all[i]? = some c →
        (i ∈ s.connections_ ↔ c.socket_open = true) ∧
          (c.socket_open = true → ∃ op, c.operation = some op ∧ ¬ op.Aborted) ∧
          ∀ op, c.operation = some op → op.Waits → c.socket_open = true) ∧
        (∀ i ∈ s.connections_, i < s.all.length) ∧
          (s.acceptor_open = true → s.accepting ≠ .idle) ∧
            (s.acceptor_open = false → s.connections_ = ∅) :=
  ⟨_, rfl, manages_open_connections ⟨[.accept true, .accepted 0 0], rfl⟩⟩

/-- Whatever the order of reads, signals and other connections: a connection replies once at
most, with the decision on all that it has received, and reads only before it has one. -/
theorem one_reply (h : Reachable s) (hc : s.all[i]? = some c) :
    (c.replies = [] ∧ decision c.first c.received = .async_read_some ∨
        c.replies = [decision c.first c.received] ∧
          decision c.first c.received ≠ .async_read_some) ∧
      ∀ op, c.operation = some op → (op.Reads ↔ c.replies = []) := by
  have hconnection := (sound_of_reachable h).connection hc
  constructor
  · rcases eq_or_ne c.replies [] with hnone | hsome
    · exact Or.inl ⟨hnone, (hconnection.parsing_eq hnone).2⟩
    · exact Or.inr (hconnection.replies_eq hsome)
  · intro op hop
    constructor
    · exact fun hreads => hconnection.undecided ⟨op, hop, hreads⟩
    · intro hnone
      by_contra hnot
      exact hconnection.decided ⟨op, hop, hnot⟩ hnone

/-- A client that sends a NUL. -/
theorem one_reply_bad :
    ∃ s c, runSteps step start
        [.accept true, .accepted 0 0, .read 0 [0], .handle 0] = some s ∧
      s.all = [c] ∧
        (c.replies = [] ∧ decision c.first c.received = .async_read_some ∨
            c.replies = [decision c.first c.received] ∧
              decision c.first c.received ≠ .async_read_some) ∧
          ∀ op, c.operation = some op → (op.Reads ↔ c.replies = []) := by
  have hrun : ∃ s c, runSteps step start
      [.accept true, .accepted 0 0, .read 0 [0], .handle 0] = some s ∧ s.all = [c] :=
    ⟨_, _, rfl, rfl⟩
  obtain ⟨s, c, hrun, hall⟩ := hrun
  have hc : s.all[0]? = some c := by rw [hall, List.getElem?_cons_zero]
  exact ⟨s, c, hrun, hall, one_reply ⟨_, hrun⟩ hc⟩

end Server

/-- How many handlers run for an operation when nothing is completed any more. -/
def Operation.handlers : Operation → Nat
  | .readDone _ | .partDone => 2
  | .readFailed _ | .writeDone | .writeFailed _ => 1
  | .reading | .writing => 0

def Connection.handlers (c : Connection) : Nat :=
  match c.operation with
  | some op => op.handlers
  | none => 0

def Accepting.handlers : Accepting → Nat
  | .queued _ => 1
  | .idle | .waiting => 0

namespace Server

def handlers (s : Server) : Nat := weigh Connection.handlers s.all + s.accepting.handlers

/-- No operation is outstanding, and `io_context_.run()` returns. -/
def Finished (s : Server) : Prop :=
  s.accepting = .idle ∧ s.signals_ = .handled ∧ ∀ c ∈ s.all, c.operation = none

variable {s s' t : Server} {i : Nat} {c : Connection}

private theorem handlers_le (s : Server) : s.handlers ≤ 2 * s.all.length + 1 := by
  have hconnections : weigh Connection.handlers s.all ≤ 2 * s.all.length := by
    apply weigh_le
    intro c _
    unfold Connection.handlers Operation.handlers
    split
    · split <;> decide
    · decide
  have haccepting : s.accepting.handlers ≤ 1 := by
    cases s.accepting <;> simp [Accepting.handlers]
  unfold handlers
  omega

/-- After the signal every connection is closed. -/
theorem closed_of_handled (h : s.Sound) (hstop : s.signals_ = .handled)
    (hc : s.all[i]? = some c) : c.socket_open = false := by
  have hacceptor : s.acceptor_open = false := by
    apply Bool.eq_false_of_not_eq_true
    exact fun hopen => h.acceptor.mp hopen hstop
  apply Bool.eq_false_of_not_eq_true
  intro hopen
  have hmem := (h.managed hc).mpr hopen
  rw [(h.stopped hacceptor).2] at hmem
  cases hmem

theorem complete_eq_none (h : s.Sound) (hstop : s.signals_ = .handled)
    {waiting completed : Operation} (hwaits : waiting.Waits) :
    s.complete i waiting completed = none := by
  unfold complete
  split
  case h_1 => rfl
  case h_2 c hc =>
    rw [if_neg]
    intro hop
    have hopen := (h.connection hc).waits_open hop hwaits
    rw [closed_of_handled h hstop hc] at hopen
    cases hopen

/-- The handler of a closed connection leaves fewer to run. -/
theorem handle_decreases (hclosed : c.socket_open = false) (hc : s.all[i]? = some c)
    (hstep : s.handle i c = some s') :
    weigh Connection.handlers s'.all < weigh Connection.handlers s.all ∧
      s'.accepting = s.accepting ∧ s'.signals_ = s.signals_ ∧ s'.all.length = s.all.length := by
  have hread : ∀ data, (c.handle_read data).handlers = 1 := by
    intro data
    unfold Connection.handle_read
    split
    split <;> simp [Connection.do_read, Connection.do_write, Connection.handlers, hclosed,
      Operation.handlers]
  have hput : ∀ c', c'.handlers < c.handlers → s' = s.put i c' →
      weigh Connection.handlers s'.all < weigh Connection.handlers s.all ∧
        s'.accepting = s.accepting ∧ s'.signals_ = s.signals_ ∧
          s'.all.length = s.all.length := by
    rintro c' hless rfl
    exact ⟨weigh_set_lt hc hless, rfl, rfl, List.length_set⟩
  unfold handle at hstep
  split at hstep
  case h_1 data hop =>
    cases hstep
    refine hput _ ?_ rfl
    rw [hread, Connection.handlers, hop]
    exact Nat.one_lt_two
  case h_4 hop =>
    cases hstep
    refine hput _ ?_ rfl
    simp [Connection.handlers, hop, hclosed, Operation.handlers]
  case h_2 hop | h_6 hop =>
    cases hstep
    refine hput _ ?_ rfl
    simp [Connection.release, Connection.handlers, hop, Operation.handlers]
  case h_3 hop | h_5 hop | h_7 hop =>
    cases hstep
    refine ⟨weigh_set_lt hc ?_, rfl, rfl, List.length_set⟩
    simp [Connection.release, Connection.stop, Connection.handlers, hop, Operation.handlers]
  case h_8 => cases hstep

/-- After the signal only handlers run, and every one leaves fewer. -/
theorem step_decreases (h : s.Sound) (hstop : s.signals_ = .handled) {a : Act}
    (hstep : s.step a = some s') :
    s'.handlers < s.handlers ∧ s'.signals_ = .handled ∧ s'.all.length = s.all.length := by
  have hacceptor : s.acceptor_open = false := by
    apply Bool.eq_false_of_not_eq_true
    exact fun hopen => h.acceptor.mp hopen hstop
  cases a with
  | accept ok =>
      simp only [step, if_neg (h.stopped hacceptor).1] at hstep
      cases hstep
  | accepted major minor =>
      simp only [step] at hstep
      split at hstep
      case h_2 => cases hstep
      case h_1 ok hqueued =>
        simp only [hacceptor, Bool.false_eq_true, if_false, Option.some.injEq] at hstep
        subst hstep
        exact ⟨by simp [handlers, hqueued, Accepting.handlers], hstop, rfl⟩
  | read i data =>
      rw [step, complete_eq_none h hstop (Or.inl rfl)] at hstep
      cases hstep
  | readError i =>
      rw [step, complete_eq_none h hstop (Or.inl rfl)] at hstep
      cases hstep
  | part i =>
      rw [step, complete_eq_none h hstop (Or.inr rfl)] at hstep
      cases hstep
  | write i =>
      rw [step, complete_eq_none h hstop (Or.inr rfl)] at hstep
      cases hstep
  | writeError i =>
      rw [step, complete_eq_none h hstop (Or.inr rfl)] at hstep
      cases hstep
  | handle i =>
      simp only [step] at hstep
      split at hstep
      case h_1 => cases hstep
      case h_2 c hc =>
        obtain ⟨hless, haccepting, hsignals, hlength⟩ :=
          handle_decreases (closed_of_handled h hstop hc) hc hstep
        refine ⟨?_, hsignals.trans hstop, hlength⟩
        simp only [handlers, haccepting]
        omega
  | signal =>
      simp [step, hstop] at hstep
  | stopped =>
      simp [step, hstop] at hstep

/-- As long as an operation is outstanding after the signal, its handler can run. -/
theorem finished_or_step (h : s.Sound) (hstop : s.signals_ = .handled) :
    s.Finished ∨ ∃ a, (s.step a).isSome := by
  have hacceptor : s.acceptor_open = false := by
    apply Bool.eq_false_of_not_eq_true
    exact fun hopen => h.acceptor.mp hopen hstop
  rcases Classical.em (∀ c ∈ s.all, c.operation = none) with hnone | hsome
  · cases haccepting : s.accepting with
    | idle => exact Or.inl ⟨haccepting, hstop, hnone⟩
    | waiting => exact absurd haccepting (h.stopped hacceptor).1
    | queued ok =>
        refine Or.inr ⟨.accepted 0 0, ?_⟩
        simp [step, haccepting, hacceptor]
  · push Not at hsome
    obtain ⟨c, hmem, hop⟩ := hsome
    obtain ⟨i, hi⟩ := List.getElem?_of_mem hmem
    obtain ⟨op, hop⟩ := Option.ne_none_iff_exists'.mp hop
    have hclosed := closed_of_handled h hstop hi
    have hnot : ¬ op.Waits := by
      intro hwaits
      rw [(h.connection hi).waits_open hop hwaits] at hclosed
      cases hclosed
    refine Or.inr ⟨.handle i, ?_⟩
    simp only [step, hi, handle, hop]
    cases op with
    | reading => exact absurd (Or.inl rfl) hnot
    | writing => exact absurd (Or.inr rfl) hnot
    | readFailed ec => cases ec <;> rfl
    | writeFailed ec => cases ec <;> rfl
    | readDone data => rfl
    | partDone => rfl
    | writeDone => rfl

/-- What does not change after the signal, with `n` connections. -/
structure Stopped (n : Nat) (s : Server) : Prop where
  sound : s.Sound
  handled : s.signals_ = .handled
  length_eq : s.all.length = n

theorem Stopped.step {n : Nat} (h : Stopped n s) {a : Act} (hstep : s.step a = some s') :
    Stopped n s' := by
  obtain ⟨-, hsignals, hlength⟩ := step_decreases h.sound h.handled hstep
  exact ⟨h.sound.step hstep, hsignals, hlength.trans h.length_eq⟩

/-- Once the handler of the signal has run, no connection is made or opened any more, at most
two handlers run for each connection and one for the acceptor, and handlers can run until no
operation is outstanding. -/
theorem stop_drains (h : Reachable s) (hstop : s.signals_ = .handled) {as : List Act}
    (hrun : runSteps step s as = some t) :
    as.length ≤ 2 * s.all.length + 1 ∧ t.connections_ = ∅ ∧ t.all.length = s.all.length ∧
      (t.Finished ∨ ∃ a, (t.step a).isSome) := by
  have hinit : Stopped s.all.length s := ⟨sound_of_reachable h, hstop, rfl⟩
  have hend := invariant_run (fun hinv hstep => Stopped.step hinv hstep) hinit hrun
  have hlength := length_le_of_decreasing (fun hinv hstep => Stopped.step hinv hstep)
    (fun hinv hstep => (step_decreases hinv.sound hinv.handled hstep).1) hinit hrun
  have hhandlers := s.handlers_le
  have hacceptor : t.acceptor_open = false := by
    apply Bool.eq_false_of_not_eq_true
    exact fun hopen => hend.sound.acceptor.mp hopen hend.handled
  exact ⟨by omega, (hend.sound.stopped hacceptor).2, hend.length_eq,
    finished_or_step hend.sound hend.handled⟩

/-- A signal while a read of the only connection is queued. -/
theorem stop_drains_one :
    ∃ s t, runSteps step start
        [.accept true, .accepted 0 0, .read 0 [71], .signal, .stopped] = some s ∧
      runSteps step s [.handle 0, .handle 0, .accepted 0 0] = some t ∧
        3 ≤ 2 * s.all.length + 1 ∧ t.connections_ = ∅ ∧ t.all.length = s.all.length ∧
          (t.Finished ∨ ∃ a, (t.step a).isSome) :=
  ⟨_, _, rfl, rfl, @stop_drains _ _
    ⟨[.accept true, .accepted 0 0, .read 0 [71], .signal, .stopped], rfl⟩ rfl
    [.handle 0, .handle 0, .accepted 0 0] rfl⟩

end Server

end LearningCpp.HttpServer
