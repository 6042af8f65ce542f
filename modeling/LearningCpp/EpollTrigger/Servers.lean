import LearningCpp.EpollTrigger.Pipe

/-!
The servers of `epoll_ET_LT/2-block_epoll` and `epoll_ET_LT/3-noblock_epoll` with their client.
Both are told of edges. The first reads five bytes for each and falls behind; the second reads
until nothing is left and prints all that its client writes.
-/

namespace LearningCpp.EpollTrigger

open Library

inductive Server where
  | block_epoll
  | noblock_epoll
  deriving DecidableEq, Repr

/-- The loop of a server after `accept`, for the events that it asks for. -/
def Server.loop (server : Server) (events capacity : Nat) : Discipline :=
  match server with
  | .block_epoll => discipline events false true capacity
  | .noblock_epoll => discipline events true false capacity

/-- The client has written `rounds` texts, of which the last bytes are on the wire. -/
structure Session where
  rounds : Nat
  wire : List UInt8
  connfd : Watched UInt8
  deriving DecidableEq, Repr

namespace Session

/-- The client writes, `k` bytes are delivered, the server returns from `epoll_wait`, the server
reads `len` bytes and prints them. -/
inductive Act where
  | write
  | deliver (k : Nat)
  | epoll_wait
  | read (len : Nat)
  deriving DecidableEq, Repr

def start : Session := ⟨0, [], Watched.start⟩

def step (d : Discipline) (s : Session) : Act → Option Session
  | .write => some {s with rounds := s.rounds + 1, wire := s.wire ++ text s.rounds}
  | .deliver k =>
      (s.connfd.step d (.arrive (s.wire.take k))).map fun connfd =>
        {s with wire := s.wire.drop k, connfd := connfd}
  | .epoll_wait => (s.connfd.served d .wait).map fun connfd => {s with connfd := connfd}
  | .read len => (s.connfd.served d (.read len)).map fun connfd => {s with connfd := connfd}

/-- All that the client has written. -/
def texts (s : Session) : List UInt8 := (List.range s.rounds).flatMap text

structure Sound (d : Discipline) (s : Session) : Prop where
  connfd : s.connfd.Sound d
  written : s.connfd.arrived ++ s.wire = s.texts
  opened : s.connfd.closed = false

variable {d : Discipline} {s s' : Session} {a : Act}

theorem start_sound (d : Discipline) : Sound d start where
  connfd := Watched.start_sound d
  written := rfl
  opened := rfl

/-- What a step of the server does. -/
theorem Sound.of_served (h : Sound d s) {signal : Signal UInt8} {connfd : Watched UInt8}
    (hserved : s.connfd.served d signal = some connfd) : Sound d {s with connfd := connfd} := by
  obtain ⟨hstep, hclosed, harrived, -⟩ := Watched.served_step hserved
  refine ⟨h.connfd.step hstep, ?_, hclosed.trans h.opened⟩
  rw [harrived]
  exact h.written

/-- What a delivery does. -/
theorem deliver_eq_some {k : Nat} (h : s.step d (.deliver k) = some s') :
    s.wire.take k ≠ [] ∧ s.connfd.unread.length + (s.wire.take k).length ≤ d.capacity ∧
      s' = {s with
        wire := s.wire.drop k
        connfd := {s.connfd with
          unread := s.connfd.unread ++ s.wire.take k
          ready := true
          arrived := s.connfd.arrived ++ s.wire.take k
          arrivals := s.connfd.arrivals + 1 } } := by
  obtain ⟨connfd, hstep, rfl⟩ := Option.map_eq_some_iff.mp h
  simp only [Watched.step] at hstep
  split at hstep
  case isFalse hnot => cases hstep
  case isTrue hguard =>
    cases hstep
    exact ⟨hguard.1, hguard.2.2, rfl⟩

theorem Sound.step (h : Sound d s) (hstep : s.step d a = some s') : Sound d s' := by
  cases a with
  | write =>
      cases hstep
      refine ⟨h.connfd, ?_, h.opened⟩
      simp only [texts, List.range_succ, List.flatMap_append, List.flatMap_singleton]
      rw [← List.append_assoc, h.written, texts]
  | deliver k =>
      obtain ⟨-, hfits, rfl⟩ := deliver_eq_some hstep
      refine ⟨h.connfd.arrive hfits, ?_, h.opened⟩
      simp only [List.append_assoc, List.take_append_drop]
      exact h.written
  | epoll_wait =>
      obtain ⟨connfd, hserved, rfl⟩ := Option.map_eq_some_iff.mp hstep
      exact h.of_served hserved
  | read len =>
      obtain ⟨connfd, hserved, rfl⟩ := Option.map_eq_some_iff.mp hstep
      exact h.of_served hserved

theorem Sound.run {as : List Act} (h : Sound d s) (hrun : runSteps (Session.step d) s as = some s') :
    Sound d s' :=
  invariant_run (fun hsound hstep => hsound.step hstep) h hrun

/-- What is left to do when the client writes no more. -/
def effort (d : Discipline) (s : Session) : Nat := 6 * s.wire.length + s.connfd.effort d

/-- Nothing is on the wire and the server sleeps. -/
def Done (d : Discipline) (s : Session) : Prop := s.wire = [] ∧ s.connfd.Asleep d

private theorem effort_step (h : Sound d s) (hstep : s.step d a = some s') (ha : a ≠ .write) :
    s'.effort d < s.effort d ∧ s'.rounds = s.rounds := by
  have hserved : ∀ {signal connfd}, s.connfd.served d signal = some connfd →
      effort d {s with connfd := connfd} < s.effort d := by
    intro signal connfd hown
    exact Nat.add_lt_add_left (Watched.effort_served (Or.inr h.opened) hown) _
  cases a with
  | write => exact absurd rfl ha
  | deliver k =>
      obtain ⟨hsome, -, rfl⟩ := deliver_eq_some hstep
      have hpos := List.length_pos_iff.mpr hsome
      have hmore := Watched.effort_arrive d s.connfd (s.wire.take k)
      have htotal : (s.wire.take k).length + (s.wire.drop k).length = s.wire.length := by
        rw [← List.length_append, List.take_append_drop]
      refine ⟨?_, rfl⟩
      simp only [effort]
      omega
  | epoll_wait =>
      obtain ⟨connfd, hown, rfl⟩ := Option.map_eq_some_iff.mp hstep
      exact ⟨hserved hown, rfl⟩
  | read len =>
      obtain ⟨connfd, hown, rfl⟩ := Option.map_eq_some_iff.mp hstep
      exact ⟨hserved hown, rfl⟩

/-- A server that is awake has a step. -/
theorem exists_step_of_awake (h : ¬ s.connfd.Asleep d) :
    ∃ a s', s.step d a = some s' ∧ a ≠ .write := by
  by_contra hnone
  refine h ⟨?_, ?_⟩
  · by_contra hsome
    obtain ⟨connfd, hstep⟩ := Option.ne_none_iff_exists'.mp hsome
    refine hnone ⟨.epoll_wait, {s with connfd := connfd}, ?_, Act.noConfusion⟩
    rw [Session.step, Watched.served, hstep, Option.map_some]
  · intro k
    by_contra hsome
    obtain ⟨connfd, hstep⟩ := Option.ne_none_iff_exists'.mp hsome
    refine hnone ⟨.read k, {s with connfd := connfd}, ?_, Act.noConfusion⟩
    rw [Session.step, Watched.served, hstep, Option.map_some]

/-- One that sleeps has read all, so that more can be delivered. -/
theorem Sound.exists_step (h : Sound d s) (hchunk : 0 < d.chunk) (hcapacity : 0 < d.capacity)
    (hd : d.edge = false ∨ d.drains = true) (hnot : ¬ s.Done d) :
    ∃ a s', s.step d a = some s' ∧ a ≠ .write := by
  rcases Classical.em (s.connfd.Asleep d) with hasleep | hawake
  · have hwire : s.wire ≠ [] := fun hnil => hnot ⟨hnil, hasleep⟩
    have hall := h.connfd.read_of_asleep hchunk hd hasleep
    rw [← h.connfd.stream, List.self_eq_append_right] at hall
    have hone : (s.wire.take 1).length = 1 := by
      rw [List.length_take]
      exact Nat.min_eq_left (List.length_pos_iff.mpr hwire)
    have hsome : s.wire.take 1 ≠ [] := by
      intro hnil
      rw [hnil] at hone
      cases hone
    have hguard : s.wire.take 1 ≠ [] ∧ s.connfd.closed = false ∧
        s.connfd.unread.length + (s.wire.take 1).length ≤ d.capacity := by
      refine ⟨hsome, h.opened, ?_⟩
      rw [hall, hone]
      exact hcapacity
    have hstep : s.step d (.deliver 1) = some {s with
        wire := s.wire.drop 1
        connfd := {s.connfd with
          unread := s.connfd.unread ++ s.wire.take 1
          ready := true
          arrived := s.connfd.arrived ++ s.wire.take 1
          arrivals := s.connfd.arrivals + 1 } } := by
      rw [Session.step, Watched.step, if_pos hguard, Option.map_some]
    exact ⟨_, _, hstep, Act.noConfusion⟩
  · exact exists_step_of_awake hawake

variable {server : Server} {events capacity : Nat}

theorem chunk_pos (server : Server) (events capacity : Nat) :
    0 < (server.loop events capacity).chunk := by
  cases server <;> exact Pipe.chunk_pos events capacity

private theorem loop_capacity (server : Server) (events capacity : Nat) :
    (server.loop events capacity).capacity = capacity := by
  cases server <;> rfl

/-- The first server is left with half of the first text. -/
theorem block_epoll_left (hedge : events.testBit 31 = true) (hcapacity : MAXLINE ≤ capacity) :
    ∃ as s, runSteps (step (Server.block_epoll.loop events capacity)) start as = some s ∧
      s.Done (Server.block_epoll.loop events capacity) ∧ s.connfd.taken ≠ s.texts := by
  have htext : text 0 = line 97 ++ line 98 := rfl
  refine ⟨[.write, .deliver 10, .epoll_wait, .read 5],
    ⟨1, [], ⟨line 98, false, false, .waiting, text 0, 1, line 97⟩⟩, ?_, ⟨rfl, ?_⟩, by decide⟩
  · have hfits : 10 ≤ capacity := hcapacity
    simp [runSteps, step, start, Watched.step, Watched.served, Watched.start, Watched.Readable,
      Server.loop, discipline, hedge, hfits, htext, line, MAXLINE]
  · exact (Watched.asleep_iff (chunk_pos .block_epoll events capacity)).mpr
      (Or.inl ⟨rfl, fun h => Bool.false_ne_true h.1⟩)

/-- A server prints all that its client writes, whatever the pieces that it is delivered in, if
it reads until nothing is left or asks for levels, and only then. -/
theorem prints_all_iff (server : Server) (events capacity : Nat) (hcapacity : MAXLINE ≤ capacity) :
    (∀ as s, runSteps (step (server.loop events capacity)) start as = some s →
      (s.Done (server.loop events capacity) → s.connfd.taken = s.texts) ∧
      ∃ bs t, runSteps (step (server.loop events capacity)) s bs = some t ∧
        bs.length ≤ s.effort (server.loop events capacity) ∧ t.rounds = s.rounds ∧
        t.Done (server.loop events capacity)) ↔
      server = .noblock_epoll ∨ events.testBit 31 = false := by
  constructor
  · intro hall
    cases server with
    | noblock_epoll => exact Or.inl rfl
    | block_epoll =>
        refine Or.inr ?_
        by_contra hnot
        rw [Bool.not_eq_false] at hnot
        obtain ⟨as, s, hrun, hdone, hne⟩ := block_epoll_left hnot hcapacity
        exact hne ((hall as s hrun).1 hdone)
  · intro hgood as s hrun
    have hd : (server.loop events capacity).edge = false ∨
        (server.loop events capacity).drains = true := by
      rcases hgood with rfl | hlevel
      · exact Or.inr rfl
      · cases server <;> exact Or.inl hlevel
    have hchunk := chunk_pos server events capacity
    have hroom : 0 < (server.loop events capacity).capacity := by
      rw [loop_capacity]
      exact Nat.lt_of_lt_of_le (by decide) hcapacity
    have h := (start_sound (server.loop events capacity)).run hrun
    constructor
    · rintro ⟨hwire, hasleep⟩
      have hwritten := h.written
      rw [hwire, List.append_nil] at hwritten
      rw [← hwritten]
      exact h.connfd.read_of_asleep hchunk hd hasleep
    · have hnext : ∀ {t : Session}, (Sound (server.loop events capacity) t ∧ t.rounds = s.rounds) →
          ¬ t.Done (server.loop events capacity) →
          ∃ a t', t.step (server.loop events capacity) a = some t' ∧
            (Sound (server.loop events capacity) t' ∧ t'.rounds = s.rounds) ∧
            t'.effort (server.loop events capacity) < t.effort (server.loop events capacity) := by
        rintro t ⟨hsound, hrounds⟩ hnot
        obtain ⟨a, t', hstep, ha⟩ := hsound.exists_step hchunk hroom hd hnot
        obtain ⟨hless, hsame⟩ := effort_step hsound hstep ha
        exact ⟨a, t', hstep, ⟨hsound.step hstep, hsame.trans hrounds⟩, hless⟩
      obtain ⟨bs, t, hrun', ⟨-, hrounds⟩, hdone, hlength⟩ := exists_run_done hnext ⟨h, rfl⟩
      exact ⟨bs, t, hrun', hlength, hrounds, hdone⟩

/-- The second server and one piece of its client's first text. -/
theorem prints_all_iff_noblock :
    ∃ s, runSteps (step (Server.noblock_epoll.loop (EPOLLIN ||| EPOLLET) 10)) start
        [.write, .deliver 3, .epoll_wait, .read 3] = some s ∧
      (s.Done (Server.noblock_epoll.loop (EPOLLIN ||| EPOLLET) 10) → s.connfd.taken = s.texts) := by
  obtain ⟨s, hrun⟩ := Option.isSome_iff_exists.mp
    (show (runSteps (step (Server.noblock_epoll.loop (EPOLLIN ||| EPOLLET) 10)) start
      [.write, .deliver 3, .epoll_wait, .read 3]).isSome = true from rfl)
  exact ⟨s, hrun, ((prints_all_iff _ _ 10 (Nat.le_refl _)).mpr (Or.inl rfl) _ s hrun).1⟩

end Session

end LearningCpp.EpollTrigger
