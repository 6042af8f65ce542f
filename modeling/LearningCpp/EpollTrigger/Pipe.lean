import LearningCpp.Library.Measure
import LearningCpp.Library.Pages
import LearningCpp.Library.Readiness

/-!
`epoll_ET_LT/1-epoll/epoll.c`. The child writes ten bytes to a pipe again and again, the parent
is told of edges and reads five bytes for each. The pipe fills up and both processes stop; with
`EPOLLIN` alone, as in the line that is commented out, the program goes on for ever.
-/

namespace LearningCpp.EpollTrigger

open Library

def MAXLINE : Nat := 10

def EPOLLIN : Nat := 1

def EPOLLET : Nat := 2 ^ 31

/-- Half of `buf`: one character and a newline at the end. -/
def line (ch : UInt8) : List UInt8 :=
  (List.replicate (MAXLINE / 2) ch).set (MAXLINE / 2 - 1) 10

/-- What is written in round `n`; `ch` wraps around. -/
def text (n : Nat) : List UInt8 := line (97 + 2 * UInt8.ofNat n) ++ line (98 + 2 * UInt8.ofNat n)

theorem length_text (n : Nat) : (text n).length = MAXLINE := by
  simp [text, line, MAXLINE]

private theorem text_ne_nil (n : Nat) : text n ≠ [] := by
  intro heq
  have hlength := length_text n
  rw [heq] at hlength
  cases hlength

/-- How a program that sets `event.events` is told, and reads. -/
def discipline (events : Nat) (drains blocking : Bool) (capacity : Nat) : Discipline where
  edge := events.testBit 31
  drains := drains
  blocking := blocking
  chunk := MAXLINE / 2
  capacity := capacity

namespace Pipe

/-- The child writes, the parent returns from `epoll_wait`, the parent reads and prints. -/
inductive Act where
  | write
  | epoll_wait
  | read (len : Nat)
  deriving DecidableEq, Repr

/-- The loop of the parent, for the events that it asks for. -/
def parent (events capacity : Nat) : Discipline := discipline events false true capacity

/-- What a step is for the pipe. A write of at most `PIPE_BUF` bytes is not split. -/
def Act.signal (round : Nat) : Act → Signal UInt8
  | .write => .arrive (text round)
  | .epoll_wait => .wait
  | .read len => .read len

/-- The pipe and the steps so far. -/
structure State where
  pfd : Watched UInt8
  past : List Act

def start : State := ⟨Watched.start, []⟩

/-- A write waits until the kernel has `room` for it, which may depend on all that went before. No
more than `capacity` bytes are in the pipe. -/
def step (events capacity : Nat) (room : List Act → Bool) (s : State) (a : Act) : Option State :=
  if a = .write ∧ room s.past = false then none
  else
    (s.pfd.step (parent events capacity) (a.signal s.pfd.arrivals)).map fun pfd =>
      ⟨pfd, s.past ++ [a]⟩

variable {events capacity : Nat} {room : List Act → Bool} {s s' : State} {a : Act}

theorem step_eq_some (hstep : step events capacity room s a = some s') :
    s.pfd.step (parent events capacity) (a.signal s.pfd.arrivals) = some s'.pfd ∧
      s'.past = s.past ++ [a] ∧ (a = .write → room s.past = true) := by
  unfold step at hstep
  split at hstep
  case isTrue hfull => cases hstep
  case isFalse hroom =>
    obtain ⟨pfd, hpfd, rfl⟩ := Option.map_eq_some_iff.mp hstep
    refine ⟨hpfd, rfl, ?_⟩
    intro hwrite
    rw [not_and, Bool.not_eq_false] at hroom
    exact hroom hwrite

/-- Neither process has a step. -/
def Stuck (events capacity : Nat) (room : List Act → Bool) (s : State) : Prop :=
  ∀ a, step events capacity room s a = none

/-- A write into an empty pipe does not wait. -/
def TakesFirst (events capacity : Nat) (room : List Act → Bool) : Prop :=
  MAXLINE ≤ capacity ∧ ∀ as s, runSteps (step events capacity room) start as = some s →
    s.pfd.unread = [] → room as = true

/-- The pipe has been given whole texts, and stays open. -/
structure Sound (events capacity : Nat) (pfd : Watched UInt8) : Prop where
  watched : pfd.Sound (parent events capacity)
  written : pfd.arrived = (List.range pfd.arrivals).flatMap text
  opened : pfd.closed = false

theorem start_sound (events capacity : Nat) : Sound events capacity start.pfd where
  watched := Watched.start_sound _
  written := rfl
  opened := rfl

theorem Sound.of_served {pfd pfd' : Watched UInt8} (h : Sound events capacity pfd)
    (signal : Signal UInt8) (hserved : pfd.served (parent events capacity) signal = some pfd') :
    Sound events capacity pfd' := by
  obtain ⟨hstep, hclosed, harrived, harrivals⟩ := Watched.served_step hserved
  refine ⟨h.watched.step hstep, ?_, hclosed.trans h.opened⟩
  rw [harrived, harrivals]
  exact h.written

/-- What a write that is taken does. -/
theorem arrive_eq_some {pfd pfd' : Watched UInt8} {xs : List UInt8}
    (h : pfd.step (parent events capacity) (.arrive xs) = some pfd') :
    pfd' = {pfd with
      unread := pfd.unread ++ xs
      ready := true
      arrived := pfd.arrived ++ xs
      arrivals := pfd.arrivals + 1 } := by
  simp only [Watched.step] at h
  split at h
  case isFalse hnot => cases h
  case isTrue hguard => exact (Option.some.inj h).symm

theorem Sound.step (h : Sound events capacity s.pfd)
    (hstep : Pipe.step events capacity room s a = some s') : Sound events capacity s'.pfd := by
  obtain ⟨hpfd, -, -⟩ := step_eq_some hstep
  cases a with
  | write =>
      have hwatched := h.watched.step hpfd
      rw [arrive_eq_some hpfd] at hwatched ⊢
      refine ⟨hwatched, ?_, h.opened⟩
      simp only [h.written, List.range_succ, List.flatMap_append, List.flatMap_singleton]
  | epoll_wait => exact h.of_served .wait hpfd
  | read len => exact h.of_served (.read len) hpfd

theorem Sound.run {as : List Act} (h : Sound events capacity s.pfd)
    (hrun : runSteps (Pipe.step events capacity room) s as = some s') :
    Sound events capacity s'.pfd :=
  invariant_run (I := fun s : State => Sound events capacity s.pfd)
    (fun hsound hstep => hsound.step hstep) h hrun

private theorem length_written (n : Nat) : ((List.range n).flatMap text).length = MAXLINE * n := by
  induction n with
  | zero => rfl
  | succ n ih =>
      rw [List.range_succ, List.flatMap_append, List.flatMap_singleton, List.length_append, ih,
        length_text, Nat.mul_succ]

/-- All that was written is printed or in the pipe. -/
theorem Sound.length_eq {pfd : Watched UInt8} (h : Sound events capacity pfd) :
    pfd.taken.length + pfd.unread.length = MAXLINE * pfd.arrivals := by
  rw [← List.length_append, h.watched.stream, h.written, length_written]

/-- The parent falls behind by half of what is written, so the child can only write while the
other half fits. -/
theorem Sound.arrivals_le {pfd : Watched UInt8} (h : Sound events capacity pfd)
    (hedge : events.testBit 31 = true) : pfd.arrivals ≤ capacity / (MAXLINE / 2) := by
  have htaken := h.watched.length_taken_le hedge rfl
  have hfits := h.watched.fits
  have hlength := h.length_eq
  rw [h.opened] at htaken
  simp only [parent, discipline, Bool.toNat_false, Nat.add_zero, MAXLINE] at htaken hfits hlength ⊢
  omega

/-- How many steps the two processes still have. -/
def stepsLeft (capacity : Nat) (pfd : Watched UInt8) : Nat :=
  3 * (capacity / (MAXLINE / 2) - pfd.arrivals) + pfd.pulse

theorem Sound.stepsLeft_lt (h : Sound events capacity s.pfd) (hedge : events.testBit 31 = true)
    (hstep : Pipe.step events capacity room s a = some s') :
    stepsLeft capacity s'.pfd < stepsLeft capacity s.pfd := by
  have hserved : ∀ signal, s.pfd.served (parent events capacity) signal = some s'.pfd →
      stepsLeft capacity s'.pfd < stepsLeft capacity s.pfd := by
    intro signal hown
    obtain ⟨-, -, -, harrivals⟩ := Watched.served_step hown
    have hpulse := Watched.pulse_served hedge rfl hown
    unfold stepsLeft
    rw [harrivals]
    omega
  obtain ⟨hpfd, -, -⟩ := step_eq_some hstep
  cases a with
  | epoll_wait => exact hserved .wait hpfd
  | read len => exact hserved (.read len) hpfd
  | write =>
      have hle := (h.step hstep).arrivals_le hedge
      have hready := s.pfd.ready.toNat_le
      rw [arrive_eq_some hpfd] at hle ⊢
      simp only [stepsLeft, Watched.pulse, Bool.toNat_true] at hle ⊢
      omega

/-- The processes have stopped when nothing wakes the parent and the child's write is not taken. -/
theorem stuck_iff (h : Sound events capacity s.pfd) :
    Stuck events capacity room s ↔
      s.pfd.Asleep (parent events capacity) ∧
        (room s.past = true → capacity < s.pfd.unread.length + MAXLINE) := by
  have hwrite : s.pfd.step (parent events capacity) (.arrive (text s.pfd.arrivals)) = none ↔
      capacity < s.pfd.unread.length + MAXLINE := by
    simp only [Watched.step, h.opened, text_ne_nil, length_text, parent, discipline, ne_eq,
      not_false_eq_true, true_and, ite_eq_right_iff, reduceCtorEq, imp_false, not_le]
  have hown : ∀ a : Act, a ≠ .write → (step events capacity room s a = none ↔
      s.pfd.step (parent events capacity) (a.signal s.pfd.arrivals) = none) := by
    intro a ha
    rw [step, if_neg (fun hfull => ha hfull.1), Option.map_eq_none_iff]
  have hchild : step events capacity room s .write = none ↔
      (room s.past = true → capacity < s.pfd.unread.length + MAXLINE) := by
    cases hroom : room s.past with
    | false => simp [step, hroom]
    | true =>
        rw [step, if_neg (by simp [hroom]), Option.map_eq_none_iff]
        exact ⟨fun hnone _ => hwrite.mp hnone, fun hfull => hwrite.mpr (hfull rfl)⟩
  constructor
  · intro hstuck
    refine ⟨⟨?_, ?_⟩, hchild.mp (hstuck .write)⟩
    · exact (hown .epoll_wait Act.noConfusion).mp (hstuck .epoll_wait)
    · exact fun k => (hown (.read k) Act.noConfusion).mp (hstuck (.read k))
  · rintro ⟨⟨hwait, hread⟩, hfull⟩ a
    cases a with
    | write => exact hchild.mpr hfull
    | epoll_wait => exact (hown .epoll_wait Act.noConfusion).mpr hwait
    | read len => exact (hown (.read len) Act.noConfusion).mpr (hread len)

theorem chunk_pos (events capacity : Nat) : 0 < (parent events capacity).chunk := by
  show 0 < MAXLINE / 2
  decide

/-- When both processes have stopped, the parent waits for an edge. -/
theorem Sound.waiting_of_stuck (h : Sound events capacity s.pfd)
    (hstuck : Stuck events capacity room s) : s.pfd.phase = .waiting := by
  obtain ⟨hasleep, -⟩ := (stuck_iff h).mp hstuck
  cases hphase : s.pfd.phase with
  | waiting => rfl
  | reading =>
      obtain ⟨k, w, hread⟩ := h.watched.read_never_waits (chunk_pos events capacity) rfl hphase
      rw [hasleep.2 k] at hread
      cases hread

theorem past_run {as : List Act} (hrun : runSteps (step events capacity room) s as = some s') :
    s'.past = s.past ++ as := by
  induction as generalizing s with
  | nil =>
      cases hrun
      rw [List.append_nil]
  | cons a as ih =>
      obtain ⟨t, hstep, hrest⟩ := runSteps_cons_iff.mp hrun
      rw [ih hrest, (step_eq_some hstep).2.1, List.append_assoc]
      rfl

/-- When both processes have stopped, there is something in the pipe. -/
theorem unread_of_stuck (hfirst : TakesFirst events capacity room) {as : List Act}
    (hrun : runSteps (step events capacity room) start as = some s)
    (hstuck : Stuck events capacity room s) : s.pfd.unread ≠ [] := by
  intro hempty
  have h := (start_sound events capacity).run hrun
  obtain ⟨hcapacity, hroom⟩ := hfirst
  obtain ⟨-, hfull⟩ := (stuck_iff h).mp hstuck
  rw [past_run hrun, start, List.nil_append, hempty] at hfull
  have hless := hfull (hroom as s hrun hempty)
  rw [List.length_nil] at hless
  omega

theorem Sound.exists_stuck (h : Sound events capacity s.pfd) (room : List Act → Bool)
    (hedge : events.testBit 31 = true) :
    ∃ as s', runSteps (Pipe.step events capacity room) s as = some s' ∧
      Sound events capacity s'.pfd ∧ Stuck events capacity room s' := by
  have hnext : ∀ {s : State}, Sound events capacity s.pfd → ¬ Stuck events capacity room s →
      ∃ a s', Pipe.step events capacity room s a = some s' ∧ Sound events capacity s'.pfd ∧
        stepsLeft capacity s'.pfd < stepsLeft capacity s.pfd := by
    intro s hsound hnot
    simp only [Stuck, not_forall] at hnot
    obtain ⟨a, hsome⟩ := hnot
    obtain ⟨s', hstep⟩ := Option.ne_none_iff_exists'.mp hsome
    exact ⟨a, s', hstep, hsound.step hstep, hsound.stepsLeft_lt hedge hstep⟩
  obtain ⟨as, s', hrun, hsound, hstuck, -⟩ := exists_run_done hnext h
  exact ⟨as, s', hrun, hsound, hstuck⟩

/-- Told of edges, the program comes to a stop in every run, whenever the kernel lets the child
write: the child can write as long as half of what it writes fits into the pipe, and in the end its
write waits while the parent waits for an edge, with something left to read. -/
theorem edges_come_to_a_stop (events capacity : Nat) (room : List Act → Bool)
    (hfirst : TakesFirst events capacity room) (hedge : events.testBit 31 = true)
    (as : List Act) (s : State)
    (hrun : runSteps (step events capacity room) start as = some s) :
    as.length ≤ 3 * (capacity / (MAXLINE / 2)) ∧
      s.pfd.taken <+: (List.range s.pfd.arrivals).flatMap text ∧
      s.pfd.taken.length ≤ MAXLINE / 2 * s.pfd.arrivals ∧ s.pfd.taken.length ≤ capacity ∧
      ∃ bs s', runSteps (step events capacity room) s bs = some s' ∧
        Stuck events capacity room s' ∧ s'.pfd.phase = .waiting ∧ s'.pfd.unread ≠ [] := by
  have h := (start_sound events capacity).run hrun
  have hlength := length_le_of_decreasing (I := fun s : State => Sound events capacity s.pfd)
    (fun hsound hstep => Sound.step hsound hstep)
    (fun hsound hstep => hsound.stepsLeft_lt hedge hstep) (start_sound events capacity) hrun
  have hbehind := h.watched.length_taken_le hedge rfl
  rw [h.opened] at hbehind
  have hhalf : s.pfd.taken.length ≤ MAXLINE / 2 * s.pfd.arrivals := by
    simpa [parent, discipline] using hbehind
  refine ⟨?_, ?_, hhalf, ?_, ?_⟩
  · have hstart : stepsLeft capacity start.pfd = 3 * (capacity / (MAXLINE / 2)) := by
      simp [stepsLeft, start, Watched.start, Watched.pulse]
    omega
  · rw [← h.written]
    exact ⟨s.pfd.unread, h.watched.stream⟩
  · have hmul := Nat.mul_le_mul_left (MAXLINE / 2) (h.arrivals_le hedge)
    have hdiv := Nat.mul_div_le capacity (MAXLINE / 2)
    omega
  · obtain ⟨bs, s', hrun', hsound, hstuck⟩ := h.exists_stuck room hedge
    have hwhole : runSteps (step events capacity room) start (as ++ bs) = some s' := by
      rw [runSteps_append, hrun]
      exact hrun'
    exact ⟨bs, s', hrun', hstuck, hsound.waiting_of_stuck hstuck,
      unread_of_stuck hfirst hwhole hstuck⟩

/-- The pages of the pipe, of `size` bytes each, after some steps. -/
def pages (size : Nat) (past : List Act) : List Page :=
  past.foldl (fun pages a =>
    match a with
    | .write => Pages.write size MAXLINE pages
    | .epoll_wait => pages
    | .read len => Pages.read len pages) []

/-- The rule of a kernel that keeps a pipe in `count` pages. -/
def pageRoom (size count : Nat) (past : List Act) : Bool :=
  Pages.room size count MAXLINE (pages size past)

/-- The pages hold what is in the pipe. -/
structure Paged (size count : Nat) (s : State) : Prop where
  sound : Pages.Sound size count (pages size s.past)
  total : Pages.total (pages size s.past) = s.pfd.unread.length

private theorem pages_snoc (size : Nat) (past : List Act) (a : Act) :
    pages size (past ++ [a]) =
      match a with
      | .write => Pages.write size MAXLINE (pages size past)
      | .epoll_wait => pages size past
      | .read len => Pages.read len (pages size past) := by
  rw [pages, List.foldl_append]
  rfl

private theorem length_unread_read {pfd pfd' : Watched UInt8} {d : Discipline} {k : Nat}
    (h : pfd.step d (.read k) = some pfd') : pfd'.unread.length = pfd.unread.length - k := by
  simp only [Watched.step] at h
  split at h
  case isFalse hnot => cases h
  case isTrue hphase =>
    split at h
    case isTrue hempty =>
      split at h
      case isFalse hnot => cases h
      case isTrue hguard =>
        cases h
        simp [hempty]
    case isFalse hsome =>
      split at h
      case isFalse hnot => cases h
      case isTrue hguard =>
        cases h
        exact List.length_drop

theorem Paged.step {size count : Nat} (h : Paged size count s) (hsize : MAXLINE ≤ size)
    (hstep : Pipe.step events capacity (pageRoom size count) s a = some s') :
    Paged size count s' := by
  obtain ⟨hpfd, hpast, hroom⟩ := step_eq_some hstep
  cases a with
  | write =>
      have hunread : s'.pfd.unread.length = s.pfd.unread.length + MAXLINE := by
        rw [arrive_eq_some hpfd, List.length_append, length_text]
      constructor
      · rw [hpast, pages_snoc]
        exact h.sound.write (by decide) hsize (hroom rfl)
      · rw [hpast, pages_snoc, hunread, ← h.total]
        exact Pages.total_write size MAXLINE _
  | epoll_wait =>
      have hunread : s'.pfd.unread = s.pfd.unread := by
        simp only [Act.signal, Watched.step] at hpfd
        split at hpfd
        case isFalse hnot => cases hpfd
        case isTrue hguard => rw [← Option.some.inj hpfd]
      constructor
      · rw [hpast, pages_snoc]
        exact h.sound
      · rw [hpast, pages_snoc, hunread]
        exact h.total
  | read len =>
      constructor
      · rw [hpast, pages_snoc]
        exact h.sound.read len
      · rw [hpast, pages_snoc, length_unread_read hpfd, ← h.total]
        exact Pages.total_read len _

theorem paged_run {size count : Nat} (hsize : MAXLINE ≤ size) {as : List Act}
    (hrun : runSteps (step events capacity (pageRoom size count)) start as = some s) :
    Paged size count s :=
  invariant_run (I := Paged size count) (fun hpaged hstep => hpaged.step hsize hstep)
    (s := start) ⟨Pages.Sound.nil size count, rfl⟩ hrun

/-- The pages give room to the first write, and what they have room for fits: the bound in bytes
keeps no write waiting. -/
theorem pageRoom_takesFirst (events size count : Nat) (hsize : MAXLINE ≤ size)
    (hcount : 0 < count) :
    TakesFirst events (size * count) (pageRoom size count) ∧
      ∀ as s, runSteps (step events (size * count) (pageRoom size count)) start as = some s →
        pageRoom size count as = true → s.pfd.unread.length + MAXLINE ≤ size * count := by
  refine ⟨⟨hsize.trans (Nat.le_mul_of_pos_right size hcount), ?_⟩, ?_⟩
  · intro as s hrun hempty
    have hpaged := paged_run hsize hrun
    have hpast : s.past = as := past_run hrun
    have htotal := hpaged.total
    rw [hempty, List.length_nil] at htotal
    rw [← hpast]
    exact hpaged.sound.room_of_empty hcount htotal
  · intro as s hrun hroom
    have hpaged := paged_run hsize hrun
    have hpast : s.past = as := past_run hrun
    rw [← hpaged.total]
    rw [← hpast] at hroom
    exact hpaged.sound.fits (by decide) hsize hroom

/-- Two texts and one read, on pages of 4096 bytes. -/
theorem edges_come_to_a_stop_three :
    TakesFirst (EPOLLIN ||| EPOLLET) (4096 * 16) (pageRoom 4096 16) ∧
      (EPOLLIN ||| EPOLLET).testBit 31 = true ∧
      ∃ s, runSteps (step (EPOLLIN ||| EPOLLET) (4096 * 16) (pageRoom 4096 16)) start
          [.write, .epoll_wait, .write, .read 5] = some s ∧
        ∃ bs s', runSteps (step (EPOLLIN ||| EPOLLET) (4096 * 16) (pageRoom 4096 16)) s bs =
          some s' ∧ s'.pfd.phase = .waiting ∧ s'.pfd.unread ≠ [] := by
  have hfirst := (pageRoom_takesFirst (EPOLLIN ||| EPOLLET) 4096 16 (by decide) (by decide)).1
  have hedge : (EPOLLIN ||| EPOLLET).testBit 31 = true := by decide
  obtain ⟨s, hrun⟩ := Option.isSome_iff_exists.mp
    (show (runSteps (step (EPOLLIN ||| EPOLLET) (4096 * 16) (pageRoom 4096 16)) start
      [.write, .epoll_wait, .write, .read 5]).isSome = true from rfl)
  obtain ⟨bs, s', hrun', -, hphase, hunread⟩ :=
    (edges_come_to_a_stop _ _ _ hfirst hedge _ s hrun).2.2.2.2
  exact ⟨hfirst, hedge, s, hrun, bs, s', hrun', hphase, hunread⟩

/-- The program always has a step exactly when it does not ask for edges. Then the parent sleeps
only when it has printed all that was written. -/
theorem goes_on_iff (events capacity : Nat) (room : List Act → Bool)
    (hfirst : TakesFirst events capacity room) :
    (∀ as s, runSteps (step events capacity room) start as = some s →
      (∃ a s', step events capacity room s a = some s') ∧
        (s.pfd.Asleep (parent events capacity) →
          s.pfd.taken = (List.range s.pfd.arrivals).flatMap text)) ↔
      events.testBit 31 = false := by
  constructor
  · intro hall
    by_contra hnot
    rw [Bool.not_eq_false] at hnot
    obtain ⟨as, s, hrun, -, hstuck⟩ := (start_sound events capacity).exists_stuck room hnot
    obtain ⟨⟨a, s', hstep⟩, -⟩ := hall as s hrun
    rw [hstuck a] at hstep
    cases hstep
  · intro hlevel as s hrun
    have h := (start_sound events capacity).run hrun
    have hread : s.pfd.Asleep (parent events capacity) → s.pfd.taken = s.pfd.arrived :=
      h.watched.read_of_asleep (chunk_pos events capacity) (Or.inl hlevel)
    constructor
    · by_contra hnone
      have hstuck : Stuck events capacity room s := by
        intro a
        by_contra hsome
        obtain ⟨s', hstep⟩ := Option.ne_none_iff_exists'.mp hsome
        exact hnone ⟨a, s', hstep⟩
      have hall := hread ((stuck_iff h).mp hstuck).1
      rw [← h.watched.stream, List.self_eq_append_right] at hall
      exact unread_of_stuck hfirst hrun hstuck hall
    · intro hasleep
      rw [← h.written]
      exact hread hasleep

theorem goes_on_iff_level :
    TakesFirst EPOLLIN (4096 * 16) (pageRoom 4096 16) ∧
      ∃ a s', step EPOLLIN (4096 * 16) (pageRoom 4096 16) start a = some s' := by
  have hfirst := (pageRoom_takesFirst EPOLLIN 4096 16 (by decide) (by decide)).1
  exact ⟨hfirst, ((goes_on_iff EPOLLIN _ _ hfirst).mpr rfl [] start rfl).1⟩

end Pipe

end LearningCpp.EpollTrigger
