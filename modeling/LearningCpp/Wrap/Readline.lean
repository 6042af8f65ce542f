import LearningCpp.Library.Machine
import LearningCpp.Wrap.Transfer
import Mathlib.Logic.Function.Basic

/-!
`my_read` and `Readline` of `Linux_Net/Reactor/wrap.c`. The buffer that is read ahead
is static, one for all descriptors: what a call leaves in it goes to the next call,
whichever descriptor that is on. Every byte is followed from where it arrived.
-/

namespace LearningCpp.Wrap

open Library

/-- A byte, with the descriptor that it arrived on and its place in that stream. -/
structure Arrived where
  byte : UInt8
  fd : Nat
  index : Nat
  deriving DecidableEq, Repr

/-- The stream that arrives on a descriptor. -/
def arrivals (fd : Nat) (stream : List UInt8) : List Arrived :=
  stream.mapIdx (fun index byte => ⟨byte, fd, index⟩)

/-- The static variables of `my_read`, as the `read_cnt` bytes from `read_ptr` on, and
what every descriptor still has. -/
structure Reader where
  unread : List Arrived
  streams : Nat → List Arrived

/-- What `read` gives for the 100 bytes of `read_buf`. -/
def Outcome.received (o : Outcome) (stream : List Arrived) : Option (List Arrived) :=
  match o with
  | .error | .eintr => none
  | .upTo k => some (stream.take (min (max k 1) 100))

/-- What `my_read` returns: 1 with a byte, 0 or -1. It waits while a `read` that it
has called has not returned. -/
inductive Rc where
  | one (c : Arrived)
  | zero
  | minusOne
  | waiting
  deriving DecidableEq, Repr

structure MyRead where
  rc : Rc
  reader : Reader
  rest : List Outcome

/-- From `again:` on, with the outcomes of the calls of `read` that are to come. -/
def again (fd : Nat) (s : Reader) : List Outcome → MyRead
  | [] => { rc := .waiting, reader := s, rest := [] }
  | o :: rest =>
      match o.received (s.streams fd) with
      | none =>
          if o = .eintr then again fd s rest
          else { rc := .minusOne, reader := s, rest := rest }
      | some [] => { rc := .zero, reader := s, rest := rest }
      | some (c :: unread) =>
          { rc := .one c
            reader := {
              unread := unread
              streams := Function.update s.streams fd
                ((s.streams fd).drop (unread.length + 1)) }
            rest := rest }

def my_read (fd : Nat) (s : Reader) (outcomes : List Outcome) : MyRead :=
  match s.unread with
  | [] => again fd s outcomes
  | c :: unread => { rc := .one c, reader := { s with unread := unread }, rest := outcomes }

/-- How far a call of `Readline` has come: `value` is missing while it waits, and
`line` is what it has stored at `vptr`. -/
structure Line where
  value : Option Int
  reader : Reader
  line : List Arrived

/-- The loop of `Readline`, for as many more rounds as `n < maxlen` allows. -/
def readlineLoop (fd : Nat) : Nat → Reader → List Arrived → List Outcome → Line
  | 0, s, line, _ => { value := some (line.length + 1), reader := s, line := line }
  | rounds + 1, s, line, outcomes =>
      match my_read fd s outcomes with
      | { rc := .one c, reader := s', rest := rest } =>
          if c.byte = 10 then
            { value := some (line.length + 1), reader := s', line := line ++ [c] }
          else readlineLoop fd rounds s' (line ++ [c]) rest
      | { rc := .zero, reader := s', .. } =>
          { value := some line.length, reader := s', line := line }
      | { rc := .minusOne, reader := s', .. } => { value := some (-1), reader := s', line := line }
      | { rc := .waiting, reader := s', .. } => { value := none, reader := s', line := line }

/-- `Readline(fd, vptr, maxlen)` -/
def Readline (fd : Nat) (maxlen : Nat) (s : Reader) (outcomes : List Outcome) : Line :=
  readlineLoop fd (maxlen - 1) s [] outcomes

structure Call where
  fd : Nat
  maxlen : Nat
  outcomes : List Outcome
  deriving DecidableEq, Repr

/-- The reader, what the calls on each descriptor have stored, and whether the last
call still waits. -/
structure Session where
  reader : Reader
  handed : Nat → List Arrived
  waiting : Bool

namespace Session

/-- The next call of `Readline`, when the one before it has returned. -/
def step (s : Session) (c : Call) : Option Session :=
  if s.waiting then none
  else
    let result := Readline c.fd c.maxlen s.reader c.outcomes
    some {
      reader := result.reader
      handed := Function.update s.handed c.fd (s.handed c.fd ++ result.line)
      waiting := result.value.isNone }

def start (streams : Nat → List UInt8) : Session :=
  { reader := { unread := [], streams := fun fd => arrivals fd (streams fd) }
    handed := fun _ => []
    waiting := false }

/-- What the calls on a descriptor have stored is, in order, what arrived on it first. -/
def Separate (streams : Nat → List UInt8) (s : Session) : Prop :=
  ∀ fd, s.handed fd <+: arrivals fd (streams fd)

/-- A call that reads at all is on the descriptor that the unread bytes came from. -/
def Owned (s : Session) (c : Call) : Prop := 2 ≤ c.maxlen → ∀ b ∈ s.reader.unread, b.fd = c.fd

end Session

/-- What arrived on every descriptor: what was handed out on it, what is unread when
it is the owner of that, and what is still to be read. -/
def Accounted (streams : Nat → List UInt8) (owner : Nat) (handed : Nat → List Arrived)
    (r : Reader) : Prop :=
  ∀ fd, arrivals fd (streams fd) =
    handed fd ++ (if fd = owner then r.unread else []) ++ r.streams fd

theorem mem_arrivals {fd : Nat} {stream : List UInt8} {b : Arrived} (h : b ∈ arrivals fd stream) :
    b.fd = fd := by
  obtain ⟨index, _, rfl⟩ := List.mem_mapIdx.mp h
  rfl

theorem Accounted.separate {streams : Nat → List UInt8} {owner : Nat} {s : Session}
    (hacc : Accounted streams owner s.handed s.reader) : s.Separate streams := by
  intro fd
  rw [hacc fd, List.append_assoc]
  exact List.prefix_append _ _

theorem Accounted.unread_fd {streams : Nat → List UInt8} {owner : Nat}
    {handed : Nat → List Arrived} {r : Reader} (hacc : Accounted streams owner handed r)
    {b : Arrived} (hmem : b ∈ r.unread) : b.fd = owner := by
  have h := hacc owner
  rw [if_pos rfl] at h
  apply mem_arrivals
  rw [h]
  exact List.mem_append_left _ (List.mem_append_right _ hmem)

theorem received_prefix {o : Outcome} {stream chunk : List Arrived}
    (h : o.received stream = some chunk) : chunk <+: stream := by
  cases o with
  | error => cases h
  | eintr => cases h
  | upTo k =>
      cases h
      exact List.take_prefix _ _

/-- The three things that `my_read` does: it takes the next unread byte, it reads ahead
and takes the first byte of that, or it leaves everything as it is. -/
theorem my_read_cases (fd : Nat) (s : Reader) (outcomes : List Outcome) :
    (∃ c unread, s.unread = c :: unread ∧
      my_read fd s outcomes =
        { rc := .one c, reader := { s with unread := unread }, rest := outcomes }) ∨
    (∃ c unread left rest, s.unread = [] ∧ s.streams fd = c :: unread ++ left ∧
      my_read fd s outcomes =
        { rc := .one c
          reader := { unread := unread, streams := Function.update s.streams fd left }
          rest := rest }) ∨
    ((my_read fd s outcomes).reader = s ∧ ∀ c, (my_read fd s outcomes).rc ≠ .one c) := by
  cases hunread : s.unread with
  | cons c unread =>
      left
      exact ⟨c, unread, rfl, by simp [my_read, hunread]⟩
  | nil =>
      right
      have hagain : my_read fd s outcomes = again fd s outcomes := by
        simp [my_read, hunread]
      rw [hagain]
      clear hagain
      induction outcomes with
      | nil => exact Or.inr ⟨rfl, nofun⟩
      | cons o rest ih =>
          rw [again]
          cases hreceived : o.received (s.streams fd) with
          | none =>
              dsimp only
              split
              · exact ih
              · exact Or.inr ⟨rfl, nofun⟩
          | some chunk =>
              cases chunk with
              | nil => exact Or.inr ⟨rfl, nofun⟩
              | cons c unread =>
                  left
                  obtain ⟨left, hleft⟩ := received_prefix hreceived
                  refine ⟨c, unread, left, rest, rfl, hleft.symm, ?_⟩
                  have hdrop : (s.streams fd).drop (unread.length + 1) = left := by
                    rw [← hleft]
                    exact (List.drop_left : (c :: unread ++ left).drop (c :: unread).length = left)
                  dsimp only
                  rw [hdrop]

private theorem my_read_idle {fd : Nat} {s : Reader} {outcomes : List Outcome}
    (hnone : ∀ c, (my_read fd s outcomes).rc ≠ .one c) : (my_read fd s outcomes).reader = s := by
  obtain ⟨c, _, _, hres⟩ | ⟨c, _, _, _, _, _, hres⟩ | ⟨hsame, -⟩ := my_read_cases fd s outcomes
  · exact absurd (by rw [hres]) (hnone c)
  · exact absurd (by rw [hres]) (hnone c)
  · exact hsame

/-- Whose bytes are unread matters only when there are some. -/
theorem Accounted.owned {streams : Nat → List UInt8} {owner fd : Nat}
    {handed : Nat → List Arrived} {r : Reader} (hacc : Accounted streams owner handed r)
    (howned : ∀ b ∈ r.unread, b.fd = fd) : Accounted streams fd handed r := by
  cases hunread : r.unread with
  | nil =>
      intro fd'
      have h := hacc fd'
      simp only [hunread, ite_self] at h ⊢
      exact h
  | cons b unread =>
      have hmem : b ∈ r.unread := hunread ▸ List.mem_cons_self
      have hfd : owner = fd := (hacc.unread_fd hmem).symm.trans (howned b hmem)
      exact hfd ▸ hacc

/-- One call of `my_read` on the owner: what it stores is handed out there. -/
theorem Accounted.my_read_one {streams : Nat → List UInt8} {fd : Nat}
    {handed : Nat → List Arrived} {s : Reader} {outcomes : List Outcome} {c : Arrived}
    (hacc : Accounted streams fd handed s) (hone : (my_read fd s outcomes).rc = .one c) :
    Accounted streams fd (Function.update handed fd (handed fd ++ [c]))
      (my_read fd s outcomes).reader := by
  intro fd'
  have h := hacc fd'
  obtain ⟨c', unread, hunread, hres⟩ | ⟨c', unread, left, rest, hunread, hstream, hres⟩ |
    ⟨-, hnone⟩ := my_read_cases fd s outcomes
  · rw [hres] at hone ⊢
    cases hone
    by_cases hfd : fd' = fd
    · subst hfd
      simpa [hunread] using h
    · simpa [hfd] using h
  · rw [hres] at hone ⊢
    cases hone
    by_cases hfd : fd' = fd
    · subst hfd
      simpa [hunread, hstream] using h
    · simpa [hfd] using h
  · exact absurd hone (hnone c)

/-- The loop of `Readline` on the owner: what it stores is handed out there. -/
theorem Accounted.readlineLoop {streams : Nat → List UInt8} {fd : Nat}
    {handed : Nat → List Arrived} (rounds : Nat) {s : Reader} {line : List Arrived}
    {outcomes : List Outcome}
    (hacc : Accounted streams fd (Function.update handed fd (handed fd ++ line)) s) :
    Accounted streams fd
      (Function.update handed fd (handed fd ++ (readlineLoop fd rounds s line outcomes).line))
      (readlineLoop fd rounds s line outcomes).reader := by
  induction rounds generalizing s line outcomes with
  | zero => exact hacc
  | succ rounds ih =>
      have hone := fun c => @Accounted.my_read_one _ _ _ _ outcomes c hacc
      have hkeep := @my_read_idle fd s outcomes
      rw [Wrap.readlineLoop]
      generalize my_read fd s outcomes = m at hone hkeep
      obtain ⟨rc, s', rest⟩ := m
      cases rc with
      | one c =>
          have hnext := hone c rfl
          simp only [Function.update_self, Function.update_idem, List.append_assoc] at hnext
          simp only
          split
          · exact hnext
          · exact ih hnext
      | zero =>
          cases hkeep nofun
          exact hacc
      | minusOne =>
          cases hkeep nofun
          exact hacc
      | waiting =>
          cases hkeep nofun
          exact hacc

/-- The loop only adds to what is stored. -/
theorem readlineLoop_extends (fd rounds : Nat) (s : Reader) (line : List Arrived)
    (outcomes : List Outcome) : line <+: (readlineLoop fd rounds s line outcomes).line := by
  induction rounds generalizing s line outcomes with
  | zero => exact List.prefix_rfl
  | succ rounds ih =>
      rw [readlineLoop]
      split
      · split
        · exact List.prefix_append _ _
        · exact (List.prefix_append _ _).trans (ih _ _ _)
      · exact List.prefix_rfl
      · exact List.prefix_rfl
      · exact List.prefix_rfl

/-- A call that reads at all stores the first unread byte, wherever that came from. -/
theorem readline_takes_unread {fd maxlen : Nat} {s : Reader} {outcomes : List Outcome}
    {b : Arrived} {unread : List Arrived} (hunread : s.unread = b :: unread)
    (hroom : 2 ≤ maxlen) : b ∈ (Readline fd maxlen s outcomes).line := by
  obtain ⟨rounds, hrounds⟩ : ∃ rounds, maxlen - 1 = rounds + 1 := ⟨maxlen - 2, by omega⟩
  have hres : my_read fd s outcomes =
      { rc := .one b, reader := { s with unread := unread }, rest := outcomes } := by
    simp [my_read, hunread]
  rw [Readline, hrounds, readlineLoop, hres]
  simp only
  split
  · simp
  · exact (readlineLoop_extends _ _ _ _ _).subset (by simp)

/-- Whether the next call keeps the streams apart, when so far they are. -/
theorem owned_iff_separate {streams : Nat → List UInt8} {s s' : Session} {c : Call}
    {owner : Nat} (hacc : Accounted streams owner s.handed s.reader)
    (hstep : s.step c = some s') :
    (s.Owned c → ∃ owner', Accounted streams owner' s'.handed s'.reader) ∧
      (s'.Separate streams → s.Owned c) := by
  simp only [Session.step] at hstep
  split at hstep
  · cases hstep
  · cases hstep
    constructor
    · intro howned
      by_cases hroom : 2 ≤ c.maxlen
      · refine ⟨c.fd, Accounted.readlineLoop _ ?_⟩
        simpa using hacc.owned (howned hroom)
      · -- no round: nothing is stored and nothing is read
        have hrounds : c.maxlen - 1 = 0 := by omega
        refine ⟨owner, ?_⟩
        simpa [Readline, hrounds, readlineLoop] using hacc
    · intro hseparate hroom
      cases hunread : s.reader.unread with
      | nil => simp
      | cons b unread =>
          have hstored : b ∈ (Readline c.fd c.maxlen s.reader c.outcomes).line :=
            readline_takes_unread hunread hroom
          have hfirst := hseparate c.fd
          simp only [Function.update_self] at hfirst
          have hfd : b.fd = c.fd :=
            mem_arrivals (hfirst.subset (List.mem_append_right _ hstored))
          intro b' hmem
          rw [← hunread] at hmem
          exact (hacc.unread_fd hmem).trans
            ((hacc.unread_fd (hunread ▸ List.mem_cons_self)).symm.trans hfd)

/-- In a run every call with room for a byte is on the descriptor that the unread bytes
came from if and only if after each call the streams are apart. -/
theorem readline_separate_iff (streams : Nat → List UInt8) (calls : List Call) (s : Session)
    (hrun : runSteps Session.step (Session.start streams) calls = some s) :
    Along Session.step Session.Owned (Session.start streams) calls ↔
      Along Session.step (fun t c => ∀ t', t.step c = some t' → t'.Separate streams)
        (Session.start streams) calls := by
  apply along_iff_after (I := fun t => ∃ owner, Accounted streams owner t.handed t.reader)
  · rintro t t' c ⟨owner, hacc⟩ hstep howned
    exact (owned_iff_separate hacc hstep).1 howned
  · rintro t ⟨owner, hacc⟩
    exact hacc.separate
  · rintro t t' c ⟨owner, hacc⟩ hstep hseparate
    exact (owned_iff_separate hacc hstep).2 hseparate
  · exact ⟨0, fun fd => by simp [Session.start]⟩
  · exact hrun

/-- Two lines arrive on descriptor 3 and one on descriptor 4. -/
def twoClients (fd : Nat) : List UInt8 :=
  if fd = 3 then [97, 10, 98, 10] else if fd = 4 then [120, 10] else []

/-- Both lines of descriptor 3 are taken before the one of descriptor 4. -/
theorem readline_separate_iff_in_turn :
    ∃ s, runSteps Session.step (Session.start twoClients)
        [⟨3, 100, [.upTo 4]⟩, ⟨3, 100, []⟩, ⟨4, 100, [.upTo 1, .eintr, .upTo 1]⟩] = some s ∧
      Along Session.step (fun t c => ∀ t', t.step c = some t' → t'.Separate twoClients)
        (Session.start twoClients)
        [⟨3, 100, [.upTo 4]⟩, ⟨3, 100, []⟩, ⟨4, 100, [.upTo 1, .eintr, .upTo 1]⟩] := by
  refine ⟨_, rfl, (readline_separate_iff twoClients _ _ rfl).1 ?_⟩
  refine ⟨fun _ => by decide, ?_⟩
  rintro _ ⟨⟩
  refine ⟨fun _ => by decide, ?_⟩
  rintro _ ⟨⟩
  refine ⟨fun _ => by decide, ?_⟩
  rintro _ ⟨⟩
  trivial

/-- The second line of descriptor 3 is handed out on descriptor 4, where nothing has been
read. -/
theorem readline_crosses :
    ∃ s, runSteps Session.step (Session.start twoClients)
        [⟨3, 100, [.upTo 4]⟩, ⟨4, 100, []⟩] = some s ∧
      (s.handed 4).map Arrived.byte = [98, 10] ∧
      ¬(s.handed 4).map Arrived.byte <+: twoClients 4 ∧ ¬s.Separate twoClients := by
  refine ⟨_, rfl, by decide, by decide, ?_⟩
  intro hseparate
  exact absurd (hseparate 4) (by decide)

end LearningCpp.Wrap
