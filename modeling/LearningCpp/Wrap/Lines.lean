import LearningCpp.Wrap.Readline

/-!
Successive calls of `Readline` on one descriptor, with no error but `EINTR`. The
pieces that they store are cut off the stream one after the other; the value they
return counts the bytes, but for a call that fills its buffer.
-/

namespace LearningCpp.Wrap

open Library

/-- A call of `Readline` on the descriptor: the size of its buffer, and how `read` ends. -/
structure LineCall where
  maxlen : Nat
  outcomes : List Outcome
  room : 1 ≤ maxlen
  errorFree : .error ∉ outcomes

/-- What the descriptor still has to give: the bytes that are read ahead, and those to come. -/
def Reader.pending (fd : Nat) (r : Reader) : List Arrived := r.unread ++ r.streams fd

/-- The reader, and what the calls have stored. -/
structure Lines where
  reader : Reader
  pieces : List (List Arrived)

namespace Lines

def call (fd : Nat) (s : Lines) (c : LineCall) : Line := Readline fd c.maxlen s.reader c.outcomes

/-- The next call, when it returns. -/
def step (fd : Nat) (s : Lines) (c : LineCall) : Option Lines :=
  match (s.call fd c).value with
  | none => none
  | some _ => some { reader := (s.call fd c).reader, pieces := s.pieces ++ [(s.call fd c).line] }

def start (fd : Nat) (stream : List UInt8) : Lines :=
  { reader := { unread := [], streams := fun other => if other = fd then arrivals fd stream else [] }
    pieces := [] }

/-- What a call stores is the next piece of the stream. It ends at its first newline,
after `maxlen - 1` bytes or with the stream, and there is room for a NUL behind it. -/
structure Cuts (fd : Nat) (s : Lines) (c : LineCall) : Prop where
  next : s.reader.pending fd = (s.call fd c).line ++ (s.call fd c).reader.pending fd
  first : ∀ b ∈ (s.call fd c).line.dropLast, b.byte ≠ 10
  ends : (∃ b ∈ (s.call fd c).line.getLast?, b.byte = 10) ∨
    (s.call fd c).line.length = c.maxlen - 1 ∨ (s.call fd c).reader.pending fd = []
  terminated : (s.call fd c).line.length < c.maxlen

/-- A call cuts off the next piece, and returns its length. -/
def Counts (fd : Nat) (s : Lines) (c : LineCall) : Prop :=
  s.Cuts fd c ∧ (s.call fd c).value = some ((s.call fd c).line.length : Int)

/-- The next `maxlen - 1` bytes have a newline among them, or there are fewer left. -/
def LineFits (fd : Nat) (s : Lines) (c : LineCall) : Prop :=
  (∃ b ∈ (s.reader.pending fd).take (c.maxlen - 1), b.byte = 10) ∨
    (s.reader.pending fd).length < c.maxlen - 1

end Lines

/-- How the loop goes on with so many rounds left: what it takes from the stream, what it
leaves, and by how much the value exceeds the number of bytes. -/
inductive Ends : Nat → List Arrived → List Arrived → Nat → Prop
  | full (left : List Arrived) : Ends 0 [] left 1
  | endOfStream (rounds : Nat) : Ends (rounds + 1) [] [] 0
  | newline (rounds : Nat) (b : Arrived) (left : List Arrived) (hb : b.byte = 10) :
      Ends (rounds + 1) [b] left 0
  | more (rounds : Nat) (b : Arrived) (taken left : List Arrived) (excess : Nat)
      (hb : b.byte ≠ 10) (hrest : Ends rounds taken left excess) :
      Ends (rounds + 1) (b :: taken) left excess

namespace Ends

variable {rounds excess : Nat} {taken left : List Arrived}

theorem length_le (h : Ends rounds taken left excess) : taken.length ≤ rounds := by
  induction h with
  | full left => exact Nat.le_refl 0
  | endOfStream rounds => exact Nat.zero_le _
  | newline rounds b left hb => exact Nat.succ_le_succ (Nat.zero_le _)
  | more rounds b taken left excess hb hrest ih => exact Nat.succ_le_succ ih

theorem dropLast_ne (h : Ends rounds taken left excess) : ∀ b ∈ taken.dropLast, b.byte ≠ 10 := by
  induction h with
  | full left => simp
  | endOfStream rounds => simp
  | newline rounds b left hb => simp
  | more rounds b taken left excess hb hrest ih =>
      cases taken with
      | nil => simp
      | cons c taken =>
          rw [List.dropLast_cons_cons, List.forall_mem_cons]
          exact ⟨hb, ih⟩

theorem last (h : Ends rounds taken left excess) :
    (∃ b ∈ taken.getLast?, b.byte = 10) ∨ taken.length = rounds ∨ left = [] := by
  induction h with
  | full left => exact Or.inr (Or.inl rfl)
  | endOfStream rounds => exact Or.inr (Or.inr rfl)
  | newline rounds b left hb => exact Or.inl ⟨b, rfl, hb⟩
  | more rounds b taken left excess hb hrest ih =>
      rcases ih with ⟨c, hc, hnewline⟩ | hlength | hleft
      · left
        refine ⟨c, ?_, hnewline⟩
        cases taken with
        | nil => cases hc
        | cons d taken => exact hc
      · exact Or.inr (Or.inl (congrArg Nat.succ hlength))
      · exact Or.inr (Or.inr hleft)

/-- The value is the number of bytes exactly when a newline or the end of the stream comes
within the rounds. -/
theorem excess_eq_zero_iff (h : Ends rounds taken left excess) :
    excess = 0 ↔
      (∃ b ∈ (taken ++ left).take rounds, b.byte = 10) ∨ (taken ++ left).length < rounds := by
  induction h with
  | full left => simp
  | endOfStream rounds => simp
  | newline rounds b left hb => simp [hb]
  | more rounds b taken left excess hb hrest ih =>
      rw [ih]
      simp [hb]

end Ends

/-! ## The loop -/

/-- What `my_read` does to what the descriptor still has to give. -/
def Reads (fd : Nat) (s : Reader) (m : MyRead) : Prop :=
  match m.rc with
  | .one c => s.pending fd = c :: m.reader.pending fd ∧ .error ∉ m.rest
  | .zero => s.pending fd = [] ∧ m.reader = s
  | .minusOne => False
  | .waiting => True

private theorem received_eq_nil {o : Outcome} {stream : List Arrived}
    (h : o.received stream = some []) : stream = [] := by
  cases o with
  | error => cases h
  | eintr => cases h
  | upTo k =>
      rw [Outcome.received, Option.some_inj, List.take_eq_nil_iff] at h
      apply h.resolve_left
      omega

theorem again_reads {fd : Nat} {s : Reader} (hunread : s.unread = []) {outcomes : List Outcome}
    (herror : .error ∉ outcomes) : Reads fd s (again fd s outcomes) := by
  have hpending : s.pending fd = s.streams fd := by rw [Reader.pending, hunread, List.nil_append]
  induction outcomes with
  | nil => trivial
  | cons o rest ih =>
      rw [List.mem_cons, not_or] at herror
      rw [again]
      cases hreceived : o.received (s.streams fd) with
      | none =>
          cases o with
          | error => exact absurd rfl herror.1
          | eintr => exact ih herror.2
          | upTo k => cases hreceived
      | some chunk =>
          cases chunk with
          | nil => exact ⟨hpending.trans (received_eq_nil hreceived), rfl⟩
          | cons c unread =>
              obtain ⟨left, hleft⟩ := received_prefix hreceived
              have hdrop : (s.streams fd).drop (unread.length + 1) = left := by
                rw [← hleft]
                exact (List.drop_left : (c :: unread ++ left).drop (c :: unread).length = left)
              have hupdate : Function.update s.streams fd
                  ((s.streams fd).drop (unread.length + 1)) fd = left := by
                rw [Function.update_self, hdrop]
              refine ⟨?_, herror.2⟩
              change s.pending fd = c :: (unread ++ Function.update s.streams fd
                  ((s.streams fd).drop (unread.length + 1)) fd)
              rw [hpending, hupdate, ← hleft]
              rfl

private theorem my_read_reads (fd : Nat) (s : Reader) {outcomes : List Outcome}
    (herror : .error ∉ outcomes) : Reads fd s (my_read fd s outcomes) := by
  cases hunread : s.unread with
  | nil =>
      have hagain : my_read fd s outcomes = again fd s outcomes := by simp [my_read, hunread]
      rw [hagain]
      exact again_reads hunread herror
  | cons c unread =>
      have hres : my_read fd s outcomes =
          { rc := .one c, reader := { s with unread := unread }, rest := outcomes } := by
        simp [my_read, hunread]
      rw [hres]
      refine ⟨?_, herror⟩
      rw [Reader.pending, hunread]
      rfl

/-- The loop of a call that returns takes a piece of the stream and adds it to the line. -/
theorem readlineLoop_ends {fd : Nat} {value : Int} (rounds : Nat) {s : Reader}
    {line : List Arrived} {outcomes : List Outcome} (herror : .error ∉ outcomes)
    (hvalue : (readlineLoop fd rounds s line outcomes).value = some value) :
    ∃ taken excess,
      Ends rounds taken ((readlineLoop fd rounds s line outcomes).reader.pending fd) excess ∧
      (readlineLoop fd rounds s line outcomes).line = line ++ taken ∧
      s.pending fd = taken ++ (readlineLoop fd rounds s line outcomes).reader.pending fd ∧
      value = (readlineLoop fd rounds s line outcomes).line.length + excess := by
  induction rounds generalizing s line outcomes with
  | zero =>
      refine ⟨[], 1, .full _, by simp [readlineLoop], rfl, ?_⟩
      simpa [readlineLoop, eq_comm] using hvalue
  | succ rounds ih =>
      have hreads := my_read_reads fd s herror
      rw [readlineLoop] at hvalue ⊢
      generalize my_read fd s outcomes = m at hreads hvalue
      obtain ⟨rc, s', rest⟩ := m
      cases rc with
      | one c =>
          obtain ⟨hpending, hrest⟩ := hreads
          simp only at hpending hrest hvalue ⊢
          by_cases hnewline : c.byte = 10
          · rw [if_pos hnewline] at hvalue
            simp only [if_pos hnewline]
            refine ⟨[c], 0, .newline rounds c _ hnewline, rfl, hpending, ?_⟩
            simpa [eq_comm] using hvalue
          · rw [if_neg hnewline] at hvalue
            simp only [if_neg hnewline]
            obtain ⟨taken, excess, hends, hline, hleft, hlength⟩ := ih hrest hvalue
            refine ⟨c :: taken, excess, .more rounds c taken _ excess hnewline hends, ?_, ?_, hlength⟩
            · rw [hline, List.append_assoc]
              rfl
            · exact hpending.trans (congrArg (c :: ·) hleft)
      | zero =>
          obtain ⟨hpending, hsame⟩ := hreads
          simp only at hsame
          subst hsame
          simp only [hpending]
          refine ⟨[], 0, .endOfStream rounds, by simp, rfl, ?_⟩
          simpa [eq_comm] using hvalue
      | minusOne => exact hreads.elim
      | waiting => cases hvalue

/-- `my_read` uses up at most one outcome that is not an interruption, and waits only when there
is none. -/
private theorem again_countP (fd : Nat) (s : Reader) (outcomes : List Outcome) :
    outcomes.countP (· ≠ .eintr) ≤ (again fd s outcomes).rest.countP (· ≠ .eintr) + 1 ∧
      ((again fd s outcomes).rc = .waiting → outcomes.countP (· ≠ .eintr) = 0) := by
  induction outcomes with
  | nil => exact ⟨Nat.zero_le _, fun _ => rfl⟩
  | cons o rest ih =>
      have hcons : (o :: rest).countP (· ≠ .eintr) ≤ rest.countP (· ≠ .eintr) + 1 := by
        rw [List.countP_cons]
        split <;> omega
      rw [again]
      cases hreceived : o.received (s.streams fd) with
      | none =>
          by_cases heintr : o = .eintr
          · have hskip : (o :: rest).countP (· ≠ .eintr) = rest.countP (· ≠ .eintr) :=
              List.countP_cons_of_neg (by simp [heintr])
            simp only [if_pos heintr, hskip]
            exact ih
          · simp only [if_neg heintr]
            exact ⟨hcons, Rc.noConfusion⟩
      | some chunk =>
          cases chunk with
          | nil => exact ⟨hcons, Rc.noConfusion⟩
          | cons c unread => exact ⟨hcons, Rc.noConfusion⟩

private theorem my_read_countP (fd : Nat) (s : Reader) (outcomes : List Outcome) :
    outcomes.countP (· ≠ .eintr) ≤ (my_read fd s outcomes).rest.countP (· ≠ .eintr) + 1 ∧
      ((my_read fd s outcomes).rc = .waiting → outcomes.countP (· ≠ .eintr) = 0) := by
  rw [my_read]
  cases s.unread with
  | nil => exact again_countP fd s outcomes
  | cons c unread => exact ⟨Nat.le_succ _, Rc.noConfusion⟩

private theorem readlineLoop_waiting {fd : Nat} (rounds : Nat) {s : Reader} {line : List Arrived}
    {outcomes : List Outcome} (h : (readlineLoop fd rounds s line outcomes).value = none) :
    outcomes.countP (· ≠ .eintr) < rounds := by
  induction rounds generalizing s line outcomes with
  | zero => cases h
  | succ rounds ih =>
      obtain ⟨hused, hwaiting⟩ := my_read_countP fd s outcomes
      rw [readlineLoop] at h
      generalize my_read fd s outcomes = m at h hused hwaiting
      obtain ⟨rc, s', rest⟩ := m
      cases rc with
      | one c =>
          simp only at h hused
          by_cases hnewline : c.byte = 10
          · rw [if_pos hnewline] at h
            cases h
          · rw [if_neg hnewline] at h
            have hrest := ih h
            omega
      | zero => cases h
      | minusOne => cases h
      | waiting =>
          rw [hwaiting rfl]
          exact Nat.succ_pos rounds

namespace Lines

variable {fd : Nat}

/-- A call returns when `maxlen - 1` of its outcomes are not interruptions. -/
theorem step_isSome (s : Lines) {c : LineCall}
    (h : c.maxlen - 1 ≤ c.outcomes.countP (· ≠ .eintr)) : (s.step fd c).isSome := by
  rw [step]
  cases hvalue : (s.call fd c).value with
  | none => exact absurd (readlineLoop_waiting (c.maxlen - 1) hvalue) (Nat.not_lt.mpr h)
  | some value => rfl

/-- So every list of such calls is run to its end. -/
theorem exists_run (s : Lines) {calls : List LineCall}
    (h : ∀ c ∈ calls, c.maxlen - 1 ≤ c.outcomes.countP (· ≠ .eintr)) :
    ∃ s', runSteps (step fd) s calls = some s' := by
  induction calls generalizing s with
  | nil => exact ⟨s, rfl⟩
  | cons c calls ih =>
      rw [List.forall_mem_cons] at h
      obtain ⟨t, hstep⟩ := Option.isSome_iff_exists.mp (step_isSome s h.1)
      obtain ⟨s', hrest⟩ := ih t h.2
      exact ⟨s', runSteps_cons_iff.mpr ⟨t, hstep, hrest⟩⟩

/-- A call that returns cuts off the next piece, and its value is the length of that
exactly when the piece fits. -/
theorem call_spec {s : Lines} {c : LineCall} {value : Int}
    (hvalue : (s.call fd c).value = some value) :
    s.Cuts fd c ∧ (value = (s.call fd c).line.length ↔ s.LineFits fd c) := by
  obtain ⟨taken, excess, hends, hline, hpending, hlength⟩ :=
    readlineLoop_ends (c.maxlen - 1) c.errorFree hvalue
  change (s.call fd c).line = [] ++ taken at hline
  change s.reader.pending fd = taken ++ (s.call fd c).reader.pending fd at hpending
  change value = (s.call fd c).line.length + excess at hlength
  rw [List.nil_append] at hline
  have hroom := c.room
  have hshort := hends.length_le
  constructor
  · refine ⟨?_, ?_, ?_, ?_⟩
    · rw [hline, hpending]
    · rw [hline]
      exact hends.dropLast_ne
    · rw [hline]
      exact hends.last
    · rw [hline]
      omega
  · have hexcess : value = (s.call fd c).line.length ↔ excess = 0 := by
      rw [hlength]
      omega
    rw [hexcess, hends.excess_eq_zero_iff, LineFits, hpending]
    rfl

private theorem counts_iff {s s' : Lines} {c : LineCall} (hstep : s.step fd c = some s') :
    s.Counts fd c ↔ s.LineFits fd c := by
  rw [step] at hstep
  split at hstep
  · cases hstep
  · next value hvalue =>
    obtain ⟨hcuts, hlength⟩ := call_spec hvalue
    rw [Counts, hvalue, Option.some_inj, hlength]
    exact and_iff_right hcuts

/-- The pieces, and what is still to come, are the stream. -/
theorem pieces_step {stream : List Arrived} {s s' : Lines} {c : LineCall}
    (h : s.pieces.flatten ++ s.reader.pending fd = stream) (hstep : s.step fd c = some s') :
    s'.pieces.flatten ++ s'.reader.pending fd = stream := by
  rw [step] at hstep
  split at hstep
  · cases hstep
  · next value hvalue =>
    cases hstep
    have hnext := (call_spec hvalue).1.next
    rw [← h, hnext]
    simp

private theorem pieces_start (stream : List UInt8) :
    (start fd stream).pieces.flatten ++ (start fd stream).reader.pending fd =
      arrivals fd stream := by
  simp [start, Reader.pending]

/-- Successive calls on one descriptor cut its stream into pieces, and every value is the
length of a piece exactly when every piece fits: a newline comes within `maxlen - 1`
bytes, or the stream ends before these are there. -/
theorem readline_pieces_iff {stream : List UInt8} {calls : List LineCall} {s : Lines}
    (hrun : runSteps (step fd) (start fd stream) calls = some s) :
    (Along (step fd) (Counts fd) (start fd stream) calls ∧
        s.pieces.flatten ++ s.reader.pending fd = arrivals fd stream) ↔
      Along (step fd) (LineFits fd) (start fd stream) calls := by
  have hpieces : s.pieces.flatten ++ s.reader.pending fd = arrivals fd stream :=
    invariant_run pieces_step (pieces_start stream) hrun
  have hvalues : Along (step fd) (Counts fd) (start fd stream) calls ↔
      Along (step fd) (LineFits fd) (start fd stream) calls :=
    along_iff_along (I := fun _ => True) (fun _ hstep => counts_iff hstep)
      (fun _ _ _ => trivial) trivial hrun
  rw [hvalues]
  exact and_iff_left hpieces

/-- A line, and then the end of the stream. -/
theorem readline_pieces_iff_lines :
    ∃ s, runSteps (step 3) (start 3 [97, 98, 10, 99])
        [⟨100, [.eintr, .upTo 2, .upTo 1], by decide, by decide⟩,
          ⟨100, [.upTo 1, .upTo 1], by decide, by decide⟩] = some s ∧
      Along (step 3) (Counts 3) (start 3 [97, 98, 10, 99])
        [⟨100, [.eintr, .upTo 2, .upTo 1], by decide, by decide⟩,
          ⟨100, [.upTo 1, .upTo 1], by decide, by decide⟩] := by
  refine ⟨_, rfl, ((readline_pieces_iff rfl).mpr ?_).1⟩
  refine ⟨Or.inl ⟨⟨10, 3, 2⟩, by decide, rfl⟩, ?_⟩
  rintro _ ⟨⟩
  refine ⟨Or.inr (by decide), ?_⟩
  rintro _ ⟨⟩
  trivial

/-- A buffer of three bytes takes two of the stream, and the value is 3. -/
theorem not_counts_full :
    ∃ s, runSteps (step 3) (start 3 [97, 98, 99, 10]) [⟨3, [.upTo 4], by decide, by decide⟩] =
        some s ∧
      s.pieces = [[⟨97, 3, 0⟩, ⟨98, 3, 1⟩]] ∧
      ¬ Along (step 3) (Counts 3) (start 3 [97, 98, 99, 10])
        [⟨3, [.upTo 4], by decide, by decide⟩] := by
  refine ⟨_, rfl, by decide, ?_⟩
  rintro ⟨⟨_, hvalue⟩, _⟩
  exact absurd hvalue (by decide)

end Lines

end LearningCpp.Wrap
