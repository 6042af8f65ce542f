import Mathlib.Tactic

/-!
`Writen` and `Readn` of `Linux_Net/Reactor/wrap.c`: they call `write` and `read`
until all bytes are through. Whatever the kernel lets through at a time, what is
written and what is read is a prefix, and a return value tells how long it is.
-/

namespace LearningCpp.Wrap

/-- How a call of `read` or `write` ends: with an error, with `EINTR`, or with at
most so many bytes. -/
inductive Outcome where
  | error
  | eintr
  | upTo (k : Nat)
  deriving DecidableEq, Repr

/-- A region of memory. No object is as large as 2 ^ 63 bytes. -/
structure Buffer where
  bytes : List UInt8
  fits : bytes.length < 2 ^ 63
  deriving DecidableEq, Repr

/-- Conversion to `size_t`. -/
def toSize (n : Int) : Nat := (n % 2 ^ 64).toNat

/-- Conversion of a `size_t` to `ssize_t`. -/
def toSsize (n : Nat) : Int := (n : Int).bmod (2 ^ 64)

/-- What `write` returns for `nleft` bytes. -/
def Outcome.nwritten (o : Outcome) (nleft : Nat) : Int :=
  match o with
  | .error | .eintr => -1
  | .upTo k => (min k nleft : Nat)

/-- The locals of `Writen`, where `ptr` counts from `vptr`, and what the descriptor
has accepted. -/
structure Writing where
  nleft : Nat
  ptr : Nat
  accepted : List UInt8
  deriving DecidableEq, Repr

/-- How far a call of `Writen` has come: `value` is missing while it has not
returned. -/
structure Written where
  value : Option Int
  locals : Writing
  rest : List Outcome
  deriving DecidableEq, Repr

/-- The loop of `Writen`, with the outcomes of the calls of `write` that are to come. -/
def writeLoop (p : List UInt8) : Writing → List Outcome → Written
  | w, [] =>
      if 0 < w.nleft then {value := none, locals := w, rest := []}
      else {value := some (toSsize p.length), locals := w, rest := []}
  | w, o :: rest =>
      if 0 < w.nleft then
        if o.nwritten w.nleft ≤ 0 then
          if o.nwritten w.nleft < 0 ∧ o = .eintr then writeLoop p w rest
          else {value := some (-1), locals := w, rest := rest}
        else
          writeLoop p {
            nleft := toSize (w.nleft - o.nwritten w.nleft)
            ptr := w.ptr + (o.nwritten w.nleft).toNat
            accepted := w.accepted ++ (p.drop w.ptr).take (o.nwritten w.nleft).toNat } rest
      else {value := some (toSsize p.length), locals := w, rest := o :: rest}

/-- `Writen(fd, vptr, n)` for the `n` bytes of `p`. -/
def Writen (accepted : List UInt8) (p : Buffer) (outcomes : List Outcome) : Written :=
  writeLoop p.bytes {nleft := p.bytes.length, ptr := 0, accepted := accepted} outcomes

/-- What `read` gives for `nleft` bytes: at the end of the stream nothing, before it at
least one byte. -/
def Outcome.chunk (o : Outcome) (stream : List UInt8) (nleft : Nat) : Option (List UInt8) :=
  match o with
  | .error | .eintr => none
  | .upTo k => some (stream.take (min (max k 1) nleft))

/-- The locals of `Readn`, the memory at `vptr`, and what the descriptor still has. -/
structure Reading where
  nleft : Nat
  ptr : Nat
  q : List UInt8
  stream : List UInt8
  deriving DecidableEq, Repr

structure ReadResult where
  value : Option Int
  locals : Reading
  rest : List Outcome
  deriving DecidableEq, Repr

/-- The loop of `Readn` for `n` bytes. -/
def readLoop (n : Nat) : Reading → List Outcome → ReadResult
  | r, [] =>
      if 0 < r.nleft then {value := none, locals := r, rest := []}
      else {value := some (toSsize (toSize (n - r.nleft))), locals := r, rest := []}
  | r, o :: rest =>
      if 0 < r.nleft then
        match o.chunk r.stream r.nleft with
        | none =>
            if o = .eintr then readLoop n r rest
            else {value := some (-1), locals := r, rest := rest}
        | some bytes =>
            if bytes.length = 0 then
              {value := some (toSsize (toSize (n - r.nleft))), locals := r, rest := rest}
            else
              readLoop n {
                nleft := toSize (r.nleft - bytes.length)
                ptr := r.ptr + bytes.length
                q := r.q.take r.ptr ++ bytes ++ r.q.drop (r.ptr + bytes.length)
                stream := r.stream.drop bytes.length } rest
      else {value := some (toSsize (toSize (n - r.nleft))), locals := r, rest := o :: rest}

/-- `Readn(fd, vptr, n)` into the `n` bytes of `q`. -/
def Readn (stream : List UInt8) (q : Buffer) (outcomes : List Outcome) : ReadResult :=
  readLoop q.bytes.length
    {nleft := q.bytes.length, ptr := 0, q := q.bytes, stream := stream} outcomes

theorem toSize_of_nonneg {n : Int} (hlow : 0 ≤ n) (hhigh : n < 2 ^ 63) : toSize n = n.toNat := by
  unfold toSize
  rw [Int.emod_eq_of_lt hlow (by omega)]

theorem toSsize_of_lt {n : Nat} (h : n < 2 ^ 63) : toSsize n = n := by
  unfold toSsize
  apply Int.bmod_eq_of_le <;> omega

/-- What holds at the top of the loop of `Writen`. -/
structure Writing.Sound (accepted p : List UInt8) (w : Writing) : Prop where
  split : w.ptr + w.nleft = p.length
  accepted_eq : w.accepted = accepted ++ p.take w.ptr

/-- What is known of a call of `Writen` that has come to a result or waits: it
returned all, or failed before the end, or has used up its outcomes. -/
structure Written.Sound (accepted p : List UInt8) (nleft : Nat) (outcomes : List Outcome)
    (r : Written) : Prop where
  locals : r.locals.Sound accepted p
  all : r.value = some (p.length : Int) ↔ r.locals.nleft = 0
  failed : r.value = none ∨ r.value = some (-1) ∨ r.locals.nleft = 0
  waiting : r.value = none → outcomes.countP (· ≠ .eintr) < nleft

theorem Writing.Sound.advance {accepted p : List UInt8} (hp : p.length < 2 ^ 63) {w : Writing}
    (hw : w.Sound accepted p) {k : Nat} (hk : k ≤ w.nleft) :
    Writing.Sound accepted p {
      nleft := toSize (w.nleft - k)
      ptr := w.ptr + k
      accepted := w.accepted ++ (p.drop w.ptr).take k } := by
  have hsplit := hw.split
  constructor
  · have hnleft : toSize (w.nleft - k) = w.nleft - k := by
      rw [toSize_of_nonneg] <;> omega
    simp only [hnleft]
    omega
  · simp only [hw.accepted_eq, List.append_assoc]
    rw [List.take_add]

theorem Written.sound_of_done {accepted p : List UInt8} (hp : p.length < 2 ^ 63) {w : Writing}
    (hw : w.Sound accepted p) (hdone : ¬ 0 < w.nleft) (outcomes rest : List Outcome) :
    Written.Sound accepted p w.nleft outcomes
      {value := some (toSsize p.length), locals := w, rest := rest} where
  locals := hw
  all := by
    rw [toSsize_of_lt hp]
    simp only [true_iff]
    omega
  failed := by
    right; right
    simp only
    omega
  waiting h := by cases h

private theorem writeLoop_sound {accepted p : List UInt8} (hp : p.length < 2 ^ 63) {w : Writing}
    (hw : w.Sound accepted p) (outcomes : List Outcome) :
    (writeLoop p w outcomes).Sound accepted p w.nleft outcomes := by
  induction outcomes generalizing w with
  | nil =>
    unfold writeLoop
    split
    next hleft =>
      exact {
        locals := hw
        all := by simp; omega
        failed := Or.inl rfl
        waiting := by simpa using hleft }
    next => exact Written.sound_of_done hp hw ‹_› _ _
  | cons o rest ih =>
    unfold writeLoop
    split
    next hleft =>
      split
      next =>
        split
        next hretry =>
          obtain ⟨-, rfl⟩ := hretry
          exact {ih hw with waiting := by simpa using (ih hw).waiting}
        next =>
          exact {
            locals := hw
            all := by simp; omega
            failed := Or.inr (Or.inl rfl)
            waiting := by simp }
      next hpos =>
        obtain ⟨k, rfl⟩ : ∃ k, o = .upTo k := by
          cases o with
          | error => simp [Outcome.nwritten] at hpos
          | eintr => simp [Outcome.nwritten] at hpos
          | upTo k => exact ⟨k, rfl⟩
        have hk : min k w.nleft ≤ w.nleft := Nat.min_le_right _ _
        have hadvance := hw.advance hp hk
        have hnleft : toSize (w.nleft - (min k w.nleft : Nat)) = w.nleft - min k w.nleft := by
          have hsplit := hw.split
          rw [toSize_of_nonneg] <;> omega
        have hsound := ih hadvance
        simp only [Outcome.nwritten, Int.toNat_natCast] at hpos ⊢
        refine {hsound with waiting := ?_}
        intro hnone
        have hcount := hsound.waiting hnone
        simp only [hnleft] at hcount
        rw [List.countP_cons_of_pos (by simp)]
        omega
    next => exact Written.sound_of_done hp hw ‹_› _ _

/-- What holds at the top of the loop of `Readn`. -/
structure Reading.Sound (stream q : List UInt8) (r : Reading) : Prop where
  split : r.ptr + r.nleft = q.length
  available : r.ptr ≤ stream.length
  q_eq : r.q = stream.take r.ptr ++ q.drop r.ptr
  stream_eq : r.stream = stream.drop r.ptr

/-- What is known of a call of `Readn` that has come to a result or waits. -/
structure ReadResult.Sound (stream q : List UInt8) (nleft : Nat) (outcomes : List Outcome)
    (r : ReadResult) : Prop where
  locals : r.locals.Sound stream q
  counted : r.value = none ∨ r.value = some (-1) ∨
    (r.value = some (r.locals.ptr : Int) ∧ r.locals.ptr = min q.length stream.length)
  waiting : r.value = none → outcomes.countP (· ≠ .eintr) < nleft

theorem Reading.Sound.advance {stream q bytes : List UInt8} (hq : q.length < 2 ^ 63) {r : Reading}
    (hr : r.Sound stream q) (hbytes : bytes <+: r.stream) (hlen : bytes.length ≤ r.nleft) :
    Reading.Sound stream q {
      nleft := toSize (r.nleft - bytes.length)
      ptr := r.ptr + bytes.length
      q := r.q.take r.ptr ++ bytes ++ r.q.drop (r.ptr + bytes.length)
      stream := r.stream.drop bytes.length } := by
  have hsplit := hr.split
  have havailable := hr.available
  have hwhole : bytes.length ≤ r.stream.length := hbytes.length_le
  have hptr : (stream.take r.ptr).length = r.ptr := by simpa using havailable
  have htaken : bytes = r.stream.take bytes.length := List.prefix_iff_eq_take.1 hbytes
  rw [hr.stream_eq, List.length_drop] at hwhole
  constructor
  · have hnleft : toSize (r.nleft - bytes.length) = r.nleft - bytes.length := by
      rw [toSize_of_nonneg] <;> omega
    simp only [hnleft]
    omega
  · simp only
    omega
  · have hkept : r.q.take r.ptr = stream.take r.ptr := by
      rw [hr.q_eq, List.take_append_of_le_length (by omega), List.take_take, Nat.min_self]
    have hbeyond : r.q.drop (r.ptr + bytes.length) = q.drop (r.ptr + bytes.length) := by
      rw [hr.q_eq, List.drop_append, hptr, List.drop_eq_nil_of_le (by omega), List.nil_append,
        List.drop_drop, Nat.add_sub_cancel_left]
    simp only [hkept, hbeyond]
    rw [List.take_add, ← hr.stream_eq, ← htaken]
  · simp only [hr.stream_eq, List.drop_drop]

/-- Where the loop stops without an error it has read all there is room for or all
there is. -/
theorem ReadResult.sound_of_stop {stream q : List UInt8} (hq : q.length < 2 ^ 63) {r : Reading}
    (hr : r.Sound stream q) (hstop : r.nleft = 0 ∨ r.stream = [])
    (outcomes rest : List Outcome) :
    ReadResult.Sound stream q r.nleft outcomes
      {value := some (toSsize (toSize (q.length - r.nleft))), locals := r, rest := rest} where
  locals := hr
  counted := by
    have hsplit := hr.split
    have havailable := hr.available
    right; right
    constructor
    · rw [toSize_of_nonneg (by omega) (by omega), toSsize_of_lt (by omega)]
      simp only [Option.some.injEq]
      omega
    · cases hstop with
      | inl hnone =>
        simp only
        omega
      | inr hend =>
        rw [hr.stream_eq, List.drop_eq_nil_iff] at hend
        simp only
        omega
  waiting h := by cases h

private theorem readLoop_sound {stream q : List UInt8} (hq : q.length < 2 ^ 63) {r : Reading}
    (hr : r.Sound stream q) (outcomes : List Outcome) :
    (readLoop q.length r outcomes).Sound stream q r.nleft outcomes := by
  induction outcomes generalizing r with
  | nil =>
    unfold readLoop
    split
    next hleft =>
      exact {
        locals := hr
        counted := Or.inl rfl
        waiting := by simpa using hleft }
    next => exact ReadResult.sound_of_stop hq hr (Or.inl (by omega)) _ _
  | cons o rest ih =>
    unfold readLoop
    split
    next hleft =>
      cases hchunk : o.chunk r.stream r.nleft with
      | none =>
        simp only
        split
        next hretry =>
          subst hretry
          exact {ih hr with waiting := by simpa using (ih hr).waiting}
        next =>
          exact {
            locals := hr
            counted := Or.inr (Or.inl rfl)
            waiting := by simp }
      | some bytes =>
        simp only
        obtain ⟨k, rfl⟩ : ∃ k, o = .upTo k := by
          cases o with
          | error => simp [Outcome.chunk] at hchunk
          | eintr => simp [Outcome.chunk] at hchunk
          | upTo k => exact ⟨k, rfl⟩
        simp only [Outcome.chunk, Option.some.injEq] at hchunk
        have hbytes : bytes <+: r.stream := hchunk ▸ List.take_prefix _ _
        have hlen : bytes.length ≤ r.nleft := by
          rw [← hchunk, List.length_take]
          omega
        split
        next hzero =>
          have hend : r.stream = [] := by
            rw [← hchunk, List.length_take] at hzero
            apply List.eq_nil_of_length_eq_zero
            omega
          exact ReadResult.sound_of_stop hq hr (Or.inr hend) _ _
        next =>
          have hsplit := hr.split
          have hnleft : toSize (r.nleft - bytes.length) = r.nleft - bytes.length := by
            rw [toSize_of_nonneg] <;> omega
          have hsound := ih (hr.advance hq hbytes hlen)
          refine {hsound with waiting := ?_}
          intro hnone
          have hcount := hsound.waiting hnone
          simp only [hnleft] at hcount
          rw [List.countP_cons_of_pos (by simp)]
          omega
    next => exact ReadResult.sound_of_stop hq hr (Or.inl (by omega)) _ _

theorem Writen_sound (accepted : List UInt8) (p : Buffer) (outcomes : List Outcome) :
    (Writen accepted p outcomes).Sound accepted p.bytes p.bytes.length outcomes := by
  have hstart : Writing.Sound accepted p.bytes
      {nleft := p.bytes.length, ptr := 0, accepted := accepted} := by
    constructor <;> simp
  exact writeLoop_sound p.fits hstart outcomes

theorem Readn_sound (stream : List UInt8) (q : Buffer) (outcomes : List Outcome) :
    (Readn stream q outcomes).Sound stream q.bytes q.bytes.length outcomes := by
  have hstart : Reading.Sound stream q.bytes
      {nleft := q.bytes.length, ptr := 0, q := q.bytes, stream := stream} := by
    constructor <;> simp
  exact readLoop_sound q.fits hstart outcomes

theorem Written.Sound.returned_iff {accepted p : List UInt8} {nleft : Nat}
    {outcomes : List Outcome} {r : Written} (h : r.Sound accepted p nleft outcomes) :
    r.value = some (p.length : Int) ↔ r.locals.accepted = accepted ++ p := by
  have hsplit := h.locals.split
  rw [h.all, h.locals.accepted_eq, List.append_cancel_left_eq, List.take_eq_self_iff]
  omega

theorem Written.Sound.failed_prefix {accepted p : List UInt8} {nleft : Nat}
    {outcomes : List Outcome} {r : Written} (h : r.Sound accepted p nleft outcomes)
    (hfailed : r.value = some (-1)) :
    ∃ k < p.length, r.locals.accepted = accepted ++ p.take k := by
  have hsplit := h.locals.split
  have hleft : r.locals.nleft ≠ 0 := by
    intro hzero
    have hall := h.all.2 hzero
    rw [hfailed, Option.some.injEq] at hall
    omega
  exact ⟨r.locals.ptr, by omega, h.locals.accepted_eq⟩

theorem Written.Sound.value_cases {accepted p : List UInt8} {nleft : Nat}
    {outcomes : List Outcome} {r : Written} (h : r.Sound accepted p nleft outcomes)
    (hvalue : r.value ≠ none) : r.value = some (p.length : Int) ∨ r.value = some (-1) := by
  obtain hnone | hfailed | hall := h.failed
  · exact absurd hnone hvalue
  · exact Or.inr hfailed
  · exact Or.inl (h.all.2 hall)

theorem ReadResult.Sound.fetched {stream q : List UInt8} {nleft : Nat}
    {outcomes : List Outcome} {r : ReadResult} (h : r.Sound stream q nleft outcomes)
    (hvalue : r.value ≠ none) (hfailed : r.value ≠ some (-1)) :
    r.value = some ((min q.length stream.length : Nat) : Int) ∧
      r.locals.q = stream.take (min q.length stream.length) ++
        q.drop (min q.length stream.length) ∧
      r.locals.stream = stream.drop (min q.length stream.length) := by
  obtain hnone | hminus | ⟨hcount, hptr⟩ := h.counted
  · exact absurd hnone hvalue
  · exact absurd hminus hfailed
  · rw [← hptr]
    exact ⟨hcount, h.locals.q_eq, h.locals.stream_eq⟩

/-- The descriptor after calls of `Writen` one after the other, if none failed. -/
def WritenAll (accepted : List UInt8) : List (Buffer × List Outcome) → Option (List UInt8)
  | [] => some accepted
  | (p, outcomes) :: calls =>
      if (Writen accepted p outcomes).value = some (p.bytes.length : Int) then
        WritenAll (Writen accepted p outcomes).locals.accepted calls
      else none

/-- What calls of `Readn` one after the other have stored, and what is then left of
the stream, if none failed. -/
def ReadnAll (stream : List UInt8) :
    List (Buffer × List Outcome) → Option (List UInt8 × List UInt8)
  | [] => some ([], stream)
  | (q, outcomes) :: calls =>
      match (Readn stream q outcomes).value with
      | none => none
      | some k =>
          if k = -1 then none
          else
            (ReadnAll (Readn stream q outcomes).locals.stream calls).map fun later =>
              ((Readn stream q outcomes).locals.q.take k.toNat ++ later.1, later.2)

private theorem WritenAll_eq {accepted sent : List UInt8} {calls : List (Buffer × List Outcome)}
    (h : WritenAll accepted calls = some sent) :
    sent = accepted ++ calls.flatMap (·.1.bytes) := by
  induction calls generalizing accepted with
  | nil => simpa [WritenAll] using h.symm
  | cons call calls ih =>
    obtain ⟨p, outcomes⟩ := call
    unfold WritenAll at h
    split at h
    next hreturned =>
      rw [(Writen_sound accepted p outcomes).returned_iff] at hreturned
      rw [ih h, hreturned, List.flatMap_cons, List.append_assoc]
    next => cases h

private theorem ReadnAll_eq {stream got left : List UInt8} {calls : List (Buffer × List Outcome)}
    (h : ReadnAll stream calls = some (got, left)) :
    got = stream.take (calls.map (·.1.bytes.length)).sum ∧ got ++ left = stream := by
  induction calls generalizing stream got left with
  | nil =>
    simp only [ReadnAll, Option.some.injEq, Prod.mk.injEq] at h
    simp [← h.1, ← h.2]
  | cons call calls ih =>
    obtain ⟨q, outcomes⟩ := call
    unfold ReadnAll at h
    cases hvalue : (Readn stream q outcomes).value with
    | none => simp [hvalue] at h
    | some k =>
      simp only [hvalue] at h
      split at h
      next => cases h
      next hfailed =>
        obtain ⟨⟨later, after⟩, hrest, heq⟩ := Option.map_eq_some_iff.1 h
        obtain ⟨hk, hq, hstream⟩ := (Readn_sound stream q outcomes).fetched
          (by simp [hvalue]) (by simpa [hvalue] using hfailed)
        obtain ⟨hlater, hwhole⟩ := ih hrest
        rw [hvalue, Option.some.injEq] at hk
        simp only [Prod.mk.injEq] at heq
        obtain ⟨rfl, rfl⟩ := heq
        have htaken : (Readn stream q outcomes).locals.q.take k.toNat =
            stream.take (min q.bytes.length stream.length) := by
          rw [hk, Int.toNat_natCast, hq, List.take_append_of_le_length (by simp), List.take_take,
            Nat.min_self]
        rw [htaken]
        constructor
        · rw [hlater, hstream, List.map_cons, List.sum_cons]
          simp only
          by_cases hroom : q.bytes.length ≤ stream.length
          · rw [Nat.min_eq_left hroom, List.take_add]
          · rw [Nat.min_eq_right (by omega), List.drop_length, List.take_nil, List.append_nil,
              List.take_length, List.take_of_length_le (by omega)]
        · rw [List.append_assoc, hwhole, hstream, List.take_append_drop]

/-- The transfer law. `Writen` returns the number of bytes when all of them were
accepted in order, and -1 when a proper prefix was; `Readn` returns how many of the
next bytes it stored and leaves the stream right behind them; and whatever was cut
into calls of `Writen` arrives in calls of `Readn` cut in any other way. -/
theorem Readn_Writen_transfer :
    (∀ accepted p outcomes,
      ((Writen accepted p outcomes).value = some (p.bytes.length : Int) ↔
        (Writen accepted p outcomes).locals.accepted = accepted ++ p.bytes) ∧
      ((Writen accepted p outcomes).value = some (-1) →
        ∃ k < p.bytes.length,
          (Writen accepted p outcomes).locals.accepted = accepted ++ p.bytes.take k) ∧
      ((Writen accepted p outcomes).value ≠ none →
        (Writen accepted p outcomes).value = some (p.bytes.length : Int) ∨
          (Writen accepted p outcomes).value = some (-1)) ∧
      ((Writen accepted p outcomes).value = none →
        outcomes.countP (· ≠ .eintr) < p.bytes.length)) ∧
    (∀ stream q outcomes,
      ((Readn stream q outcomes).value ≠ none →
        (Readn stream q outcomes).value ≠ some (-1) →
        (Readn stream q outcomes).value = some ((min q.bytes.length stream.length : Nat) : Int) ∧
        (Readn stream q outcomes).locals.q =
          stream.take (min q.bytes.length stream.length) ++
            q.bytes.drop (min q.bytes.length stream.length) ∧
        (Readn stream q outcomes).locals.stream =
          stream.drop (min q.bytes.length stream.length)) ∧
      ((Readn stream q outcomes).value = none →
        outcomes.countP (· ≠ .eintr) < q.bytes.length)) ∧
    ∀ sends fetches sent got left,
      WritenAll [] sends = some sent → ReadnAll sent fetches = some (got, left) →
        sent = sends.flatMap (·.1.bytes) ∧ got ++ left = sent ∧
          got = (sends.flatMap (·.1.bytes)).take (fetches.map (·.1.bytes.length)).sum := by
  refine ⟨?_, ?_, ?_⟩
  · intro accepted p outcomes
    have hsound := Writen_sound accepted p outcomes
    exact ⟨hsound.returned_iff, hsound.failed_prefix, hsound.value_cases, hsound.waiting⟩
  · intro stream q outcomes
    have hsound := Readn_sound stream q outcomes
    exact ⟨hsound.fetched, hsound.waiting⟩
  · intro sends fetches sent got left hsends hfetches
    have hsent := WritenAll_eq hsends
    rw [List.nil_append] at hsent
    obtain ⟨hgot, hwhole⟩ := ReadnAll_eq hfetches
    exact ⟨hsent, hwhole, hsent ▸ hgot⟩

/-- The bytes `1 2` and `3` are written with a signal and a short count on the way,
and read as `1` and `2 3`. -/
theorem Readn_Writen_transfer_three :
    WritenAll [] [(⟨[1, 2], by decide⟩, [.eintr, .upTo 1, .upTo 5]),
        (⟨[3], by decide⟩, [.upTo 1])] = some [1, 2, 3] ∧
      ReadnAll [1, 2, 3] [(⟨[0], by decide⟩, [.upTo 4]),
        (⟨[0, 0], by decide⟩, [.upTo 1, .upTo 1])] = some ([1, 2, 3], []) ∧
      [1, 2, 3] ++ [] = ([1, 2, 3] : List UInt8) := by
  have hsend : WritenAll [] [(⟨[1, 2], by decide⟩, [.eintr, .upTo 1, .upTo 5]),
      (⟨[3], by decide⟩, [.upTo 1])] = some [1, 2, 3] := by decide
  have hfetch : ReadnAll [1, 2, 3] [(⟨[0], by decide⟩, [.upTo 4]),
      (⟨[0, 0], by decide⟩, [.upTo 1, .upTo 1])] = some ([1, 2, 3], []) := by decide
  exact ⟨hsend, hfetch, (Readn_Writen_transfer.2.2 _ _ _ _ _ hsend hfetch).2.1⟩

end LearningCpp.Wrap
