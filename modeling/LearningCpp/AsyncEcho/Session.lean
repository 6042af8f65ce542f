import LearningCpp.AsyncEcho.HandlerMemory
import LearningCpp.Library.Census

/-!
The sessions of `boost/1.异步分配内存.cpp`. Each reads into `data_` and writes it out again. An
operation keeps its handler in memory that is allocated for it, and gives the memory back
before the handler is called.
-/

namespace LearningCpp.AsyncEcho

open Library

/-- The number of bytes in `data_`. -/
def max_length : Nat := 1024

/-- `std::array<char, 1024>` -/
abbrev Buffer := {data : List UInt8 // data.length = max_length}

namespace Buffer

/-- The buffer after a read has put `bytes` at its beginning. -/
def fill (b : Buffer) (bytes : List UInt8) : Buffer :=
  ⟨(bytes ++ b.1.drop bytes.length).take max_length, by
    have h := b.2
    rw [List.length_take, List.length_append, List.length_drop]
    omega⟩

/-- `buffer(data_, length)` from `offset` on. -/
def slice (b : Buffer) (offset length : Nat) : List UInt8 := (b.1.take length).drop offset

theorem slice_fill (b : Buffer) {bytes : List UInt8} (h : bytes.length ≤ max_length) :
    (b.fill bytes).slice 0 bytes.length = bytes := by
  simp only [slice, fill, List.drop_zero, List.take_take, Nat.min_eq_left h, List.take_left']

theorem slice_append (b : Buffer) {i j k : Nat} (hij : i ≤ j) (hjk : j ≤ k) :
    b.slice i j ++ b.slice j k = b.slice i k := by
  have htake : b.1.take j = (b.1.take k).take j := by
    rw [List.take_take, Nat.min_eq_left hjk]
  have hdrop : (b.1.take k).drop j = ((b.1.take k).drop i).drop (j - i) := by
    rw [List.drop_drop, Nat.add_sub_cancel' hij]
  simp only [slice]
  rw [htake, hdrop, List.drop_take, List.take_append_drop]

theorem length_slice (b : Buffer) {i j : Nat} (hj : j ≤ max_length) :
    (b.slice i j).length = j - i := by
  rw [slice, List.length_drop, List.length_take, b.2, Nat.min_eq_left hj]

end Buffer

/-- The operation of a session: a read, or a write of the first `length` bytes of `data_` of
which `offset` are written. -/
inductive Operation where
  | read_some
  | write (offset length : Nat)
  deriving DecidableEq, Repr

/-- A session lives as long as it has an operation, whose handler refers to it. Kept for the
specification: the bytes it has read and those it has written. -/
structure Session where
  data_ : Buffer
  operation : Option (Operation × Pointer)
  received : List UInt8
  sent : List UInt8
  deriving DecidableEq, Repr

/-- The address where the operation of a session is. -/
def Session.pointer (c : Session) : Option Pointer := c.operation.map Prod.snd

/-- What is read and not yet written. -/
def Session.pending (c : Session) : List UInt8 :=
  match c.operation with
  | some (.write offset length, _) => c.data_.slice offset length
  | _ => []

/-- What a session writes is what it has read, and while it lives nothing is missing but the
bytes that its write still has to do. -/
structure Session.Echo (c : Session) : Prop where
  sent_first : c.sent <+: c.received
  sent_pending : c.operation.isSome → c.sent ++ c.pending = c.received
  inside : ∀ {offset length p}, c.operation = some (.write offset length, p) →
    offset < length ∧ length ≤ max_length

/-- What the library allocates for a read and for a step of a write. -/
structure Sizes where
  read_some : Nat
  write_some : Nat

def Sizes.of (sizes : Sizes) : Operation → Nat
  | .read_some => sizes.read_some
  | .write _ _ => sizes.write_some

/-- The `handler_memory_` of session `i` is memory `i` of the store. -/
structure Server where
  store : Store
  sessions : List Session
  deriving DecidableEq

/-- A client is accepted, with the array as it is found; a read delivers bytes; `k` bytes are
written; an operation fails. Where memory is allocated after it, `block` is free on the heap. -/
inductive Act where
  | accept (data_ : Buffer) (block : Nat)
  | read_some (i : Nat) (bytes : List UInt8) (block : Nat)
  | write_some (i k block : Nat)
  | fail (i : Nat)
  deriving DecidableEq

/-- The session whose operation is completed. -/
def Act.session : Act → Option Nat
  | .accept _ _ => none
  | .read_some i _ _ | .write_some i _ _ | .fail i => some i

namespace Server

def start : Server := ⟨⟨[], ∅⟩, []⟩

/-- The operation at `p` is over, and session `i` goes on as `c`. -/
def complete (s : Server) (i : Nat) (c : Session) (p : Pointer) : Option Server :=
  (s.store.deallocate i p).map fun store =>
    ⟨store, s.sessions.set i {c with operation := none}⟩

/-- Session `i`, its operation and the address of that. -/
def underway (s : Server) (i : Nat) : Option (Session × Operation × Pointer) :=
  s.sessions[i]?.bind fun c => c.operation.map fun op => (c, op)

variable (sizes : Sizes)

/-- An operation of session `i` begins. -/
def initiate (s : Server) (i : Nat) (op : Operation) (block : Nat) : Option Server :=
  match s.sessions[i]?, s.store.allocate i (sizes.of op) block with
  | some c, some (p, store) =>
      some ⟨store, s.sessions.set i {c with operation := some (op, p)}⟩
  | _, _ => none

def do_read (s : Server) (i block : Nat) : Option Server := s.initiate sizes i .read_some block

def do_write (s : Server) (i length block : Nat) : Option Server :=
  s.initiate sizes i (.write 0 length) block

def step (s : Server) : Act → Option Server
  | .accept data_ block =>
      do_read sizes ⟨s.store.construct, s.sessions ++ [⟨data_, none, [], []⟩]⟩ s.sessions.length
        block
  | .read_some i bytes block =>
      match s.underway i with
      | some (c, .read_some, p) =>
          if bytes ≠ [] ∧ bytes.length ≤ max_length then
            (s.complete i {c with
              data_ := c.data_.fill bytes
              received := c.received ++ bytes } p).bind fun s =>
                s.do_write sizes i bytes.length block
          else none
      | _ => none
  | .write_some i k block =>
      match s.underway i with
      | some (c, .write offset length, p) =>
          if 0 < k ∧ offset + k ≤ length then
            (s.complete i {c with
              sent := c.sent ++ c.data_.slice offset (offset + k) } p).bind fun s =>
                if offset + k = length then s.do_read sizes i block
                else s.initiate sizes i (.write (offset + k) length) block
          else none
      | _ => none
  | .fail i =>
      match s.underway i with
      | some (c, _, p) => s.complete i c p
      | none => none

variable {sizes} {s s' : Server} {i block : Nat} {c c₀ : Session} {op : Operation} {p : Pointer}

theorem underway_eq_some (h : s.underway i = some (c, op, p)) :
    s.sessions[i]? = some c ∧ c.operation = some (op, p) := by
  obtain ⟨c', hc, hop⟩ := Option.bind_eq_some_iff.mp h
  obtain ⟨op', hop', heq⟩ := Option.map_eq_some_iff.mp hop
  cases heq
  exact ⟨hc, hop'⟩

theorem initiate_eq_some (h : s.initiate sizes i op block = some s') :
    ∃ c p store, s.sessions[i]? = some c ∧
      s.store.allocate i (sizes.of op) block = some (p, store) ∧
      s' = ⟨store, s.sessions.set i {c with operation := some (op, p)}⟩ := by
  unfold initiate at h
  split at h
  case h_1 c p store hc halloc =>
    cases h
    exact ⟨c, p, store, hc, halloc, rfl⟩
  case h_2 => cases h

/-- One operation is over and the next one begins. -/
theorem complete_initiate (hc : s.sessions[i]? = some c₀)
    (h : ((s.complete i c p).bind fun s => s.initiate sizes i op block) = some s') :
    ∃ p' store, s.store.deallocate i p = some store ∧
      store.allocate i (sizes.of op) block = some (p', s'.store) ∧
      s'.sessions = s.sessions.set i {c with operation := some (op, p')} := by
  obtain ⟨s₁, hcomplete, hnext⟩ := Option.bind_eq_some_iff.mp h
  obtain ⟨store, hfree, rfl⟩ := Option.map_eq_some_iff.mp hcomplete
  obtain ⟨c₁, p', store', hc₁, halloc, rfl⟩ := initiate_eq_some hnext
  rcases (Mutex.getElem?_set_of_some hc i).mp hc₁ with ⟨-, rfl⟩ | ⟨hne, -⟩
  · exact ⟨p', store, hfree, halloc, List.set_set _⟩
  · exact absurd rfl hne

/-- How a session goes on when its operation is over: what it has of the other fields then, and
the next operation, if any. -/
inductive Goes (i : Nat) : Act → Session → Session → Option Operation → Prop
  | read {c : Session} {p : Pointer} {bytes : List UInt8} {block : Nat}
      (hop : c.operation = some (.read_some, p)) (hbytes : bytes ≠ [])
      (hlength : bytes.length ≤ max_length) :
      Goes i (.read_some i bytes block) c
        {c with data_ := c.data_.fill bytes, received := c.received ++ bytes}
        (some (.write 0 bytes.length))
  | part {c : Session} {p : Pointer} {offset length k block : Nat}
      (hop : c.operation = some (.write offset length, p)) (hk : 0 < k)
      (hlt : offset + k < length) :
      Goes i (.write_some i k block) c
        {c with sent := c.sent ++ c.data_.slice offset (offset + k)}
        (some (.write (offset + k) length))
  | written {c : Session} {p : Pointer} {offset length k block : Nat}
      (hop : c.operation = some (.write offset length, p)) (hk : 0 < k)
      (hend : offset + k = length) :
      Goes i (.write_some i k block) c
        {c with sent := c.sent ++ c.data_.slice offset length} (some .read_some)
  | failed {c : Session} {op : Operation} {p : Pointer} (hop : c.operation = some (op, p)) :
      Goes i (.fail i) c c none

/-- Every step starts a session, or completes the operation of one and begins the next. -/
theorem step_cases {a : Act} (h : s.step sizes a = some s') :
    (∃ data_ p block, a = .accept data_ block ∧
      s.store.construct.allocate s.sessions.length (sizes.of .read_some) block =
        some (p, s'.store) ∧
      s'.sessions = s.sessions ++ [⟨data_, some (.read_some, p), [], []⟩]) ∨
    ∃ i c op p c' next store, s.sessions[i]? = some c ∧ c.operation = some (op, p) ∧
      Goes i a c c' next ∧ s.store.deallocate i p = some store ∧
      ((next = none ∧ s' = ⟨store, s.sessions.set i {c' with operation := none}⟩) ∨
        ∃ op' p' block, next = some op' ∧
          store.allocate i (sizes.of op') block = some (p', s'.store) ∧
          s'.sessions = s.sessions.set i {c' with operation := some (op', p')}) := by
  cases a with
  | accept data_ block =>
      obtain ⟨c, p, store, hc, halloc, rfl⟩ := initiate_eq_some h
      simp only [List.getElem?_concat_length, Option.some.injEq] at hc
      subst hc
      refine Or.inl ⟨data_, p, block, rfl, halloc, ?_⟩
      rw [List.set_append_right _ _ (Nat.le_refl _), Nat.sub_self, List.set_cons_zero]
  | read_some i bytes block =>
      simp only [step] at h
      split at h
      case h_2 => cases h
      case h_1 c p hway =>
        obtain ⟨hc, hop⟩ := underway_eq_some hway
        split at h
        case isFalse => cases h
        case isTrue hbytes =>
          obtain ⟨p', store, hfree, halloc, hsessions⟩ := complete_initiate hc h
          exact Or.inr ⟨i, c, _, p, _, _, store, hc, hop, Goes.read hop hbytes.1 hbytes.2, hfree,
            Or.inr ⟨_, p', block, rfl, halloc, hsessions⟩⟩
  | write_some i k block =>
      simp only [step] at h
      split at h
      case h_2 => cases h
      case h_1 c offset length p hway =>
        obtain ⟨hc, hop⟩ := underway_eq_some hway
        split at h
        case isFalse => cases h
        case isTrue hk =>
          rcases Nat.eq_or_lt_of_le hk.2 with hend | hlt
          · simp only [if_pos hend] at h
            obtain ⟨p', store, hfree, halloc, hsessions⟩ := complete_initiate hc h
            rw [hend] at hsessions
            exact Or.inr ⟨i, c, _, p, _, _, store, hc, hop, Goes.written hop hk.1 hend, hfree,
              Or.inr ⟨_, p', block, rfl, halloc, hsessions⟩⟩
          · simp only [if_neg (Nat.ne_of_lt hlt)] at h
            obtain ⟨p', store, hfree, halloc, hsessions⟩ := complete_initiate hc h
            exact Or.inr ⟨i, c, _, p, _, _, store, hc, hop, Goes.part hop hk.1 hlt, hfree,
              Or.inr ⟨_, p', block, rfl, halloc, hsessions⟩⟩
  | fail i =>
      simp only [step] at h
      split at h
      case h_2 => cases h
      case h_1 c op p hway =>
        obtain ⟨hc, hop⟩ := underway_eq_some hway
        obtain ⟨store, hfree, rfl⟩ := Option.map_eq_some_iff.mp h
        exact Or.inr ⟨i, c, op, p, c, none, store, hc, hop, Goes.failed hop, hfree,
          Or.inl ⟨rfl, rfl⟩⟩

/-- What a step does to the sessions. -/
theorem step_sessions {a : Act} (h : s.step sizes a = some s') :
    (∃ data_ p block, a = .accept data_ block ∧
      s'.sessions = s.sessions ++ [⟨data_, some (.read_some, p), [], []⟩]) ∨
    ∃ i c c' next p, s.sessions[i]? = some c ∧ Goes i a c c' next ∧
      s'.sessions = s.sessions.set i {c' with operation := next.map fun op => (op, p)} := by
  rcases step_cases h with ⟨data_, p, block, ha, -, hsessions⟩ |
    ⟨i, c, op, p, c', next, store, hc, -, hgoes, -, hrest⟩
  · exact Or.inl ⟨data_, p, block, ha, hsessions⟩
  · refine Or.inr ⟨i, c, c', next, ?_⟩
    rcases hrest with ⟨rfl, rfl⟩ | ⟨op', p', block, rfl, -, hsessions⟩
    · exact ⟨p, hc, hgoes, rfl⟩
    · exact ⟨p', hc, hgoes, hsessions⟩

theorem Goes.session {a : Act} {c c' : Session} {next : Option Operation}
    (h : Goes i a c c' next) : a.session = some i := by
  cases h <;> rfl

/-- What completing an operation of session `i` does to the sessions. -/
theorem step_session {a : Act} (h : s.step sizes a = some s') (ha : a.session = some i) :
    ∃ c c' next p, s.sessions[i]? = some c ∧ Goes i a c c' next ∧
      s'.sessions = s.sessions.set i {c' with operation := next.map fun op => (op, p)} := by
  rcases step_sessions h with ⟨data_, p, block, rfl, -⟩ | ⟨j, c, c', next, p, hc, hgoes, hsessions⟩
  · cases ha
  · rw [hgoes.session, Option.some.injEq] at ha
    subst ha
    exact ⟨c, c', next, p, hc, hgoes, hsessions⟩

theorem Goes.echo {a : Act} {c c' : Session} {next : Option Operation} (h : c.Echo)
    (hgoes : Goes i a c c' next) :
    (∀ p, Session.Echo {c' with operation := next.map fun op => (op, p)}) ∧
      Session.Echo {c' with operation := none} := by
  cases hgoes with
  | read hop hbytes hlength =>
      rename_i p bytes block
      have hall := h.sent_pending (by rw [hop]; rfl)
      simp only [Session.pending, hop, List.append_nil] at hall
      have hlater : c.sent <+: c.received ++ bytes := ⟨bytes, by rw [hall]⟩
      refine ⟨fun p' => ⟨hlater, ?_, ?_⟩, ⟨hlater, nofun, nofun⟩⟩
      · intro _
        simp only [Session.pending, Option.map_some, Buffer.slice_fill c.data_ hlength, hall]
      · intro offset length q heq
        cases heq
        exact ⟨List.length_pos_iff.mpr hbytes, hlength⟩
  | part hop hk hlt =>
      rename_i p offset length k block
      have hall := h.sent_pending (by rw [hop]; rfl)
      simp only [Session.pending, hop] at hall
      have hslices := Buffer.slice_append c.data_ (Nat.le_add_right offset k) hlt.le
      rw [← hslices, ← List.append_assoc] at hall
      refine ⟨fun p' => ⟨⟨_, hall⟩, fun _ => hall, ?_⟩, ⟨⟨_, hall⟩, nofun, nofun⟩⟩
      intro offset' length' q heq
      cases heq
      exact ⟨hlt, (h.inside hop).2⟩
  | written hop hk hend =>
      rename_i p offset length k block
      have hall := h.sent_pending (by rw [hop]; rfl)
      simp only [Session.pending, hop] at hall
      refine ⟨fun p' => ⟨⟨[], ?_⟩, ?_, nofun⟩, ⟨⟨[], ?_⟩, nofun, nofun⟩⟩
      · rw [List.append_nil, hall]
      · intro _
        simp only [Session.pending, Option.map_some, List.append_nil, hall]
      · rw [List.append_nil, hall]
  | failed hop => exact ⟨fun p' => ⟨h.sent_first, nofun, nofun⟩, h.sent_first, nofun, nofun⟩

/-- The addresses of the operations that are under way. -/
def held (s : Server) : List Pointer := s.sessions.filterMap Session.pointer

/-- The operation of session `i` is in its own memory if it fits. -/
def Placed (sizes : Sizes) (i : Nat) (c : Session) : Prop :=
  ∀ op p, c.operation = some (op, p) →
    Store.Takes i p ∧ (p = .storage i ↔ sizes.of op < sizeof_storage)

structure Sound (sizes : Sizes) (s : Server) : Prop where
  owes : s.store.Owes s.held
  constructed : s.store.memories.length = s.sessions.length
  placed : ∀ {i : Nat} {c : Session}, s.sessions[i]? = some c → Placed sizes i c
  echo : ∀ {i : Nat} {c : Session}, s.sessions[i]? = some c → c.Echo

theorem start_sound (sizes : Sizes) : Sound sizes start where
  owes := by
    constructor
    · intro i m hm
      cases hm
    · intro q
      cases q <;> rfl
  constructed := rfl
  placed hc := by cases hc
  echo hc := by cases hc

/-- The block of a memory is only ever held by the operation of its session. -/
theorem Sound.storage_held (h : Sound sizes s) (hc : s.sessions[i]? = some c)
    (hop : c.operation = some (op, p)) (huse : s.store.InUse (.storage i)) : p = .storage i := by
  have hmem := (h.owes.mem_iff _).mpr huse
  obtain ⟨c', hc', hpointer⟩ := List.mem_filterMap.mp hmem
  obtain ⟨⟨op', p'⟩, hop', heq⟩ := Option.map_eq_some_iff.mp hpointer
  obtain ⟨j, hj⟩ := List.mem_iff_getElem?.mp hc'
  cases heq
  have hij : i = j := (h.placed hj _ _ hop').1
  subst hij
  rw [hc, Option.some.injEq] at hj
  subst hj
  rw [hop, Option.some.injEq, Prod.mk.injEq] at hop'
  exact hop'.2

theorem Sound.accept (h : Sound sizes s) {data_ : Buffer}
    (halloc : s.store.construct.allocate s.sessions.length (sizes.of .read_some) block =
      some (p, s'.store))
    (hsessions : s'.sessions = s.sessions ++ [⟨data_, some (.read_some, p), [], []⟩]) :
    Sound sizes s' := by
  have howes := h.owes.construct
  obtain ⟨-, -, -, htakes, hlength, hfits⟩ := Store.allocate_spec howes.1 halloc
  have hunused : ¬ s.store.construct.InUse (.storage s.sessions.length) := by
    rw [Store.inUse_construct, ← h.constructed]
    simp [Store.InUse]
  have hnew := Store.allocate_storage howes.1 halloc hunused
  refine ⟨howes.allocate halloc ?_, ?_, ?_, ?_⟩
  · intro q
    simp only [held, hsessions, List.filterMap_append, List.count_append]
    congr 1
    simp [Session.pointer, List.count_singleton]
  · rw [hlength, hsessions]
    simp [Store.construct, h.constructed]
  · intro j c hc
    rw [hsessions] at hc
    refine forall_concat ?_ h.placed hc
    intro op p' hop
    cases hop
    exact ⟨htakes, hfits, hnew⟩
  · intro j c hc
    rw [hsessions] at hc
    refine forall_concat (P := fun _ => Session.Echo) ⟨ List.nil_prefix, fun _ => rfl, ?_⟩ h.echo hc
    intro offset length q heq
    cases heq

/-- The operation of session `i` is over. -/
theorem Sound.release (h : Sound sizes s) {a : Act} {store : Store} {c' : Session}
    {next : Option Operation} (hc : s.sessions[i]? = some c) (hop : c.operation = some (op, p))
    (hgoes : Goes i a c c' next)
    (hfree : s.store.deallocate i p = some store) :
    Sound sizes ⟨store, s.sessions.set i {c' with operation := none}⟩ ∧
      ¬ store.InUse (.storage i) := by
  have htakes := (h.placed hc op p hop).1
  have hpointer : c.pointer = some p := by rw [Session.pointer, hop, Option.map_some]
  have hmem : p ∈ s.held := List.mem_filterMap.mpr ⟨c, List.mem_of_getElem? hc, hpointer⟩
  obtain ⟨huse, -, hlength⟩ := Store.deallocate_spec h.owes.1 htakes hfree
  refine ⟨⟨h.owes.deallocate htakes hmem hfree ?_, ?_, ?_, ?_⟩, ?_⟩
  · intro q
    have hcount := count_filterMap_set_add hc {c' with operation := none} Session.pointer q
    have hnone : Session.pointer {c' with operation := none} = none := rfl
    rw [hpointer, hnone] at hcount
    simpa [held] using hcount
  · rw [hlength, h.constructed, List.length_set]
  · intro j c₁ hc₁
    refine forall_replaced ?_ (fun _ => h.placed) hc₁
    intro op' p' hop'
    cases hop'
  · intro j c₁ hc₁
    exact forall_replaced (P := fun _ => Session.Echo) (hgoes.echo (h.echo hc)).2
      (fun _ => h.echo) hc₁
  · intro hin
    obtain ⟨hne, hold⟩ := (huse _).mp hin
    exact hne (h.storage_held hc hop hold).symm

/-- The next operation of session `i` begins. -/
theorem Sound.begin (h : Sound sizes s) (hc : s.sessions[i]? = some c) (hidle : c.operation = none)
    (hfree : ¬ s.store.InUse (.storage i))
    (halloc : s.store.allocate i (sizes.of op) block = some (p, s'.store))
    (hsessions : s'.sessions = s.sessions.set i {c with operation := some (op, p)})
    (hecho : Session.Echo {c with operation := some (op, p)}) : Sound sizes s' := by
  obtain ⟨-, -, -, htakes, hlength, hfits⟩ := Store.allocate_spec h.owes.1 halloc
  have hnew := Store.allocate_storage h.owes.1 halloc hfree
  refine ⟨h.owes.allocate halloc ?_, ?_, ?_, ?_⟩
  · intro q
    have hcount := count_filterMap_set_add hc {c with operation := some (op, p)} Session.pointer q
    simpa [held, hsessions, hidle, Session.pointer] using hcount
  · rw [hlength, h.constructed, hsessions, List.length_set]
  · intro j c₁ hc₁
    rw [hsessions] at hc₁
    refine forall_replaced ?_ (fun _ => h.placed) hc₁
    intro op' p' hop'
    cases hop'
    exact ⟨htakes, hfits, hnew⟩
  · intro j c₁ hc₁
    rw [hsessions] at hc₁
    exact forall_replaced (P := fun _ => Session.Echo) hecho (fun _ => h.echo) hc₁

theorem Sound.step {a : Act} (h : Sound sizes s) (hstep : s.step sizes a = some s') :
    Sound sizes s' := by
  rcases step_cases hstep with ⟨data_, p, block, -, halloc, hsessions⟩ |
    ⟨i, c, op, p, c', next, store, hc, hop, hgoes, hfree, hrest⟩
  · exact h.accept halloc hsessions
  · obtain ⟨hreleased, hunused⟩ := h.release hc hop hgoes hfree
    rcases hrest with ⟨-, rfl⟩ | ⟨op', p', block, rfl, halloc, hsessions⟩
    · exact hreleased
    · obtain ⟨hi, -⟩ := List.getElem?_eq_some_iff.mp hc
      refine hreleased.begin (List.getElem?_set_self hi) rfl hunused halloc ?_ ?_
      · rw [List.set_set]
        exact hsessions
      · exact (hgoes.echo (h.echo hc)).1 p'

theorem Sound.run {as : List Act} (h : Sound sizes s)
    (hrun : runSteps (Server.step sizes) s as = some s') : Sound sizes s' :=
  invariant_run (fun hsound hstep => hsound.step hstep) h hrun

/-- The memory of an operation can be given back. -/
theorem Sound.exists_deallocate (h : Sound sizes s) (hc : s.sessions[i]? = some c)
    (hop : c.operation = some (op, p)) : ∃ store, s.store.deallocate i p = some store := by
  obtain ⟨hi, -⟩ := List.getElem?_eq_some_iff.mp hc
  have hpointer : c.pointer = some p := by rw [Session.pointer, hop, Option.map_some]
  have hmem : p ∈ s.held := List.mem_filterMap.mpr ⟨c, List.mem_of_getElem? hc, hpointer⟩
  exact Store.exists_deallocate h.owes.1 (h.constructed ▸ hi) (h.placed hc op p hop).1
    ((h.owes.mem_iff p).mp hmem)

/-- After an operation the next one can begin. -/
theorem Sound.exists_complete_initiate (h : Sound sizes s) (hc : s.sessions[i]? = some c₀)
    (hop : c₀.operation = some (op, p)) (c : Session) (next : Operation)
    (hblock : block ∉ s.store.heap) :
    ∃ s', ((s.complete i c p).bind fun s => s.initiate sizes i next block) = some s' := by
  obtain ⟨store, hfree⟩ := h.exists_deallocate hc hop
  obtain ⟨hi, -⟩ := List.getElem?_eq_some_iff.mp hc
  have hlength := (Store.deallocate_spec h.owes.1 (h.placed hc op p hop).1 hfree).2.2
  have hfresh : block ∉ store.heap := fun hin => hblock (Store.deallocate_heap hfree hin)
  have hi' : i < store.memories.length := by rw [hlength, h.constructed]; exact hi
  obtain ⟨p', store', halloc⟩ := Store.exists_allocate hi' (sizes.of next) hfresh
  simp only [complete, hfree, Option.map_some, Option.bind_some, initiate,
    List.getElem?_set_self hi, halloc]
  exact ⟨_, rfl⟩

theorem Sound.exists_accept (h : Sound sizes s) (data_ : Buffer) (hblock : block ∉ s.store.heap) :
    ∃ s', s.step sizes (.accept data_ block) = some s' := by
  have hi : s.sessions.length < s.store.construct.memories.length := by
    simp [Store.construct, h.constructed]
  obtain ⟨p, store, halloc⟩ := Store.exists_allocate hi (sizes.of .read_some) hblock
  simp only [Server.step, do_read, initiate, List.getElem?_concat_length, halloc]
  exact ⟨_, rfl⟩

theorem Sound.exists_read (h : Sound sizes s) (hc : s.sessions[i]? = some c)
    (hop : c.operation = some (.read_some, p)) {bytes : List UInt8} (hbytes : bytes ≠ [])
    (hlength : bytes.length ≤ max_length) (hblock : block ∉ s.store.heap) :
    ∃ s', s.step sizes (.read_some i bytes block) = some s' := by
  have hway : s.underway i = some (c, .read_some, p) := by
    simp only [underway, hc, hop, Option.bind_some, Option.map_some]
  simp only [Server.step, hway, if_pos (And.intro hbytes hlength)]
  exact h.exists_complete_initiate hc hop _ _ hblock

theorem Sound.exists_write (h : Sound sizes s) (hc : s.sessions[i]? = some c)
    {offset length k : Nat} (hop : c.operation = some (.write offset length, p)) (hk : 0 < k)
    (hle : offset + k ≤ length) (hblock : block ∉ s.store.heap) :
    ∃ s', s.step sizes (.write_some i k block) = some s' := by
  have hway : s.underway i = some (c, .write offset length, p) := by
    simp only [underway, hc, hop, Option.bind_some, Option.map_some]
  simp only [Server.step, hway, if_pos (And.intro hk hle)]
  split
  · exact h.exists_complete_initiate hc hop _ _ hblock
  · exact h.exists_complete_initiate hc hop _ _ hblock

theorem Sound.exists_fail (h : Sound sizes s) (hc : s.sessions[i]? = some c)
    (hop : c.operation = some (op, p)) : ∃ s', s.step sizes (.fail i) = some s' := by
  have hway : s.underway i = some (c, op, p) := by
    simp only [underway, hc, hop, Option.bind_some, Option.map_some]
  obtain ⟨store, hfree⟩ := h.exists_deallocate hc hop
  simp only [Server.step, hway, complete, hfree, Option.map_some]
  exact ⟨_, rfl⟩

/-- In every run each operation is at an address of its own, in the memory of its session if it
fits there, whose flag says so. The heap holds the operations that do not fit and nothing else,
and what an operation has can be given back when it is over. -/
theorem operations_in_place (sizes : Sizes) (as : List Act) (s : Server)
    (hrun : runSteps (Server.step sizes) start as = some s) :
    s.held.Nodup ∧
      (∀ (i : Nat) (c : Session) (op : Operation) (p : Pointer), s.sessions[i]? = some c →
        c.operation = some (op, p) →
          (p = .storage i ↔ sizes.of op < sizeof_storage) ∧
            ∃ store, s.store.deallocate i p = some store) ∧
      (∀ i : Nat, s.store.memories[i]?.map handler_memory.in_use_ = some true ↔
        ∃ c op, s.sessions[i]? = some c ∧ c.operation = some (op, .storage i)) ∧
      (∀ b : Nat, b ∈ s.store.heap ↔
        ∃ c ∈ s.sessions, ∃ op, c.operation = some (op, .heap b)) ∧
      (sizes.read_some < sizeof_storage → sizes.write_some < sizeof_storage →
        s.store.heap = ∅) := by
  have h : Sound sizes s := (start_sound sizes).run hrun
  have hheap : ∀ b : Nat, b ∈ s.store.heap ↔
      ∃ c ∈ s.sessions, ∃ op, c.operation = some (op, .heap b) := by
    intro b
    have hmem := h.owes.mem_iff (.heap b)
    rw [← show s.store.InUse (.heap b) ↔ b ∈ s.store.heap from Iff.rfl, ← hmem]
    simp [held, Session.pointer]
  refine ⟨h.owes.nodup, ?_, ?_, hheap, ?_⟩
  · intro i c op p hc hop
    exact ⟨(h.placed hc op p hop).2, h.exists_deallocate hc hop⟩
  · intro i
    have hmem := h.owes.mem_iff (.storage i)
    rw [← show s.store.InUse (.storage i) ↔
      s.store.memories[i]?.map handler_memory.in_use_ = some true from Iff.rfl, ← hmem]
    constructor
    · intro hin
      obtain ⟨c, hc, hpointer⟩ := List.mem_filterMap.mp hin
      obtain ⟨⟨op, p⟩, hop, heq⟩ := Option.map_eq_some_iff.mp hpointer
      obtain ⟨j, hj⟩ := List.mem_iff_getElem?.mp hc
      cases heq
      have hij : i = j := (h.placed hj _ _ hop).1
      exact ⟨c, op, hij ▸ hj, hop⟩
    · rintro ⟨c, op, hc, hop⟩
      refine List.mem_filterMap.mpr ⟨c, List.mem_of_getElem? hc, ?_⟩
      rw [Session.pointer, hop, Option.map_some]
  · intro hread hwrite
    refine Finset.eq_empty_of_forall_notMem ?_
    intro b hb
    obtain ⟨c, hc, op, hop⟩ := (hheap b).mp hb
    obtain ⟨i, hi⟩ := List.mem_iff_getElem?.mp hc
    have hfits : sizes.of op < sizeof_storage := by
      cases op with
      | read_some => exact hread
      | write _ _ => exact hwrite
    have hstorage := (h.placed hi op _ hop).2.mpr hfits
    cases hstorage

def blank : Buffer := ⟨List.replicate max_length 0, List.length_replicate⟩

/-- The write does not fit into the memory that the read was in. -/
theorem operations_in_place_one :
    runSteps (Server.step ⟨100, 2000⟩) start [.accept blank 7, .read_some 0 [104] 7] =
        some ⟨⟨[⟨0, false⟩], {7}⟩, [⟨blank.fill [104], some (.write 0 1, .heap 7), [104], []⟩]⟩ ∧
      [Pointer.heap 7].Nodup := by
  have hrun : runSteps (Server.step ⟨100, 2000⟩) start [.accept blank 7, .read_some 0 [104] 7] =
      some ⟨⟨[⟨0, false⟩], {7}⟩, [⟨blank.fill [104], some (.write 0 1, .heap 7), [104], []⟩]⟩ := rfl
  exact ⟨hrun, (operations_in_place _ _ _ hrun).1⟩

/-- In every run of the server, whatever its clients send and whenever an operation fails: what a
session has written is what it has read, in order, and a session that lives is behind by the
bytes that its write still has to do, at most what `data_` holds. -/
theorem echo_in_order (sizes : Sizes) (as : List Act) (s : Server)
    (hrun : runSteps (Server.step sizes) start as = some s) :
    ∀ c ∈ s.sessions, c.sent <+: c.received ∧
      (c.operation.isSome → c.sent ++ c.pending = c.received) ∧ c.pending.length ≤ max_length := by
  intro c hc
  obtain ⟨i, hi⟩ := List.mem_iff_getElem?.mp hc
  have hecho := ((start_sound sizes).run hrun).echo hi
  refine ⟨hecho.sent_first, hecho.sent_pending, ?_⟩
  unfold Session.pending
  split
  case h_1 offset length p hop =>
    rw [Buffer.length_slice c.data_ (hecho.inside hop).2]
    exact Nat.le_trans (Nat.sub_le _ _) (hecho.inside hop).2
  case h_2 => exact Nat.zero_le _

/-- One byte of two is written. -/
theorem echo_in_order_two :
    ∃ s, runSteps (Server.step ⟨100, 100⟩) start
        [.accept blank 7, .read_some 0 [104, 105] 7, .write_some 0 1 7] = some s ∧
      ∀ c ∈ s.sessions, c.sent <+: c.received := by
  obtain ⟨s, hrun⟩ := Option.isSome_iff_exists.mp
    (show (runSteps (Server.step ⟨100, 100⟩) start
      [.accept blank 7, .read_some 0 [104, 105] 7, .write_some 0 1 7]).isSome = true from rfl)
  exact ⟨s, hrun, fun c hc => (echo_in_order _ _ s hrun c hc).1⟩

end Server

end LearningCpp.AsyncEcho
