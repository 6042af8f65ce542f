import Mathlib.Tactic
import LearningCpp.Library.Walk
import LearningCpp.Runtime.Memory

/-!
The event loop of `epoll_concurrent/server.c` over what one `epoll_wait` returned.
Upper-casing the bytes of a client counts with the same `i` as the loop over the
events, so that the loop goes on behind as many entries as there were bytes. It
handles every entry once only if the numbers of bytes happen to fit.
-/

namespace LearningCpp.EpollServer

open LearningCpp.Library

def MAXLINE : Nat := 8192

def OPEN_MAX : Nat := 5000

/-- A `struct epoll_event`: whether `EPOLLIN` is among its events, and `data.fd`. -/
structure Event where
  epollin : Bool
  fd : Nat
  deriving DecidableEq, Repr

/-- What the kernel has for the handler of an entry: the descriptor `Accept` returns,
should it be the listener, and what `Read` gets otherwise, `none` for an error. -/
structure Answer where
  connfd : Nat
  read : Option {buf : List UInt8 // buf.length ≤ MAXLINE}
  deriving DecidableEq, Repr

/-- The value of `n` after `Read`. -/
def Answer.n (a : Answer) : Int :=
  match a.read with
  | none => -1
  | some buf => buf.val.length

def Answer.buf (a : Answer) : List UInt8 :=
  match a.read with
  | none => []
  | some buf => buf.val

/-- What one `epoll_wait` returned. The first time an entry is handled there is
something to read; on further times `Read` may block for ever. -/
structure Ready where
  listenfd : Nat
  ep : List Event
  fits : ep.length ≤ OPEN_MAX
  first : Nat → Answer
  again : Nat → Nat → Option Answer

/-- The answer for entry `i` after the entries handled so far. -/
def Ready.answer (r : Ready) (handled : List Nat) (i : Nat) : Option Answer :=
  if handled.count i = 0 then some (r.first i) else r.again i (handled.count i)

/-- What was done for an entry. -/
inductive Action where
  | skipped
  | added (connfd : Nat)
  | closed (sockfd : Nat)
  | dropped (sockfd : Nat)
  | replied (sockfd : Nat) (buf : List UInt8)
  deriving DecidableEq, Repr

/-- The index of the loop, the descriptors on the tree, and the entries handled. -/
structure Server where
  i : Nat
  tree : List Nat
  handled : List (Nat × Action)
  deriving DecidableEq, Repr

def Server.entries (s : Server) : List Nat := s.handled.map Prod.fst

/-- The loop that upper-cases the bytes, with the value of `i` it ends with. -/
def upperLoop : Nat → List UInt8 → List UInt8 × Nat
  | i, [] => ([], i)
  | i, c :: buf => (toupper c :: (upperLoop (i + 1) buf).1, (upperLoop (i + 1) buf).2)

/-- The body of the loop for the entry at `i`, and `i++`. -/
def Server.handle (s : Server) (listenfd : Nat) (e : Event) (a : Answer) : Server :=
  if !e.epollin then
    {s with i := s.i + 1, handled := s.handled ++ [(s.i, .skipped)]}
  else if e.fd = listenfd then
    { i := s.i + 1
      tree := a.connfd :: s.tree
      handled := s.handled ++ [(s.i, .added a.connfd)] }
  else if a.n = 0 then
    { i := s.i + 1
      tree := s.tree.erase e.fd
      handled := s.handled ++ [(s.i, .closed e.fd)] }
  else if a.n < 0 then
    { i := s.i + 1
      tree := s.tree.erase e.fd
      handled := s.handled ++ [(s.i, .dropped e.fd)] }
  else
    -- the inner loop starts at 0 and leaves its count in `i`
    { i := (upperLoop 0 a.buf).2 + 1
      tree := s.tree
      handled := s.handled ++ [(s.i, .replied e.fd (upperLoop 0 a.buf).1)] }

/-- The loop over the events; `none` when it blocks, or has not ended within the fuel. -/
def loop (r : Ready) : Nat → Server → Option Server
  | 0, _ => none
  | fuel + 1, s =>
      match r.ep[s.i]? with
      | none => some s
      | some e =>
          (r.answer s.entries s.i).bind fun a => loop r fuel (s.handle r.listenfd e a)

/-- The server before the loop, with these descriptors on the tree. -/
def start (tree : List Nat) : Server := {i := 0, tree := tree, handled := []}

private theorem upperLoop_eq (i : Nat) (buf : List UInt8) :
    upperLoop i buf = (buf.map toupper, i + buf.length) := by
  induction buf generalizing i with
  | nil => rfl
  | cons c buf ih =>
    simp only [upperLoop, ih, List.map_cons, List.length_cons, Prod.mk.injEq, true_and]
    omega

/-- The index after the entry at `i`: the next one, or the one behind as many entries
as a client sent bytes. -/
def Event.next (e : Event) (listenfd : Nat) (a : Answer) (i : Nat) : Nat :=
  if e.epollin ∧ e.fd ≠ listenfd ∧ a.buf ≠ [] then a.buf.length + 1 else i + 1

/-- The index after entry `i` when it is handled for the first time. -/
def Ready.successor (r : Ready) (i : Nat) : Nat :=
  match r.ep[i]? with
  | none => i + 1
  | some e => e.next r.listenfd (r.first i) i

@[simp]
theorem Server.entries_handle (s : Server) (listenfd : Nat) (e : Event) (a : Answer) :
    (s.handle listenfd e a).entries = s.entries ++ [s.i] := by
  unfold handle
  split_ifs <;> simp [entries]

theorem Server.i_handle (s : Server) (listenfd : Nat) (e : Event) (a : Answer) :
    (s.handle listenfd e a).i = e.next listenfd a s.i := by
  unfold handle Event.next Answer.n Answer.buf
  rw [upperLoop_eq]
  cases hread : a.read with
  | none => split_ifs <;> simp_all
  | some buf =>
    have hn : ¬ (buf.val.length : Int) < 0 := by omega
    split_ifs <;> simp_all

/-- Where the loop goes from entry `i`. -/
def Ready.goesTo (r : Ready) (handled : List Nat) (i : Nat) : Option Nat :=
  match r.ep[i]? with
  | none => some (i + 1)
  | some e => (r.answer handled i).map fun a => e.next r.listenfd a i

theorem Ready.goesTo_of_first (r : Ready) (handled : List Nat) (i : Nat) (h : i ∉ handled) :
    r.goesTo handled i = some (r.successor i) := by
  unfold goesTo successor answer
  rw [if_pos (List.count_eq_zero.2 h)]
  cases r.ep[i]? <;> rfl

theorem loop_walk (r : Ready) (fuel : Nat) (s : Server) :
    (loop r fuel s).map Server.entries = walk r.ep.length r.goesTo fuel s.entries s.i := by
  induction fuel generalizing s with
  | zero => rfl
  | succ fuel ih =>
    unfold loop walk Ready.goesTo
    cases hentry : r.ep[s.i]? with
    | none =>
      rw [if_neg (by simpa using hentry)]
      rfl
    | some e =>
      rw [if_pos (List.getElem?_eq_some_iff.1 hentry).1]
      cases hanswer : r.answer s.entries s.i with
      | none => rfl
      | some a =>
        have hrest := ih (s.handle r.listenfd e a)
        rw [Server.entries_handle, Server.i_handle] at hrest
        exact hrest

/-- The loop handles every entry once exactly when every entry but the first is the
successor of an entry and no entry leads back to itself. Entries that are no client
with data are followed by the next one, a client that sent `n` bytes by entry `n + 1`. -/
theorem loop_handles_each_once_iff (r : Ready) (tree : List Nat) :
    (∃ fuel s, loop r fuel (start tree) = some s ∧
      ∀ i < r.ep.length, s.entries.count i = 1) ↔
      (∀ j, 0 < j → j < r.ep.length → ∃ i < r.ep.length, r.successor i = j) ∧
        ∀ i, ¬ Relation.TransGen (Follows r.successor r.ep.length) i i := by
  rw [← walk_once_iff r.goesTo_of_first]
  constructor
  · rintro ⟨fuel, s, hloop, honce⟩
    have hwalk := loop_walk r fuel (start tree)
    rw [hloop] at hwalk
    exact ⟨fuel, s.entries, hwalk.symm, honce⟩
  · rintro ⟨fuel, final, hwalk, honce⟩
    have hloop : (loop r fuel (start tree)).map Server.entries = some final := by
      rw [loop_walk]
      exact hwalk
    obtain ⟨s, hs, rfl⟩ := Option.map_eq_some_iff.1 hloop
    exact ⟨fuel, s, hs, honce⟩

/-- Two clients are ready and the first has sent five bytes: the second is not handled. -/
theorem loop_skips_second :
    ¬ ∀ (r : Ready) (tree : List Nat), ∃ fuel s, loop r fuel (start tree) = some s ∧
      ∀ i < r.ep.length, s.entries.count i = 1 := by
  intro hall
  obtain ⟨fuel, s, hloop, honce⟩ := hall {
    listenfd := 3
    ep := [⟨true, 5⟩, ⟨true, 6⟩]
    fits := by decide
    first := fun _ => ⟨7, some ⟨[104, 101, 108, 108, 111], by decide⟩⟩
    again := fun _ _ => none } [5, 6, 3]
  rcases fuel with _ | _ | fuel
  · cases hloop
  · cases hloop
  · cases hloop
    exact absurd (honce 1 (by decide)) (by decide)

end LearningCpp.EpollServer
