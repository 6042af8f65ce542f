import LearningCpp.Library.Machine
import LearningCpp.Library.Mutex
import LearningCpp.Library.Ring

/-!
The repository of `produce_consume/04.多生产者-多消费者模型.cpp`, a ring of items
between producers and consumers. A producer holds `produced_item_counter_mtx`,
and a consumer `consumed_item_counter_mtx`, while it waits inside `ProduceItem`
or `ConsumeItem`; `mtx` is given back while it waits.
-/

namespace LearningCpp.Repository

/-- Where a thread is in `ProducerTask`: before it has locked the counter, in
`ProduceItem` before `mtx` is locked, there with `mtx`, there waiting, back from
`ProduceItem`, about to unlock the counter for the last time, at the end. -/
inductive Producer where
  | sleeping
  | locking (item : Nat)
  | testing (item : Nat)
  | waiting (item : Nat)
  | produced
  | ready_to_exit
  | exited
  deriving DecidableEq, Repr

/-- The same places in `ConsumerTask`. -/
inductive Consumer where
  | sleeping
  | locking
  | testing
  | waiting
  | consumed (item : Nat)
  | ready_to_exit
  | exited
  deriving DecidableEq, Repr

inductive Pc where
  | producer (p : Producer)
  | consumer (c : Consumer)
  deriving DecidableEq, Repr

/-- `gItemRepository` and the threads. A locked mutex names its thread. The items
that were stored, and those that `ConsumeItem` has returned, are kept in order. -/
structure ItemRepository where
  item_buffer : List Nat
  read_position : Nat
  write_position : Nat
  produced_item_counter : Nat
  consumed_item_counter : Nat
  mtx : Option Nat
  produced_item_counter_mtx : Option Nat
  consumed_item_counter_mtx : Option Nat
  threads : List Pc
  stored : List Nat
  returned : List Nat
  deriving DecidableEq, Repr

/-- Thread `i` goes on, or it wakes up without having been notified. -/
inductive Act where
  | run (i : Nat)
  | wake (i : Nat)
  deriving DecidableEq, Repr

variable (kItemRepositorySize kItemsToProduce : Nat)

/-- `InitItemRepository`, and the threads when they have been started. -/
def InitItemRepository (producers consumers : Nat) : ItemRepository where
  item_buffer := List.replicate kItemRepositorySize 0
  read_position := 0
  write_position := 0
  produced_item_counter := 0
  consumed_item_counter := 0
  mtx := none
  produced_item_counter_mtx := none
  consumed_item_counter_mtx := none
  threads := List.replicate producers (.producer .sleeping) ++
    List.replicate consumers (.consumer .sleeping)
  stored := []
  returned := []

/-- `repo_not_empty.notify_all()` -/
def Pc.notify_not_empty : Pc → Pc
  | .consumer .waiting => .consumer .locking
  | pc => pc

/-- `repo_not_full.notify_all()` -/
def Pc.notify_not_full : Pc → Pc
  | .producer (.waiting item) => .producer (.locking item)
  | pc => pc

/-- What `ProduceItem` does once it has `mtx`, up to where it gives it back. -/
def ProduceItem (s : ItemRepository) (i item : Nat) : ItemRepository :=
  if (s.write_position + 1) % kItemRepositorySize = s.read_position then
    {s with mtx := none, threads := s.threads.set i (.producer (.waiting item))}
  else
    {s with
      item_buffer := s.item_buffer.set s.write_position item
      write_position :=
        if s.write_position + 1 = kItemRepositorySize then 0 else s.write_position + 1
      mtx := none
      threads := (s.threads.map Pc.notify_not_empty).set i (.producer .produced)
      stored := s.stored ++ [item] }

/-- What `ConsumeItem` does once it has `mtx`. -/
def ConsumeItem (s : ItemRepository) (i : Nat) : Option ItemRepository :=
  if s.write_position = s.read_position then
    some {s with mtx := none, threads := s.threads.set i (.consumer .waiting)}
  else
    match s.item_buffer[s.read_position]? with
    | none => none
    | some data =>
        some {s with
          read_position :=
            if s.read_position + 1 ≥ kItemRepositorySize then 0 else s.read_position + 1
          mtx := none
          threads := (s.threads.map Pc.notify_not_full).set i (.consumer (.consumed data))
          returned := s.returned ++ [data] }

def ProducerTask (s : ItemRepository) (i : Nat) : Producer → Option ItemRepository
  | .sleeping =>
      if s.produced_item_counter_mtx = none then
        if s.produced_item_counter < kItemsToProduce then
          some {s with
            produced_item_counter_mtx := some i
            produced_item_counter := s.produced_item_counter + 1
            threads := s.threads.set i (.producer (.locking (s.produced_item_counter + 1))) }
        else
          some {s with
            produced_item_counter_mtx := some i
            threads := s.threads.set i (.producer .ready_to_exit) }
      else none
  | .locking item =>
      if s.mtx = none then
        some {s with mtx := some i, threads := s.threads.set i (.producer (.testing item))}
      else none
  | .testing item => some (ProduceItem kItemRepositorySize s i item)
  | .waiting _ => none
  | .produced =>
      some {s with
        produced_item_counter_mtx := none
        threads := s.threads.set i (.producer .sleeping) }
  | .ready_to_exit =>
      some {s with
        produced_item_counter_mtx := none
        threads := s.threads.set i (.producer .exited) }
  | .exited => none

def ConsumerTask (s : ItemRepository) (i : Nat) : Consumer → Option ItemRepository
  | .sleeping =>
      if s.consumed_item_counter_mtx = none then
        if s.consumed_item_counter < kItemsToProduce then
          some {s with
            consumed_item_counter_mtx := some i
            threads := s.threads.set i (.consumer .locking) }
        else
          some {s with
            consumed_item_counter_mtx := some i
            threads := s.threads.set i (.consumer .ready_to_exit) }
      else none
  | .locking =>
      if s.mtx = none then
        some {s with mtx := some i, threads := s.threads.set i (.consumer .testing)}
      else none
  | .testing => ConsumeItem kItemRepositorySize s i
  | .waiting => none
  | .consumed _ =>
      some {s with
        consumed_item_counter := s.consumed_item_counter + 1
        consumed_item_counter_mtx := none
        threads := s.threads.set i (.consumer .sleeping) }
  | .ready_to_exit =>
      some {s with
        consumed_item_counter_mtx := none
        threads := s.threads.set i (.consumer .exited) }
  | .exited => none

/-- A thread that waits may wake up at any time. -/
def Pc.wake : Pc → Option Pc
  | .producer (.waiting item) => some (.producer (.locking item))
  | .consumer .waiting => some (.consumer .locking)
  | _ => none

def step (s : ItemRepository) : Act → Option ItemRepository
  | .run i =>
      match s.threads[i]? with
      | none => none
      | some (.producer p) => ProducerTask kItemRepositorySize kItemsToProduce s i p
      | some (.consumer c) => ConsumerTask kItemRepositorySize kItemsToProduce s i c
  | .wake i =>
      match s.threads[i]?.bind Pc.wake with
      | none => none
      | some pc => some {s with threads := s.threads.set i pc}

def Pc.HasExited (pc : Pc) : Prop := pc = .producer .exited ∨ pc = .consumer .exited

instance (pc : Pc) : Decidable pc.HasExited := inferInstanceAs (Decidable (_ ∨ _))

/-- All threads have exited, and `main` returns. -/
def ItemRepository.Final (s : ItemRepository) : Prop := ∀ pc ∈ s.threads, pc.HasExited

/-- The states that the program can get to. -/
def Reachable (producers consumers : Nat) (s : ItemRepository) : Prop :=
  ∃ acts, Library.runSteps (step kItemRepositorySize kItemsToProduce)
    (InitItemRepository kItemRepositorySize producers consumers) acts = some s

end LearningCpp.Repository
