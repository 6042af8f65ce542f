import LearningCpp.Repository.Termination

/-!
The other programs of `produce_consume`, from `01.单生产者-单消费者模型.cpp` to
`03.多生产者-单消费者模型.cpp`. `ProduceItem` and `ConsumeItem` are the same in all of them; the
tasks differ in how they count. A task that runs in one thread counts in a variable of its
own, and `item_counter` with its mutex belongs to the other side.
-/

namespace LearningCpp.Repository

/-- `ProducerTask` has a `for` loop over its own `i`, or counts in the repository. -/
inductive Producing where
  | for_loop
  | counted
  deriving DecidableEq, Repr

/-- `ConsumerTask` counts an item in its own `cnt` after it has got it, counts it in the
repository, or counts it in its own `item_consumed` before it asks for it. -/
inductive Consuming where
  | after
  | counted
  | before
  deriving DecidableEq, Repr

/-- A program, by its tasks and the number of threads that run them. -/
structure Variant where
  producing : Producing
  consuming : Consuming
  producers : Nat
  consumers : Nat
  one_producer : producing = .for_loop → producers = 1
  one_consumer : consuming ≠ .counted → consumers = 1

namespace Variant

/-- `01.单生产者-单消费者模型.cpp` -/
def singleSingle : Variant := ⟨.for_loop, .after, 1, 1, fun _ => rfl, fun _ => rfl⟩

/-- `02.单生产者-多消费者模型.cpp` -/
def singleMulti : Variant := ⟨.for_loop, .counted, 1, 4, fun _ => rfl, fun h => absurd rfl h⟩

/-- `03.多生产者-单消费者模型.cpp` -/
def multiSingle : Variant := ⟨.counted, .before, 4, 1, nofun, fun _ => rfl⟩

end Variant

/-- The repository with the threads, `i` of `ProducerTask`, and `cnt` or `item_consumed` of
`ConsumerTask`. The `item_counter` of a program is the counter of the side that has it. -/
structure Program where
  repo : ItemRepository
  i : Nat
  cnt : Nat
  deriving DecidableEq, Repr

def Program.goto (s : Program) (t : Nat) (pc : Pc) : Program :=
  {s with repo := {s.repo with threads := s.repo.threads.set t pc}}

namespace Variant

variable (kItemRepositorySize kItemsToProduce : Nat) (m : Variant)

def start : Program where
  repo := InitItemRepository kItemRepositorySize m.producers m.consumers
  i := 1
  cnt := 0

def ProducerTask (s : Program) (t : Nat) (p : Producer) : Option Program :=
  match m.producing, p with
  | .for_loop, .sleeping =>
      if s.i ≤ kItemsToProduce then some (s.goto t (.producer (.locking s.i)))
      else some (s.goto t (.producer .exited))
  | .for_loop, .produced => some {s.goto t (.producer .sleeping) with i := s.i + 1}
  | .for_loop, .ready_to_exit => none
  | _, p =>
      (Repository.ProducerTask kItemRepositorySize kItemsToProduce s.repo t p).map
        fun repo => {s with repo := repo}

def ConsumerTask (s : Program) (t : Nat) (c : Consumer) : Option Program :=
  match m.consuming, c with
  | .after, .sleeping => some (s.goto t (.consumer .locking))
  | .after, .consumed _ =>
      if s.cnt + 1 = kItemsToProduce then
        some {s.goto t (.consumer .exited) with cnt := s.cnt + 1}
      else some {s.goto t (.consumer .sleeping) with cnt := s.cnt + 1}
  | .before, .sleeping =>
      if s.cnt + 1 ≤ kItemsToProduce then
        some {s.goto t (.consumer .locking) with cnt := s.cnt + 1}
      else some {s.goto t (.consumer .exited) with cnt := s.cnt + 1}
  | .before, .consumed _ => some (s.goto t (.consumer .sleeping))
  | .after, .ready_to_exit | .before, .ready_to_exit => none
  | _, c =>
      (Repository.ConsumerTask kItemRepositorySize kItemsToProduce s.repo t c).map
        fun repo => {s with repo := repo}

def step (s : Program) : Act → Option Program
  | .run t =>
      match s.repo.threads[t]? with
      | none => none
      | some (.producer p) => m.ProducerTask kItemRepositorySize kItemsToProduce s t p
      | some (.consumer c) => m.ConsumerTask kItemRepositorySize kItemsToProduce s t c
  | .wake t =>
      (Repository.step kItemRepositorySize kItemsToProduce s.repo (.wake t)).map
        fun repo => {s with repo := repo}

end Variant

end LearningCpp.Repository
