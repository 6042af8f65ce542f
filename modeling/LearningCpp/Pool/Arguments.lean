import LearningCpp.Pool.Queue

/-!
What `threadpool_add` frees is the argument left in the slot that it reuses. Its owner
was added a whole round of the ring before, and nothing makes the caller wait until it
has returned; in a slot that is used for the first time there is whatever the memory
held.
-/

namespace LearningCpp.Pool

open Library

/-- The task a caller is adding. -/
def Pc.asked : Pc → Option Task
  | .adder (.locking task) | .adder (.testing task) | .adder (.waiting task)
  | .adder (.rejected task) => some task
  | _ => none

/-- The task a worker has taken and that has not returned. -/
def Pc.inHand : Pc → Option Task
  | .worker (.took task) | .worker (.working task) => some task
  | _ => none

def Threadpool.Asks (s : Threadpool) (i : Nat) (task : Task) : Prop :=
  ∃ pc, s.pcs[i]? = some pc ∧ pc.asked = some task

def Threadpool.InHand (s : Threadpool) (i : Nat) (task : Task) : Prop :=
  ∃ pc, s.pcs[i]? = some pc ∧ pc.inHand = some task

/-- Thread `i` is a caller that puts its task into the ring in its next step. -/
def Threadpool.Enqueues (cap : Nat) (s : Threadpool) (i : Nat) : Prop :=
  ∃ task, (s.pcs[i]? = some (.adder (.testing task)) ∧ ¬ s.queue_size = cap ∧ s.shutdown = false) ∨
    s.pcs[i]? = some (.adder (.rejected task))

/-- A slot that is used for the first time is null, and the new task comes less than a
round after every task that was not taken and every task a worker has in hand. -/
def WithinRound (cap : Nat) (s : Threadpool) : Act → Prop
  | .run i _ => s.Enqueues cap i →
      (s.added.length < cap → ∀ old, s.task_queue[s.queue_rear]? = some old → old.arg = 0) ∧
        s.added.length < s.taken.length + cap ∧
          ∀ j task k, s.InHand j task → s.added[k]? = some task → s.added.length < k + cap
  | _ => True

/-- The arguments that callers pass to `threadpool_add`. -/
def args (acts : List Act) : List Nat :=
  acts.filterMap fun
    | .call _ task => some task.arg
    | _ => none

/-- Callers pass a heap argument, each a different one. -/
def DistinctArgs (acts : List Act) : Prop := (args acts).Nodup ∧ 0 ∉ args acts

instance (acts : List Act) : Decidable (DistinctArgs acts) := inferInstanceAs (Decidable (_ ∧ _))

variable {lo hi cap i : Nat} {s s' : Threadpool} {a : Act} {task : Task} {pc q : Pc}

/-- Where arguments are, other than with threads. -/
structure Ledger where
  task_queue : List Task
  queue_rear : Nat
  added : List Task
  taken : List Task
  freed : List Nat

def Threadpool.ledger (s : Threadpool) : Ledger where
  task_queue := s.task_queue
  queue_rear := s.queue_rear
  added := s.added
  taken := s.taken
  freed := s.freed

/-- A step that adds no task and takes none, and after which nobody has a task that he
did not have before. -/
structure Quiet (s s' : Threadpool) : Prop where
  ledger : s'.ledger = s.ledger
  asks : ∀ {i task}, s'.Asks i task → s.Asks i task
  inHand : ∀ {i task}, s'.InHand i task → s.InHand i task

theorem asks_of_set (hpc : s.pcs[i]? = some pc) (hset : s'.pcs = s.pcs.set i q) {j : Nat}
    (h : s'.Asks j task) : (j = i ∧ q.asked = some task) ∨ (j ≠ i ∧ s.Asks j task) := by
  obtain ⟨pc', hpc', htask⟩ := h
  rw [hset] at hpc'
  rcases (Mutex.getElem?_set_of_some hpc j).1 hpc' with ⟨rfl, rfl⟩ | ⟨hne, hold⟩
  · exact Or.inl ⟨rfl, htask⟩
  · exact Or.inr ⟨hne, pc', hold, htask⟩

theorem inHand_of_set (hpc : s.pcs[i]? = some pc) (hset : s'.pcs = s.pcs.set i q) {j : Nat}
    (h : s'.InHand j task) : (j = i ∧ q.inHand = some task) ∨ (j ≠ i ∧ s.InHand j task) := by
  obtain ⟨pc', hpc', htask⟩ := h
  rw [hset] at hpc'
  rcases (Mutex.getElem?_set_of_some hpc j).1 hpc' with ⟨rfl, rfl⟩ | ⟨hne, hold⟩
  · exact Or.inl ⟨rfl, htask⟩
  · exact Or.inr ⟨hne, pc', hold, htask⟩

theorem Quiet.of_pcs (hledger : s'.ledger = s.ledger) (hpcs : s'.pcs = s.pcs) : Quiet s s' where
  ledger := hledger
  asks := fun ⟨pc, hpc, htask⟩ => ⟨pc, hpcs ▸ hpc, htask⟩
  inHand := fun ⟨pc, hpc, htask⟩ => ⟨pc, hpcs ▸ hpc, htask⟩

/-- A thread goes on with the task it has, or with none. -/
theorem Quiet.of_set (hpc : s.pcs[i]? = some pc) (hset : s'.pcs = s.pcs.set i q)
    (hledger : s'.ledger = s.ledger) (hasked : q.asked = pc.asked ∨ q.asked = none)
    (hinHand : q.inHand = pc.inHand ∨ q.inHand = none) : Quiet s s' where
  ledger := hledger
  asks := by
    intro j task h
    rcases asks_of_set hpc hset h with ⟨rfl, htask⟩ | ⟨-, hold⟩
    · rcases hasked with heq | heq
      · exact ⟨pc, hpc, heq ▸ htask⟩
      · rw [heq] at htask
        cases htask
    · exact hold
  inHand := by
    intro j task h
    rcases inHand_of_set hpc hset h with ⟨rfl, htask⟩ | ⟨-, hold⟩
    · rcases hinHand with heq | heq
      · exact ⟨pc, hpc, heq ▸ htask⟩
      · rw [heq] at htask
        cases htask
    · exact hold

/-- A thread that is created has no task. -/
theorem Quiet.create (slot : Nat) : Quiet s (s.create slot) where
  ledger := rfl
  asks := by
    rintro j task ⟨pc, hpc, htask⟩
    rw [Threadpool.create, List.getElem?_append] at hpc
    split at hpc
    · exact ⟨pc, hpc, htask⟩
    · rw [List.getElem?_singleton] at hpc
      split at hpc <;> cases hpc
      cases htask
  inHand := by
    rintro j task ⟨pc, hpc, htask⟩
    rw [Threadpool.create, List.getElem?_append] at hpc
    split at hpc
    · exact ⟨pc, hpc, htask⟩
    · rw [List.getElem?_singleton] at hpc
      split at hpc <;> cases hpc
      cases htask

theorem Quiet.trans {t : Threadpool} (h : Quiet s s') (h' : Quiet s' t) : Quiet s t where
  ledger := h'.ledger.trans h.ledger
  asks := h.asks ∘ h'.asks
  inHand := h.inHand ∘ h'.inHand

/-- The steps, as far as arguments go. -/
inductive ArgumentMove (cap : Nat) (s : Threadpool) : Act → Threadpool → Prop
  | quiet {a : Act} {s' : Threadpool} (hquiet : Quiet s s')
      (hnocall : ∀ i task, a ≠ .call i task) : ArgumentMove cap s a s'
  | call {i : Nat} {task : Task} (hpc : s.pcs[i]? = some (.adder .idle)) :
      ArgumentMove cap s (.call i task) (s.goto i (.adder (.locking task)))
  | enqueue {i : Nat} {alive : Bool} {task : Task} {pc q : Pc} {l : Option Nat}
      {s' : Threadpool} (hpc : s.pcs[i]? = some pc) (hasked : pc.asked = some task)
      (hnew : q.asked = none ∧ q.inHand = none) (henqueues : s.Enqueues cap i)
      (henqueue : ({s.goto i q with lock := l} : Threadpool).enqueue cap task = some s') :
      ArgumentMove cap s (.run i alive) s'
  | take {i : Nat} {alive : Bool} {task : Task} {s' : Threadpool}
      (hpc : s.pcs[i]? = some (.worker .testing)) (hopen : s.shutdown = false)
      (hdequeue : s.dequeue cap = some (task, s')) :
      ArgumentMove cap s (.run i alive) {s'.goto i (.worker (.took task)) with lock := none}

/-- A thread goes on with the task it has, or with none. -/
theorem ArgumentMove.goto (hpc : s.pcs[i]? = some pc) (hset : s'.pcs = s.pcs.set i q)
    (hledger : s'.ledger = s.ledger) (hnocall : ∀ i task, a ≠ .call i task)
    (hasked : q.asked = pc.asked ∨ q.asked = none)
    (hinHand : q.inHand = pc.inHand ∨ q.inHand = none) : ArgumentMove cap s a s' :=
  .quiet (Quiet.of_set hpc hset hledger hasked hinHand) hnocall

theorem Move.argument (h : Move lo hi cap s a s') : ArgumentMove cap s a s' := by
  cases h with
  | call hpc => exact .call hpc
  | add_lock hpc _ => exact .goto hpc rfl rfl nofun (Or.inl rfl) (Or.inl rfl)
  | add_wait hpc _ _ => exact .goto hpc rfl rfl nofun (Or.inl rfl) (Or.inl rfl)
  | add_reject hpc _ => exact .goto hpc rfl rfl nofun (Or.inl rfl) (Or.inl rfl)
  | add_enqueue hpc hroom hopen henqueue =>
      exact .enqueue hpc rfl ⟨rfl, rfl⟩ ⟨_, Or.inl ⟨hpc, hroom, hopen⟩⟩ henqueue
  | add_unlocked hpc henqueue =>
      exact .enqueue (l := s.lock) hpc rfl ⟨rfl, rfl⟩ ⟨_, Or.inr hpc⟩ henqueue
  | work_lock hpc _ => exact .goto hpc rfl rfl nofun (Or.inl rfl) (Or.inl rfl)
  | work_wait hpc _ _ => exact .goto hpc rfl rfl nofun (Or.inl rfl) (Or.inl rfl)
  | work_stop hpc _ => exact .goto hpc rfl rfl nofun (Or.inl rfl) (Or.inl rfl)
  | work_take hpc _ hopen hdequeue => exact .take hpc hopen hdequeue
  | work_relock hpc _ => exact .goto hpc rfl rfl nofun (Or.inl rfl) (Or.inl rfl)
  | work_leave hpc _ _ => exact .goto hpc rfl rfl nofun (Or.inl rfl) (Or.inl rfl)
  | work_stay hpc _ _ => exact .goto hpc rfl rfl nofun (Or.inl rfl) (Or.inl rfl)
  | work_recheck hpc _ => exact .goto hpc rfl rfl nofun (Or.inl rfl) (Or.inl rfl)
  | work_busy hpc => exact .goto hpc rfl rfl nofun (Or.inl rfl) (Or.inl rfl)
  | work_return hpc => exact .goto hpc rfl rfl nofun (Or.inl rfl) (Or.inr rfl)
  | work_idle hpc => exact .goto hpc rfl rfl nofun (Or.inl rfl) (Or.inl rfl)
  | work_left hpc => exact .goto hpc rfl rfl nofun (Or.inl rfl) (Or.inl rfl)
  | work_stopped hpc => exact .goto hpc rfl rfl nofun (Or.inl rfl) (Or.inl rfl)
  | adjust_exit hpc _ => exact .goto hpc rfl rfl nofun (Or.inl rfl) (Or.inl rfl)
  | adjust_sleep hpc => exact .goto hpc rfl rfl nofun (Or.inl rfl) (Or.inl rfl)
  | adjust_count hpc => exact .goto hpc rfl rfl nofun (Or.inl rfl) (Or.inl rfl)
  | adjust_decide hpc => exact .goto hpc rfl rfl nofun (Or.inl rfl) (Or.inl rfl)
  | adjust_lock hpc _ => exact .goto hpc rfl rfl nofun (Or.inl rfl) (Or.inl rfl)
  | adjust_skip hpc => exact .goto hpc rfl rfl nofun (Or.inl rfl) (Or.inl rfl)
  | @adjust_create _ slot _ _ _ _ hpc _ _ _ =>
      exact .quiet ((Quiet.create slot).trans
        (Quiet.of_set (pcs_create hpc slot) rfl rfl (Or.inl rfl) (Or.inl rfl))) nofun
  | adjust_pass hpc _ => exact .goto hpc rfl rfl nofun (Or.inl rfl) (Or.inl rfl)
  | adjust_unlock hpc => exact .goto hpc rfl rfl nofun (Or.inl rfl) (Or.inl rfl)
  | adjust_signal hpc => exact .goto hpc rfl rfl nofun (Or.inl rfl) (Or.inl rfl)
  | adjust_again hpc => exact .goto hpc rfl rfl nofun (Or.inl rfl) (Or.inl rfl)
  | adjust_shrink hpc => exact .goto hpc rfl rfl nofun (Or.inl rfl) (Or.inl rfl)
  | wake_adder hpc => exact .goto hpc rfl rfl nofun (Or.inl rfl) (Or.inl rfl)
  | wake_worker hpc => exact .goto hpc rfl rfl nofun (Or.inl rfl) (Or.inl rfl)
  | shut_down _ => exact .quiet (Quiet.of_pcs rfl rfl) nofun
  | join_adjuster _ _ => exact .quiet (Quiet.of_pcs rfl rfl) nofun
  | broadcast _ => exact .quiet (Quiet.of_pcs rfl rfl) nofun
  | join _ _ => exact .quiet (Quiet.of_pcs rfl rfl) nofun
  | joined _ _ _ _ => exact .quiet (Quiet.of_pcs rfl rfl) nofun
  | free _ _ => exact .quiet (Quiet.of_pcs rfl rfl) nofun

/-- What holds along a run, with the steps that are still to come. -/
structure Owned (cap : Nat) (s : Threadpool) (rest : List Act) : Prop where
  length_queue : s.task_queue.length = cap
  rear : s.queue_rear = s.added.length % cap
  last : HoldsLast s.task_queue s.added
  taken : s.taken <+: s.added
  orderly : s.shutdown = false → Orderly cap s
  inHand : ∀ {i task}, s.InHand i task → task ∈ s.added
  freed : s.freed = (s.added.take (s.added.length - cap)).map Task.arg
  distinct : (s.added.map Task.arg).Nodup
  asked : ∀ {i task}, s.Asks i task → task.arg ∉ s.added.map Task.arg ∧ task.arg ∉ args rest
  alone : ∀ {i j task task'}, s.Asks i task → s.Asks j task' → task.arg = task'.arg → i = j
  future : (args rest).Nodup ∧ ∀ arg ∈ args rest, arg ∉ s.added.map Task.arg
  nonzero : (∀ task ∈ s.added, task.arg ≠ 0) ∧ (∀ {i task}, s.Asks i task → task.arg ≠ 0) ∧
    0 ∉ args rest

variable {rest : List Act} {alive : Bool}

theorem args_cons (hnocall : ∀ i task, a ≠ .call i task) : args (a :: rest) = args rest := by
  cases a with
  | call i task => exact absurd rfl (hnocall i task)
  | _ => rfl

theorem args_call : args (.call i task :: rest) = task.arg :: args rest := rfl

theorem Owned.quiet (h : Owned cap s (a :: rest)) (hquiet : Quiet s s')
    (hnocall : ∀ i task, a ≠ .call i task) (horderly : s'.shutdown = false → Orderly cap s') :
    Owned cap s' rest := by
  have hqueue : s'.task_queue = s.task_queue := congrArg Ledger.task_queue hquiet.ledger
  have hrear : s'.queue_rear = s.queue_rear := congrArg Ledger.queue_rear hquiet.ledger
  have hadded : s'.added = s.added := congrArg Ledger.added hquiet.ledger
  have htaken : s'.taken = s.taken := congrArg Ledger.taken hquiet.ledger
  have hfreed : s'.freed = s.freed := congrArg Ledger.freed hquiet.ledger
  have hargs : args (a :: rest) = args rest := args_cons hnocall
  constructor
  · rw [hqueue]
    exact h.length_queue
  · rw [hrear, hadded]
    exact h.rear
  · rw [hqueue, hadded]
    exact h.last
  · rw [htaken, hadded]
    exact h.taken
  · exact horderly
  · intro i task hhand
    rw [hadded]
    exact h.inHand (hquiet.inHand hhand)
  · rw [hfreed, hadded]
    exact h.freed
  · rw [hadded]
    exact h.distinct
  · intro i task hasks
    rw [hadded, ← hargs]
    exact h.asked (hquiet.asks hasks)
  · exact fun hi hj => h.alone (hquiet.asks hi) (hquiet.asks hj)
  · rw [hadded, ← hargs]
    exact h.future
  · rw [hadded, ← hargs]
    exact ⟨h.nonzero.1, fun hasks => h.nonzero.2.1 (hquiet.asks hasks), h.nonzero.2.2⟩

theorem Owned.call (h : Owned cap s (.call i task :: rest))
    (hpc : s.pcs[i]? = some (.adder .idle))
    (horderly : s.shutdown = false → Orderly cap (s.goto i (.adder (.locking task)))) :
    Owned cap (s.goto i (.adder (.locking task))) rest := by
  have hfuture := h.future
  have hzero := h.nonzero.2.2
  rw [args_call] at hfuture hzero
  obtain ⟨hnew, hnodup⟩ := List.nodup_cons.1 hfuture.1
  have hasks : ∀ {j : Nat} {task' : Task},
      (s.goto i (.adder (.locking task))).Asks j task' →
        (j = i ∧ task = task') ∨ (j ≠ i ∧ s.Asks j task') := by
    intro j task' hj
    exact (asks_of_set hpc rfl hj).imp_left fun ⟨hji, htask⟩ => ⟨hji, Option.some.inj htask⟩
  have hother : ∀ {j : Nat} {task' : Task}, s.Asks j task' → task'.arg ≠ task.arg ∧
      task'.arg ∉ s.added.map Task.arg ∧ task'.arg ∉ args rest := by
    intro j task' hj
    have hasked := h.asked hj
    rw [args_call, List.mem_cons, not_or] at hasked
    exact ⟨hasked.2.1, hasked.1, hasked.2.2⟩
  refine {h with
    orderly := horderly
    inHand := ?_
    asked := ?_
    alone := ?_
    future := ?_
    nonzero := ?_ }
  · intro j task' hhand
    rcases inHand_of_set hpc rfl hhand with ⟨-, hnone⟩ | ⟨-, hold⟩
    · cases hnone
    · exact h.inHand hold
  · intro j task' hj
    rcases hasks hj with ⟨-, rfl⟩ | ⟨-, hold⟩
    · exact ⟨hfuture.2 _ List.mem_cons_self, hnew⟩
    · exact (hother hold).2
  · intro j k task₁ task₂ hj hk heq
    rcases hasks hj with ⟨rfl, rfl⟩ | ⟨-, hold⟩
    · rcases hasks hk with ⟨rfl, -⟩ | ⟨-, hold'⟩
      · rfl
      · exact absurd heq.symm (hother hold').1
    · rcases hasks hk with ⟨rfl, rfl⟩ | ⟨-, hold'⟩
      · exact absurd heq (hother hold).1
      · exact h.alone hold hold' heq
  · exact ⟨hnodup, fun arg harg => hfuture.2 arg (List.mem_cons_of_mem _ harg)⟩
  · refine ⟨h.nonzero.1, ?_, fun hmem => hzero (List.mem_cons_of_mem _ hmem)⟩
    intro j task' hj
    rcases hasks hj with ⟨-, rfl⟩ | ⟨-, hold⟩
    · intro hnull
      exact hzero (hnull ▸ List.mem_cons_self)
    · exact h.nonzero.2.1 hold

/-- What `enqueue` does, with the argument that was in the slot. -/
theorem enqueue_cases (henqueue : s.enqueue cap task = some s') :
    ∃ old, s.task_queue[s.queue_rear]? = some old ∧ s' = {s with
      task_queue := s.task_queue.set s.queue_rear task
      queue_rear := (s.queue_rear + 1) % cap
      queue_size := s.queue_size + 1
      added := s.added ++ [task]
      freed := if old.arg = 0 then s.freed else s.freed ++ [old.arg] } := by
  unfold Threadpool.enqueue at henqueue
  split at henqueue
  · cases henqueue
  · next old hold => exact ⟨old, hold, (Option.some.inj henqueue).symm⟩

/-- The slot at the rear holds the task of a round before, once there is one. -/
theorem Owned.oldest (h : Owned cap s rest) (hpos : 0 < cap) (hround : cap ≤ s.added.length)
    {old : Task} (hold : s.task_queue[s.queue_rear]? = some old) :
    s.added[s.added.length - cap]? = some old := by
  have holdest := h.last.oldest (by rw [h.length_queue]; exact hpos)
    (by rw [h.length_queue]; exact hround)
  rw [h.length_queue, ← h.rear, hold] at holdest
  exact holdest.symm

theorem Owned.enqueue (h : Owned cap s (.run i alive :: rest)) (hpc : s.pcs[i]? = some pc)
    (hasked : pc.asked = some task) (hnew : q.asked = none ∧ q.inHand = none) {lock : Option Nat}
    (henqueue : ({s.goto i q with lock := lock} : Threadpool).enqueue cap task = some s')
    (hnull : s.added.length < cap → ∀ old, s.task_queue[s.queue_rear]? = some old → old.arg = 0)
    (horderly : s'.shutdown = false → Orderly cap s') : Owned cap s' rest := by
  obtain ⟨old, hold, rfl⟩ := enqueue_cases henqueue
  have hlast : s.task_queue[s.queue_rear]? = some old := hold
  have hpos : 0 < cap := by
    obtain ⟨hlt, -⟩ := List.getElem?_eq_some_iff.1 hlast
    rw [h.length_queue] at hlt
    omega
  have hargs : args (.run i alive :: rest) = args rest := rfl
  have hmine := h.asked ⟨pc, hpc, hasked⟩
  rw [hargs] at hmine
  have hasks : ∀ {j : Nat} {task' : Task}, ({s.goto i q with lock := lock} : Threadpool).Asks j task' →
      s.Asks j task' ∧ task'.arg ≠ task.arg := by
    intro j task' hj
    rcases asks_of_set hpc rfl hj with ⟨-, hnone⟩ | ⟨hne, hother⟩
    · rw [hnew.1] at hnone
      cases hnone
    · exact ⟨hother, fun heq => hne (h.alone hother ⟨pc, hpc, hasked⟩ heq)⟩
  constructor
  · simp only [List.length_set]
    exact h.length_queue
  · have hrear := h.rear
    simp only [Threadpool.goto, List.length_append, List.length_singleton]
    rw [hrear, Nat.mod_add_mod]
  · have hpush := h.last.push (by rw [h.length_queue]; exact hpos) task
    rw [h.length_queue, ← h.rear] at hpush
    exact hpush
  · exact h.taken.trans (List.prefix_append _ _)
  · exact horderly
  · intro j task' hhand
    rcases inHand_of_set hpc rfl hhand with ⟨-, hnone⟩ | ⟨-, hother⟩
    · rw [hnew.2] at hnone
      cases hnone
    · exact List.mem_append_left _ (h.inHand hother)
  · have hfreed := h.freed
    simp only [Threadpool.goto, List.length_append, List.length_singleton]
    rcases Nat.lt_or_ge s.added.length cap with hfirst | hround
    · rw [if_pos (hnull hfirst old hlast), hfreed, Nat.sub_eq_zero_of_le hfirst.le,
        Nat.sub_eq_zero_of_le (by omega), List.take_zero, List.take_zero]
    · -- the argument of the task a round before is freed
      have holdest := h.oldest hpos hround hlast
      have hmem := List.mem_of_getElem? holdest
      rw [if_neg (h.nonzero.1 old hmem), hfreed, Nat.sub_add_comm hround,
        List.take_append_of_le_length (by omega), List.take_add_one, holdest, Option.toList_some,
        List.map_append, List.map_singleton]
  · simp only [Threadpool.goto, List.map_append, List.map_singleton]
    exact List.nodup_append.2 ⟨h.distinct, List.nodup_singleton _, by
      intro arg harg arg' harg' heq
      rw [List.mem_singleton.1 harg'] at heq
      exact hmine.1 (heq ▸ harg)⟩
  · intro j task' hj
    obtain ⟨hother, hne⟩ := hasks hj
    have hold := h.asked hother
    rw [hargs] at hold
    simp only [Threadpool.goto, List.map_append, List.map_singleton, List.mem_append,
      List.mem_singleton, not_or]
    exact ⟨⟨hold.1, hne⟩, hold.2⟩
  · exact fun hj hk => h.alone (hasks hj).1 (hasks hk).1
  · refine ⟨h.future.1, ?_⟩
    intro arg harg
    simp only [Threadpool.goto, List.map_append, List.map_singleton, List.mem_append,
      List.mem_singleton, not_or]
    refine ⟨h.future.2 arg harg, ?_⟩
    rintro rfl
    exact hmine.2 harg
  · refine ⟨?_, fun hj => h.nonzero.2.1 (hasks hj).1, h.nonzero.2.2⟩
    intro task' htask'
    rcases List.mem_append.1 htask' with hmem | hmem
    · exact h.nonzero.1 task' hmem
    · rw [List.mem_singleton.1 hmem]
      exact h.nonzero.2.1 ⟨pc, hpc, hasked⟩

theorem Owned.take (h : Owned cap s (.run i alive :: rest))
    (hpc : s.pcs[i]? = some (.worker .testing)) (hdequeue : s.dequeue cap = some (task, s'))
    (horderly : Orderly cap {s'.goto i (.worker (.took task)) with lock := none}) :
    Owned cap {s'.goto i (.worker (.took task)) with lock := none} rest := by
  obtain ⟨-, rfl⟩ := dequeue_eq hdequeue
  obtain ⟨live, hlive⟩ := horderly.queue
  have htaken : s.taken ++ [task] <+: s.added := ⟨live, hlive.added_eq.symm⟩
  have hasks : ∀ {j : Nat} {task' : Task},
      ({s.goto i (.worker (.took task)) with lock := none} : Threadpool).Asks j task' →
        s.Asks j task' := by
    intro j task' hj
    rcases asks_of_set hpc rfl hj with ⟨-, hnone⟩ | ⟨-, hother⟩
    · cases hnone
    · exact hother
  constructor
  · exact h.length_queue
  · exact h.rear
  · exact h.last
  · exact htaken
  · exact fun _ => horderly
  · intro j task' hhand
    rcases inHand_of_set hpc rfl hhand with ⟨-, hmine⟩ | ⟨-, hother⟩
    · rw [← Option.some.inj hmine]
      exact htaken.subset (by simp)
    · exact h.inHand hother
  · exact h.freed
  · exact h.distinct
  · exact fun hj => h.asked (hasks hj)
  · exact fun hj hk => h.alone (hasks hj) (hasks hk)
  · exact h.future
  · exact ⟨h.nonzero.1, fun hj => h.nonzero.2.1 (hasks hj), h.nonzero.2.2⟩

theorem Owned.step (h : Owned cap s (a :: rest)) (hwithin : WithinRound cap s a)
    (hstep : step lo hi cap s a = some s') : Owned cap s' rest := by
  have hmove := (step_move hstep).2
  have horderly : s'.shutdown = false → Orderly cap s' := by
    intro hopen
    have hbefore := hmove.open_before hopen
    refine (h.orderly hbefore).step ?_ hstep
    cases a with
    | run i alive => exact fun _ _ => hbefore
    | _ => trivial
  cases hmove.argument with
  | quiet hquiet hnocall => exact h.quiet hquiet hnocall horderly
  | call hpc => exact h.call hpc horderly
  | enqueue hpc hasked hnew henqueues henqueue =>
      exact h.enqueue hpc hasked hnew henqueue (hwithin henqueues).1 horderly
  | take hpc hopen hdequeue =>
      refine h.take hpc hdequeue (horderly ?_)
      obtain ⟨-, rfl⟩ := dequeue_eq hdequeue
      exact hopen

theorem Created.owned (h : Created lo hi cap s) {acts : List Act} (hargs : DistinctArgs acts) :
    Owned cap s acts := by
  have hpcs {pc : Pc} (hpc : pc ∈ s.pcs) := mem_pcs_of_created h hpc
  have hnothing : ∀ {i : Nat} {task : Task}, ¬ s.Asks i task ∧ ¬ s.InHand i task := by
    intro i task
    constructor
    · rintro ⟨pc, hpc, htask⟩
      rcases hpcs (List.mem_of_getElem? hpc) with rfl | rfl | rfl <;> cases htask
    · rintro ⟨pc, hpc, htask⟩
      rcases hpcs (List.mem_of_getElem? hpc) with rfl | rfl | rfl <;> cases htask
  have horderly := h.orderly
  obtain ⟨callers, task_queue, wait_exit, hcreate⟩ := h
  unfold threadpool_create at hcreate
  split at hcreate
  · have hledger : s.ledger = {
        task_queue := (List.range cap).map task_queue
        queue_rear := 0
        added := []
        taken := []
        freed := [] } := by
      rw [← Option.some.inj hcreate]
      rfl
    have hqueue : s.task_queue = (List.range cap).map task_queue :=
      congrArg Ledger.task_queue hledger
    have hrear : s.queue_rear = 0 := congrArg Ledger.queue_rear hledger
    have hadded : s.added = [] := congrArg Ledger.added hledger
    have htaken : s.taken = [] := congrArg Ledger.taken hledger
    have hfreed : s.freed = [] := congrArg Ledger.freed hledger
    constructor
    · rw [hqueue, List.length_map, List.length_range]
    · rw [hrear, hadded]
      exact (Nat.zero_mod cap).symm
    · rw [hadded]
      intro k x hx
      cases hx
    · rw [htaken, hadded]
    · exact fun _ => horderly
    · exact fun hhand => absurd hhand hnothing.2
    · simp [hfreed, hadded]
    · rw [hadded]
      exact List.nodup_nil
    · exact fun hasks => absurd hasks hnothing.1
    · exact fun hasks => absurd hasks hnothing.1
    · rw [hadded]
      exact ⟨hargs.1, fun _ _ => List.not_mem_nil⟩
    · rw [hadded]
      exact ⟨nofun, fun hasks => absurd hasks hnothing.1, hargs.2⟩
  · cases hcreate

end LearningCpp.Pool
