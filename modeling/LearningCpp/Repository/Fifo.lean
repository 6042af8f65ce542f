import LearningCpp.Repository.Model

/-!
The repository is a bounded queue: an invariant ties the positions and the slots
between them to what was stored and returned, and the two counters to the places
of the threads that hold their locks.
-/

namespace LearningCpp.Repository

open Library

/-- The slots from the read position on hold what was stored and not returned. -/
structure Fifo (cap : Nat) (buffer : List Nat) (read write : Nat) (stored returned live : List Nat) :
    Prop where
  length_buffer : buffer.length = cap
  ring : Ring buffer read live
  room : live.length < cap
  stored_eq : stored = returned ++ live
  write_eq : write = (read + live.length) % cap

namespace Fifo

variable {cap read write : Nat} {buffer stored returned live : List Nat}

theorem read_lt (h : Fifo cap buffer read write stored returned live) : read < cap :=
  h.length_buffer ▸ h.ring.front_lt

theorem write_lt (h : Fifo cap buffer read write stored returned live) : write < cap :=
  h.write_eq ▸ Nat.mod_lt _ (Nat.lt_of_le_of_lt (Nat.zero_le _) h.room)

theorem length_stored (h : Fifo cap buffer read write stored returned live) :
    stored.length = returned.length + live.length := by
  rw [h.stored_eq, List.length_append]

theorem full_iff (h : Fifo cap buffer read write stored returned live) :
    (write + 1) % cap = read ↔ live.length + 1 = cap := by
  rw [h.write_eq]
  exact end_succ_eq_front_iff h.read_lt h.room

theorem empty_iff (h : Fifo cap buffer read write stored returned live) :
    write = read ↔ live.length = 0 := by
  rw [h.write_eq]
  exact end_eq_front_iff h.read_lt h.room

theorem store (h : Fifo cap buffer read write stored returned live)
    (hroom : ¬ (write + 1) % cap = read) (item : Nat) :
    Fifo cap (buffer.set write item) read (if write + 1 = cap then 0 else write + 1)
      (stored ++ [item]) returned (live ++ [item]) := by
  have hlive := h.room
  rw [h.full_iff] at hroom
  have hring := h.ring.push (by rw [h.length_buffer]; exact hlive) item
  rw [h.length_buffer, ← h.write_eq] at hring
  refine ⟨by rw [List.length_set]; exact h.length_buffer, hring, ?_, ?_, ?_⟩
  · rw [List.length_append, List.length_singleton]
    omega
  · rw [h.stored_eq, List.append_assoc]
  · rw [wrap_succ h.write_lt, h.write_eq, mod_succ_mod, List.length_append, List.length_singleton]

/-- What is taken is the first item that was stored and not returned. -/
theorem take (h : Fifo cap buffer read write stored returned live) (hitems : ¬ write = read) :
    ∃ data rest, live = data :: rest ∧ buffer[read]? = some data ∧
      Fifo cap buffer (if read + 1 ≥ cap then 0 else read + 1) write stored (returned ++ [data])
        rest := by
  rw [h.empty_iff] at hitems
  cases live with
  | nil => exact absurd rfl hitems
  | cons data rest =>
      have hread := h.read_lt
      have hroom := h.room
      rw [List.length_cons] at hroom
      have hwrap : (if read + 1 ≥ cap then 0 else read + 1) = (read + 1) % cap := by
        rw [← wrap_succ hread]
        split <;> split <;> omega
      have hpop := h.ring.pop
      rw [h.length_buffer, ← hwrap] at hpop
      refine ⟨data, rest, rfl, h.ring.head, h.length_buffer, hpop, by omega, ?_, ?_⟩
      · rw [h.stored_eq, List.append_assoc]
        rfl
      · rw [hwrap, h.write_eq, List.length_cons, Nat.mod_add_mod]
        congr 1
        omega

end Fifo

/-- The places where a thread holds `mtx`. -/
def Pc.HoldsMtx : Pc → Prop
  | .producer (.testing _) | .consumer .testing => True
  | _ => False

/-- The places where a thread holds `produced_item_counter_mtx`. -/
def Pc.HoldsProduced : Pc → Prop
  | .producer .sleeping | .producer .exited | .consumer _ => False
  | .producer _ => True

/-- The places where a thread holds `consumed_item_counter_mtx`. -/
def Pc.HoldsConsumed : Pc → Prop
  | .consumer .sleeping | .consumer .exited | .producer _ => False
  | .consumer _ => True

def Pc.isConsumer : Pc → Bool
  | .producer _ => false
  | .consumer _ => true

/-- Notified threads hold what they held. -/
theorem notify_not_empty_holds (pc : Pc) :
    (pc.notify_not_empty.HoldsMtx ↔ pc.HoldsMtx) ∧
      (pc.notify_not_empty.HoldsProduced ↔ pc.HoldsProduced) ∧
      (pc.notify_not_empty.HoldsConsumed ↔ pc.HoldsConsumed) := by
  cases pc with
  | producer p => exact ⟨Iff.rfl, Iff.rfl, Iff.rfl⟩
  | consumer c => cases c <;> exact ⟨Iff.rfl, Iff.rfl, Iff.rfl⟩

theorem notify_not_full_holds (pc : Pc) :
    (pc.notify_not_full.HoldsMtx ↔ pc.HoldsMtx) ∧
      (pc.notify_not_full.HoldsProduced ↔ pc.HoldsProduced) ∧
      (pc.notify_not_full.HoldsConsumed ↔ pc.HoldsConsumed) := by
  cases pc with
  | producer p => cases p <;> exact ⟨Iff.rfl, Iff.rfl, Iff.rfl⟩
  | consumer c => exact ⟨Iff.rfl, Iff.rfl, Iff.rfl⟩

/-- What the place of a thread says about the counters and about how many items
were stored and returned. Counting comes before storing, but after returning. -/
def Fact (cap goal produced consumed stored returned : Nat) : Pc → Prop
  | .producer .sleeping => True
  | .producer (.locking item) | .producer (.testing item) =>
      item = produced ∧ produced = stored + 1 ∧ produced ≤ goal
  | .producer (.waiting item) =>
      item = produced ∧ produced = stored + 1 ∧ produced ≤ goal ∧ stored + 1 = returned + cap
  | .producer .produced => produced = stored
  | .producer .ready_to_exit => goal ≤ produced ∧ produced = stored
  | .producer .exited => goal ≤ produced
  | .consumer .sleeping => True
  | .consumer .locking | .consumer .testing => consumed < goal ∧ consumed = returned
  | .consumer .waiting => consumed < goal ∧ consumed = returned ∧ stored = returned
  | .consumer (.consumed _) => consumed < goal ∧ consumed + 1 = returned
  | .consumer .ready_to_exit => goal ≤ consumed ∧ consumed = returned
  | .consumer .exited => goal ≤ consumed

section Facts

variable {cap goal produced consumed stored returned : Nat} {pc : Pc}

/-- A producer counts an item, and no other one has the lock. -/
theorem Fact.count_produced (h : Fact cap goal produced consumed stored returned pc)
    (hlock : ¬ pc.HoldsProduced) : Fact cap goal (produced + 1) consumed stored returned pc := by
  cases pc with
  | producer p =>
      cases p with
      | sleeping => trivial
      | exited => exact Nat.le_succ_of_le h
      | _ => exact absurd trivial hlock
  | consumer c => cases c <;> exact h

/-- A producer stores an item, and the waiting consumers are notified. -/
theorem Fact.store (h : Fact cap goal produced consumed stored returned pc)
    (hlock : ¬ pc.HoldsProduced) :
    Fact cap goal produced consumed (stored + 1) returned pc.notify_not_empty := by
  cases pc with
  | producer p =>
      cases p with
      | sleeping => trivial
      | exited => exact h
      | _ => exact absurd trivial hlock
  | consumer c =>
      cases c with
      | waiting => exact ⟨h.1, h.2.1⟩
      | _ => exact h

/-- A consumer takes an item, and the waiting producers are notified. -/
theorem Fact.take (h : Fact cap goal produced consumed stored returned pc)
    (hlock : ¬ pc.HoldsConsumed) :
    Fact cap goal produced consumed stored (returned + 1) pc.notify_not_full := by
  cases pc with
  | producer p =>
      cases p with
      | waiting item => exact ⟨h.1, h.2.1, h.2.2.1⟩
      | _ => exact h
  | consumer c =>
      cases c with
      | sleeping => trivial
      | exited => exact h
      | _ => exact absurd trivial hlock

/-- A consumer counts an item, and no other one has the lock. -/
theorem Fact.count_consumed (h : Fact cap goal produced consumed stored returned pc)
    (hlock : ¬ pc.HoldsConsumed) : Fact cap goal produced (consumed + 1) stored returned pc := by
  cases pc with
  | producer p => cases p <;> exact h
  | consumer c =>
      cases c with
      | sleeping => trivial
      | exited => exact Nat.le_succ_of_le h
      | _ => exact absurd trivial hlock

end Facts

/-- What holds in every state that the program gets to. -/
structure Sound (cap goal : Nat) (s : ItemRepository) : Prop where
  fifo : ∃ live, Fifo cap s.item_buffer s.read_position s.write_position s.stored s.returned live
  items : s.stored = List.range' 1 s.stored.length
  produced_le : s.produced_item_counter ≤ goal
  mtx : Mutex s.threads Pc.HoldsMtx s.mtx
  produced_mtx : Mutex s.threads Pc.HoldsProduced s.produced_item_counter_mtx
  consumed_mtx : Mutex s.threads Pc.HoldsConsumed s.consumed_item_counter_mtx
  fact : ∀ {i : Nat} {pc : Pc}, s.threads[i]? = some pc →
    Fact cap goal s.produced_item_counter s.consumed_item_counter s.stored.length s.returned.length pc
  produced_free : s.produced_item_counter_mtx = none → s.produced_item_counter = s.stored.length
  consumed_free : s.consumed_item_counter_mtx = none → s.consumed_item_counter = s.returned.length

theorem init_sound {cap : Nat} (hcap : 2 ≤ cap) (goal producers consumers : Nat) :
    Sound cap goal (InitItemRepository cap producers consumers) := by
  have hsleeping : ∀ pc ∈ (InitItemRepository cap producers consumers).threads,
      pc = .producer .sleeping ∨ pc = .consumer .sleeping := by
    intro pc hpc
    rcases List.mem_append.mp hpc with h | h
    · exact Or.inl (List.eq_of_mem_replicate h)
    · exact Or.inr (List.eq_of_mem_replicate h)
  have hfree {holding : Pc → Prop} (hp : ¬ holding (.producer .sleeping))
      (hc : ¬ holding (.consumer .sleeping)) :
      Mutex (InitItemRepository cap producers consumers).threads holding none := by
    refine Mutex.free ?_
    intro pc hpc
    rcases hsleeping pc hpc with rfl | rfl
    · exact hp
    · exact hc
  refine {
    fifo := ⟨[], List.length_replicate, Ring.empty ?_, ?_, rfl, ?_⟩
    items := rfl
    produced_le := Nat.zero_le _
    mtx := hfree id id
    produced_mtx := hfree id id
    consumed_mtx := hfree id id
    fact := ?_
    produced_free := fun _ => rfl
    consumed_free := fun _ => rfl }
  · simp only [InitItemRepository, List.length_replicate]
    omega
  · rw [List.length_nil]
    omega
  · exact (Nat.zero_mod cap).symm
  · intro i pc hpc
    rcases hsleeping pc (List.mem_of_getElem? hpc) with rfl | rfl
    · trivial
    · trivial

namespace Sound

variable {cap goal i : Nat} {s : ItemRepository} {pc pc' : Pc}

/-- A thread moves without touching a lock. -/
theorem move (h : Sound cap goal s) (hpc : s.threads[i]? = some pc)
    (hmtx : pc'.HoldsMtx ↔ pc.HoldsMtx) (hproduced : pc'.HoldsProduced ↔ pc.HoldsProduced)
    (hconsumed : pc'.HoldsConsumed ↔ pc.HoldsConsumed)
    (hfact : Fact cap goal s.produced_item_counter s.consumed_item_counter s.stored.length
      s.returned.length pc') : Sound cap goal {s with threads := s.threads.set i pc'} :=
  {h with
    mtx := h.mtx.move hpc hmtx
    produced_mtx := h.produced_mtx.move hpc hproduced
    consumed_mtx := h.consumed_mtx.move hpc hconsumed
    fact := Mutex.forall_set hpc hfact (fun _ hpc₀ => h.fact hpc₀) }

/-- A thread locks `mtx`. -/
theorem lock_mtx (h : Sound cap goal s) (hpc : s.threads[i]? = some pc) (hfree : s.mtx = none)
    (hmtx : pc'.HoldsMtx) (hproduced : pc'.HoldsProduced ↔ pc.HoldsProduced)
    (hconsumed : pc'.HoldsConsumed ↔ pc.HoldsConsumed)
    (hfact : Fact cap goal s.produced_item_counter s.consumed_item_counter s.stored.length
      s.returned.length pc') :
    Sound cap goal {s with mtx := some i, threads := s.threads.set i pc'} :=
  {h with
    mtx := h.mtx.acquire hfree hpc hmtx
    produced_mtx := h.produced_mtx.move hpc hproduced
    consumed_mtx := h.consumed_mtx.move hpc hconsumed
    fact := Mutex.forall_set hpc hfact (fun _ hpc₀ => h.fact hpc₀) }

/-- A thread gives `mtx` back to wait. -/
theorem wait (h : Sound cap goal s) (hpc : s.threads[i]? = some pc) (hmtx : pc.HoldsMtx)
    (hmtx' : ¬ pc'.HoldsMtx) (hproduced : pc'.HoldsProduced ↔ pc.HoldsProduced)
    (hconsumed : pc'.HoldsConsumed ↔ pc.HoldsConsumed)
    (hfact : Fact cap goal s.produced_item_counter s.consumed_item_counter s.stored.length
      s.returned.length pc') :
    Sound cap goal {s with mtx := none, threads := s.threads.set i pc'} :=
  {h with
    mtx := h.mtx.release hpc hmtx hmtx'
    produced_mtx := h.produced_mtx.move hpc hproduced
    consumed_mtx := h.consumed_mtx.move hpc hconsumed
    fact := Mutex.forall_set hpc hfact (fun _ hpc₀ => h.fact hpc₀) }

/-- A producer finds that all items are counted. -/
theorem lock_produced (h : Sound cap goal s) (hpc : s.threads[i]? = some (.producer .sleeping))
    (hfree : s.produced_item_counter_mtx = none) (hdone : ¬ s.produced_item_counter < goal) :
    Sound cap goal {s with
      produced_item_counter_mtx := some i
      threads := s.threads.set i (.producer .ready_to_exit) } :=
  {h with
    mtx := h.mtx.move hpc Iff.rfl
    produced_mtx := h.produced_mtx.acquire hfree hpc trivial
    consumed_mtx := h.consumed_mtx.move hpc Iff.rfl
    fact := Mutex.forall_set hpc ⟨Nat.le_of_not_lt hdone, h.produced_free hfree⟩
      (fun _ hpc₀ => h.fact hpc₀)
    produced_free := nofun }

/-- A producer counts the item that it is going to store. -/
theorem count_produced (h : Sound cap goal s) (hpc : s.threads[i]? = some (.producer .sleeping))
    (hfree : s.produced_item_counter_mtx = none) (hmore : s.produced_item_counter < goal) :
    Sound cap goal {s with
      produced_item_counter_mtx := some i
      produced_item_counter := s.produced_item_counter + 1
      threads := s.threads.set i (.producer (.locking (s.produced_item_counter + 1))) } := by
  exact {h with
    produced_le := hmore
    mtx := h.mtx.move hpc Iff.rfl
    produced_mtx := h.produced_mtx.acquire hfree hpc trivial
    consumed_mtx := h.consumed_mtx.move hpc Iff.rfl
    fact := Mutex.forall_set hpc ⟨rfl, congrArg (· + 1) (h.produced_free hfree), hmore⟩
      (fun _ hpc₀ => (h.fact hpc₀).count_produced
        (h.produced_mtx.not_holding_of_free hfree hpc₀))
    produced_free := nofun }

/-- A producer gives the counter back, all counted items being stored. -/
theorem unlock_produced (h : Sound cap goal s) (hpc : s.threads[i]? = some pc)
    (hold : pc.HoldsProduced) (hnew : ¬ pc'.HoldsProduced) (hmtx : pc'.HoldsMtx ↔ pc.HoldsMtx)
    (hconsumed : pc'.HoldsConsumed ↔ pc.HoldsConsumed)
    (hstored : s.produced_item_counter = s.stored.length)
    (hfact : Fact cap goal s.produced_item_counter s.consumed_item_counter s.stored.length
      s.returned.length pc') :
    Sound cap goal {s with produced_item_counter_mtx := none, threads := s.threads.set i pc'} :=
  {h with
    mtx := h.mtx.move hpc hmtx
    produced_mtx := h.produced_mtx.release hpc hold hnew
    consumed_mtx := h.consumed_mtx.move hpc hconsumed
    fact := Mutex.forall_set hpc hfact (fun _ hpc₀ => h.fact hpc₀)
    produced_free := fun _ => hstored }

/-- A consumer locks the counter. -/
theorem lock_consumed (h : Sound cap goal s) (hpc : s.threads[i]? = some (.consumer .sleeping))
    (hfree : s.consumed_item_counter_mtx = none) (hnew : pc'.HoldsConsumed) (hmtx : ¬ pc'.HoldsMtx)
    (hproduced : ¬ pc'.HoldsProduced)
    (hfact : Fact cap goal s.produced_item_counter s.consumed_item_counter s.stored.length
      s.returned.length pc') :
    Sound cap goal {s with consumed_item_counter_mtx := some i, threads := s.threads.set i pc'} :=
  {h with
    mtx := h.mtx.move hpc (iff_of_false hmtx id)
    produced_mtx := h.produced_mtx.move hpc (iff_of_false hproduced id)
    consumed_mtx := h.consumed_mtx.acquire hfree hpc hnew
    fact := Mutex.forall_set hpc hfact (fun _ hpc₀ => h.fact hpc₀)
    consumed_free := nofun }

/-- A consumer has counted its item. -/
theorem count_consumed (h : Sound cap goal s) {item : Nat}
    (hpc : s.threads[i]? = some (.consumer (.consumed item))) :
    Sound cap goal {s with
      consumed_item_counter := s.consumed_item_counter + 1
      consumed_item_counter_mtx := none
      threads := s.threads.set i (.consumer .sleeping) } := by
  have hfact := h.fact hpc
  exact {h with
    mtx := h.mtx.move hpc Iff.rfl
    produced_mtx := h.produced_mtx.move hpc Iff.rfl
    consumed_mtx := h.consumed_mtx.release hpc trivial id
    fact := Mutex.forall_set hpc trivial (fun hne hpc₀ => (h.fact hpc₀).count_consumed
      (h.consumed_mtx.not_holding_of_ne hpc trivial hpc₀ hne.symm))
    consumed_free := fun _ => hfact.2 }

/-- A consumer leaves for good. -/
theorem unlock_consumed (h : Sound cap goal s)
    (hpc : s.threads[i]? = some (.consumer .ready_to_exit)) :
    Sound cap goal {s with
      consumed_item_counter_mtx := none
      threads := s.threads.set i (.consumer .exited) } := by
  have hfact := h.fact hpc
  exact {h with
    mtx := h.mtx.move hpc Iff.rfl
    produced_mtx := h.produced_mtx.move hpc Iff.rfl
    consumed_mtx := h.consumed_mtx.release hpc trivial id
    fact := Mutex.forall_set hpc hfact.1 (fun _ hpc₀ => h.fact hpc₀)
    consumed_free := fun _ => hfact.2 }

private theorem ProduceItem_sound (h : Sound cap goal s) {item : Nat}
    (hpc : s.threads[i]? = some (.producer (.testing item))) :
    Sound cap goal (ProduceItem cap s i item) := by
  obtain ⟨live, hfifo⟩ := h.fifo
  have hfact := h.fact hpc
  unfold ProduceItem
  split
  · next hfull =>
    refine h.wait hpc trivial id Iff.rfl Iff.rfl ⟨hfact.1, hfact.2.1, hfact.2.2, ?_⟩
    rw [hfifo.full_iff] at hfull
    have hstored := hfifo.length_stored
    omega
  · next hroom =>
    have hlength : (s.stored ++ [item]).length = s.stored.length + 1 := by
      rw [List.length_append, List.length_singleton]
    have hpc' : (s.threads.map Pc.notify_not_empty)[i]? = some (.producer (.testing item)) := by
      rw [List.getElem?_map, hpc]
      rfl
    refine {
      fifo := ⟨live ++ [item], hfifo.store hroom item⟩
      items := ?_
      produced_le := h.produced_le
      mtx := (h.mtx.map (fun pc => (notify_not_empty_holds pc).1)).release hpc' trivial id
      produced_mtx := (h.produced_mtx.map (fun pc => (notify_not_empty_holds pc).2.1)).move hpc' Iff.rfl
      consumed_mtx := (h.consumed_mtx.map (fun pc => (notify_not_empty_holds pc).2.2)).move hpc' Iff.rfl
      fact := ?_
      produced_free := ?_
      consumed_free := h.consumed_free }
    · simp only [hlength]
      rw [List.range'_1_concat, ← h.items, hfact.1, hfact.2.1, Nat.add_comm]
    · simp only [hlength]
      refine Mutex.forall_set hpc' hfact.2.1 ?_
      intro j pc₀ hne hpc₀
      rw [List.getElem?_map, Option.map_eq_some_iff] at hpc₀
      obtain ⟨pc, hold, rfl⟩ := hpc₀
      exact (h.fact hold).store (h.produced_mtx.not_holding_of_ne hpc trivial hold hne.symm)
    · intro hfree
      rw [h.produced_mtx.held hpc trivial] at hfree
      cases hfree

private theorem ConsumeItem_sound (h : Sound cap goal s) {s' : ItemRepository}
    (hpc : s.threads[i]? = some (.consumer .testing)) (hconsume : ConsumeItem cap s i = some s') :
    Sound cap goal s' := by
  obtain ⟨live, hfifo⟩ := h.fifo
  have hfact := h.fact hpc
  unfold ConsumeItem at hconsume
  split at hconsume
  · next hempty =>
    rw [← Option.some.inj hconsume]
    refine h.wait hpc trivial id Iff.rfl Iff.rfl ⟨hfact.1, hfact.2, ?_⟩
    rw [hfifo.empty_iff] at hempty
    have hstored := hfifo.length_stored
    omega
  · next hitems =>
    obtain ⟨data, rest, -, hdata, hrest⟩ := hfifo.take hitems
    rw [hdata] at hconsume
    rw [← Option.some.inj hconsume]
    have hlength : (s.returned ++ [data]).length = s.returned.length + 1 := by
      rw [List.length_append, List.length_singleton]
    have hpc' : (s.threads.map Pc.notify_not_full)[i]? = some (.consumer .testing) := by
      rw [List.getElem?_map, hpc]
      rfl
    refine {
      fifo := ⟨rest, hrest⟩
      items := h.items
      produced_le := h.produced_le
      mtx := (h.mtx.map (fun pc => (notify_not_full_holds pc).1)).release hpc' trivial id
      produced_mtx := (h.produced_mtx.map (fun pc => (notify_not_full_holds pc).2.1)).move hpc' Iff.rfl
      consumed_mtx := (h.consumed_mtx.map (fun pc => (notify_not_full_holds pc).2.2)).move hpc' Iff.rfl
      fact := ?_
      produced_free := h.produced_free
      consumed_free := ?_ }
    · simp only [hlength]
      refine Mutex.forall_set hpc' ⟨hfact.1, congrArg (· + 1) hfact.2⟩ ?_
      intro j pc₀ hne hpc₀
      rw [List.getElem?_map, Option.map_eq_some_iff] at hpc₀
      obtain ⟨pc, hold, rfl⟩ := hpc₀
      exact (h.fact hold).take (h.consumed_mtx.not_holding_of_ne hpc trivial hold hne.symm)
    · intro hfree
      rw [h.consumed_mtx.held hpc trivial] at hfree
      cases hfree

private theorem ProducerTask_sound (h : Sound cap goal s) {p : Producer} {s' : ItemRepository}
    (hpc : s.threads[i]? = some (.producer p)) (hstep : ProducerTask cap goal s i p = some s') :
    Sound cap goal s' := by
  have hfact := h.fact hpc
  cases p with
  | sleeping =>
      simp only [ProducerTask] at hstep
      split at hstep
      · next hfree =>
        split at hstep
        · next hmore => exact Option.some.inj hstep ▸ h.count_produced hpc hfree hmore
        · next hdone => exact Option.some.inj hstep ▸ h.lock_produced hpc hfree hdone
      · cases hstep
  | locking item =>
      simp only [ProducerTask] at hstep
      split at hstep
      · next hfree =>
        exact Option.some.inj hstep ▸ h.lock_mtx hpc hfree trivial Iff.rfl Iff.rfl hfact
      · cases hstep
  | testing item => exact Option.some.inj hstep ▸ h.ProduceItem_sound hpc
  | waiting item => cases hstep
  | produced =>
      exact Option.some.inj hstep ▸ h.unlock_produced hpc trivial id Iff.rfl Iff.rfl hfact trivial
  | ready_to_exit =>
      exact Option.some.inj hstep ▸
        h.unlock_produced hpc trivial id Iff.rfl Iff.rfl hfact.2 hfact.1
  | exited => cases hstep

private theorem ConsumerTask_sound (h : Sound cap goal s) {c : Consumer} {s' : ItemRepository}
    (hpc : s.threads[i]? = some (.consumer c)) (hstep : ConsumerTask cap goal s i c = some s') :
    Sound cap goal s' := by
  have hfact := h.fact hpc
  cases c with
  | sleeping =>
      simp only [ConsumerTask] at hstep
      split at hstep
      · next hfree =>
        have hreturned := h.consumed_free hfree
        split at hstep
        · next hmore =>
          exact Option.some.inj hstep ▸
            h.lock_consumed hpc hfree trivial id id ⟨hmore, hreturned⟩
        · next hdone =>
          exact Option.some.inj hstep ▸
            h.lock_consumed hpc hfree trivial id id ⟨Nat.le_of_not_lt hdone, hreturned⟩
      · cases hstep
  | locking =>
      simp only [ConsumerTask] at hstep
      split at hstep
      · next hfree =>
        exact Option.some.inj hstep ▸ h.lock_mtx hpc hfree trivial Iff.rfl Iff.rfl hfact
      · cases hstep
  | testing => exact h.ConsumeItem_sound hpc hstep
  | waiting => cases hstep
  | consumed item => exact Option.some.inj hstep ▸ h.count_consumed hpc
  | ready_to_exit => exact Option.some.inj hstep ▸ h.unlock_consumed hpc
  | exited => cases hstep

theorem wake_sound (h : Sound cap goal s) (hpc : s.threads[i]? = some pc) (hwake : pc.wake = some pc') :
    Sound cap goal {s with threads := s.threads.set i pc'} := by
  have hfact := h.fact hpc
  cases pc with
  | producer p =>
      cases p with
      | waiting item =>
          cases hwake
          exact h.move hpc Iff.rfl Iff.rfl Iff.rfl ⟨hfact.1, hfact.2.1, hfact.2.2.1⟩
      | _ => cases hwake
  | consumer c =>
      cases c with
      | waiting =>
          cases hwake
          exact h.move hpc Iff.rfl Iff.rfl Iff.rfl ⟨hfact.1, hfact.2.1⟩
      | _ => cases hwake

protected theorem step (h : Sound cap goal s) {a : Act} {s' : ItemRepository}
    (hstep : step cap goal s a = some s') : Sound cap goal s' := by
  cases a with
  | run i =>
      simp only [Repository.step] at hstep
      split at hstep
      · cases hstep
      · next p hpc => exact h.ProducerTask_sound hpc hstep
      · next c hpc => exact h.ConsumerTask_sound hpc hstep
  | wake i =>
      simp only [Repository.step] at hstep
      split at hstep
      · cases hstep
      · next pc' hpc' =>
        obtain ⟨pc, hpc, hwake⟩ := Option.bind_eq_some_iff.mp hpc'
        exact Option.some.inj hstep ▸ h.wake_sound hpc hwake

end Sound

theorem Reachable.sound {cap goal producers consumers : Nat} {s : ItemRepository}
    (h : Reachable cap goal producers consumers s) (hcap : 2 ≤ cap) : Sound cap goal s := by
  obtain ⟨acts, hrun⟩ := h
  exact invariant_run (fun hs hstep => Sound.step hs hstep) (init_sound hcap goal producers consumers) hrun

/-- Threads stay what they are when one of them moves. -/
theorem kinds_set {threads : List Pc} {i : Nat} {pc pc' : Pc} (hpc : threads[i]? = some pc)
    (hkind : pc'.isConsumer = pc.isConsumer) :
    (threads.set i pc').map Pc.isConsumer = threads.map Pc.isConsumer := by
  obtain ⟨hi, rfl⟩ := List.getElem?_eq_some_iff.mp hpc
  rw [List.map_set, hkind]
  conv_rhs => rw [← List.set_getElem_self hi, List.map_set]

theorem kinds_set_map {threads : List Pc} {i : Nat} {pc pc' : Pc} {f : Pc → Pc}
    (hpc : threads[i]? = some pc) (hf : ∀ pc, (f pc).isConsumer = pc.isConsumer)
    (hkind : pc'.isConsumer = pc.isConsumer) :
    ((threads.map f).set i pc').map Pc.isConsumer = threads.map Pc.isConsumer := by
  have hpc' : (threads.map f)[i]? = some (f pc) := by rw [List.getElem?_map, hpc, Option.map_some]
  rw [kinds_set hpc' (hkind.trans (hf pc).symm), List.map_map]
  exact List.map_congr_left (fun pc _ => hf pc)

theorem notify_not_empty_kind (pc : Pc) : pc.notify_not_empty.isConsumer = pc.isConsumer := by
  cases pc with
  | producer p => rfl
  | consumer c => cases c <;> rfl

private theorem notify_not_full_kind (pc : Pc) : pc.notify_not_full.isConsumer = pc.isConsumer := by
  cases pc with
  | producer p => cases p <;> rfl
  | consumer c => rfl

private theorem ProducerTask_kinds {cap goal i : Nat} {s s' : ItemRepository} {p : Producer}
    (hpc : s.threads[i]? = some (.producer p)) (hstep : ProducerTask cap goal s i p = some s') :
    s'.threads.map Pc.isConsumer = s.threads.map Pc.isConsumer := by
  cases p with
  | sleeping =>
      simp only [ProducerTask] at hstep
      split at hstep
      · split at hstep <;> exact Option.some.inj hstep ▸ kinds_set hpc rfl
      · cases hstep
  | locking item =>
      simp only [ProducerTask] at hstep
      split at hstep
      · exact Option.some.inj hstep ▸ kinds_set hpc rfl
      · cases hstep
  | testing item =>
      rw [← Option.some.inj hstep, ProduceItem]
      split
      · exact kinds_set hpc rfl
      · exact kinds_set_map hpc notify_not_empty_kind rfl
  | waiting item => cases hstep
  | produced => exact Option.some.inj hstep ▸ kinds_set hpc rfl
  | ready_to_exit => exact Option.some.inj hstep ▸ kinds_set hpc rfl
  | exited => cases hstep

private theorem ConsumerTask_kinds {cap goal i : Nat} {s s' : ItemRepository} {c : Consumer}
    (hpc : s.threads[i]? = some (.consumer c)) (hstep : ConsumerTask cap goal s i c = some s') :
    s'.threads.map Pc.isConsumer = s.threads.map Pc.isConsumer := by
  cases c with
  | sleeping =>
      simp only [ConsumerTask] at hstep
      split at hstep
      · split at hstep <;> exact Option.some.inj hstep ▸ kinds_set hpc rfl
      · cases hstep
  | locking =>
      simp only [ConsumerTask] at hstep
      split at hstep
      · exact Option.some.inj hstep ▸ kinds_set hpc rfl
      · cases hstep
  | testing =>
      simp only [ConsumerTask, ConsumeItem] at hstep
      split at hstep
      · exact Option.some.inj hstep ▸ kinds_set hpc rfl
      · split at hstep
        · cases hstep
        · exact Option.some.inj hstep ▸ kinds_set_map hpc notify_not_full_kind rfl
  | waiting => cases hstep
  | consumed item => exact Option.some.inj hstep ▸ kinds_set hpc rfl
  | ready_to_exit => exact Option.some.inj hstep ▸ kinds_set hpc rfl
  | exited => cases hstep

theorem step_kinds {cap goal : Nat} {s s' : ItemRepository} {a : Act}
    (hstep : step cap goal s a = some s') :
    s'.threads.map Pc.isConsumer = s.threads.map Pc.isConsumer := by
  cases a with
  | run i =>
      simp only [step] at hstep
      split at hstep
      · cases hstep
      · next p hpc => exact ProducerTask_kinds hpc hstep
      · next c hpc => exact ConsumerTask_kinds hpc hstep
  | wake i =>
      simp only [step] at hstep
      split at hstep
      · cases hstep
      · next pc' hpc' =>
        obtain ⟨pc, hpc, hwake⟩ := Option.bind_eq_some_iff.mp hpc'
        rw [← Option.some.inj hstep]
        refine kinds_set hpc ?_
        cases pc with
        | producer p => cases p <;> cases hwake; rfl
        | consumer c => cases c <;> cases hwake; rfl

namespace Reachable

variable {cap goal producers consumers : Nat} {s : ItemRepository}

theorem kinds (h : Reachable cap goal producers consumers s) :
    s.threads.map Pc.isConsumer = List.replicate producers false ++ List.replicate consumers true := by
  obtain ⟨acts, hrun⟩ := h
  refine invariant_run (I := fun s => s.threads.map Pc.isConsumer =
    List.replicate producers false ++ List.replicate consumers true)
    (fun hs hstep => (step_kinds hstep).trans hs) ?_ hrun
  rw [InitItemRepository, List.map_append, List.map_replicate, List.map_replicate]
  rfl

/-- A thread of a kind that was started is there. -/
theorem exists_kind (h : Reachable cap goal producers consumers s) {kind : Bool}
    (hkind : kind ∈ List.replicate producers false ++ List.replicate consumers true) :
    ∃ (i : Nat) (pc : Pc), s.threads[i]? = some pc ∧ pc.isConsumer = kind := by
  rw [← h.kinds] at hkind
  obtain ⟨pc, hpc, hkind⟩ := List.mem_map.mp hkind
  obtain ⟨i, hi⟩ := List.mem_iff_getElem?.mp hpc
  exact ⟨i, pc, hi, hkind⟩

theorem exists_producer (h : Reachable cap goal producers consumers s) (hpos : 0 < producers) :
    ∃ (i : Nat) (p : Producer), s.threads[i]? = some (.producer p) := by
  have hstarted : false ∈ List.replicate producers false :=
    List.mem_replicate.mpr ⟨Nat.ne_of_gt hpos, rfl⟩
  obtain ⟨i, pc, hi, hkind⟩ := h.exists_kind (List.mem_append_left _ hstarted)
  cases pc with
  | producer p => exact ⟨i, p, hi⟩
  | consumer c => cases hkind

theorem exists_consumer (h : Reachable cap goal producers consumers s) (hpos : 0 < consumers) :
    ∃ (i : Nat) (c : Consumer), s.threads[i]? = some (.consumer c) := by
  have hstarted : true ∈ List.replicate consumers true :=
    List.mem_replicate.mpr ⟨Nat.ne_of_gt hpos, rfl⟩
  obtain ⟨i, pc, hi, hkind⟩ := h.exists_kind (List.mem_append_right _ hstarted)
  cases pc with
  | producer p => cases hkind
  | consumer c => exact ⟨i, c, hi⟩

end Reachable

namespace Sound

variable {cap goal i : Nat} {s : ItemRepository} {pc : Pc}

/-- What is returned is counted at once, before the lock is given back. -/
theorem consumed_le (h : Sound cap goal s) : s.consumed_item_counter ≤ s.returned.length := by
  cases hlock : s.consumed_item_counter_mtx with
  | none => exact Nat.le_of_eq (h.consumed_free hlock)
  | some i =>
      obtain ⟨pc, hpc, hholding⟩ := h.consumed_mtx.holder hlock
      have hfact := h.fact hpc
      cases pc with
      | producer p => cases hholding
      | consumer c =>
          cases c with
          | sleeping => cases hholding
          | exited => cases hholding
          | locking => exact Nat.le_of_eq hfact.2
          | testing => exact Nat.le_of_eq hfact.2
          | waiting => exact Nat.le_of_eq hfact.2.1
          | consumed item => exact hfact.2 ▸ Nat.le_succ _
          | ready_to_exit => exact Nat.le_of_eq hfact.2

/-- What is stored has been counted before. -/
theorem stored_le (h : Sound cap goal s) : s.stored.length ≤ s.produced_item_counter := by
  cases hlock : s.produced_item_counter_mtx with
  | none => exact Nat.le_of_eq (h.produced_free hlock).symm
  | some i =>
      obtain ⟨pc, hpc, hholding⟩ := h.produced_mtx.holder hlock
      have hfact := h.fact hpc
      cases pc with
      | consumer c => cases hholding
      | producer p =>
          cases p with
          | sleeping => cases hholding
          | exited => cases hholding
          | locking item => exact hfact.2.1 ▸ Nat.le_succ _
          | testing item => exact hfact.2.1 ▸ Nat.le_succ _
          | waiting item => exact hfact.2.1 ▸ Nat.le_succ _
          | produced => exact Nat.le_of_eq hfact.symm
          | ready_to_exit => exact Nat.le_of_eq hfact.2.symm

/-- Once a consumer has exited, all items were returned. -/
theorem returned_all (h : Sound cap goal s) (hpc : s.threads[i]? = some (.consumer .exited)) :
    s.returned = List.range' 1 goal := by
  obtain ⟨live, hfifo⟩ := h.fifo
  have hgoal : goal ≤ s.consumed_item_counter := h.fact hpc
  have hconsumed := h.consumed_le
  have hstored := h.stored_le
  have hproduced := h.produced_le
  have hlength := hfifo.length_stored
  have hlive : live = [] := List.eq_nil_of_length_eq_zero (by omega)
  have hall := h.items
  rw [hfifo.stored_eq, hlive, List.append_nil] at hall
  rw [hall]
  congr 1
  omega

/-- When all have exited the consumers have got every item. -/
theorem returned_of_final (h : Sound cap goal s) {c : Consumer}
    (hconsumer : s.threads[i]? = some (.consumer c)) (hfinal : s.Final) :
    s.returned = List.range' 1 goal := by
  rcases hfinal _ (List.mem_of_getElem? hconsumer) with hexited | hexited
  · cases hexited
  · exact h.returned_all (hexited ▸ hconsumer)

end Sound

/-- In every state that is reached, the repository is a bounded queue; and when the
program ends and there was a consumer, each item was consumed exactly once. -/
theorem bounded_fifo (cap goal producers consumers : Nat) (s : ItemRepository) (hcap : 2 ≤ cap)
    (h : Reachable cap goal producers consumers s) :
    s.read_position < cap ∧ s.write_position < cap ∧
      s.stored.length ≤ s.returned.length + (cap - 1) ∧ s.returned <+: s.stored ∧
      (0 < consumers → s.Final → s.returned = List.range' 1 goal) := by
  have hsound := h.sound hcap
  obtain ⟨live, hfifo⟩ := hsound.fifo
  refine ⟨hfifo.read_lt, hfifo.write_lt, ?_, ⟨live, hfifo.stored_eq.symm⟩, ?_⟩
  · have hlength := hfifo.length_stored
    have hroom := hfifo.room
    omega
  · intro hpos hfinal
    obtain ⟨i, c, hc⟩ := h.exists_consumer hpos
    exact hsound.returned_of_final hc hfinal

/-- Thread after thread takes six steps: enough to pass on one item and to exit. -/
def inTurn (threads : List Nat) : List Act := threads.flatMap (fun i => List.replicate 6 (.run i))

/-- A producer and a consumer exit when one item has been passed on. -/
theorem one_item_consumed :
    ∃ s, Reachable 2 1 1 1 s ∧ s.Final ∧ s.returned = List.range' 1 1 := by
  have hrun : (runSteps (step 2 1) (InitItemRepository 2 1 1) (inTurn [0, 1])).map
      (fun s => decide (∀ pc ∈ s.threads, pc.HasExited)) = some true := by decide
  obtain ⟨s, hs, hfinal⟩ := Option.map_eq_some_iff.mp hrun
  have hreach : Reachable 2 1 1 1 s := ⟨inTurn [0, 1], hs⟩
  have hfinal' : ∀ pc ∈ s.threads, pc.HasExited := of_decide_eq_true hfinal
  exact ⟨s, hreach, hfinal', (bounded_fifo 2 1 1 1 s (by decide) hreach).2.2.2.2 (by decide) hfinal'⟩

/-- Without a consumer the program ends as well, and the item is not consumed. -/
theorem not_consumed_without_consumers :
    ∃ s, Reachable 2 1 1 0 s ∧ s.Final ∧ s.stored = [1] ∧ s.returned = [] ∧
      ¬ s.returned = List.range' 1 1 := by
  have hrun : (runSteps (step 2 1) (InitItemRepository 2 1 0) (inTurn [0])).map (fun s =>
      decide ((∀ pc ∈ s.threads, pc.HasExited) ∧ s.stored = [1] ∧ s.returned = [])) = some true := by
    decide
  obtain ⟨s, hs, hresult⟩ := Option.map_eq_some_iff.mp hrun
  obtain ⟨hfinal, hstored, hreturned⟩ := of_decide_eq_true hresult
  refine ⟨s, ⟨inTurn [0], hs⟩, hfinal, hstored, hreturned, ?_⟩
  rw [hreturned]
  decide

end LearningCpp.Repository
