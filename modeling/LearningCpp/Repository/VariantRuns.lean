import LearningCpp.Library.Simulation
import LearningCpp.Repository.Recount
import LearningCpp.Repository.Variants

/-!
Each variant is simulated by the program with both counters, `04.多生产者-多消费者模型.cpp`: the
counter of a side that counts by itself follows from its variable, and a task that leaves
its loop takes several steps there. So the variants are bounded queues and come to an end.
-/

namespace LearningCpp.Repository

open Library

variable {cap goal t : Nat} {s s' : ItemRepository}

/-- What `i` of the loop has to do with the items that were counted. -/
def LoopCounts (i produced : Nat) : Producer → Prop
  | .sleeping => i = produced + 1
  | .ready_to_exit => False
  | .exited => True
  | _ => i = produced

/-- What `cnt` or `item_consumed` has to do with the items that were counted. -/
def OwnCounts (goal cnt consumed : Nat) : Consuming → Consumer → Prop
  | .counted, _ | _, .exited => True
  | _, .ready_to_exit => False
  | .after, _ => cnt = consumed ∧ cnt < goal
  | .before, .sleeping => cnt = consumed
  | .before, _ => cnt = consumed + 1

theorem LoopCounts.of_inside {i produced : Nat} {q q' : Producer} (h : LoopCounts i produced q)
    (hinside : q.Inside) (hplace : q'.Inside ∨ q' = .produced) : LoopCounts i produced q' := by
  have hi : i = produced := by
    cases q with
    | locking item => exact h
    | testing item => exact h
    | waiting item => exact h
    | _ => exact hinside.elim
  rcases hplace with hinside' | rfl
  · cases q' with
    | locking item => exact hi
    | testing item => exact hi
    | waiting item => exact hi
    | _ => exact hinside'.elim
  · exact hi

/-- A consumer that gets its item has counted as much as before. -/
theorem OwnCounts.of_inside {cnt consumed : Nat} {mode : Consuming} {c c' : Consumer}
    (h : OwnCounts goal cnt consumed mode c) (hinside : c.Inside)
    (hplace : c'.Inside ∨ ∃ item, c' = .consumed item) :
    OwnCounts goal cnt consumed mode c' := by
  have hlocking : OwnCounts goal cnt consumed mode .locking := by
    cases mode <;> cases c <;> first | exact h | exact hinside.elim
  rcases hplace with hinside' | ⟨item, rfl⟩
  · cases mode <;> cases c' <;> first | exact hlocking | exact hinside'.elim
  · cases mode <;> exact hlocking

namespace Variant

variable (m : Variant)

/-- The repository of a variant has the counters that its tasks use. -/
def view (s : ItemRepository) : ItemRepository :=
  s.recount (if m.producing = .counted then s.produced_item_counter else 0)
    (if m.producing = .counted then s.produced_item_counter_mtx else none)
    (if m.consuming = .counted then s.consumed_item_counter else 0)
    (if m.consuming = .counted then s.consumed_item_counter_mtx else none)

/-- The variables of the tasks agree with the counters. -/
def Agrees (goal : Nat) (p : Program) (s : ItemRepository) : Pc → Prop
  | .producer q => m.producing = .for_loop → LoopCounts p.i s.produced_item_counter q
  | .consumer c => OwnCounts goal p.cnt s.consumed_item_counter m.consuming c

/-- A state of the variant and one of the program with both counters. -/
structure Follows (cap goal : Nat) (p : Program) (s : ItemRepository) : Prop where
  sound : Sound cap goal s
  kinds : s.threads.map Pc.isConsumer =
    List.replicate m.producers false ++ List.replicate m.consumers true
  repo : p.repo = m.view s
  agrees : ∀ {t : Nat} {pc : Pc}, s.threads[t]? = some pc → m.Agrees goal p s pc

/-- One or more steps that lead to a state which `p` follows. -/
def Matched (cap goal : Nat) (p : Program) (s : ItemRepository) (charge : Nat) : Prop :=
  ∃ acts s', runSteps (Repository.step cap goal) s acts = some s' ∧ m.Follows cap goal p s' ∧
    0 < acts.length ∧ (acts.map Act.charge).sum = charge

namespace Follows

variable {m} {p p' : Program} {pc pc' : Pc} {q : Producer} {c : Consumer} {f : Pc → Pc}

theorem producer_lt (h : m.Follows cap goal p s) (hpc : s.threads[t]? = some (.producer q)) :
    t < m.producers := by
  have hkind : (s.threads.map Pc.isConsumer)[t]? = some false := by
    rw [List.getElem?_map, hpc]
    rfl
  rw [h.kinds] at hkind
  by_contra hge
  rw [List.getElem?_append_right (by rw [List.length_replicate]; omega),
    List.getElem?_replicate] at hkind
  split at hkind <;> cases hkind

theorem consumer_index (h : m.Follows cap goal p s) (hpc : s.threads[t]? = some (.consumer c)) :
    m.producers ≤ t ∧ t < m.producers + m.consumers := by
  have hkind : (s.threads.map Pc.isConsumer)[t]? = some true := by
    rw [List.getElem?_map, hpc]
    rfl
  rw [h.kinds] at hkind
  have hlength := (List.getElem?_eq_some_iff.mp hkind).1
  rw [List.length_append, List.length_replicate, List.length_replicate] at hlength
  refine ⟨?_, hlength⟩
  by_contra hlt
  rw [List.getElem?_append_left (by rw [List.length_replicate]; omega),
    List.getElem?_replicate] at hkind
  split at hkind <;> cases hkind

/-- A step of thread `t` leaves the others where they are, or notifies them. -/
theorem of_run (h : m.Follows cap goal p s) (hpc : s.threads[t]? = some pc) {acts : List Act}
    (hrun : runSteps (Repository.step cap goal) s acts = some s')
    (hthreads : s'.threads = (s.threads.map f).set t pc') (hrepo : p'.repo = m.view s')
    (hself : m.Agrees goal p' s' pc')
    (hothers : ∀ {j : Nat} {pc₀ : Pc}, j ≠ t → s.threads[j]? = some pc₀ →
      m.Agrees goal p' s' (f pc₀)) : m.Follows cap goal p' s' where
  sound := invariant_run (fun hs hstep => Sound.step hs hstep) h.sound hrun
  kinds := by
    refine invariant_run (I := fun s => s.threads.map Pc.isConsumer =
      List.replicate m.producers false ++ List.replicate m.consumers true)
      (fun hs hstep => (step_kinds hstep).trans hs) h.kinds hrun
  repo := hrepo
  agrees := by
    intro j pc₀ hj
    have hpc' : (s.threads.map f)[t]? = some (f pc) := by
      rw [List.getElem?_map, hpc]
      rfl
    rw [hthreads] at hj
    apply Mutex.forall_set hpc' hself ?_ hj
    intro k pc₁ hne hk
    rw [List.getElem?_map, Option.map_eq_some_iff] at hk
    obtain ⟨pc₂, hold, rfl⟩ := hk
    exact hothers hne hold

/-- A producer that moves is the only one with a loop of its own. -/
theorem others_of_producer (h : m.Follows cap goal p s)
    (hpc : s.threads[t]? = some (.producer q)) (hf : f = id ∨ f = Pc.notify_not_empty)
    (hcnt : p'.cnt = p.cnt) (hconsumed : s'.consumed_item_counter = s.consumed_item_counter)
    {j : Nat} {pc₀ : Pc} (hne : j ≠ t) (hj : s.threads[j]? = some pc₀) :
    m.Agrees goal p' s' (f pc₀) := by
  have hold := h.agrees hj
  cases pc₀ with
  | producer q₀ =>
      have hsame : f (.producer q₀) = .producer q₀ := by
        rcases hf with rfl | rfl <;> rfl
      rw [hsame]
      intro hloop
      have hone := m.one_producer hloop
      have hfirst := h.producer_lt hpc
      have hsecond := h.producer_lt hj
      omega
  | consumer c₀ =>
      simp only [Agrees, ← hcnt, ← hconsumed] at hold
      rcases hf with rfl | rfl
      · exact hold
      · cases c₀ with
        | waiting =>
            simp only [Pc.notify_not_empty, Agrees]
            cases hmode : m.consuming <;> rw [hmode] at hold <;> exact hold
        | _ => exact hold

theorem others_of_consumer (h : m.Follows cap goal p s)
    (hpc : s.threads[t]? = some (.consumer c)) (hf : f = id ∨ f = Pc.notify_not_full)
    (hi : p'.i = p.i) (hproduced : s'.produced_item_counter = s.produced_item_counter)
    {j : Nat} {pc₀ : Pc} (hne : j ≠ t) (hj : s.threads[j]? = some pc₀) :
    m.Agrees goal p' s' (f pc₀) := by
  have hold := h.agrees hj
  cases pc₀ with
  | producer q₀ =>
      simp only [Agrees, ← hi, ← hproduced] at hold
      rcases hf with rfl | rfl
      · exact hold
      · cases q₀ with
        | waiting item => exact hold
        | _ => exact hold
  | consumer c₀ =>
      have hsame : f (.consumer c₀) = .consumer c₀ := by
        rcases hf with rfl | rfl <;> rfl
      rw [hsame]
      simp only [Agrees]
      cases hmode : m.consuming with
      | counted => trivial
      | _ =>
          have hone := m.one_consumer (by rw [hmode]; nofun)
          have hfirst := h.consumer_index hpc
          have hsecond := h.consumer_index hj
          omega

/-- Inside `ProduceItem`, and where it counts as the program with both counters, a producer
takes the same step. -/
theorem producer_same (h : m.Follows cap goal p s) (hpc : s.threads[t]? = some (.producer q))
    (hmode : m.producing = .counted ∨ q.Inside)
    (hstep : (Repository.ProducerTask cap goal p.repo t q).map
      (fun repo => {p with repo := repo}) = some p') :
    m.Matched cap goal p' s 0 := by
  obtain ⟨repo, hrepo, rfl⟩ := Option.map_eq_some_iff.mp hstep
  have hsame : ∃ s', Repository.ProducerTask cap goal s t q = some s' ∧ repo = m.view s' := by
    rw [h.repo, view] at hrepo
    rcases Classical.em q.Inside with hinside | houtside
    · rw [ProducerTask_recount _ _ _ _ hinside] at hrepo
      obtain ⟨s', hs', rfl⟩ := Option.map_eq_some_iff.mp hrepo
      obtain ⟨_, _, _, _, hconsumed, hconsumed', hcounters⟩ := ProducerTask_moves hs'
      obtain ⟨-, hproduced, hproduced'⟩ := hcounters hinside
      refine ⟨s', hs', ?_⟩
      rw [view, hconsumed, hconsumed', hproduced, hproduced']
    · have hcounted := hmode.resolve_right houtside
      simp only [hcounted, if_true] at hrepo
      rw [ProducerTask_recount_consumed _ _ houtside] at hrepo
      obtain ⟨s', hs', rfl⟩ := Option.map_eq_some_iff.mp hrepo
      obtain ⟨_, _, _, _, hconsumed, hconsumed', -⟩ := ProducerTask_moves hs'
      refine ⟨s', hs', ?_⟩
      simp only [view, hcounted, if_true, hconsumed, hconsumed']
  obtain ⟨s', hs', hview⟩ := hsame
  obtain ⟨f, q', hf, hthreads, hconsumed, -, hcounters⟩ := ProducerTask_moves hs'
  have hrun : runSteps (Repository.step cap goal) s [.run t] = some s' :=
    runSteps_cons_iff.mpr ⟨s', (step_producer hpc).trans hs', rfl⟩
  refine ⟨[.run t], s', hrun, h.of_run hpc hrun hthreads hview ?_
    (h.others_of_producer hpc hf rfl hconsumed), Nat.one_pos, rfl⟩
  · intro hloop
    have hinside := hmode.resolve_left (by rw [hloop]; nofun)
    obtain ⟨hplace, hproduced, -⟩ := hcounters hinside
    have hcounts : LoopCounts p.i s.produced_item_counter q := h.agrees hpc hloop
    rw [← hproduced] at hcounts
    exact hcounts.of_inside hinside hplace

theorem consumer_same (h : m.Follows cap goal p s) (hpc : s.threads[t]? = some (.consumer c))
    (hmode : m.consuming = .counted ∨ c.Inside)
    (hstep : (Repository.ConsumerTask cap goal p.repo t c).map
      (fun repo => {p with repo := repo}) = some p') :
    m.Matched cap goal p' s 0 := by
  obtain ⟨repo, hrepo, rfl⟩ := Option.map_eq_some_iff.mp hstep
  have hsame : ∃ s', Repository.ConsumerTask cap goal s t c = some s' ∧ repo = m.view s' := by
    rw [h.repo, view] at hrepo
    rcases Classical.em c.Inside with hinside | houtside
    · rw [ConsumerTask_recount _ _ _ _ hinside] at hrepo
      obtain ⟨s', hs', rfl⟩ := Option.map_eq_some_iff.mp hrepo
      obtain ⟨_, _, _, _, hproduced, hproduced', hcounters⟩ := ConsumerTask_moves hs'
      obtain ⟨-, hconsumed, hconsumed'⟩ := hcounters hinside
      refine ⟨s', hs', ?_⟩
      rw [view, hconsumed, hconsumed', hproduced, hproduced']
    · have hcounted := hmode.resolve_right houtside
      simp only [hcounted, if_true] at hrepo
      rw [ConsumerTask_recount_produced _ _ houtside] at hrepo
      obtain ⟨s', hs', rfl⟩ := Option.map_eq_some_iff.mp hrepo
      obtain ⟨_, _, _, _, hproduced, hproduced', -⟩ := ConsumerTask_moves hs'
      refine ⟨s', hs', ?_⟩
      simp only [view, hcounted, if_true, hproduced, hproduced']
  obtain ⟨s', hs', hview⟩ := hsame
  obtain ⟨f, c', hf, hthreads, hproduced, -, hcounters⟩ := ConsumerTask_moves hs'
  have hrun : runSteps (Repository.step cap goal) s [.run t] = some s' :=
    runSteps_cons_iff.mpr ⟨s', (step_consumer hpc).trans hs', rfl⟩
  refine ⟨[.run t], s', hrun, h.of_run hpc hrun hthreads hview ?_
    (h.others_of_consumer hpc hf rfl hproduced), Nat.one_pos, rfl⟩
  have hown : OwnCounts goal p.cnt s.consumed_item_counter m.consuming c := h.agrees hpc
  simp only [Agrees]
  rcases hmode with hcounted | hinside
  · rw [hcounted]
    trivial
  · obtain ⟨hplace, hconsumed, -⟩ := hcounters hinside
    rw [← hconsumed] at hown
    exact hown.of_inside hinside hplace

/-- A producer with a loop of its own holds the lock on the counter or nobody does. -/
theorem produced_free (h : m.Follows cap goal p s) (hloop : m.producing = .for_loop)
    (hpc : s.threads[t]? = some (.producer q)) (hfree : ¬ (Pc.producer q).HoldsProduced) :
    s.produced_item_counter_mtx = none := by
  cases hlock : s.produced_item_counter_mtx with
  | none => rfl
  | some k =>
      obtain ⟨pc, hpc', hholding⟩ := h.sound.produced_mtx.holder hlock
      cases pc with
      | consumer c => exact hholding.elim
      | producer q' =>
          have hone := m.one_producer hloop
          have hfirst := h.producer_lt hpc
          have hsecond := h.producer_lt hpc'
          obtain rfl : k = t := by omega
          rw [hpc] at hpc'
          cases hpc'
          exact absurd hholding hfree

theorem consumed_free (h : m.Follows cap goal p s) (hown : m.consuming ≠ .counted)
    (hpc : s.threads[t]? = some (.consumer c)) (hfree : ¬ (Pc.consumer c).HoldsConsumed) :
    s.consumed_item_counter_mtx = none := by
  cases hlock : s.consumed_item_counter_mtx with
  | none => rfl
  | some k =>
      obtain ⟨pc, hpc', hholding⟩ := h.sound.consumed_mtx.holder hlock
      cases pc with
      | producer q => exact hholding.elim
      | consumer c' =>
          have hone := m.one_consumer hown
          have hfirst := h.consumer_index hpc
          have hsecond := h.consumer_index hpc'
          obtain rfl : k = t := by omega
          rw [hpc] at hpc'
          cases hpc'
          exact absurd hholding hfree

/-- A task that counts by itself changes no counter of its repository. -/
theorem view_set_produced (h : m.Follows cap goal p s) (hloop : m.producing = .for_loop) (a : Nat)
    (b : Option Nat) (pc' : Pc) :
    (p.goto t pc').repo = m.view {s with
      produced_item_counter := a
      produced_item_counter_mtx := b
      threads := s.threads.set t pc' } := by
  simp only [Program.goto, h.repo, view, hloop, reduceCtorEq, if_false, ItemRepository.recount]

theorem view_set_consumed (h : m.Follows cap goal p s) (hown : m.consuming ≠ .counted) (a : Nat)
    (b : Option Nat) (pc' : Pc) :
    (p.goto t pc').repo = m.view {s with
      consumed_item_counter := a
      consumed_item_counter_mtx := b
      threads := s.threads.set t pc' } := by
  simp only [Program.goto, h.repo, view, hown, if_false, ItemRepository.recount]

/-- A producer takes its steps alone. -/
theorem of_producer_run (h : m.Follows cap goal p s) (hpc : s.threads[t]? = some (.producer q))
    {acts : List Act} (hrun : runSteps (Repository.step cap goal) s acts = some s')
    (hthreads : s'.threads = s.threads.set t pc') (hrepo : p'.repo = m.view s')
    (hself : m.Agrees goal p' s' pc') (hcnt : p'.cnt = p.cnt)
    (hconsumed : s'.consumed_item_counter = s.consumed_item_counter) :
    m.Follows cap goal p' s' := by
  refine h.of_run hpc hrun (f := id) ?_ hrepo hself
    (h.others_of_producer hpc (Or.inl rfl) hcnt hconsumed)
  rw [List.map_id]
  exact hthreads

theorem of_consumer_run (h : m.Follows cap goal p s) (hpc : s.threads[t]? = some (.consumer c))
    {acts : List Act} (hrun : runSteps (Repository.step cap goal) s acts = some s')
    (hthreads : s'.threads = s.threads.set t pc') (hrepo : p'.repo = m.view s')
    (hself : m.Agrees goal p' s' pc') (hi : p'.i = p.i)
    (hproduced : s'.produced_item_counter = s.produced_item_counter) :
    m.Follows cap goal p' s' := by
  refine h.of_run hpc hrun (f := id) ?_ hrepo hself
    (h.others_of_consumer hpc (Or.inl rfl) hi hproduced)
  rw [List.map_id]
  exact hthreads

/-- The loop of a producer: the test, the item that it stores next, and the end. -/
theorem producer_loop (h : m.Follows cap goal p s) (hpc : s.threads[t]? = some (.producer q))
    (hloop : m.producing = .for_loop) (houtside : ¬ q.Inside)
    (hstep : m.ProducerTask cap goal p t q = some p') : m.Matched cap goal p' s 0 := by
  have hcounts : LoopCounts p.i s.produced_item_counter q := h.agrees hpc hloop
  cases q with
  | locking item => exact absurd trivial houtside
  | testing item => exact absurd trivial houtside
  | waiting item => exact absurd trivial houtside
  | ready_to_exit => exact hcounts.elim
  | exited =>
      simp only [Variant.ProducerTask, hloop] at hstep
      cases hstep
  | produced =>
      simp only [Variant.ProducerTask, hloop, Option.some.injEq] at hstep
      subst hstep
      have hrun : runSteps (Repository.step cap goal) s [.run t] = some {s with
          produced_item_counter_mtx := none
          threads := s.threads.set t (.producer .sleeping) } :=
        runSteps_cons_iff.mpr ⟨_, step_producer hpc, rfl⟩
      exact ⟨[.run t], _, hrun, h.of_producer_run hpc hrun rfl
        (h.view_set_produced hloop _ _ _) (fun _ => congrArg (· + 1) hcounts) rfl rfl,
        Nat.one_pos, rfl⟩
  | sleeping =>
      have hi : p.i = s.produced_item_counter + 1 := hcounts
      have hfree := h.produced_free hloop hpc id
      simp only [Variant.ProducerTask, hloop] at hstep
      split at hstep
      case isTrue hmore =>
        cases hstep
        have hlt : s.produced_item_counter < goal := by omega
        have hrun : runSteps (Repository.step cap goal) s [.run t] = some {s with
            produced_item_counter_mtx := some t
            produced_item_counter := s.produced_item_counter + 1
            threads := s.threads.set t (.producer (.locking p.i)) } := by
          rw [hi]
          refine runSteps_cons_iff.mpr ⟨_, (step_producer hpc).trans ?_, rfl⟩
          simp only [Repository.ProducerTask, if_pos hfree, if_pos hlt]
        exact ⟨[.run t], _, hrun, h.of_producer_run hpc hrun rfl
          (h.view_set_produced hloop _ _ _) (fun _ => hi) rfl rfl, Nat.one_pos, rfl⟩
      case isFalse hdone =>
        cases hstep
        have hall : ¬ s.produced_item_counter < goal := by omega
        have hrun := @producer_exits cap goal t s hpc hfree hall
        exact ⟨[.run t, .run t], _, hrun, h.of_producer_run hpc hrun rfl
          (h.view_set_produced hloop _ _ _) (fun _ => trivial) rfl rfl, Nat.two_pos, rfl⟩

/-- A consumer locks the counter for its next item. -/
theorem consumer_asks (h : m.Follows cap goal p s) (hown : m.consuming ≠ .counted)
    (hpc : s.threads[t]? = some (.consumer .sleeping)) (hmore : s.consumed_item_counter < goal)
    (hrepo : p'.repo = (p.goto t (.consumer .locking)).repo) (hi : p'.i = p.i)
    (hself : OwnCounts goal p'.cnt s.consumed_item_counter m.consuming .locking) :
    m.Matched cap goal p' s 0 := by
  have hfree := h.consumed_free hown hpc id
  have hrun : runSteps (Repository.step cap goal) s [.run t] = some {s with
      consumed_item_counter_mtx := some t
      threads := s.threads.set t (.consumer .locking) } := by
    refine runSteps_cons_iff.mpr ⟨_, (step_consumer hpc).trans ?_, rfl⟩
    simp only [Repository.ConsumerTask, if_pos hfree, if_pos hmore]
  exact ⟨[.run t], _, hrun, h.of_consumer_run hpc hrun rfl
    (hrepo.trans (h.view_set_consumed hown _ _ _)) hself hi rfl, Nat.one_pos, rfl⟩

/-- A consumer finds that it has got all items. -/
theorem consumer_done (h : m.Follows cap goal p s) (hown : m.consuming ≠ .counted)
    (hpc : s.threads[t]? = some (.consumer .sleeping)) (hdone : ¬ s.consumed_item_counter < goal)
    (hrepo : p'.repo = (p.goto t (.consumer .exited)).repo) (hi : p'.i = p.i) :
    m.Matched cap goal p' s 0 := by
  have hfree := h.consumed_free hown hpc id
  have hrun := @consumer_exits cap goal t s hpc hfree hdone
  refine ⟨[.run t, .run t], _, hrun, h.of_consumer_run hpc hrun rfl
    (hrepo.trans (h.view_set_consumed hown _ _ _)) ?_ hi rfl, Nat.two_pos, rfl⟩
  cases hmode : m.consuming <;> simp only [Agrees, hmode, OwnCounts]

/-- A consumer goes back to the start of its loop with its item counted. -/
theorem consumer_counts (h : m.Follows cap goal p s) (hown : m.consuming ≠ .counted) {item : Nat}
    (hpc : s.threads[t]? = some (.consumer (.consumed item)))
    (hrepo : p'.repo = (p.goto t (.consumer .sleeping)).repo) (hi : p'.i = p.i)
    (hself : OwnCounts goal p'.cnt (s.consumed_item_counter + 1) m.consuming .sleeping) :
    m.Matched cap goal p' s 0 := by
  have hrun : runSteps (Repository.step cap goal) s [.run t] = some {s with
      consumed_item_counter := s.consumed_item_counter + 1
      consumed_item_counter_mtx := none
      threads := s.threads.set t (.consumer .sleeping) } :=
    runSteps_cons_iff.mpr ⟨_, step_consumer hpc, rfl⟩
  exact ⟨[.run t], _, hrun, h.of_consumer_run hpc hrun rfl
    (hrepo.trans (h.view_set_consumed hown _ _ _)) hself hi rfl, Nat.one_pos, rfl⟩

/-- A consumer leaves its loop at once when it has counted the last item. -/
theorem consumer_leaves (h : m.Follows cap goal p s) (hown : m.consuming ≠ .counted) {item : Nat}
    (hpc : s.threads[t]? = some (.consumer (.consumed item)))
    (hlast : ¬ s.consumed_item_counter + 1 < goal)
    (hrepo : p'.repo = (p.goto t (.consumer .exited)).repo) (hi : p'.i = p.i) :
    m.Matched cap goal p' s 0 := by
  have hplace : (s.threads.set t (.consumer .sleeping))[t]? = some (.consumer .sleeping) :=
    (Mutex.getElem?_set_of_some hpc t).mpr (Or.inl ⟨rfl, rfl⟩)
  have hrun : runSteps (Repository.step cap goal) s [.run t, .run t, .run t] = some {s with
      consumed_item_counter := s.consumed_item_counter + 1
      consumed_item_counter_mtx := none
      threads := s.threads.set t (.consumer .exited) } := by
    refine runSteps_cons_iff.mpr ⟨{s with
      consumed_item_counter := s.consumed_item_counter + 1
      consumed_item_counter_mtx := none
      threads := s.threads.set t (.consumer .sleeping) }, step_consumer hpc, ?_⟩
    rw [consumer_exits hplace rfl hlast, List.set_set]
  refine ⟨[.run t, .run t, .run t], _, hrun, h.of_consumer_run hpc hrun rfl
    (hrepo.trans (h.view_set_consumed hown _ _ _)) ?_ hi rfl, Nat.succ_pos 2, rfl⟩
  cases hmode : m.consuming <;> simp only [Agrees, hmode, OwnCounts]

/-- A consumer that counts by itself, at the start and at the end of its loop. -/
theorem consumer_own (h : m.Follows cap goal p s) (hpc : s.threads[t]? = some (.consumer c))
    (hown : m.consuming ≠ .counted) (houtside : ¬ c.Inside)
    (hstep : m.ConsumerTask cap goal p t c = some p') : m.Matched cap goal p' s 0 := by
  have hcounts : OwnCounts goal p.cnt s.consumed_item_counter m.consuming c := h.agrees hpc
  cases hmode : m.consuming with
  | counted => exact absurd hmode hown
  | after =>
      rw [hmode] at hcounts
      cases c with
      | locking => exact absurd trivial houtside
      | testing => exact absurd trivial houtside
      | waiting => exact absurd trivial houtside
      | ready_to_exit => exact hcounts.elim
      | exited =>
          simp only [Variant.ConsumerTask, hmode] at hstep
          cases hstep
      | sleeping =>
          obtain ⟨hcnt, hmore⟩ := hcounts
          simp only [Variant.ConsumerTask, hmode, Option.some.injEq] at hstep
          subst hstep
          refine h.consumer_asks hown hpc (hcnt ▸ hmore) rfl rfl ?_
          rw [hmode]
          exact ⟨hcnt, hmore⟩
      | consumed item =>
          obtain ⟨hcnt, hmore⟩ := hcounts
          simp only [Variant.ConsumerTask, hmode] at hstep
          split at hstep
          case isTrue hlast =>
            cases hstep
            exact h.consumer_leaves hown hpc (by omega) rfl rfl
          case isFalse hnot =>
            cases hstep
            have hlt : p.cnt + 1 < goal := by omega
            refine h.consumer_counts hown hpc rfl rfl ?_
            rw [hmode]
            exact ⟨congrArg (· + 1) hcnt, hlt⟩
  | before =>
      rw [hmode] at hcounts
      cases c with
      | locking => exact absurd trivial houtside
      | testing => exact absurd trivial houtside
      | waiting => exact absurd trivial houtside
      | ready_to_exit => exact hcounts.elim
      | exited =>
          simp only [Variant.ConsumerTask, hmode] at hstep
          cases hstep
      | sleeping =>
          have hcnt : p.cnt = s.consumed_item_counter := hcounts
          simp only [Variant.ConsumerTask, hmode] at hstep
          split at hstep
          case isTrue hmore =>
            cases hstep
            refine h.consumer_asks hown hpc (by omega) rfl rfl ?_
            rw [hmode]
            exact congrArg (· + 1) hcnt
          case isFalse hdone =>
            cases hstep
            exact h.consumer_done hown hpc (by omega) rfl rfl
      | consumed item =>
          simp only [Variant.ConsumerTask, hmode, Option.some.injEq] at hstep
          subst hstep
          refine h.consumer_counts hown hpc rfl rfl ?_
          rw [hmode]
          exact hcounts

theorem ProducerTask (h : m.Follows cap goal p s) (hpc : s.threads[t]? = some (.producer q))
    (hstep : m.ProducerTask cap goal p t q = some p') : m.Matched cap goal p' s 0 := by
  cases hmode : m.producing with
  | counted =>
      apply h.producer_same hpc (Or.inl hmode)
      simpa only [Variant.ProducerTask, hmode] using hstep
  | for_loop =>
      rcases Classical.em q.Inside with hinside | houtside
      · apply h.producer_same hpc (Or.inr hinside)
        cases q with
        | locking item => simpa only [Variant.ProducerTask, hmode] using hstep
        | testing item => simpa only [Variant.ProducerTask, hmode] using hstep
        | waiting item => simpa only [Variant.ProducerTask, hmode] using hstep
        | _ => exact hinside.elim
      · exact h.producer_loop hpc hmode houtside hstep

theorem ConsumerTask (h : m.Follows cap goal p s) (hpc : s.threads[t]? = some (.consumer c))
    (hstep : m.ConsumerTask cap goal p t c = some p') : m.Matched cap goal p' s 0 := by
  rcases eq_or_ne m.consuming .counted with hmode | hown
  · apply h.consumer_same hpc (Or.inl hmode)
    simpa only [Variant.ConsumerTask, hmode] using hstep
  · rcases Classical.em c.Inside with hinside | houtside
    · apply h.consumer_same hpc (Or.inr hinside)
      cases hmode : m.consuming with
      | counted => exact absurd hmode hown
      | _ =>
          cases c with
          | locking => simpa only [Variant.ConsumerTask, hmode] using hstep
          | testing => simpa only [Variant.ConsumerTask, hmode] using hstep
          | waiting => simpa only [Variant.ConsumerTask, hmode] using hstep
          | _ => exact hinside.elim
    · exact h.consumer_own hpc hown houtside hstep

/-- A thread wakes up by itself in both programs. -/
theorem wake (h : m.Follows cap goal p s)
    (hstep : m.step cap goal p (.wake t) = some p') : m.Matched cap goal p' s 3 := by
  have hview : (m.view s).threads = s.threads := rfl
  obtain ⟨repo, hrepo, rfl⟩ := Option.map_eq_some_iff.mp hstep
  rw [h.repo] at hrepo
  simp only [Repository.step, hview] at hrepo
  split at hrepo
  case h_1 => cases hrepo
  case h_2 pc' hpc' =>
    cases hrepo
    obtain ⟨pc, hpc, hwake⟩ := Option.bind_eq_some_iff.mp hpc'
    have hrun : runSteps (Repository.step cap goal) s [.wake t] =
        some {s with threads := s.threads.set t pc'} := by
      refine runSteps_cons_iff.mpr ⟨_, ?_, rfl⟩
      simp only [Repository.step, hpc']
    refine ⟨[.wake t], _, hrun, ?_, Nat.one_pos, rfl⟩
    have hold := h.agrees hpc
    cases pc with
    | producer q =>
        cases q with
        | waiting item =>
            cases hwake
            exact h.of_producer_run hpc hrun rfl rfl hold rfl rfl
        | _ => cases hwake
    | consumer c =>
        cases c with
        | waiting =>
            cases hwake
            exact h.of_consumer_run hpc hrun rfl rfl
              (hold.of_inside trivial (Or.inl trivial)) rfl rfl
        | _ => cases hwake

theorem producer_moves (h : m.Follows cap goal p s) (hpc : s.threads[t]? = some (.producer q))
    (hmove : (Repository.ProducerTask cap goal s t q).isSome) :
    (m.ProducerTask cap goal p t q).isSome := by
  rcases Classical.em q.Inside with hinside | houtside
  · have hsame : (Repository.ProducerTask cap goal p.repo t q).isSome := by
      rw [h.repo, view, ProducerTask_recount _ _ _ _ hinside, Option.isSome_map]
      exact hmove
    cases hmode : m.producing <;> cases q <;>
      first
        | exact hinside.elim
        | simpa only [Variant.ProducerTask, hmode, Option.isSome_map] using hsame
  · cases hmode : m.producing with
    | counted =>
        simp only [Variant.ProducerTask, hmode, h.repo, view, if_true, Option.isSome_map]
        rw [ProducerTask_recount_consumed _ _ houtside, Option.isSome_map]
        exact hmove
    | for_loop =>
        have hcounts : LoopCounts p.i s.produced_item_counter q := h.agrees hpc hmode
        cases q with
        | sleeping =>
            simp only [Variant.ProducerTask, hmode]
            split <;> rfl
        | produced =>
            simp only [Variant.ProducerTask, hmode]
            rfl
        | ready_to_exit => exact hcounts.elim
        | exited => cases hmove
        | _ => exact absurd trivial houtside

theorem consumer_moves (h : m.Follows cap goal p s) (hpc : s.threads[t]? = some (.consumer c))
    (hmove : (Repository.ConsumerTask cap goal s t c).isSome) :
    (m.ConsumerTask cap goal p t c).isSome := by
  rcases Classical.em c.Inside with hinside | houtside
  · have hsame : (Repository.ConsumerTask cap goal p.repo t c).isSome := by
      rw [h.repo, view, ConsumerTask_recount _ _ _ _ hinside, Option.isSome_map]
      exact hmove
    cases hmode : m.consuming <;> cases c <;>
      first
        | exact hinside.elim
        | simpa only [Variant.ConsumerTask, hmode, Option.isSome_map] using hsame
  · have hcounts : OwnCounts goal p.cnt s.consumed_item_counter m.consuming c := h.agrees hpc
    cases hmode : m.consuming with
    | counted =>
        simp only [Variant.ConsumerTask, hmode, h.repo, view, if_true, Option.isSome_map]
        rw [ConsumerTask_recount_produced _ _ houtside, Option.isSome_map]
        exact hmove
    | _ =>
        rw [hmode] at hcounts
        cases c with
        | sleeping =>
            simp only [Variant.ConsumerTask, hmode]
            first | rfl | split <;> rfl
        | consumed item =>
            simp only [Variant.ConsumerTask, hmode]
            first | rfl | split <;> rfl
        | ready_to_exit => exact hcounts.elim
        | exited => cases hmove
        | _ => exact absurd trivial houtside

end Follows

/-- The program with both counters simulates the variant. -/
theorem simulated : Simulates (m.step cap goal) (Repository.step cap goal)
    (m.Follows cap goal) Act.charge Act.charge := by
  intro p p' s a h hstep
  have hthreads : p.repo.threads = s.threads := by
    rw [h.repo]
    rfl
  cases a with
  | wake t => exact h.wake hstep
  | run t =>
      simp only [step, hthreads] at hstep
      split at hstep
      case h_1 => cases hstep
      case h_2 q hpc => exact h.ProducerTask hpc hstep
      case h_3 c hpc => exact h.ConsumerTask hpc hstep

/-- A consumer that counts after its item needs an item to come to an end. -/
def Ends (goal : Nat) : Prop := m.consuming = .after → 0 < goal

theorem start_follows (hcap : 2 ≤ cap) (hends : m.Ends goal) :
    m.Follows cap goal (m.start cap) (InitItemRepository cap m.producers m.consumers) where
  sound := init_sound hcap goal m.producers m.consumers
  kinds := by
    rw [InitItemRepository, List.map_append, List.map_replicate, List.map_replicate]
    rfl
  repo := by
    simp only [start, view, ItemRepository.recount, InitItemRepository, ite_self]
  agrees := by
    intro t pc hpc
    rcases List.mem_append.mp (List.mem_of_getElem? hpc) with hmem | hmem
    · obtain rfl := List.eq_of_mem_replicate hmem
      exact fun _ => rfl
    · obtain rfl := List.eq_of_mem_replicate hmem
      cases hmode : m.consuming with
      | counted => simp only [Agrees, hmode, OwnCounts]
      | before => simp only [Agrees, hmode, OwnCounts, start, InitItemRepository]
      | after =>
          simp only [Agrees, hmode, OwnCounts, start, InitItemRepository, true_and]
          exact hends hmode

/-- A thread that can go on in the program with both counters can go on in the variant. -/
theorem Follows.canMove {m : Variant} {p : Program} (h : m.Follows cap goal p s)
    (hmove : (Repository.step cap goal s (.run t)).isSome) :
    (m.step cap goal p (.run t)).isSome := by
  have hthreads : p.repo.threads = s.threads := by
    rw [h.repo]
    rfl
  simp only [step, hthreads]
  cases hpc : s.threads[t]? with
  | none => simp [Repository.step, hpc] at hmove
  | some pc =>
      cases pc with
      | producer q =>
          rw [step_producer hpc] at hmove
          exact h.producer_moves hpc hmove
      | consumer c =>
          rw [step_consumer hpc] at hmove
          exact h.consumer_moves hpc hmove

variable {m : Variant} {p : Program} {acts : List Act}

/-- In every state of a variant the repository is a bounded queue of the items `1, 2, …`. -/
theorem variant_bounded_fifo (hcap : 2 ≤ cap) (hends : m.Ends goal)
    (hrun : runSteps (m.step cap goal) (m.start cap) acts = some p) :
    p.repo.read_position < cap ∧ p.repo.write_position < cap ∧
      p.repo.stored = List.range' 1 p.repo.stored.length ∧ p.repo.returned <+: p.repo.stored ∧
        p.repo.stored.length ≤ p.repo.returned.length + (cap - 1) := by
  obtain ⟨bs, s, -, hfollows, -, -⟩ := m.simulated.run (m.start_follows hcap hends) hrun
  obtain ⟨live, hfifo⟩ := hfollows.sound.fifo
  have hlength := hfifo.length_stored
  have hroom := hfifo.room
  rw [hfollows.repo]
  exact ⟨hfifo.read_lt, hfifo.write_lt, hfollows.sound.items, ⟨live, hfifo.stored_eq.symm⟩,
    show s.stored.length ≤ s.returned.length + (cap - 1) by omega⟩

/-- A run of a variant is no longer than one of the program with both counters, and it can be
continued until all threads have exited and all items were consumed in order. -/
theorem variant_ends (hcap : 2 ≤ cap) (hends : m.Ends goal) (hproducers : 0 < m.producers)
    (hconsumers : 0 < m.consumers)
    (hrun : runSteps (m.step cap goal) (m.start cap) acts = some p) :
    acts.length ≤ stepBound goal (m.producers + m.consumers) (acts.countP Act.isWake) ∧
      ((∃ t, (m.step cap goal p (.run t)).isSome) ∨
        p.repo.Final ∧ p.repo.returned = List.range' 1 goal) := by
  obtain ⟨bs, s, hmatch, hfollows, hlength, hcharge⟩ :=
    m.simulated.run (m.start_follows hcap hends) hrun
  have hreach : Reachable cap goal m.producers m.consumers s := ⟨bs, hmatch⟩
  obtain ⟨j, q, hproducer⟩ := hreach.exists_producer hproducers
  obtain ⟨k, c, hconsumer⟩ := hreach.exists_consumer hconsumers
  constructor
  · have hbound := length_le_stepBound hcap hmatch
    rw [sum_charge, sum_charge] at hcharge
    have hwakes : bs.countP Act.isWake = acts.countP Act.isWake := by omega
    rw [hwakes] at hbound
    exact hlength.trans hbound
  · rcases Classical.em s.Final with hfinal | hrunning
    · right
      rw [hfollows.repo]
      exact ⟨hfinal, hfollows.sound.returned_of_final hconsumer hfinal⟩
    · obtain ⟨i, hmove⟩ :=
        hfollows.sound.canMove_of_running hcap hproducer hconsumer hrunning
      exact Or.inl ⟨i, hfollows.canMove hmove⟩

/-- `01.单生产者-单消费者模型.cpp` with room for one item and two items to pass on. -/
theorem variant_bounded_fifo_two :
    ∃ p, runSteps (singleSingle.step 2 2) (singleSingle.start 2)
        (List.replicate 7 (.run 0) ++ List.replicate 5 (.run 1)) = some p ∧
      p.repo.read_position < 2 ∧ p.repo.write_position < 2 ∧
        p.repo.stored = List.range' 1 p.repo.stored.length ∧
          p.repo.returned <+: p.repo.stored ∧
            p.repo.stored.length ≤ p.repo.returned.length + (2 - 1) := by
  have hrun : ∃ p, runSteps (singleSingle.step 2 2) (singleSingle.start 2)
      (List.replicate 7 (.run 0) ++ List.replicate 5 (.run 1)) = some p := by
    rw [← Option.isSome_iff_exists]
    decide
  obtain ⟨p, hrun⟩ := hrun
  exact ⟨p, hrun, variant_bounded_fifo (by decide) (fun _ => Nat.two_pos) hrun⟩

/-- `02.单生产者-多消费者模型.cpp` passes on one item. -/
theorem variant_ends_one :
    ∃ p, runSteps (singleMulti.step 2 1) (singleMulti.start 2)
        (List.replicate 5 (.run 0) ++ List.replicate 6 (.run 1)) = some p ∧
      11 ≤ stepBound 1 5 0 ∧
        ((∃ t, (singleMulti.step 2 1 p (.run t)).isSome) ∨
          p.repo.Final ∧ p.repo.returned = List.range' 1 1) := by
  have hrun : ∃ p, runSteps (singleMulti.step 2 1) (singleMulti.start 2)
      (List.replicate 5 (.run 0) ++ List.replicate 6 (.run 1)) = some p := by
    rw [← Option.isSome_iff_exists]
    decide
  obtain ⟨p, hrun⟩ := hrun
  have hends : singleMulti.Ends 1 := fun _ => Nat.one_pos
  exact ⟨p, hrun, variant_ends (by decide) hends (by decide) (by decide) hrun⟩

end Variant

end LearningCpp.Repository
