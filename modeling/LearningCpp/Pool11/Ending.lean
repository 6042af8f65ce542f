import LearningCpp.Library.Measure
import LearningCpp.Pool11.Program

/-!
How the program that tests the pool of `zl_threadpool/ThreadPoolCpp11` ends: every run comes to
an end, all answers are printed in order by then, and the destructor returns exactly when no
worker was between its test of the predicate and its wait at the call of `notify_all`.
-/

namespace LearningCpp.Pool11

open LearningCpp.Library

/-- A worker wakes up without a call that notifies it. -/
def Act.isWake : Act → Bool
  | .wake _ => true
  | _ => false

/-- How many steps a worker takes until it sleeps, when it finds no task. -/
def Worker.stepsLeft : Worker → Nat
  | .running _ => 5
  | .looping => 4
  | .locking => 3
  | .testing => 2
  | .waiting | .taking => 1
  | .blocked | .exited => 0

/-- The worker sleeps or is about to. -/
def Worker.asleep : Worker → Bool
  | .waiting | .blocked => true
  | _ => false

/-- How many steps `main` takes that adds `n` tasks to a pool of `threads` workers, with those
that its calls cause. -/
def Caller.stepsLeft (n threads : Nat) : Caller → Nat
  | .adding i => 10 * (n - i) + n + 4 * threads + 5
  | .notifying i => 10 * (n - (i + 1)) + n + 4 * threads + 9
  | .getting i => n - i + 4 * threads + 4
  | .stopping => 4 * threads + 3
  | .notifyingAll => 4 * threads + 2
  | .joining i => threads - i + 1
  | .returned => 0

/-- How many steps are left, unless workers wake up without being notified. -/
def Program.stepsLeft (n : Nat) (s : Program) : Nat :=
  weigh Worker.stepsLeft s.workers + 5 * s.tasks.length + s.caller.stepsLeft n s.workers.length

/-- What a step may add to the steps that are left, and one. -/
def Act.charge (a : Act) : Nat := if a.isWake then 4 else 0

/-- Worker `j` has been joined. -/
def Caller.HasJoined (j : Nat) : Caller → Prop
  | .joining i => j < i
  | .returned => True
  | _ => False

variable {n i threads : Nat} {s s' t : Program} {pc : Worker}

/-- What a step of a worker can do. -/
theorem run_spec (hrun : s.run i pc = some s') :
    ∃ pc', s'.workers = s.workers.set i pc' ∧ s'.caller = s.caller ∧ pc ≠ .exited ∧
      pc'.stepsLeft + 5 * s'.tasks.length < pc.stepsLeft + 5 * s.tasks.length ∧
        (s.stop = true → pc'.asleep = pc.asleep) := by
  cases pc with
  | looping =>
      cases hrun
      refine ⟨_, rfl, rfl, Worker.noConfusion, ?_, ?_⟩
      · split <;> simp [Worker.stepsLeft, Program.goto]
      · intro hstop
        rw [if_pos hstop]
        rfl
  | locking =>
      simp only [Program.run, Option.ite_none_right_eq_some, Option.some.injEq] at hrun
      obtain ⟨-, rfl⟩ := hrun
      exact ⟨_, rfl, rfl, Worker.noConfusion, by simp [Worker.stepsLeft, Program.goto],
        fun _ => rfl⟩
  | testing =>
      cases hrun
      refine ⟨_, rfl, rfl, Worker.noConfusion, ?_, ?_⟩
      · split <;> simp [Worker.stepsLeft, Program.goto]
      · intro hstop
        rw [if_pos (Or.inl hstop)]
        rfl
  | waiting =>
      cases hrun
      exact ⟨_, rfl, rfl, Worker.noConfusion, by simp [Worker.stepsLeft, Program.goto],
        fun _ => rfl⟩
  | taking =>
      simp only [Program.run] at hrun
      split at hrun
      case isTrue =>
        cases hrun
        exact ⟨_, rfl, rfl, Worker.noConfusion, by simp [Worker.stepsLeft, Program.goto],
          fun _ => rfl⟩
      case isFalse hopen =>
        split at hrun
        case h_1 => cases hrun
        case h_2 task tasks htasks =>
          cases hrun
          refine ⟨_, rfl, rfl, Worker.noConfusion, ?_, fun hstop => absurd hstop hopen⟩
          simp only [Worker.stepsLeft, htasks, List.length_cons]
          omega
  | running task =>
      cases hrun
      exact ⟨_, rfl, rfl, Worker.noConfusion, by simp [Worker.stepsLeft, Program.goto],
        fun _ => rfl⟩
  | blocked | exited => cases hrun

/-- One that sleeps has three steps more when it is woken. -/
theorem weigh_woken {pc' : Worker} (hpc : s.workers[i]? = some .blocked) (hpc' : pc' = .locking) :
    weigh Worker.stepsLeft (s.workers.set i pc') = weigh Worker.stepsLeft s.workers + 3 := by
  have hadd := weigh_set_add hpc pc' (w := Worker.stepsLeft)
  rw [hpc'] at hadd ⊢
  exact hadd

/-- A step of `main` that does not notify one takes from the steps that are left. -/
theorem main_less (hmain : s.main n = some s') : s'.stepsLeft n < s.stepsLeft n := by
  unfold Program.main at hmain
  split at hmain
  case h_1 k hcaller =>
    split at hmain
    case isTrue hk =>
      simp only [Option.ite_none_right_eq_some, Option.some.injEq] at hmain
      obtain ⟨-, rfl⟩ := hmain
      simp only [Program.stepsLeft, hcaller, Caller.stepsLeft, List.length_append,
        List.length_singleton]
      omega
    case isFalse hk =>
      cases hmain
      simp only [Program.stepsLeft, hcaller, Caller.stepsLeft]
      omega
  case h_2 => cases hmain
  case h_3 k hcaller =>
    split at hmain
    case isTrue hk =>
      simp only [Option.ite_none_right_eq_some, Option.some.injEq] at hmain
      obtain ⟨-, rfl⟩ := hmain
      simp only [Program.stepsLeft, hcaller, Caller.stepsLeft]
      omega
    case isFalse hk =>
      cases hmain
      simp only [Program.stepsLeft, hcaller, Caller.stepsLeft]
      omega
  case h_4 hcaller =>
    cases hmain
    simp only [Program.stepsLeft, hcaller, Caller.stepsLeft]
    omega
  case h_5 hcaller =>
    cases hmain
    have hwoken : weigh Worker.stepsLeft
          (s.workers.map fun pc => if pc = .blocked then .locking else pc) ≤
        weigh Worker.stepsLeft s.workers + 3 * s.workers.length := by
      apply weigh_map_le
      intro pc
      cases pc <;> simp [Worker.stepsLeft]
    simp only [Program.stepsLeft, hcaller, Caller.stepsLeft, List.length_map]
    omega
  case h_6 k hcaller =>
    split at hmain
    case h_1 =>
      cases hmain
      simp only [Program.stepsLeft, hcaller, Caller.stepsLeft]
      omega
    case h_2 hexited =>
      cases hmain
      have hk : k < s.workers.length := (List.getElem?_eq_some_iff.mp hexited).1
      simp only [Program.stepsLeft, hcaller, Caller.stepsLeft]
      omega
    case h_3 => cases hmain
  case h_7 => cases hmain

private theorem notify_less (hnotify : s.notify i = some s') : s'.stepsLeft n < s.stepsLeft n := by
  unfold Program.notify at hnotify
  split at hnotify
  case h_1 k hcaller =>
    split at hnotify
    case isTrue hblocked =>
      cases hnotify
      have hwoken := weigh_woken hblocked rfl
      simp only [Program.stepsLeft, Program.goto, hcaller, Caller.stepsLeft, hwoken,
        List.length_set]
      omega
    case isFalse =>
      split at hnotify
      case isTrue => cases hnotify
      case isFalse =>
        cases hnotify
        simp only [Program.stepsLeft, hcaller, Caller.stepsLeft]
        omega
  case h_2 => cases hnotify

/-- Only a worker that wakes up by itself adds to the steps that are left. -/
theorem step_less {a : Act} (hstep : s.step n a = some s') :
    s'.stepsLeft n < s.stepsLeft n + a.charge := by
  cases a with
  | run i =>
      obtain ⟨pc, hpc, hrun⟩ := Option.bind_eq_some_iff.mp hstep
      obtain ⟨pc', hworkers, hcaller, -, hless, -⟩ := run_spec hrun
      have hadd := weigh_set_add hpc pc' (w := Worker.stepsLeft)
      simp only [Program.stepsLeft, hworkers, hcaller, List.length_set]
      omega
  | wake i =>
      simp only [Program.step, Option.ite_none_right_eq_some, Option.some.injEq] at hstep
      obtain ⟨hblocked, rfl⟩ := hstep
      have hwoken := weigh_woken hblocked rfl
      simp only [Program.stepsLeft, Program.goto, hwoken, List.length_set, Act.charge, Act.isWake,
        if_true]
      omega
  | main => exact main_less hstep
  | notify i => exact notify_less hstep

theorem charge_sum (as : List Act) : (as.map Act.charge).sum = 4 * as.countP Act.isWake := by
  induction as with
  | nil => rfl
  | cons a as ih =>
      rw [List.map_cons, List.sum_cons, ih, List.countP_cons, Act.charge]
      split <;> omega

/-- No run is longer than this. -/
theorem length_le {as : List Act} (hrun : runSteps (Program.step n) (start threads) as = some s) :
    as.length ≤ 8 * threads + 11 * n + 5 + 4 * as.countP Act.isWake := by
  have hcharged := @length_le_of_charged _ _ (Program.step n) (fun _ => True)
    (Program.stepsLeft n) Act.charge (fun _ _ => trivial) (fun _ hstep => step_less hstep) _ _ _
    trivial hrun
  have hloops : weigh Worker.stepsLeft (List.replicate threads .looping) ≤
      4 * (List.replicate threads Worker.looping).length := by
    apply weigh_le
    intro pc hpc
    rw [List.eq_of_mem_replicate hpc]
    decide
  rw [List.length_replicate] at hloops
  rw [charge_sum] at hcharged
  simp only [Program.stepsLeft, start, Caller.stepsLeft, List.length_nil,
    List.length_replicate] at hcharged
  omega

/-- What holds of the workers besides: their number, and that those that were joined exited. -/
structure Reached (threads n : Nat) (s : Program) : Prop where
  sound : Sound n s
  length_eq : s.workers.length = threads
  joined : ∀ {j pc}, s.caller.HasJoined j → s.workers[j]? = some pc → pc = .exited

/-- A step that moves one worker, which has not exited. -/
theorem Reached.moved (h : Reached threads n s) (hsound : Sound n s') {pc' : Worker}
    (hpc : s.workers[i]? = some pc) (hleft : pc ≠ .exited)
    (hworkers : s'.workers = s.workers.set i pc')
    (hcaller : ∀ j, s'.caller.HasJoined j → s.caller.HasJoined j) : Reached threads n s' where
  sound := hsound
  length_eq := by rw [hworkers, List.length_set, h.length_eq]
  joined := by
    intro j pc₀ hjoined hj
    rw [hworkers] at hj
    rcases (Mutex.getElem?_set_of_some hpc j).mp hj with ⟨rfl, -⟩ | ⟨-, hold⟩
    · exact absurd (h.joined (hcaller j hjoined) hpc) hleft
    · exact h.joined (hcaller j hjoined) hold

theorem Reached.main (h : Reached threads n s) (hmain : s.main n = some s') :
    Reached threads n s' := by
  have hsound := h.sound.main hmain
  unfold Program.main at hmain
  split at hmain
  case h_1 k hcaller =>
    split at hmain
    case isTrue hk =>
      simp only [Option.ite_none_right_eq_some, Option.some.injEq] at hmain
      obtain ⟨-, rfl⟩ := hmain
      exact ⟨hsound, h.length_eq, False.elim⟩
    case isFalse hk =>
      cases hmain
      exact ⟨hsound, h.length_eq, False.elim⟩
  case h_2 => cases hmain
  case h_3 k hcaller =>
    split at hmain
    case isTrue hk =>
      simp only [Option.ite_none_right_eq_some, Option.some.injEq] at hmain
      obtain ⟨-, rfl⟩ := hmain
      exact ⟨hsound, h.length_eq, False.elim⟩
    case isFalse hk =>
      cases hmain
      exact ⟨hsound, h.length_eq, False.elim⟩
  case h_4 hcaller =>
    cases hmain
    exact ⟨hsound, h.length_eq, False.elim⟩
  case h_5 hcaller =>
    cases hmain
    exact ⟨hsound, (List.length_map _).trans h.length_eq, fun hj => absurd hj (Nat.not_lt_zero _)⟩
  case h_6 k hcaller =>
    have hbefore : ∀ {j pc}, j < k → s.workers[j]? = some pc → pc = .exited := by
      intro j pc hj
      apply h.joined
      rw [hcaller]
      exact hj
    split at hmain
    case h_1 hnone =>
      cases hmain
      refine ⟨hsound, h.length_eq, ?_⟩
      intro j pc _ hj
      have hlt := (List.getElem?_eq_some_iff.mp hj).1
      have hle := List.getElem?_eq_none_iff.mp hnone
      exact hbefore (Nat.lt_of_lt_of_le hlt hle) hj
    case h_2 hexited =>
      cases hmain
      refine ⟨hsound, h.length_eq, ?_⟩
      intro j pc hj hpc
      rcases Nat.lt_succ_iff_lt_or_eq.mp hj with hlt | rfl
      · exact hbefore hlt hpc
      · exact Option.some.inj (hpc.symm.trans hexited)
    case h_3 => cases hmain
  case h_7 => cases hmain

theorem Reached.step {a : Act} (h : Reached threads n s) (hstep : s.step n a = some s') :
    Reached threads n s' := by
  have hsound := h.sound.step hstep
  cases a with
  | run i =>
      obtain ⟨pc, hpc, hrun⟩ := Option.bind_eq_some_iff.mp hstep
      obtain ⟨pc', hworkers, hcaller, hleft, -, -⟩ := run_spec hrun
      exact h.moved hsound hpc hleft hworkers fun j hj => hcaller ▸ hj
  | wake i =>
      simp only [Program.step, Option.ite_none_right_eq_some, Option.some.injEq] at hstep
      obtain ⟨hblocked, rfl⟩ := hstep
      exact h.moved hsound hblocked Worker.noConfusion rfl fun _ hj => hj
  | main => exact h.main hstep
  | notify i =>
      simp only [Program.step, Program.notify] at hstep
      split at hstep
      case h_1 k hcaller =>
        split at hstep
        case isTrue hblocked =>
          cases hstep
          exact h.moved hsound hblocked Worker.noConfusion rfl fun _ => False.elim
        case isFalse =>
          split at hstep
          case isTrue => cases hstep
          case isFalse =>
            cases hstep
            exact ⟨hsound, h.length_eq, False.elim⟩
      case h_2 => cases hstep

theorem reached_of_run {as : List Act}
    (hrun : runSteps (Program.step n) (start threads) as = some s) : Reached threads n s :=
  invariant_run (fun h hstep => Reached.step h hstep)
    ⟨start_sound threads n, List.length_replicate, False.elim⟩ hrun

/-- When no worker can go on, each sleeps or has exited, and the mutex is free. -/
theorem Sound.resting (h : Sound n s)
    (hstuck : ∀ i pc, s.workers[i]? = some pc → s.run i pc = none) :
    s.mtx = none ∧ ∀ pc ∈ s.workers, pc = .blocked ∨ pc = .exited := by
  have hfree : s.mtx = none := by
    rw [Option.eq_none_iff_forall_ne_some]
    intro j hlock
    obtain ⟨pc, hpc, hholds⟩ := h.mutex.holder hlock
    have hnone := hstuck j pc hpc
    cases pc with
    | testing | waiting => cases hnone
    | taking =>
        simp only [Program.run] at hnone
        split at hnone
        case isTrue => cases hnone
        case isFalse hopen =>
          split at hnone
          case h_1 hempty =>
            rcases h.takes (List.mem_of_getElem? hpc) with hstop | hne
            · exact hopen hstop
            · exact hne hempty
          case h_2 => cases hnone
    | looping | locking | blocked | running task | exited => exact hholds
  refine ⟨hfree, ?_⟩
  intro pc hmem
  obtain ⟨j, hj⟩ := List.getElem?_of_mem hmem
  have hnone := hstuck j pc hj
  cases pc with
  | blocked => exact Or.inl rfl
  | exited => exact Or.inr rfl
  | locking =>
      rw [Program.run, if_pos hfree] at hnone
      cases hnone
  | looping | running task => cases hnone
  | testing | waiting | taking => exact absurd trivial (h.mutex.not_holding_of_free hfree hj)

/-- Before the pool is stopped, workers that all rest have run every task that was added. -/
theorem Reached.answered (h : Reached threads n s) (hpos : 0 < threads)
    (hrest : ∀ pc ∈ s.workers, pc = .blocked ∨ pc = .exited) (hopen : s.stop = false)
    (hnotifies : s.caller.notifies = 0) {k : Nat} (hk : k < s.caller.added n) : k ∈ s.ran := by
  have hblocked : Worker.blocked ∈ s.workers := by
    obtain ⟨pc, hpc⟩ := List.exists_mem_of_length_pos (h.length_eq.symm ▸ hpos)
    rcases hrest pc hpc with rfl | rfl
    · exact hpc
    · have hstop := h.sound.exits hpc
      rw [hopen] at hstop
      cases hstop
  have hready : s.workers.countP Worker.ready = 0 := by
    rw [List.countP_eq_zero]
    intro pc hpc
    rcases hrest pc hpc with rfl | rfl <;> decide
  have htasks : s.tasks = [] := by
    have hserved := h.sound.served hblocked
    rw [hnotifies, hready] at hserved
    exact List.eq_nil_of_length_eq_zero (Nat.le_zero.mp hserved)
  have hidle : ∀ a, Worker.running a ∉ s.workers := by
    intro a hmem
    rcases hrest _ hmem with heq | heq <;> cases heq
  have hcount := h.sound.accounted.count_done hidle k
  have horder := h.sound.order
  rw [htasks, List.append_nil] at horder
  have hdequeued : 0 < s.dequeued.count k := by
    rw [horder]
    exact List.count_pos_iff.mpr (List.mem_range.mpr hk)
  exact List.count_pos_iff.mp (hcount.symm ▸ hdequeued)

/-- Where no thread can go on, `main` has returned or joins a worker that sleeps. -/
theorem Reached.stuck (h : Reached threads n s) (hpos : 0 < threads)
    (hend : ∀ a, a.isWake = false → s.step n a = none) :
    s.caller = .returned ∨ ∃ i, s.caller = .joining i ∧ s.workers[i]? = some .blocked := by
  have hworkers : ∀ i pc, s.workers[i]? = some pc → s.run i pc = none := by
    intro i pc hpc
    have hnone := hend (.run i) rfl
    rwa [Program.step, hpc] at hnone
  obtain ⟨hfree, hrest⟩ := h.sound.resting hworkers
  have hopen : ¬ s.caller.HasStopped → s.stop = false := by
    intro hnot
    exact Bool.eq_false_of_not_eq_true fun hstop => hnot (h.sound.stops.mp hstop)
  have hmain : s.main n = none := hend .main rfl
  cases hcaller : s.caller with
  | adding k =>
      have hstop := hopen (hcaller ▸ id)
      simp only [Program.main, hcaller, hfree, hstop, and_self, if_true] at hmain
      split at hmain <;> cases hmain
  | notifying k =>
      have hall : ∀ i, s.notify i = none := fun i => hend (.notify i) rfl
      simp only [Program.notify, hcaller] at hall
      rcases Classical.em (Worker.blocked ∈ s.workers) with hblocked | hnone
      · obtain ⟨j, hj⟩ := List.getElem?_of_mem hblocked
        have hwakes := hall j
        rw [if_pos hj] at hwakes
        cases hwakes
      · have hpasses := hall 0
        have hawake : s.workers[0]? ≠ some .blocked := fun h0 => hnone (List.mem_of_getElem? h0)
        rw [if_neg hawake, if_neg hnone] at hpasses
        cases hpasses
  | getting k =>
      have hstop := hopen (hcaller ▸ id)
      simp only [Program.main, hcaller] at hmain
      split at hmain
      case isTrue hk =>
        -- the answer is there, as the workers rest
        have hran : k ∈ s.ran := by
          apply h.answered hpos hrest hstop
          · rw [hcaller]
            rfl
          · rw [hcaller]
            exact hk
        rw [if_pos hran] at hmain
        cases hmain
      case isFalse => cases hmain
  | stopping | notifyingAll =>
      simp only [Program.main, hcaller] at hmain
      cases hmain
  | joining i =>
      simp only [Program.main, hcaller] at hmain
      split at hmain
      case h_1 => cases hmain
      case h_2 => cases hmain
      case h_3 pc hleft hpc =>
        refine Or.inr ⟨i, rfl, ?_⟩
        rcases hrest pc (List.mem_of_getElem? hpc) with rfl | rfl
        · exact hpc
        · exact absurd rfl hleft
  | returned => exact Or.inl rfl

theorem Sound.printed_prefix (h : Sound n s) : s.printed <+: List.range n := by
  have htake : (List.range n).take (s.caller.gotten n) = s.printed := by
    rw [List.take_range, Nat.min_eq_left h.gotten_le, h.printed]
  exact htake ▸ List.take_prefix _ _

/-- Every run of the program comes to an end: at most eight steps for each worker, eleven for
each task and five of `main` itself, and four for each time that a worker wakes up by itself. The
answers are printed in order, and when no thread can go on all are printed, and `main` has returned
after all workers have exited, or it joins one that sleeps. -/
theorem program_ends (k : Int) (hardware_concurrency : Nat) {as : List Act}
    (hrun : runSteps (Program.step n) (start (nthreads k hardware_concurrency)) as = some s) :
    as.length ≤ 8 * nthreads k hardware_concurrency + 11 * n + 5 + 4 * as.countP Act.isWake ∧
      s.printed <+: List.range n ∧
        ((∃ a, a.isWake = false ∧ (s.step n a).isSome) ∨
          s.printed = List.range n ∧
            (s.caller = .returned ∧ (∀ pc ∈ s.workers, pc = .exited) ∨
              ∃ i, s.caller = .joining i ∧ s.workers[i]? = some .blocked)) := by
  have hreached := reached_of_run hrun
  refine ⟨length_le hrun, hreached.sound.printed_prefix, ?_⟩
  rcases Classical.em (∃ a, a.isWake = false ∧ (s.step n a).isSome) with hnext | hend
  · exact Or.inl hnext
  · right
    have hstuck : ∀ a, a.isWake = false → s.step n a = none := by
      intro a ha
      exact Option.not_isSome_iff_eq_none.mp fun hsome => hend ⟨a, ha, hsome⟩
    have hprinted := hreached.sound.printed
    rcases hreached.stuck (nthreads_pos k hardware_concurrency) hstuck with
      hreturned | ⟨i, hjoining, hblocked⟩
    · rw [hreturned] at hprinted
      refine ⟨hprinted, Or.inl ⟨hreturned, ?_⟩⟩
      intro pc hpc
      obtain ⟨j, hj⟩ := List.getElem?_of_mem hpc
      exact hreached.joined (hreturned ▸ trivial) hj
    · rw [hjoining] at hprinted
      exact ⟨hprinted, Or.inr ⟨i, hjoining, hblocked⟩⟩

/-- One worker and one task, to the end. -/
theorem program_ends_one :
    ∃ s, runSteps (Program.step 1) (start (nthreads 1 8))
        [.main, .notify 0, .main, .run 0, .run 0, .run 0, .run 0, .run 0, .main, .main, .main,
          .main, .run 0, .main, .main] = some s ∧
      15 ≤ 8 * nthreads 1 8 + 11 * 1 + 5 + 4 * 0 ∧ s.printed <+: List.range 1 ∧
        ((∃ a, a.isWake = false ∧ (s.step 1 a).isSome) ∨
          s.printed = List.range 1 ∧
            (s.caller = .returned ∧ (∀ pc ∈ s.workers, pc = .exited) ∨
              ∃ i, s.caller = .joining i ∧ s.workers[i]? = some .blocked)) := by
  have hrun : ∃ s, runSteps (Program.step 1) (start (nthreads 1 8))
      [.main, .notify 0, .main, .run 0, .run 0, .run 0, .run 0, .run 0, .main, .main, .main,
        .main, .run 0, .main, .main] = some s := ⟨_, rfl⟩
  obtain ⟨s, hrun⟩ := hrun
  exact ⟨s, hrun, program_ends 1 8 hrun⟩

/-- After the call of `notify_all`, as many workers sleep or are about to as were between their
test and their wait then. -/
structure Notified (threads n m : Nat) (s : Program) : Prop where
  reached : Reached threads n s
  joins : (∃ i, s.caller = .joining i) ∨ s.caller = .returned
  asleep_eq : s.workers.countP Worker.asleep = m

theorem Notified.stop {m : Nat} (h : Notified threads n m s) : s.stop = true := by
  apply h.reached.sound.stops.mpr
  obtain ⟨i, hcaller⟩ | hcaller := h.joins
  · rw [hcaller]
    trivial
  · rw [hcaller]
    trivial

theorem Notified.step {m : Nat} {a : Act} (h : Notified threads n m s) (hwake : a.isWake = false)
    (hstep : s.step n a = some s') : Notified threads n m s' := by
  have hreached := h.reached.step hstep
  cases a with
  | run i =>
      obtain ⟨pc, hpc, hrun⟩ := Option.bind_eq_some_iff.mp hstep
      obtain ⟨pc', hworkers, hcaller, -, -, hasleep⟩ := run_spec hrun
      refine ⟨hreached, hcaller.symm ▸ h.joins, ?_⟩
      rw [hworkers, countP_set_same hpc (hasleep h.stop), h.asleep_eq]
  | wake i => cases hwake
  | main =>
      simp only [Program.step, Program.main] at hstep
      obtain ⟨i, hcaller⟩ | hcaller := h.joins
      · simp only [hcaller] at hstep
        split at hstep
        case h_1 =>
          cases hstep
          exact ⟨hreached, Or.inr rfl, h.asleep_eq⟩
        case h_2 =>
          cases hstep
          exact ⟨hreached, Or.inl ⟨i + 1, rfl⟩, h.asleep_eq⟩
        case h_3 => cases hstep
      · simp only [hcaller] at hstep
        cases hstep
  | notify i =>
      simp only [Program.step, Program.notify] at hstep
      obtain ⟨i, hcaller⟩ | hcaller := h.joins
      · simp only [hcaller] at hstep
        cases hstep
      · simp only [hcaller] at hstep
        cases hstep

/-- The call itself wakes those that sleep, and not those that are about to. -/
theorem Reached.notifyAll (h : Reached threads n s) (hcaller : s.caller = .notifyingAll)
    (hstep : s.step n .main = some s') : Notified threads n (s.workers.count .waiting) s' := by
  have hreached := h.step hstep
  simp only [Program.step, Program.main, hcaller] at hstep
  cases hstep
  refine ⟨hreached, Or.inl ⟨0, rfl⟩, ?_⟩
  rw [List.countP_map, List.count_eq_countP]
  apply List.countP_congr
  intro pc _
  cases pc <;> simp [Worker.asleep]

/-- The destructor returns exactly when no worker was between its test of the predicate and its
wait at the call of `notify_all`, unless workers wake up without being notified: after any run
to that call, and any run from there to where no thread can go on. -/
theorem destructor_returns_iff (k : Int) (hardware_concurrency : Nat) {as bs : List Act}
    (hrun : runSteps (Program.step n) (start (nthreads k hardware_concurrency)) as = some s)
    (hcaller : s.caller = .notifyingAll)
    (hlater : runSteps (Program.step n) s (.main :: bs) = some t)
    (hwake : ∀ a ∈ bs, a.isWake = false)
    (hend : ∀ a, a.isWake = false → t.step n a = none) :
    t.caller = .returned ↔ Worker.waiting ∉ s.workers := by
  obtain ⟨s', hfirst, hrest⟩ := runSteps_cons_iff.mp hlater
  have hnotified := invariant_along (C := fun _ a => a.isWake = false)
    (fun h hok hstep => Notified.step h hok hstep) ((reached_of_run hrun).notifyAll hcaller hfirst)
    (along_of_forall (fun a ha _ => hwake a ha) s') hrest
  have hasleep := hnotified.asleep_eq
  constructor
  · intro hreturned
    have hnone : t.workers.countP Worker.asleep = 0 := by
      rw [List.countP_eq_zero]
      intro pc hpc
      obtain ⟨j, hj⟩ := List.getElem?_of_mem hpc
      rw [hnotified.reached.joined (hreturned ▸ trivial) hj]
      decide
    rw [← List.count_eq_zero, ← hasleep, hnone]
  · intro hwaiting
    rw [List.count_eq_zero.mpr hwaiting, List.countP_eq_zero] at hasleep
    rcases hnotified.reached.stuck (nthreads_pos k hardware_concurrency) hend with
      hreturned | ⟨i, -, hblocked⟩
    · exact hreturned
    · exact absurd rfl (hasleep _ (List.mem_of_getElem? hblocked))

/-- The worker has found the queue empty and the pool running, `stop_` is set and all are
notified, and then the worker waits: its thread is joined for ever. -/
theorem destructor_returns_iff_missed :
    ∃ s t, runSteps (Program.step 0) (start (nthreads 1 8))
        [.main, .main, .run 0, .run 0, .run 0, .main] = some s ∧
      runSteps (Program.step 0) s [.main, .run 0] = some t ∧
        (t.caller = .returned ↔ Worker.waiting ∉ s.workers) ∧ t.caller = .joining 0 := by
  have hrun : ∃ s t, runSteps (Program.step 0) (start (nthreads 1 8))
        [.main, .main, .run 0, .run 0, .run 0, .main] = some s ∧
      runSteps (Program.step 0) s [.main, .run 0] = some t ∧ s.caller = .notifyingAll ∧
        t.caller = .joining 0 ∧ t.workers = [.blocked] := ⟨_, _, rfl, rfl, rfl, rfl, rfl⟩
  obtain ⟨s, t, hrun, hlater, hcaller, hjoining, hworkers⟩ := hrun
  have hend : ∀ a, a.isWake = false → t.step 0 a = none := by
    intro a ha
    cases a with
    | run i => cases i <;> simp [Program.step, hworkers, Program.run]
    | wake i => cases ha
    | main => simp [Program.step, Program.main, hjoining, hworkers]
    | notify i => simp [Program.step, Program.notify, hjoining]
  exact ⟨s, t, hrun, hlater,
    destructor_returns_iff 1 8 hrun hcaller hlater (by decide) hend, hjoining⟩

end LearningCpp.Pool11
