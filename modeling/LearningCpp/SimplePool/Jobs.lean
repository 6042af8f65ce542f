import LearningCpp.SimplePool.Pool

/-!
Every job that was pushed is in the list, in the hands of one thread, or has been run;
and a job in the list has a thread that will see to it, unless a worker was told to
terminate.
-/

namespace LearningCpp.SimplePool

open LearningCpp.Library

universe u

variable {ι : Type u} [DecidableEq ι]

/-- What the place of a thread says about its flag and about the list. -/
def Pc.Fact (terminate : Bool) (xs : List ι) : Pc ι → Prop
  | .idling => xs = []
  | .checking => xs = [] → terminate = true
  | .taking => xs ≠ []
  | .quitting | .exited => terminate = true
  | _ => True

/-- The thread will look at the list or wake a worker. -/
def Pc.Attends : Pc ι → Prop
  | .waiting | .exited | .pushing _ | .inserting _ | .releasing | .returned => False
  | _ => True

/-- What holds in every state, `xs` being the jobs in the list. -/
structure Sound (s : NThreadPool ι) (xs : List ι) : Prop where
  represents : Represents s.jobs xs
  mutex : Mutex s.threads Pc.Holds s.mtx
  nodup : s.pushed.Nodup
  counted : ∀ job, xs.count job + (s.threads.filterMap Pc.job).count job + s.ran.count job =
    s.pushed.count job
  fact : ∀ {i : Nat} {pc : Pc ι}, s.threads[i]? = some pc → pc.Fact (s.terminate i) xs
  attended : (∀ i, s.terminate i = false) → xs ≠ [] → ∃ pc ∈ s.threads, pc.Attends
  staffed : ∃ pc ∈ s.threads, pc.IsWorker

variable {s s' : NThreadPool ι} {xs ys : List ι} {i j : Nat} {pc pc' : Pc ι} {job : ι}

omit [DecidableEq ι] in
/-- Only a thread that has the mutex knows something about the list. -/
theorem Pc.Fact.of_not_holds {terminate : Bool} (h : pc.Fact terminate xs) (hfree : ¬ pc.Holds) :
    pc.Fact terminate ys := by
  cases pc with
  | idling | checking | taking => exact absurd trivial hfree
  | quitting | exited => exact h
  | _ => trivial

namespace Sound

theorem create (links : Links ι) (numWorker : Int) :
    Sound (nThreadPoolCreate links numWorker) [] where
  represents := Represents.empty rfl
  mutex := by
    apply Mutex.free
    intro pc hpc
    rw [List.eq_of_mem_replicate hpc]
    exact id
  nodup := List.nodup_nil
  counted := by
    intro job
    simp [nThreadPoolCreate, List.filterMap_replicate, Pc.job]
  fact := by
    intro i pc hpc
    rw [List.eq_of_mem_replicate (List.mem_of_getElem? hpc)]
    trivial
  attended := fun _ hne => absurd rfl hne
  staffed := by
    refine ⟨.locking, List.mem_replicate.2 ⟨?_, rfl⟩, trivial⟩
    split <;> omega

/-- What the places say when one thread has moved and the list is the same. -/
theorem fact_set (h : Sound s xs) (hpc : s.threads[i]? = some pc)
    (hfact : pc'.Fact (s.terminate i) xs) {pc₀ : Pc ι}
    (hpc₀ : (s.threads.set i pc')[j]? = some pc₀) : pc₀.Fact (s.terminate j) xs := by
  rcases (Mutex.getElem?_set_of_some hpc j).1 hpc₀ with ⟨rfl, rfl⟩ | ⟨-, hold⟩
  · exact hfact
  · exact h.fact hold

/-- A thread goes on that sees to the list before and after, or not at all. -/
theorem attends_set (h : Sound s xs) (hpc : s.threads[i]? = some pc)
    (hkeeps : pc.Attends → pc'.Attends) (hnone : ∀ i, s.terminate i = false) (hne : xs ≠ []) :
    ∃ pc₀ ∈ s.threads.set i pc', pc₀.Attends :=
  Mutex.exists_set hpc hkeeps (h.attended hnone hne)

/-- A thread goes on and leaves the list alone. -/
theorem goto (h : Sound s xs) (hpc : s.threads[i]? = some pc) {mtx : Option Nat}
    (hmutex : Mutex (s.threads.set i pc') Pc.Holds mtx) (hjob : pc'.job = pc.job)
    (hfact : pc'.Fact (s.terminate i) xs) (hworker : pc.IsWorker → pc'.IsWorker)
    (hattends : (∀ i, s.terminate i = false) → xs ≠ [] →
      ∃ pc₀ ∈ s.threads.set i pc', pc₀.Attends) : Sound (s.goto i pc' mtx) xs where
  represents := h.represents
  mutex := hmutex
  nodup := h.nodup
  counted := by
    intro job
    have hcount := count_filterMap_set_add hpc pc' Pc.job job
    rw [hjob, Nat.add_right_cancel_iff] at hcount
    simp only [NThreadPool.goto, hcount]
    exact h.counted job
  fact := h.fact_set hpc hfact
  attended := hattends
  staffed := Mutex.exists_set hpc hworker h.staffed

/-- A thread that has the mutex changes the list, by the job that it gets or gives. -/
theorem change (h : Sound s xs) (hpc : s.threads[i]? = some pc) (hholds : pc.Holds)
    (hholds' : pc'.Holds) {jobs : LinkedList ι} (hjobs : Represents jobs ys)
    (hcount : ∀ job, ys.count job + (if pc'.job = some job then 1 else 0) =
      xs.count job + (if pc.job = some job then 1 else 0))
    (hfact : pc'.Fact (s.terminate i) ys) (hworker : pc.IsWorker → pc'.IsWorker)
    (hattends : pc'.Attends) : Sound {s.goto i pc' s.mtx with jobs := jobs} ys where
  represents := hjobs
  mutex := h.mutex.move hpc ⟨fun _ => hholds, fun _ => hholds'⟩
  nodup := h.nodup
  counted := by
    intro job
    have hset := count_filterMap_set_add hpc pc' Pc.job job
    have hcounted := h.counted job
    have hcount := hcount job
    simp only [NThreadPool.goto]
    omega
  fact := by
    intro j pc₀ hpc₀
    rcases (Mutex.getElem?_set_of_some hpc j).1 hpc₀ with ⟨rfl, rfl⟩ | ⟨hne, hold⟩
    · exact hfact
    · exact (h.fact hold).of_not_holds (h.mutex.not_holding_of_ne hpc hholds hold hne.symm)
  attended := fun _ _ =>
    ⟨pc', Mutex.mem_set hpc pc', hattends⟩
  staffed := Mutex.exists_set hpc hworker h.staffed

/-- A job in the hands of a thread is not in the list. -/
theorem not_mem_of_job (h : Sound s xs) (hpc : s.threads[i]? = some pc)
    (hjob : pc.job = some job) : job ∉ xs := by
  intro hmem
  have hcounted := h.counted job
  have hle : s.pushed.count job ≤ 1 := List.nodup_iff_count_le_one.1 h.nodup job
  have hlist : 0 < xs.count job := List.count_pos_iff.2 hmem
  have hthread : 0 < (s.threads.filterMap Pc.job).count job :=
    List.count_pos_iff.2 (List.mem_filterMap.2 ⟨pc, List.mem_of_getElem? hpc, hjob⟩)
  omega

/-- `LL_INSERT` in `nThreadPoolPushTask` -/
theorem insert (h : Sound s xs) (hpc : s.threads[i]? = some (.inserting job)) :
    Sound {s.goto i .signalling s.mtx with jobs := LL_INSERT job s.jobs} (job :: xs) := by
  apply h.change hpc trivial
  · trivial
  · exact h.represents.insert (h.not_mem_of_job hpc rfl)
  · intro a
    simp only [List.count_cons, Pc.job, reduceCtorEq, if_false, Option.some.injEq, beq_iff_eq]
    rfl
  · trivial
  · exact id
  · trivial

/-- `LL_REMOVE` in `nThreadCallback` -/
theorem take (h : Sound s xs) (hpc : s.threads[i]? = some .taking)
    (hlist : s.jobs.list = some job) :
    ∃ ys, Sound {s.goto i (.unlocking job) s.mtx with jobs := LL_REMOVE job s.jobs} ys := by
  rw [h.represents.list_eq] at hlist
  obtain ⟨ys, rfl⟩ := List.head?_eq_some_iff.1 hlist
  have hremoved := h.represents.remove List.mem_cons_self
  rw [List.erase_cons_head] at hremoved
  refine ⟨ys, h.change hpc trivial ?_ hremoved ?_ trivial (fun _ => trivial) trivial⟩
  · trivial
  · intro a
    simp only [List.count_cons, Pc.job, reduceCtorEq, if_false, Option.some.injEq, beq_iff_eq]
    rfl

/-- The function of a job returns. -/
theorem finish (h : Sound s xs) (hpc : s.threads[i]? = some (.running job)) :
    Sound {s.goto i .locking s.mtx with ran := s.ran ++ [job]} xs where
  represents := h.represents
  mutex := h.mutex.move hpc Iff.rfl
  nodup := h.nodup
  counted := by
    intro a
    have hset := count_filterMap_set_add hpc .locking Pc.job a
    have hcounted := h.counted a
    simp only [Pc.job, reduceCtorEq, if_false, Option.some.injEq] at hset
    simp only [NThreadPool.goto, List.count_append, List.count_singleton, beq_iff_eq]
    omega
  fact := h.fact_set hpc (show Pc.locking.Fact (s.terminate i) xs from trivial)
  attended := h.attends_set hpc fun _ => trivial
  staffed := Mutex.exists_set hpc (fun _ => trivial) h.staffed

/-- A thread goes on with the mutex or without it. -/
theorem move (h : Sound s xs) (hpc : s.threads[i]? = some pc) (hsame : pc'.Holds ↔ pc.Holds)
    (hjob : pc'.job = pc.job) (hfact : pc'.Fact (s.terminate i) xs)
    (hworker : pc.IsWorker → pc'.IsWorker) (hattends : pc.Attends → pc'.Attends) :
    Sound (s.goto i pc' s.mtx) xs :=
  h.goto hpc (h.mutex.move hpc hsame) hjob hfact hworker (h.attends_set hpc hattends)

theorem acquire (h : Sound s xs) (hpc : s.threads[i]? = some pc) (hfree : s.mtx = none)
    (hholds : pc'.Holds) (hjob : pc'.job = pc.job) (hfact : pc'.Fact (s.terminate i) xs)
    (hworker : pc.IsWorker → pc'.IsWorker) (hattends : pc.Attends → pc'.Attends) :
    Sound (s.goto i pc' (some i)) xs :=
  h.goto hpc (h.mutex.acquire hfree hpc hholds) hjob hfact hworker (h.attends_set hpc hattends)

theorem run (h : Sound s xs) (hpc : s.threads[i]? = some pc) (hrun : s.run i pc = some s') :
    ∃ ys, Sound s' ys := by
  cases pc with
  | locking | relocking | pushing job =>
    simp only [NThreadPool.run, Option.ite_none_right_eq_some, Option.some.injEq] at hrun
    obtain ⟨hfree, rfl⟩ := hrun
    refine ⟨xs, h.acquire hpc hfree ?_ rfl ?_ id id⟩ <;> trivial
  | testing =>
    simp only [NThreadPool.run] at hrun
    split at hrun
    next hlist =>
      have hempty : xs = [] := h.represents.list_eq_none_iff.1 hlist
      split at hrun
      next hterminate =>
        cases hrun
        exact ⟨xs, h.move hpc Iff.rfl rfl (fun _ => hterminate) id id⟩
      next =>
        cases hrun
        exact ⟨xs, h.move hpc Iff.rfl rfl hempty id id⟩
    next hlist =>
      cases hrun
      refine ⟨xs, h.move hpc Iff.rfl rfl ?_ id id⟩
      intro hempty
      exact absurd (h.represents.list_eq_none_iff.2 hempty) hlist
  | idling =>
    cases hrun
    -- the list is empty when a worker begins to wait, and so nobody need see to it
    have hempty : xs = [] := h.fact hpc
    exact ⟨xs, h.goto hpc (h.mutex.release hpc trivial id) rfl trivial id
      fun _ hne => absurd hempty hne⟩
  | checking =>
    cases hrun
    have hfact := h.fact hpc
    cases hterminate : s.terminate i with
    | true =>
        exact ⟨xs, h.move hpc Iff.rfl rfl hterminate id id⟩
    | false =>
        refine ⟨xs, h.move hpc Iff.rfl rfl ?_ id id⟩
        intro hempty
        rw [hfact hempty] at hterminate
        cases hterminate
  | quitting =>
    cases hrun
    have hterminate : s.terminate i = true := h.fact hpc
    refine ⟨xs, h.goto hpc (h.mutex.release hpc trivial id) rfl hterminate id ?_⟩
    intro hnone
    rw [hnone i] at hterminate
    cases hterminate
  | taking =>
    simp only [NThreadPool.run] at hrun
    split at hrun
    next job hlist =>
      cases hrun
      exact h.take hpc hlist
    next => cases hrun
  | unlocking job =>
    cases hrun
    exact ⟨xs, h.goto hpc (h.mutex.release hpc trivial id) rfl trivial id (h.attends_set hpc id)⟩
  | running job =>
    cases hrun
    exact ⟨xs, h.finish hpc⟩
  | inserting job =>
    cases hrun
    exact ⟨job :: xs, h.insert hpc⟩
  | releasing =>
    cases hrun
    exact ⟨xs, h.goto hpc (h.mutex.release hpc trivial id) rfl trivial id (h.attends_set hpc id)⟩
  | waiting | exited | signalling | returned => cases hrun

/-- A worker that waits is woken up. -/
theorem wake (h : Sound s xs) (hpc : s.threads[j]? = some .waiting) :
    Sound (s.goto j .relocking s.mtx) xs :=
  h.move hpc Iff.rfl rfl trivial id fun _ => trivial

/-- The call leaves the signal behind; some other thread sees to the list. -/
theorem signalled (h : Sound s xs) (hpc : s.threads[i]? = some .signalling)
    (hother : (∀ i, s.terminate i = false) → ∃ pc ∈ s.threads, pc.IsWorker ∧ pc.Attends) :
    Sound (s.goto i .releasing s.mtx) xs := by
  refine h.goto hpc (h.mutex.move hpc Iff.rfl) rfl trivial id ?_
  intro hnone _
  have hstays : ∃ pc ∈ s.threads.set i .releasing, pc.IsWorker ∧ pc.Attends :=
    Mutex.exists_set hpc (fun hsignal => hsignal.1.elim) (hother hnone)
  obtain ⟨pc, hmem, -, hattends⟩ := hstays
  exact ⟨pc, hmem, hattends⟩

/-- A worker that does not wait and was not told to terminate will look at the list. -/
theorem attends_of_awake (h : Sound s xs) (hwaiting : Pc.waiting ∉ s.threads)
    (hnone : ∀ i, s.terminate i = false) : ∃ pc ∈ s.threads, pc.IsWorker ∧ pc.Attends := by
  obtain ⟨pc, hmem, hworker⟩ := h.staffed
  refine ⟨pc, hmem, hworker, ?_⟩
  obtain ⟨i, hpc⟩ := List.getElem?_of_mem hmem
  cases pc with
  | waiting => exact absurd hmem hwaiting
  | exited =>
      have hterminate : s.terminate i = true := h.fact hpc
      rw [hnone i] at hterminate
      cases hterminate
  | pushing | inserting | releasing | returned => exact hworker
  | _ => trivial

theorem signal (h : Sound s xs) (hpc : s.threads[i]? = some .signalling)
    (hsignal : s.signal i j = some s') : Sound s' xs := by
  simp only [NThreadPool.signal] at hsignal
  split at hsignal
  next hwaiting =>
    cases hsignal
    have hne : i ≠ j := by
      rintro rfl
      cases hpc.symm.trans hwaiting
    have hpc' : (s.goto j .relocking s.mtx).threads[i]? = some .signalling :=
      (Mutex.getElem?_set_of_some hwaiting i).2 (Or.inr ⟨hne, hpc⟩)
    apply (h.wake hwaiting).signalled hpc'
    intro _
    exact ⟨.relocking, Mutex.mem_set hwaiting .relocking, trivial, trivial⟩
  next =>
    split at hsignal
    next => cases hsignal
    next hawake =>
      cases hsignal
      exact h.signalled hpc (h.attends_of_awake hawake)

theorem push (h : Sound s xs) (hnew : job ∉ s.pushed) :
    Sound {s with threads := s.threads ++ [.pushing job], pushed := s.pushed ++ [job]} xs where
  represents := h.represents
  mutex := h.mutex.append id
  nodup := List.nodup_append.2 ⟨h.nodup, List.nodup_singleton job, by
    intro a ha b hb heq
    rw [heq, List.mem_singleton.1 hb] at ha
    exact hnew ha⟩
  counted := by
    intro a
    have hcounted := h.counted a
    simp only [List.filterMap_append, List.count_append, List.filterMap_cons, Pc.job,
      List.filterMap_nil]
    omega
  fact := by
    intro i pc hpc
    rw [List.getElem?_append] at hpc
    split at hpc
    · exact h.fact hpc
    · obtain rfl := List.mem_singleton.1 (List.mem_of_getElem? hpc)
      trivial
  attended := by
    intro hnone hne
    obtain ⟨pc, hmem, hattends⟩ := h.attended hnone hne
    exact ⟨pc, List.mem_append_left _ hmem, hattends⟩
  staffed := by
    obtain ⟨pc, hmem, hworker⟩ := h.staffed
    exact ⟨pc, List.mem_append_left _ hmem, hworker⟩

theorem terminate (h : Sound s xs) (i : Nat) :
    Sound {s with terminate := Function.update s.terminate i true} xs where
  represents := h.represents
  mutex := h.mutex
  nodup := h.nodup
  counted := h.counted
  fact := by
    intro j pc hpc
    have hfact := h.fact hpc
    simp only [Function.update_apply]
    split
    · cases pc <;> first | exact hfact | exact fun _ => rfl | rfl
    · exact hfact
  attended := by
    intro hnone
    have htold := hnone i
    simp at htold
  staffed := h.staffed

theorem broadcast (h : Sound s xs) :
    Sound {s with
      threads := s.threads.map fun pc => if pc = .waiting then .relocking else pc } xs where
  represents := h.represents
  mutex := by
    apply h.mutex.map
    intro pc
    split
    next hwaiting =>
      rw [hwaiting]
      rfl
    next => rfl
  nodup := h.nodup
  counted := by
    intro a
    have hjob : (Pc.job ∘ fun pc : Pc ι => if pc = .waiting then .relocking else pc) = Pc.job := by
      funext pc
      simp only [Function.comp]
      split
      next hwaiting =>
        rw [hwaiting]
        rfl
      next => rfl
    rw [List.filterMap_map, hjob]
    exact h.counted a
  fact := by
    intro i pc hpc
    rw [List.getElem?_map, Option.map_eq_some_iff] at hpc
    obtain ⟨pc₀, hpc₀, rfl⟩ := hpc
    split
    · trivial
    · exact h.fact hpc₀
  attended := by
    intro hnone hne
    obtain ⟨pc, hmem, hattends⟩ := h.attended hnone hne
    refine ⟨pc, List.mem_map.2 ⟨pc, hmem, if_neg ?_⟩, hattends⟩
    rintro rfl
    exact hattends
  staffed := by
    obtain ⟨pc, hmem, hworker⟩ := h.staffed
    refine ⟨_, List.mem_map.2 ⟨pc, hmem, rfl⟩, ?_⟩
    split
    · trivial
    · exact hworker

theorem step {a : Act ι} (h : Sound s xs) (hstep : s.step a = some s') : ∃ ys, Sound s' ys := by
  cases a with
  | run i =>
      obtain ⟨pc, hpc, hrun⟩ := Option.bind_eq_some_iff.1 hstep
      exact h.run hpc hrun
  | signal i j =>
      obtain ⟨hpc, hsignal⟩ := Option.ite_none_right_eq_some.1 hstep
      exact ⟨xs, h.signal hpc hsignal⟩
  | wake j =>
      obtain ⟨hpc, hwoken⟩ := Option.ite_none_right_eq_some.1 hstep
      cases hwoken
      exact ⟨xs, h.wake hpc⟩
  | push job =>
      obtain ⟨hnew, hpushed⟩ := Option.ite_none_left_eq_some.1 hstep
      cases hpushed
      exact ⟨xs, h.push hnew⟩
  | terminate i =>
      cases hstep
      exact ⟨xs, h.terminate i⟩
  | broadcast =>
      obtain ⟨-, hwoken⟩ := Option.ite_none_right_eq_some.1 hstep
      cases hwoken
      exact ⟨xs, h.broadcast⟩

end Sound

namespace Sound

theorem run_eq_none (hrest : s.AtRest) (hpc : s.threads[i]? = some pc) : s.run i pc = none := by
  have hstep := (hrest i).1
  rw [NThreadPool.step, hpc, Option.bind_some] at hstep
  exact hstep

/-- The thread that has the mutex can go on. -/
theorem not_holds_of_atRest (h : Sound s xs) (hrest : s.AtRest) (hpc : s.threads[i]? = some pc) :
    ¬ pc.Holds := by
  intro hholds
  have hrun := run_eq_none hrest hpc
  cases pc with
  | testing =>
      simp only [NThreadPool.run] at hrun
      split at hrun
      · split at hrun <;> cases hrun
      · cases hrun
  | taking =>
      have hne : xs ≠ [] := h.fact hpc
      simp only [NThreadPool.run] at hrun
      split at hrun
      next => cases hrun
      next hlist =>
        exact hne (h.represents.list_eq_none_iff.1 hlist)
  | signalling =>
      have hsignal : ∀ j, s.signal i j = none := by
        intro j
        have hstep := (hrest i).2 j
        rw [NThreadPool.step, if_pos hpc] at hstep
        exact hstep
      by_cases hwaiting : Pc.waiting ∈ s.threads
      · obtain ⟨j, hj⟩ := List.getElem?_of_mem hwaiting
        have hwoken := hsignal j
        rw [NThreadPool.signal, if_pos hj] at hwoken
        cases hwoken
      · have hlost := hsignal 0
        rw [NThreadPool.signal, if_neg fun hj => hwaiting (List.mem_of_getElem? hj),
          if_neg hwaiting] at hlost
        cases hlost
  | idling | checking | quitting | unlocking | inserting | releasing => cases hrun
  | locking | waiting | relocking | running | exited | pushing | returned => exact hholds

private theorem mtx_of_atRest (h : Sound s xs) (hrest : s.AtRest) : s.mtx = none := by
  cases hmtx : s.mtx with
  | none => rfl
  | some i =>
      obtain ⟨pc, hpc, hholds⟩ := h.mutex.holder hmtx
      exact absurd hholds (h.not_holds_of_atRest hrest hpc)

/-- At rest every thread waits or is done. -/
theorem done_of_atRest (h : Sound s xs) (hrest : s.AtRest) (hpc : s.threads[i]? = some pc) :
    pc.job = none ∧ ¬ pc.Attends := by
  have hrun := run_eq_none hrest hpc
  have hholds := h.not_holds_of_atRest hrest hpc
  cases pc with
  | locking | relocking | pushing =>
      rw [NThreadPool.run, if_pos (h.mtx_of_atRest hrest)] at hrun
      cases hrun
  | running => cases hrun
  | waiting | exited | returned => exact ⟨rfl, id⟩
  | _ => exact absurd trivial hholds

/-- At rest, when no worker was told to terminate, every job was run. -/
theorem all_run (h : Sound s xs) (hrest : s.AtRest) (hnone : ∀ i, s.terminate i = false) :
    s.ran.Perm s.pushed := by
  have hempty : xs = [] := by
    by_contra hne
    obtain ⟨pc, hmem, hattends⟩ := h.attended hnone hne
    obtain ⟨i, hpc⟩ := List.getElem?_of_mem hmem
    exact (h.done_of_atRest hrest hpc).2 hattends
  have hthreads : s.threads.filterMap Pc.job = [] := by
    rw [List.filterMap_eq_nil_iff]
    intro pc hmem
    obtain ⟨i, hpc⟩ := List.getElem?_of_mem hmem
    exact (h.done_of_atRest hrest hpc).1
  rw [List.perm_iff_count]
  intro job
  have hcounted := h.counted job
  rw [hempty, hthreads, List.count_nil, Nat.zero_add] at hcounted
  exact hcounted

end Sound

/-- The jobs that were pushed, without repetition, are those in the list, those in the hands
of a thread and those that were run. No worker takes one from an empty list, and when all is
at rest all of them were run, unless a worker was told to terminate. -/
structure Accounted (s : NThreadPool ι) : Prop where
  jobs : ∃ xs, WellFormed s.jobs xs ∧
    (xs ++ s.threads.filterMap Pc.job ++ s.ran).Nodup ∧
    (xs ++ s.threads.filterMap Pc.job ++ s.ran).Perm s.pushed
  takes : Pc.taking ∈ s.threads → s.jobs.list ≠ none
  all_run : s.AtRest → (∀ i, s.terminate i = false) → s.ran.Perm s.pushed

theorem Sound.accounted (h : Sound s xs) : Accounted s where
  jobs := by
    have hperm : (xs ++ s.threads.filterMap Pc.job ++ s.ran).Perm s.pushed := by
      rw [List.perm_iff_count]
      intro job
      rw [List.count_append, List.count_append]
      exact h.counted job
    exact ⟨xs, h.represents.wellFormed, hperm.nodup_iff.2 h.nodup, hperm⟩
  takes := by
    intro hmem
    obtain ⟨i, hpc⟩ := List.getElem?_of_mem hmem
    have hne : xs ≠ [] := h.fact hpc
    exact fun hlist => hne (h.represents.list_eq_none_iff.1 hlist)
  all_run := h.all_run

theorem sound_of_run {links : Links ι} {numWorker : Int} {acts : List (Act ι)}
    (hrun : runSteps NThreadPool.step (nThreadPoolCreate links numWorker) acts = some s) :
    ∃ xs, Sound s xs :=
  invariant_run (I := fun s => ∃ xs, Sound s xs) (fun ⟨_, h⟩ hstep => h.step hstep)
    ⟨[], Sound.create links numWorker⟩ hrun

/-- The list macros keep the list of a pool well formed, whatever the links held before: it
visits the items inserted and not removed, newest first, and a removed item is linked to
nothing. So a pool runs each job at most once and loses none. -/
theorem nThreadPool_keeps_jobs (links : Links ι) :
    (∀ ops xs, runSteps items [] ops = some xs →
      WellFormed (ops.foldl LinkedList.apply {links with list := none}) xs ∧
      ∀ x, .remove x ∈ ops → x ∉ xs →
        (ops.foldl LinkedList.apply {links with list := none}).next x = none ∧
        (ops.foldl LinkedList.apply {links with list := none}).prev x = none) ∧
    ∀ numWorker acts s,
      runSteps NThreadPool.step (nThreadPoolCreate links numWorker) acts = some s →
      Accounted s := by
  constructor
  · intro ops xs hitems
    have hempty : Represents {links with list := none} [] := Represents.empty rfl
    obtain ⟨hrep, hcleared⟩ := hempty.run ops hitems
    exact ⟨hrep.wellFormed, fun x hremove => hcleared x (Or.inl hremove)⟩
  · intro numWorker acts s hrun
    obtain ⟨xs, hsound⟩ := sound_of_run hrun
    exact hsound.accounted

/-- An item is removed from the middle of three whose links held anything before; and one
worker runs one job. -/
theorem nThreadPool_keeps_two_items_and_one_job :
    WellFormed ([.insert 1, .insert 2, .insert 3, .remove 2].foldl LinkedList.apply
      {next := fun _ => some 7, prev := fun _ => some 7, list := none}) [3, 1] ∧
    ∃ s, runSteps NThreadPool.step
        (nThreadPoolCreate ⟨fun _ : Nat => some 7, fun _ => some 7⟩ 1)
        [.push 5, .run 1, .run 1, .signal 1 0, .run 1, .run 0, .run 0, .run 0, .run 0, .run 0,
          .run 0] = some s ∧ s.ran = [5] ∧ Accounted s := by
  have hkept := nThreadPool_keeps_jobs (⟨fun _ : Nat => some 7, fun _ => some 7⟩ : Links Nat)
  have hrun : runSteps NThreadPool.step
      (nThreadPoolCreate ⟨fun _ : Nat => some 7, fun _ => some 7⟩ 1)
      [.push 5, .run 1, .run 1, .signal 1 0, .run 1, .run 0, .run 0, .run 0, .run 0, .run 0,
        .run 0] = some _ := rfl
  refine ⟨?_, _, hrun, rfl, hkept.2 _ _ _ hrun⟩
  exact (hkept.1 [.insert 1, .insert 2, .insert 3, .remove 2] [3, 1] rfl).1

end LearningCpp.SimplePool
