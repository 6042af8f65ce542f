import LearningCpp.Reactor.Registration

/-!
Rounds of the main loop. What a callback can lead to is said once. It changes no other slot
that is registered, so the events of a round that are still to be handled stay events of
registered slots, and no callback is invoked on another one.
-/

namespace LearningCpp.Reactor

open Library

namespace Loop

variable {s s' : Loop} {ev : Slot} {r : Results}

/-- What a callback that is invoked on a slot can lead to. -/
inductive Effect (s : Loop) (ev : Slot) (r : Results) : Loop → Prop where
  | refused : (s.g_events ev).call_back = .acceptconn → Effect s ev r s
  | admitted {cfd : Nat} : (s.g_events ev).call_back = .acceptconn → s.opened cfd = none →
      Effect s ev r (s.connect cfd)
  | accepted {cfd : Nat} {i : Slot} : (s.g_events ev).call_back = .acceptconn →
      s.opened cfd = none → i ≠ Fin.last MAX_EVENTS → (s.g_events i).status = false →
      Effect s ev r ((s.connect cfd).arm i (s.g_events i) cfd .recvdata .EPOLLIN r.now)
  | dropped : (s.g_events ev).call_back ≠ .acceptconn →
      ((s.g_events ev).call_back = .recvdata → ∀ buf ∈ r.recv, buf.val.length = 0) →
      ((s.g_events ev).call_back = .senddata → ∀ n ∈ r.send, min n (s.g_events ev).len = 0) →
      Effect s ev r (s.drop ev)
  | held {buf : {buf : List UInt8 // buf.length ≤ BUFLEN}} :
      (s.g_events ev).call_back = .recvdata → r.recv = some buf → 0 < buf.val.length →
      Effect s ev r (s.hold ev buf.val r.now)
  | released {n : Nat} : (s.g_events ev).call_back = .senddata → r.send = some n →
      0 < min n (s.g_events ev).len →
      Effect s ev r (s.release ev (min n (s.g_events ev).len) r.now)

private theorem effect_of_recvdata (h : Registered s) (hstatus : (s.g_events ev).status = true)
    (hback : (s.g_events ev).call_back = .recvdata) :
    Effect s ev r (s.recvdata (s.g_events ev).fd ev r) := by
  have haccept : (s.g_events ev).call_back ≠ .acceptconn := by simp [hback]
  have hsend : (s.g_events ev).call_back ≠ .senddata := by simp [hback]
  rw [recvdata_eq hstatus (h.isSome_opened hstatus) r]
  cases hrecv : r.recv with
  | none => exact Effect.dropped haccept (by simp [hrecv]) (fun h => absurd h hsend)
  | some buf =>
    simp only
    split
    next hpos =>
      exact Effect.held hback hrecv hpos
    next hempty =>
      refine Effect.dropped haccept ?_ (fun h => absurd h hsend)
      rintro - _ hmem
      cases hrecv.symm.trans hmem
      exact Nat.eq_zero_of_not_pos hempty

private theorem effect_of_senddata (h : Registered s) (hstatus : (s.g_events ev).status = true)
    (hback : (s.g_events ev).call_back = .senddata) :
    Effect s ev r (s.senddata (s.g_events ev).fd ev r) := by
  have haccept : (s.g_events ev).call_back ≠ .acceptconn := by simp [hback]
  have hrecv : (s.g_events ev).call_back ≠ .recvdata := by simp [hback]
  rw [senddata_eq hstatus (h.isSome_opened hstatus) r]
  cases hsend : r.send with
  | none => exact Effect.dropped haccept (fun h => absurd h hrecv) (by simp [hsend])
  | some n =>
    simp only
    split
    next hpos =>
      exact Effect.released hback hsend hpos
    next hempty =>
      refine Effect.dropped haccept (fun h => absurd h hrecv) ?_
      rintro - _ hmem
      cases hsend.symm.trans hmem
      exact Nat.eq_zero_of_not_pos hempty

theorem effect_of_acceptconn (h : Registered s) (hback : (s.g_events ev).call_back = .acceptconn)
    (haccept : s.acceptconn r = some s') : Effect s ev r s' := by
  obtain rfl | ⟨cfd, hcfd, rfl | ⟨i, hlast, hfree, rfl⟩⟩ :=
    acceptconn_cases haccept fun cfd hclosed => h.opened hclosed
  · exact Effect.refused hback
  · exact Effect.admitted hback hcfd
  · exact Effect.accepted hback hcfd hlast hfree

/-- A callback on a registered slot. -/
theorem effect_of_call (h : Registered s) (hstatus : (s.g_events ev).status = true)
    (hcall : s.call ev r = some s') :
    Effect {s with calls := s.calls ++ [(ev, true)]} ev r s' := by
  obtain ⟨events, htree⟩ := h.tree hstatus
  obtain ⟨harg, -⟩ := h.fits (h.slot htree).2.2
  have hlogged : Registered {s with calls := s.calls ++ [(ev, true)]} := h.congr rfl rfl rfl
  unfold call at hcall
  simp only [hstatus, harg] at hcall
  split at hcall
  next => cases hcall
  next hback =>
    exact effect_of_acceptconn hlogged hback hcall
  next hback =>
    cases hcall
    exact effect_of_recvdata hlogged hstatus hback
  next hback =>
    cases hcall
    exact effect_of_senddata hlogged hstatus hback

@[simp]
theorem record_calls (fd : Nat) (f : Conn → Conn) : (s.record fd f).calls = s.calls := by
  unfold record
  split <;> rfl

@[simp]
theorem record_overrun (fd : Nat) (f : Conn → Conn) : (s.record fd f).overrun = s.overrun := by
  unfold record
  split <;> rfl

theorem Effect.calls (heffect : Effect s ev r s') : s'.calls = s.calls := by
  cases heffect <;> simp [connect, arm, drop, hold, release]

/-- Another registered slot is not changed. -/
theorem Effect.frame (heffect : Effect s ev r s') {ev' : Slot} (hne : ev' ≠ ev)
    (hstatus : (s.g_events ev').status = true) : s'.g_events ev' = s.g_events ev' := by
  cases heffect with
  | refused => rfl
  | admitted => rfl
  | accepted _ _ _ hfree =>
    refine arm_of_ne ?_
    rintro rfl
    rw [hfree] at hstatus
    cases hstatus
  | dropped => exact drop_of_ne hne
  | held => exact (arm_of_ne hne).trans (congrFun (record_g_events _) ev')
  | released => exact (arm_of_ne hne).trans (congrFun (record_g_events _) ev')

theorem Effect.registered (heffect : Effect s ev r s') (h : Registered s)
    (hstatus : (s.g_events ev).status = true) : Registered s' := by
  cases heffect with
  | refused => exact h
  | admitted => exact h.connect
  | @accepted cfd i _ hcfd hlast hfree =>
    refine h.connect.arm ?_ ?_ ?_ (Fits.reader hlast) _ _
    · intro hbusy
      exact absurd (hfree.symm.trans hbusy) Bool.false_ne_true
    · intro events' ev' htree'
      exact absurd ((h.opened hcfd).symm.trans htree') nofun
    · simp [connect]
  | dropped => exact h.drop hstatus
  | held hback =>
    have hclient := h.client hstatus (by simp [hback])
    refine h.rearm ?_ ?_ ?_ hstatus (Fits.writer hclient) _ _
    · exact record_g_events _
    · exact record_tree _
    · exact record_opened _
  | released hback =>
    have hclient := h.client hstatus (by simp [hback])
    exact h.rearm (record_g_events _) (record_tree _) (record_opened _) hstatus
      (Fits.reader hclient) _ _

end Loop

/-- What dropping a registered client preserves, the timeout scan preserves. -/
theorem scan_induction {P : Loop → Prop} (hskip : ∀ {s} (pos), P s → P {s with checkpos := pos})
    (hdrop : ∀ {s ev}, P s → ev ≠ Fin.last MAX_EVENTS → (s.g_events ev).status = true →
      P (s.drop ev)) {s : Loop} (now : Int) (n : Nat) (h : P s) :
    P ((Loop.check now)^[n] s) := by
  refine Function.Iterate.rec P h ?_ n
  intro t ht
  obtain ⟨pos, hcheck | ⟨ev, hclient, hstatus, hcheck⟩⟩ := Loop.check_cases now t
  · rw [hcheck]
    exact hskip pos ht
  · rw [hcheck]
    exact hskip pos (hdrop ht hclient hstatus)

/-- The slots and the tree agree, also on the events that are still to be handled, and every
callback was invoked on a slot with status 1. -/
structure Sound (s : Loop) : Prop where
  registered : Registered s
  distinct : ∀ {rest}, s.phase = .handle rest → (rest.map Prod.snd).Nodup
  pending : ∀ {rest}, s.phase = .handle rest → ∀ e ∈ rest,
    (s.g_events e.2).status = true ∧ (s.g_events e.2).events = some e.1
  called : ∀ c ∈ s.calls, c.2 = true

/-- The event at the head of a round is handled by the callback of its slot. -/
theorem handle_cases {s s' : Loop} {r r' : Results} (h : Sound s)
    (hstep : step s (.handle r r') = some s') :
    ∃ events ev rest t, s.phase = .handle ((events, ev) :: rest) ∧
      (s.g_events ev).status = true ∧
      Loop.Effect {s with calls := s.calls ++ [(ev, true)]} ev
        (match events with | .EPOLLIN => r | .EPOLLOUT => r') t ∧
      s' = {t with phase := .handle rest} := by
  simp only [step] at hstep
  split at hstep
  next events ev rest hphase =>
    obtain ⟨hstatus, hevents⟩ := h.pending hphase _ List.mem_cons_self
    simp only [Option.map_eq_some_iff] at hstep
    obtain ⟨t, hhandle, rfl⟩ := hstep
    refine ⟨events, ev, rest, t, hphase, hstatus, ?_, rfl⟩
    refine Loop.effect_of_call h.registered hstatus ?_
    unfold Loop.handle at hhandle
    cases events with
    | EPOLLIN => simpa [hevents] using hhandle
    | EPOLLOUT => simpa [hevents] using hhandle
  next => cases hstep

theorem Sound.handle {s s' : Loop} {r r' : Results} (h : Sound s)
    (hstep : step s (.handle r r') = some s') : Sound s' := by
  obtain ⟨events, ev, rest, t, hphase, hstatus, heffect, rfl⟩ := handle_cases h hstep
  have hdistinct := h.distinct hphase
  rw [List.map_cons, List.nodup_cons] at hdistinct
  constructor
  · exact (heffect.registered (h.registered.congr rfl rfl rfl) hstatus).congr rfl rfl rfl
  · rintro _ ⟨⟩
    exact hdistinct.2
  · rintro _ ⟨⟩ e hmem
    obtain ⟨hstatus', hevents'⟩ := h.pending hphase e (List.mem_cons_of_mem _ hmem)
    have hne : e.2 ≠ ev := by
      intro heq
      exact hdistinct.1 (List.mem_map.2 ⟨e, hmem, heq⟩)
    have hframe := heffect.frame hne hstatus'
    exact ⟨by simp only [hframe, hstatus'], by simp only [hframe, hevents']⟩
  · intro c hmem
    have hcalls : t.calls = s.calls ++ [(ev, true)] := heffect.calls
    simp only [hcalls, List.mem_append, List.mem_singleton] at hmem
    obtain hmem | rfl := hmem
    · exact h.called c hmem
    · rfl

theorem Sound.scan {s s' : Loop} {now : Int} (h : Sound s)
    (hstep : step s (.scan now) = some s') : Sound s' := by
  simp only [step] at hstep
  split at hstep
  · obtain rfl := Option.some.inj hstep
    have hscan := scan_induction (P := fun t => Registered t ∧ t.calls = s.calls)
      (fun _ ht => ⟨ht.1.congr rfl rfl rfl, ht.2⟩) (fun ht _ hstatus => ⟨ht.1.drop hstatus, ht.2⟩)
      now 100 ⟨h.registered, rfl⟩
    generalize (Loop.check now)^[100] s = t at hscan ⊢
    refine ⟨hscan.1.congr rfl rfl rfl, nofun, nofun, ?_⟩
    simp only [hscan.2]
    exact h.called
  · cases hstep

/-- The descriptors that are ready give different slots. -/
theorem nodup_slots {s : Loop} (h : Registered s) {fds : List Nat} (hdistinct : fds.Nodup) :
    ((fds.filterMap s.tree).map Prod.snd).Nodup := by
  have hslot (fd : Nat) (e : Events × Slot) (htree : s.tree fd = some e) :
      (s.g_events e.2).fd = fd := (h.slot htree).1
  rw [List.map_filterMap]
  refine hdistinct.filterMap ?_
  intro fd fd' ev hfd hfd'
  obtain ⟨e, htree, rfl⟩ := Option.map_eq_some_iff.1 hfd
  obtain ⟨e', htree', heq⟩ := Option.map_eq_some_iff.1 hfd'
  rw [← hslot fd e htree, ← hslot fd' e' htree', heq]

theorem Sound.wait {s s' : Loop} {fds : List Nat} (h : Sound s)
    (hstep : step s (.wait fds) = some s') : Sound s' := by
  simp only [step] at hstep
  split at hstep
  next hready =>
    cases hstep
    refine ⟨h.registered.congr rfl rfl rfl, ?_, ?_, h.called⟩
    · rintro _ ⟨⟩
      exact nodup_slots h.registered hready.2.1
    · rintro _ ⟨⟩ e hmem
      obtain ⟨fd, -, htree⟩ := List.mem_filterMap.1 hmem
      exact (h.registered.slot htree).2
  next => cases hstep

theorem Sound.step {s s' : Loop} {a : Act} (h : Sound s) (hstep : step s a = some s') :
    Sound s' := by
  cases a with
  | scan now => exact h.scan hstep
  | wait fds => exact h.wait hstep
  | waitError =>
    simp only [Reactor.step] at hstep
    split at hstep
    · cases hstep
      exact ⟨h.registered.congr rfl rfl rfl, nofun, nofun, h.called⟩
    · cases hstep
  | handle r r' => exact h.handle hstep

theorem start_eq (others : Finset Nat) (lfd : Nat) (now : Int) : start others lfd now =
    Loop.arm
      { g_events := fun _ =>
          { fd := 0, events := none, arg := 0, call_back := .null, status := false
            buf := List.replicate BUFLEN 0, len := 0, last_active := 0 }
        checkpos := 0
        phase := .handle []
        tree := fun _ => none
        opened := fun fd => if fd = lfd ∨ fd ∈ others then some .other else none
        conns := []
        calls := []
        overrun := false }
      (Fin.last MAX_EVENTS)
      { fd := 0, events := none, arg := 0, call_back := .null, status := false
        buf := List.replicate BUFLEN 0, len := 0, last_active := 0 } lfd .acceptconn .EPOLLIN now := by
  unfold start
  exact Loop.eventset_eventadd (by simp) rfl .acceptconn now .EPOLLIN

theorem sound_start (others : Finset Nat) (lfd : Nat) (now : Int) :
    Sound (start others lfd now) := by
  rw [start_eq]
  constructor
  · refine Registered.arm ?_ ?_ ?_ (by simp) (Fits.listener rfl) _ _
    · constructor
      · intro fd events ev htree
        cases htree
      · intro ev hstatus
        cases hstatus
      · exact fun _ => rfl
      · intro ev events hevents
        cases hevents
    · intro hstatus
      cases hstatus
    · intro events ev htree
      cases htree
  · rintro _ ⟨⟩
    exact List.nodup_nil
  · rintro _ ⟨⟩
    exact nofun
  · intro c hmem
    cases hmem

/-- In every state between two callbacks of a run, a slot has status 1 exactly when its
descriptor is open and in the tree with the slot, no two such slots have one descriptor, the
callback of a slot is the one for its events, and all callbacks were invoked on slots with
status 1. -/
theorem reactor_registration (others : Finset Nat) (lfd : Nat) (now : Int) (acts : List Act)
    (s : Loop) (hrun : runSteps step (start others lfd now) acts = some s) :
    (∀ ev, (s.g_events ev).status = true ↔ (s.opened (s.g_events ev).fd).isSome ∧
      ∃ events, s.tree (s.g_events ev).fd = some (events, ev)) ∧
    (∀ ev ev', (s.g_events ev).status = true → (s.g_events ev').status = true → ev ≠ ev' →
      (s.g_events ev).fd ≠ (s.g_events ev').fd) ∧
    (∀ ev, ((s.g_events ev).status = true → (s.g_events ev).events ≠ none) ∧
      ((s.g_events ev).events = some .EPOLLIN →
        ((s.g_events ev).call_back = .acceptconn ∧ ev = Fin.last MAX_EVENTS) ∨
        ((s.g_events ev).call_back = .recvdata ∧ ev ≠ Fin.last MAX_EVENTS)) ∧
      ((s.g_events ev).events = some .EPOLLOUT →
        (s.g_events ev).call_back = .senddata ∧ ev ≠ Fin.last MAX_EVENTS)) ∧
    ∀ c ∈ s.calls, c.2 = true := by
  have h := invariant_run (fun hinv hstep => Sound.step hinv hstep) (sound_start others lfd now) hrun
  have hreg := h.registered
  refine ⟨?_, ?_, ?_, h.called⟩
  · intro ev
    constructor
    · intro hstatus
      exact ⟨hreg.isSome_opened hstatus, hreg.tree hstatus⟩
    · rintro ⟨-, events, htree⟩
      exact (hreg.slot htree).2.1
  · intro ev ev' hstatus hstatus' hne
    exact hreg.fd_ne hstatus hstatus' hne
  · intro ev
    refine ⟨?_, ?_, ?_⟩
    · intro hstatus
      obtain ⟨events, htree⟩ := hreg.tree hstatus
      simp [(hreg.slot htree).2.2]
    · intro hevents
      have hfits := (hreg.fits hevents).2
      generalize (s.g_events ev).call_back = call_back at hfits ⊢
      cases hfits with
      | listener hlast => exact Or.inl ⟨rfl, hlast⟩
      | reader hclient => exact Or.inr ⟨rfl, hclient⟩
    · intro hevents
      have hfits := (hreg.fits hevents).2
      generalize (s.g_events ev).call_back = call_back at hfits ⊢
      cases hfits with
      | writer hclient => exact ⟨rfl, hclient⟩

/-- What the system calls give when nothing comes. -/
def nothing : Results := {accept := none, fcntl := true, recv := none, send := none, now := 0}

/-- A client is accepted; in the next round it is gone, and a client that is accepted after it
gets its descriptor and its slot. -/
theorem reactor_registration_reuse :
    ∃ s, runSteps step (start {0, 1, 2, 4} 3 0) [Act.scan 0, Act.wait [3],
        Act.handle {nothing with accept := some 5} nothing, Act.scan 1, Act.wait [5, 3],
        Act.handle nothing nothing, Act.handle {nothing with accept := some 5} nothing] = some s ∧
      s.calls.length = 3 ∧ s.tree 5 = some (.EPOLLIN, 0) ∧ ∀ c ∈ s.calls, c.2 = true := by
  have hruns : (runSteps step (start {0, 1, 2, 4} 3 0) [Act.scan 0, Act.wait [3],
      Act.handle {nothing with accept := some 5} nothing, Act.scan 1, Act.wait [5, 3],
      Act.handle nothing nothing, Act.handle {nothing with accept := some 5} nothing]).map
        (fun s => (s.calls.length, s.tree 5)) = some (3, some (.EPOLLIN, 0)) := by
    decide +kernel
  obtain ⟨s, hrun, hseen⟩ := Option.map_eq_some_iff.1 hruns
  obtain ⟨hcalls, htree⟩ := Prod.mk.inj hseen
  exact ⟨s, hrun, hcalls, htree, (reactor_registration _ _ _ _ _ hrun).2.2.2⟩

end LearningCpp.Reactor
