import LearningCpp.SimpleReactor.Model

/-!
The listener's entry and the entries of the clients. As long as the search of `initAccept`
finds a free entry, an entry that asks for events is the one of a single descriptor, and the
listener keeps its own.
-/

namespace LearningCpp.SimpleReactor

open Library

/-- The listener's entry is as `main` has set it, and no two registered descriptors share an
entry. -/
def Exclusive (lfd : Nat) (s : Loop) : Prop :=
  (s.myevents (Fin.last EVENT_SIZE)).fd = lfd ∧
    (s.myevents (Fin.last EVENT_SIZE)).call_back = .initAccept ∧
    ∀ fd fd' events events' xev, s.tree fd = some (events, xev) →
      s.tree fd' = some (events', xev) → fd = fd'

/-- When the listener is handled, an entry for a client is free. -/
def Room (s : Loop) : Act → Prop
  | .handle _ => ∀ rest, s.pending = (some .EPOLLIN, Fin.last EVENT_SIZE) :: rest →
      ∃ i, i ≠ Fin.last EVENT_SIZE ∧ (s.myevents i).fd = 0
  | .wait _ => True

/-- Which callback an entry has for which event. -/
inductive Fits (xev : Slot) : Callback → Events → Prop where
  | listener : xev = Fin.last EVENT_SIZE → Fits xev .initAccept .EPOLLIN
  | reader : xev ≠ Fin.last EVENT_SIZE → Fits xev .read_data .EPOLLIN
  | writer : xev ≠ Fin.last EVENT_SIZE → Fits xev .send_data .EPOLLOUT

/-- The entries and the tree agree, and 0 stays open, so it is no client's descriptor. -/
structure Sound (lfd : Nat) (s : Loop) : Prop where
  listener : (s.myevents (Fin.last EVENT_SIZE)).fd = lfd ∧
    (s.myevents (Fin.last EVENT_SIZE)).events = some .EPOLLIN
  armed : ∀ {xev events}, (s.myevents xev).events = some events →
    s.tree (s.myevents xev).fd = some (events, xev)
  entry : ∀ {fd events xev}, s.tree fd = some (events, xev) →
    (s.myevents xev).fd = fd ∧ (s.myevents xev).events = some events
  fits : ∀ {xev events}, (s.myevents xev).events = some events →
    Fits xev (s.myevents xev).call_back events
  client : ∀ {xev events}, xev ≠ Fin.last EVENT_SIZE → (s.myevents xev).events = some events →
    (s.myevents xev).fd ≠ 0
  opened : ∀ {fd}, fd ∉ s.opened → s.tree fd = none
  zero : 0 ∈ s.opened

namespace Loop

variable {s s' : Loop} {xev xev' : Slot} {fd : Nat}

/-- An entry is registered with a descriptor. -/
def arm (s : Loop) (xev : Slot) (fd : Nat) (events : Events) (call_back : Callback) : Loop :=
  {s with
    myevents := Function.update s.myevents xev {s.myevents xev with
      fd := fd, events := some events, call_back := call_back}
    tree := Function.update s.tree fd (some (events, xev)) }

/-- A client is closed and its entry free. -/
def drop (s : Loop) (xev : Slot) (fd : Nat) : Loop :=
  {s with
    myevents := Function.update s.myevents xev .zero
    tree := Function.update s.tree fd none
    opened := s.opened.erase fd }

/-- A new connection. -/
def connect (s : Loop) (cfd : Nat) : Loop := {s with opened := insert cfd s.opened}

theorem event_add_eq (hopen : fd ∈ s.opened) (hfree : s.tree fd = none) (events : Events)
    (call_back : Callback) (xev : Slot) :
    s.event_add fd events call_back xev = s.arm xev fd events call_back := by
  simp only [event_add, put, epoll_ctl, hopen, hfree, and_self, if_true, arm]

/-- `initAccept` arms the entry at which its search has stopped. -/
theorem initAccept_eq {cfd : Nat} (hunused : cfd ∉ s.opened) (hfree : s.tree cfd = none) :
    s.initAccept (some cfd) =
      some ((s.connect cfd).arm s.available cfd .EPOLLIN .read_data) := by
  have hopen : cfd ∈ (s.connect cfd).opened := Finset.mem_insert_self ..
  rw [initAccept, if_neg hunused, ← event_add_eq hopen hfree]
  rfl

theorem event_set_eq (hwatched : s.tree fd ≠ none) (events : Events) (call_back : Callback)
    (xev : Slot) : s.event_set fd events call_back xev = s.arm xev fd events call_back := by
  simp only [event_set, put, epoll_ctl, hwatched, if_false, arm]

private theorem close_event_del {t : Loop} (hclose : s.close fd = some t) :
    t.event_del fd .EPOLLIN xev = s.drop xev fd := by
  unfold close at hclose
  split at hclose
  · rw [← Option.some.inj hclose]
    simp only [event_del, put, epoll_ctl, drop, Function.update_idem]
  · cases hclose

/-- What only concerns the buffers. -/
structure SameEntries (s t : Loop) : Prop where
  fd : ∀ xev, (t.myevents xev).fd = (s.myevents xev).fd
  events : ∀ xev, (t.myevents xev).events = (s.myevents xev).events
  call_back : ∀ xev, (t.myevents xev).call_back = (s.myevents xev).call_back
  tree : t.tree = s.tree
  opened : t.opened = s.opened

theorem put_self (s : Loop) (xev : Slot) (e : XEvent) : (s.put xev e).myevents xev = e :=
  Function.update_self ..

theorem put_of_ne (hne : xev' ≠ xev) (e : XEvent) :
    (s.put xev e).myevents xev' = s.myevents xev' :=
  Function.update_of_ne hne ..

theorem sameEntries_put {e : XEvent} (hfd : e.fd = (s.myevents xev).fd)
    (hevents : e.events = (s.myevents xev).events)
    (hback : e.call_back = (s.myevents xev).call_back) : SameEntries s (s.put xev e) := by
  constructor
  · intro xev'
    by_cases heq : xev' = xev
    · rw [heq, put_self, hfd]
    · rw [put_of_ne heq]
  · intro xev'
    by_cases heq : xev' = xev
    · rw [heq, put_self, hevents]
    · rw [put_of_ne heq]
  · intro xev'
    by_cases heq : xev' = xev
    · rw [heq, put_self, hback]
    · rw [put_of_ne heq]
  · rfl
  · rfl

private theorem sameEntries_receive (s : Loop) (xev : Slot)
    (read : Option {buf : List UInt8 // buf.length ≤ BUF_LEN}) :
    SameEntries s (s.receive xev read) := by
  cases read with
  | none => exact sameEntries_put rfl rfl rfl
  | some buf => exact sameEntries_put rfl rfl rfl

/-- The search stops at a free entry when there is one for a client. -/
theorem available_free (h : ∃ i, i ≠ Fin.last EVENT_SIZE ∧ (s.myevents i).fd = 0) :
    s.available ≠ Fin.last EVENT_SIZE ∧ (s.myevents s.available).fd = 0 := by
  obtain ⟨i, hclient, hfree⟩ := h
  unfold available
  cases hfind : ((List.finRange EVENT_SIZE).map Fin.castSucc).find? fun i =>
      (s.myevents i).fd = 0 with
  | none =>
    obtain ⟨j, rfl⟩ := Fin.exists_castSucc_eq.2 hclient
    have hnone := List.find?_eq_none.1 hfind j.castSucc
      (List.mem_map_of_mem (List.mem_finRange j))
    simp [hfree] at hnone
  | some k =>
    obtain ⟨j, -, rfl⟩ := List.mem_map.1 (List.mem_of_find?_eq_some hfind)
    exact ⟨(Fin.castSucc_lt_last j).ne, by simpa using List.find?_some hfind⟩

/-- Otherwise it stops at the listener's. -/
theorem available_last (h : ¬ ∃ i, i ≠ Fin.last EVENT_SIZE ∧ (s.myevents i).fd = 0) :
    s.available = Fin.last EVENT_SIZE := by
  unfold available
  cases hfind : ((List.finRange EVENT_SIZE).map Fin.castSucc).find? fun i =>
      (s.myevents i).fd = 0 with
  | none => rfl
  | some k =>
    obtain ⟨j, -, rfl⟩ := List.mem_map.1 (List.mem_of_find?_eq_some hfind)
    exact absurd ⟨_, (Fin.castSucc_lt_last j).ne, by simpa using List.find?_some hfind⟩ h

end Loop

namespace Sound

variable {lfd : Nat} {s t : Loop} {xev : Slot}

theorem congr (h : Sound lfd s) (hsame : s.SameEntries t) : Sound lfd t := by
  constructor
  · rw [hsame.fd, hsame.events]
    exact h.listener
  · intro xev events hevents
    rw [hsame.events] at hevents
    rw [hsame.fd, hsame.tree]
    exact h.armed hevents
  · intro fd events xev htree
    rw [hsame.tree] at htree
    rw [hsame.fd, hsame.events]
    exact h.entry htree
  · intro xev events hevents
    rw [hsame.events] at hevents
    rw [hsame.call_back]
    exact h.fits hevents
  · intro xev events hclient hevents
    rw [hsame.events] at hevents
    rw [hsame.fd]
    exact h.client hclient hevents
  · intro fd hclosed
    rw [hsame.opened] at hclosed
    rw [hsame.tree]
    exact h.opened hclosed
  · rw [hsame.opened]
    exact h.zero

theorem mem_opened (h : Sound lfd s) {fd : Nat} (hwatched : s.tree fd ≠ none) : fd ∈ s.opened := by
  by_contra hclosed
  exact hwatched (h.opened hclosed)

/-- An entry of a client is armed for its own descriptor, or a free one for a descriptor that
is not watched. -/
theorem arm (h : Sound lfd s) {fd : Nat} {events : Events} {call_back : Callback}
    (hclient : xev ≠ Fin.last EVENT_SIZE) (hfits : Fits xev call_back events) (hfd : fd ≠ 0)
    (hopen : fd ∈ s.opened)
    (hown : ∀ events', (s.myevents xev).events = some events' → (s.myevents xev).fd = fd)
    (hfree : ∀ events' xev', s.tree fd = some (events', xev') → xev' = xev) :
    Sound lfd (s.arm xev fd events call_back) := by
  constructor
  · simp only [Loop.arm, Function.update_of_ne hclient.symm]
    exact h.listener
  · intro xev' events' hevents'
    by_cases heq : xev' = xev
    · subst heq
      simp only [Loop.arm, Function.update_self, Option.some.injEq] at hevents' ⊢
      rw [hevents']
    · simp only [Loop.arm, Function.update_of_ne heq] at hevents' ⊢
      have htree := h.armed hevents'
      rw [Function.update_of_ne]
      · exact htree
      · intro hsame
        rw [hsame] at htree
        exact heq (hfree _ _ htree)
  · intro fd' events' xev' htree
    by_cases heq : fd' = fd
    · subst heq
      simp only [Loop.arm, Function.update_self, Option.some.injEq, Prod.mk.injEq] at htree
      obtain ⟨rfl, rfl⟩ := htree
      simp [Loop.arm]
    · simp only [Loop.arm, Function.update_of_ne heq] at htree ⊢
      have hentry := h.entry htree
      rw [Function.update_of_ne]
      · exact hentry
      · rintro rfl
        exact heq (hentry.1.symm.trans (hown _ hentry.2))
  · intro xev' events' hevents'
    by_cases heq : xev' = xev
    · subst heq
      simp only [Loop.arm, Function.update_self, Option.some.injEq] at hevents' ⊢
      rw [← hevents']
      exact hfits
    · simp only [Loop.arm, Function.update_of_ne heq] at hevents' ⊢
      exact h.fits hevents'
  · intro xev' events' hclient' hevents'
    by_cases heq : xev' = xev
    · subst heq
      simp only [Loop.arm, Function.update_self]
      exact hfd
    · simp only [Loop.arm, Function.update_of_ne heq] at hevents' ⊢
      exact h.client hclient' hevents'
  · intro fd' hclosed
    simp only [Loop.arm] at hclosed ⊢
    rw [Function.update_of_ne]
    · exact h.opened hclosed
    · rintro rfl
      exact hclosed hopen
  · exact h.zero

/-- A client's own entry is armed again. -/
theorem rearm (h : Sound lfd s) {events events' : Events} {call_back : Callback}
    (hclient : xev ≠ Fin.last EVENT_SIZE) (hevents : (s.myevents xev).events = some events)
    (hfits : Fits xev call_back events') :
    Sound lfd (s.arm xev (s.myevents xev).fd events' call_back) := by
  have htree := h.armed hevents
  apply h.arm hclient hfits (h.client hclient hevents)
  · apply h.mem_opened
    rw [htree]
    exact Option.some_ne_none _
  · exact fun _ _ => rfl
  · intro events'' xev' hwatched
    cases htree.symm.trans hwatched
    rfl

theorem drop (h : Sound lfd s) {events : Events} (hclient : xev ≠ Fin.last EVENT_SIZE)
    (hevents : (s.myevents xev).events = some events) :
    Sound lfd (s.drop xev (s.myevents xev).fd) := by
  have hown := h.armed hevents
  constructor
  · simp only [Loop.drop, Function.update_of_ne hclient.symm]
    exact h.listener
  · intro xev' events' hevents'
    by_cases heq : xev' = xev
    · subst heq
      simp only [Loop.drop, Function.update_self, XEvent.zero] at hevents'
      cases hevents'
    · simp only [Loop.drop, Function.update_of_ne heq] at hevents' ⊢
      have htree := h.armed hevents'
      rw [Function.update_of_ne]
      · exact htree
      · intro hsame
        rw [hsame, hown, Option.some.injEq, Prod.mk.injEq] at htree
        exact heq htree.2.symm
  · intro fd' events' xev' htree
    simp only [Loop.drop, Function.update_apply] at htree ⊢
    split at htree
    · cases htree
    · next hne =>
      have hentry := h.entry htree
      rw [if_neg]
      · exact hentry
      · rintro rfl
        exact hne hentry.1.symm
  · intro xev' events' hevents'
    by_cases heq : xev' = xev
    · subst heq
      simp only [Loop.drop, Function.update_self, XEvent.zero] at hevents'
      cases hevents'
    · simp only [Loop.drop, Function.update_of_ne heq] at hevents' ⊢
      exact h.fits hevents'
  · intro xev' events' hclient' hevents'
    by_cases heq : xev' = xev
    · subst heq
      simp only [Loop.drop, Function.update_self, XEvent.zero] at hevents'
      cases hevents'
    · simp only [Loop.drop, Function.update_of_ne heq] at hevents' ⊢
      exact h.client hclient' hevents'
  · intro fd' hclosed
    simp only [Loop.drop, Function.update_apply, Finset.mem_erase, not_and] at hclosed ⊢
    split
    · rfl
    · next hne => exact h.opened (hclosed hne)
  · exact Finset.mem_erase.2 ⟨(h.client hclient hevents).symm, h.zero⟩

theorem read_data (h : Sound lfd s) {read : Option {buf : List UInt8 // buf.length ≤ BUF_LEN}}
    (hclient : xev ≠ Fin.last EVENT_SIZE) (hevents : (s.myevents xev).events = some .EPOLLIN)
    (hread : s.read_data (s.myevents xev).fd xev read = some t) : Sound lfd t := by
  have hsame := Loop.sameEntries_receive s xev read
  have hreceived := h.congr hsame
  rw [← hsame.events] at hevents
  rw [← hsame.fd] at hread
  simp only [Loop.read_data] at hread
  split at hread
  · rw [← Option.some.inj hread, Loop.event_set_eq]
    · exact hreceived.rearm hclient hevents (Fits.writer hclient)
    · rw [hreceived.armed hevents]
      exact Option.some_ne_none _
  · split at hread
    · obtain ⟨u, hclose, rfl⟩ := Option.map_eq_some_iff.1 hread
      rw [Loop.close_event_del hclose]
      exact hreceived.drop hclient hevents
    · rw [← Option.some.inj hread]
      exact hreceived

theorem send_data (h : Sound lfd s) (hclient : xev ≠ Fin.last EVENT_SIZE)
    (hevents : (s.myevents xev).events = some .EPOLLOUT) :
    Sound lfd (s.send_data (s.myevents xev).fd xev) := by
  have hsame : s.SameEntries (s.write (s.myevents xev).fd xev) :=
    ⟨fun _ => rfl, fun _ => rfl, fun _ => rfl, rfl, rfl⟩
  have hwritten := h.congr hsame
  rw [Loop.send_data, Loop.event_set_eq]
  · exact hwritten.rearm hclient hevents (Fits.reader hclient)
  · rw [hsame.tree, h.armed hevents]
    exact Option.some_ne_none _

theorem connect (h : Sound lfd s) (cfd : Nat) : Sound lfd (s.connect cfd) := by
  refine ⟨h.listener, h.armed, h.entry, h.fits, h.client, ?_, ?_⟩
  · intro fd hclosed
    exact h.opened (fun hmem => hclosed (Finset.mem_insert_of_mem hmem))
  · exact Finset.mem_insert_of_mem h.zero

/-- With a free entry `initAccept` keeps the listener's and shares none. -/
theorem initAccept (h : Sound lfd s) {accept : Option Nat}
    (hroom : ∃ i, i ≠ Fin.last EVENT_SIZE ∧ (s.myevents i).fd = 0)
    (haccept : s.initAccept accept = some t) : Sound lfd t := by
  obtain ⟨hclient, hfree⟩ := Loop.available_free hroom
  cases accept with
  | none => cases haccept
  | some cfd =>
    by_cases hused : cfd ∈ s.opened
    · rw [Loop.initAccept, if_pos hused] at haccept
      cases haccept
    · have hunwatched := h.opened hused
      rw [Loop.initAccept_eq hused hunwatched] at haccept
      rw [← Option.some.inj haccept]
      have hzero : cfd ≠ 0 := by
        rintro rfl
        exact hused h.zero
      apply (h.connect cfd).arm hclient (Fits.reader hclient) hzero (Finset.mem_insert_self ..)
      · intro events hevents
        exact absurd hfree (h.client hclient hevents)
      · intro events xev' hwatched
        cases hunwatched.symm.trans hwatched

end Sound

variable {lfd : Nat} {s s' : Loop} {r : Results}

theorem Sound.exclusive (h : Sound lfd s) : Exclusive lfd s := by
  refine ⟨h.listener.1, ?_, ?_⟩
  · have hfits := h.fits h.listener.2
    generalize (s.myevents (Fin.last EVENT_SIZE)).call_back = call_back at hfits ⊢
    cases hfits with
    | listener => rfl
    | reader hclient => exact absurd rfl hclient
  · intro fd fd' events events' xev htree htree'
    exact (h.entry htree).1.symm.trans (h.entry htree').1

/-- What is still to be handled does not concern the entries. -/
theorem Sound.pending (h : Sound lfd s) (pending : List (Option Events × Slot)) :
    Sound lfd {s with pending := pending} :=
  h.congr ⟨fun _ => rfl, fun _ => rfl, fun _ => rfl, rfl, rfl⟩

/-- Handling an event keeps the entries sound, when the listener finds a free one. -/
theorem Sound.handle (h : Sound lfd s) (hroom : Room s (.handle r))
    (hstep : step s (.handle r) = some s') : Sound lfd s' := by
  simp only [step] at hstep
  split at hstep
  · cases hstep
  · next reported xev rest hpending =>
    obtain ⟨t, hhandle, rfl⟩ := Option.map_eq_some_iff.1 hstep
    apply Sound.pending
    unfold Loop.handle at hhandle
    split at hhandle
    · next hasked =>
      obtain ⟨events, rfl⟩ := Option.isSome_iff_exists.1 hasked.1
      have hfits := h.fits hasked.2
      simp only [Loop.call] at hhandle
      cases hback : (s.myevents xev).call_back with
      | null =>
        rw [hback] at hfits
        cases hfits
      | initAccept =>
        rw [hback] at hfits hhandle
        cases hfits with
        | listener hlast =>
          rw [hlast] at hpending
          exact h.initAccept (hroom rest hpending) hhandle
      | read_data =>
        rw [hback] at hfits hhandle
        cases hfits with
        | reader hclient => exact h.read_data hclient hasked.2 hhandle
      | send_data =>
        rw [hback] at hfits hhandle
        cases hfits with
        | writer hclient =>
          rw [← Option.some.inj hhandle]
          exact h.send_data hclient hasked.2
    · rw [← Option.some.inj hhandle]
      exact h

/-- The listener's callback is `initAccept`. -/
theorem Sound.step_listen (h : Sound lfd s) {rest : List (Option Events × Slot)}
    (hpending : s.pending = (some .EPOLLIN, Fin.last EVENT_SIZE) :: rest) (r : Results) :
    SimpleReactor.step s (.handle r) =
      (s.initAccept r.accept).map fun t => {t with pending := rest} := by
  have hback := h.exclusive.2.1
  simp only [SimpleReactor.step, hpending, Loop.handle, Loop.call, h.listener.2, hback,
    Option.isSome_some, and_self, if_true]

/-- Without a free entry the new connection takes the listener's. -/
theorem Sound.not_exclusive (h : Sound lfd s) {rest : List (Option Events × Slot)}
    (hpending : s.pending = (some .EPOLLIN, Fin.last EVENT_SIZE) :: rest)
    (hfull : ¬ ∃ i, i ≠ Fin.last EVENT_SIZE ∧ (s.myevents i).fd = 0)
    (hstep : step s (.handle r) = some s') : ¬ Exclusive lfd s' := by
  rw [h.step_listen hpending] at hstep
  obtain ⟨t, haccept, rfl⟩ := Option.map_eq_some_iff.1 hstep
  rintro ⟨hfd, -⟩
  cases hcfd : r.accept with
  | none =>
    rw [hcfd] at haccept
    cases haccept
  | some cfd =>
    rw [hcfd] at haccept
    by_cases hused : cfd ∈ s.opened
    · rw [Loop.initAccept, if_pos hused] at haccept
      cases haccept
    · rw [Loop.initAccept_eq hused (h.opened hused), Loop.available_last hfull] at haccept
      rw [← Option.some.inj haccept] at hfd
      simp only [Loop.arm, Function.update_self] at hfd
      apply hused
      rw [hfd, ← h.listener.1]
      apply h.mem_opened
      rw [h.armed h.listener.2]
      exact Option.some_ne_none _

theorem Sound.step {a : Act} (h : Sound lfd s) (hroom : Room s a) (hstep : step s a = some s') :
    Sound lfd s' := by
  cases a with
  | wait ready =>
    simp only [SimpleReactor.step] at hstep
    split at hstep
    · rw [← Option.some.inj hstep]
      exact h.pending _
    · cases hstep
  | handle r => exact h.handle hroom hstep

private theorem room_iff_exclusive {a : Act} (h : Sound lfd s) (hstep : step s a = some s') :
    Room s a ↔ Exclusive lfd s' := by
  constructor
  · exact fun hroom => (h.step hroom hstep).exclusive
  · intro hexclusive
    cases a with
    | wait ready => trivial
    | handle r =>
      intro rest hpending
      by_contra hfull
      exact h.not_exclusive hpending hfull hstep hexclusive

theorem sound_start (others : Finset Nat) : Sound (leastUnused others) (start others) := by
  have hlisten : leastUnused others ∈
      insert (leastUnused (insert (leastUnused others) others)) (insert (leastUnused others) others) :=
    Finset.mem_insert_of_mem (Finset.mem_insert_self ..)
  unfold start
  simp only
  rw [Loop.event_add_eq hlisten rfl]
  constructor
  · simp only [Loop.arm, Function.update_self, and_self]
  · intro xev events hevents
    simp only [Loop.arm, Function.update_apply] at hevents ⊢
    split at hevents
    · next hlast =>
      simp only [Option.some.injEq] at hevents
      rw [hlast, if_pos rfl, if_pos rfl, hevents]
    · cases hevents
  · intro fd events xev htree
    simp only [Loop.arm, Function.update_apply] at htree ⊢
    split at htree
    · next hfd =>
      simp only [Option.some.injEq, Prod.mk.injEq] at htree
      rw [if_pos htree.2.symm, hfd, htree.1]
      exact ⟨rfl, rfl⟩
    · cases htree
  · intro xev events hevents
    simp only [Loop.arm, Function.update_apply] at hevents ⊢
    split at hevents
    · next hlast =>
      simp only [Option.some.injEq] at hevents
      rw [if_pos hlast, ← hevents]
      exact Fits.listener hlast
    · cases hevents
  · intro xev events hclient hevents
    simp only [Loop.arm, Function.update_of_ne hclient] at hevents
    cases hevents
  · intro fd hclosed
    simp only [Loop.arm] at hclosed ⊢
    rw [Function.update_of_ne]
    rintro rfl
    exact hclosed hlisten
  · -- when 0 is not open before, it becomes the listener's descriptor
    simp only [Loop.arm]
    by_cases hzero : 0 ∈ others
    · exact Finset.mem_insert_of_mem (Finset.mem_insert_of_mem hzero)
    · have hlfd : leastUnused others = 0 := Nat.le_zero.1 (leastUnused_le hzero)
      rw [hlfd] at hlisten ⊢
      exact hlisten

/-- In a run the listener keeps its entry and no two descriptors share one if and only if an
entry for a client is free whenever the listener is handled. -/
theorem exclusive_along_iff (others : Finset Nat) (acts : List Act) (s : Loop)
    (hrun : runSteps step (start others) acts = some s) :
    Along step Room (start others) acts ↔
      Along step (fun t a => ∀ t', step t a = some t' → Exclusive (leastUnused others) t')
        (start others) acts := by
  apply along_iff_after (I := Sound (leastUnused others))
  · exact fun hsound hstep hroom => hsound.step hroom hstep
  · exact fun hsound => hsound.exclusive
  · exact fun hsound hstep hexclusive => (room_iff_exclusive hsound hstep).2 hexclusive
  · exact sound_start others
  · exact hrun

/-- A client connects and is accepted as `cfd`. -/
def connects (lfd cfd : Nat) : List Act :=
  [.wait [(lfd, true)], .handle {accept := some cfd, read := none}]

theorem exclusive_along_iff_five :
    ∃ s, runSteps step (start {0, 1, 2}) ([.wait [(3, true)]] ++
        [.handle {accept := some 5, read := none}]) = some s ∧
      Along step (fun t a => ∀ t', step t a = some t' → Exclusive (leastUnused {0, 1, 2}) t')
        (start {0, 1, 2})
        ([.wait [(3, true)]] ++ [.handle {accept := some 5, read := none}]) := by
  have hruns : (runSteps step (start {0, 1, 2}) ([.wait [(3, true)]] ++
      [.handle {accept := some 5, read := none}])).isSome = true := by
    decide +kernel
  have hfree : (runSteps step (start {0, 1, 2}) [.wait [(3, true)]]).map
      (fun t => (t.myevents 0).fd) = some 0 := by
    decide +kernel
  obtain ⟨s, hrun⟩ := Option.isSome_iff_exists.1 hruns
  refine ⟨s, hrun, (exclusive_along_iff _ _ s hrun).1 (along_append_iff.2 ⟨?_, ?_⟩)⟩
  · exact ⟨trivial, fun _ _ => trivial⟩
  · intro t ht
    rw [ht, Option.map_some, Option.some.injEq] at hfree
    exact ⟨fun _ _ => ⟨0, by decide, hfree⟩, fun _ _ => trivial⟩

/-- The entries that the search of `initAccept` takes for free. -/
def free (s : Loop) : Finset Slot :=
  Finset.univ.filter fun i => i ≠ Fin.last EVENT_SIZE ∧ (s.myevents i).fd = 0

theorem free_nonempty_iff :
    (free s).Nonempty ↔ ∃ i, i ≠ Fin.last EVENT_SIZE ∧ (s.myevents i).fd = 0 := by
  simp only [free, Finset.Nonempty, Finset.mem_filter, Finset.mem_univ, true_and]

/-- The entry of a new client is not free any more. -/
theorem free_arm {cfd : Nat} {xev : Slot} (hcfd : cfd ≠ 0) (events : Events)
    (call_back : Callback) : free (s.arm xev cfd events call_back) = (free s).erase xev := by
  ext i
  simp only [free, Finset.mem_filter, Finset.mem_univ, true_and, Finset.mem_erase, Loop.arm,
    Function.update_apply]
  by_cases heq : i = xev
  · simp [heq, hcfd]
  · simp [heq]

theorem run_connects (h : Sound lfd s) (hpending : s.pending = []) {cfd : Nat}
    (hunused : cfd ∉ s.opened) :
    runSteps step s (connects lfd cfd) =
      some {(s.connect cfd).arm s.available cfd .EPOLLIN .read_data with pending := []} := by
  have htree := h.armed h.listener.2
  rw [h.listener.1] at htree
  have hwait : step s (.wait [(lfd, true)]) =
      some {s with pending := [(some .EPOLLIN, Fin.last EVENT_SIZE)]} := by
    simp [step, hpending, htree, Loop.report]
  have hlistening := h.pending [(some .EPOLLIN, Fin.last EVENT_SIZE)]
  have haccept := Loop.initAccept_eq
    (s := {s with pending := [(some .EPOLLIN, Fin.last EVENT_SIZE)]}) hunused (h.opened hunused)
  rw [connects, runSteps, hwait, Option.bind_some, runSteps, hlistening.step_listen rfl, haccept]
  rfl

/-- After `n` clients as many entries are not free. -/
theorem run_crowd (n : Nat) (hn : n ≤ EVENT_SIZE) :
    ∃ s, runSteps step (start {0, 1, 2}) ((List.range n).flatMap fun i => connects 3 (5 + i)) =
        some s ∧
      Sound 3 s ∧ s.pending = [] ∧ (∀ fd ∈ s.opened, fd < 5 + n) ∧
        (free s).card + n = EVENT_SIZE := by
  induction n with
  | zero =>
    refine ⟨start {0, 1, 2}, rfl, sound_start {0, 1, 2}, rfl, by decide, ?_⟩
    decide +kernel
  | succ n ih =>
    obtain ⟨s, hrun, hsound, hpending, hopened, hfree⟩ := ih (by omega)
    have hunused : 5 + n ∉ s.opened := fun hmem => Nat.lt_irrefl _ (hopened _ hmem)
    have hroom : ∃ i, i ≠ Fin.last EVENT_SIZE ∧ (s.myevents i).fd = 0 := by
      rw [← free_nonempty_iff, ← Finset.card_pos]
      omega
    obtain ⟨hclient, hzero⟩ := Loop.available_free hroom
    have hconnects := run_connects hsound hpending hunused
    have hall := Sound.initAccept hsound hroom (Loop.initAccept_eq hunused (hsound.opened hunused))
    refine ⟨_, ?_, hall.pending [], rfl, ?_, ?_⟩
    · rw [List.range_succ, List.flatMap_append, runSteps_append, hrun, Option.bind_some,
        List.flatMap_singleton]
      exact hconnects
    · intro fd hmem
      rcases Finset.mem_insert.1 hmem with rfl | hold
      · omega
      · have hbelow := hopened fd hold
        omega
    · have hmem : s.available ∈ free s := by
        simp only [free, Finset.mem_filter, Finset.mem_univ, true_and]
        exact ⟨hclient, hzero⟩
      have herase : free ((s.connect (5 + n)).arm s.available (5 + n) .EPOLLIN .read_data) =
          (free s).erase s.available := free_arm (by omega) ..
      have hcard := Finset.card_erase_of_mem hmem
      have hpos := Finset.card_pos.2 ⟨_, hmem⟩
      change (free ((s.connect (5 + n)).arm s.available (5 + n) .EPOLLIN .read_data)).card +
        (n + 1) = EVENT_SIZE
      rw [herase, hcard]
      omega

/-- The client that comes when 1024 others are connected takes the listener's entry. -/
theorem not_exclusive_1025 :
    ∃ s, runSteps step (start {0, 1, 2}) ((List.range 1025).flatMap fun i => connects 3 (5 + i)) =
        some s ∧
      ¬ Exclusive (leastUnused {0, 1, 2}) s := by
  obtain ⟨s, hrun, hsound, hpending, hopened, hfree⟩ := run_crowd EVENT_SIZE le_rfl
  have hunused : 5 + EVENT_SIZE ∉ s.opened := fun hmem => Nat.lt_irrefl _ (hopened _ hmem)
  have hfull : ¬ ∃ i, i ≠ Fin.last EVENT_SIZE ∧ (s.myevents i).fd = 0 := by
    rw [← free_nonempty_iff, ← Finset.card_pos]
    omega
  have hlast : runSteps step (start {0, 1, 2})
      ((List.range 1025).flatMap fun i => connects 3 (5 + i)) =
        runSteps step s (connects 3 (5 + EVENT_SIZE)) := by
    have hsplit : List.range 1025 = List.range EVENT_SIZE ++ [EVENT_SIZE] := List.range_succ
    rw [hsplit, List.flatMap_append, runSteps_append, hrun, Option.bind_some,
      List.flatMap_singleton]
  refine ⟨_, hlast.trans (run_connects hsound hpending hunused), ?_⟩
  rintro ⟨hfd, -⟩
  simp only [Loop.available_last hfull, Loop.arm, Function.update_self] at hfd
  exact absurd hfd (by decide)

end LearningCpp.SimpleReactor
