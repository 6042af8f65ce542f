import LearningCpp.Echo.Server

/-!
When messages are read one at a time, the buffer of the echo server holds the
message of at most one client, which is the one that is waiting to be written.
-/

namespace LearningCpp.Echo

open Library

variable {listenfd : Nat} {s s' : Server}

/-- What one step can do. -/
theorem step_cases {a : Act} (h : step listenfd s a = some s') :
    (∃ events, a = .epoll_wait events ∧ s.overrun = false ∧ s.events = [] ∧
      Reported listenfd s.clients events ∧ s' = {s with events := events}) ∨
    ∃ k e rest, a = .handle k ∧ s.events = e :: rest ∧ s.overrun = false ∧
      handle_event listenfd {s with events := rest} e k = some s' := by
  cases a with
  | epoll_wait events =>
      simp only [step] at h
      split at h
      · next hcond => exact Or.inl ⟨events, rfl, hcond.1, hcond.2.1, hcond.2.2, by simpa using h.symm⟩
      · cases h
  | handle k =>
      simp only [step] at h
      split at h
      · cases h
      · next e rest hevents =>
        split at h
        · next hoverrun => exact Or.inr ⟨k, e, rest, rfl, hevents, hoverrun, h⟩
        · cases h

/-- What handling one event can do. -/
theorem handle_event_cases {e : Event} {k : Kernel}
    (h : handle_event listenfd s e k = some s') :
    s' = s ∨
    (∃ newfd, newfd ≠ listenfd ∧ s.clients newfd = none ∧
      s' = s.put newfd {state := .epollin, received := [], room := [], written := []}) ∨
    ∃ c, s.clients e.fd = some c ∧
      (e.epollin ∧ do_read s e.fd c k.read = some s' ∧ ¬ e.fd = listenfd ∨
        e.epollin = false ∧ e.epollout ∧ do_write s e.fd c k.write = some s') := by
  simp only [handle_event] at h
  split at h
  · cases haccept : k.accept with
    | none =>
        rw [haccept, handle_accept] at h
        exact Or.inl (Option.some.inj h).symm
    | some newfd =>
        rw [haccept, handle_accept] at h
        split at h
        · cases h
        · next hnew =>
          rw [not_or, Bool.not_eq_true, Option.isSome_eq_false_iff, Option.isNone_iff_eq_none] at hnew
          exact Or.inr (Or.inl ⟨newfd, hnew.1, hnew.2, (Option.some.inj h).symm⟩)
  · next hlisten =>
    split at h
    · exact Or.inl (Option.some.inj h).symm
    · next c hc =>
      split at h
      · next hin => exact Or.inr (Or.inr ⟨c, hc, Or.inl ⟨hin, h, fun heq => hlisten ⟨heq, hin⟩⟩⟩)
      · next hin =>
        split at h
        · next hout => exact Or.inr (Or.inr ⟨c, hc, Or.inr ⟨Bool.eq_false_iff.mpr hin, hout, h⟩⟩)
        · exact Or.inl (Option.some.inj h).symm

/-- The message of a client that is waiting for it to be written. -/
def Client.Waiting (c : Client) (msg : List UInt8) : Prop :=
  c.state = .epollout ∧ ∃ msgs, c.received = msgs ++ [msg] ∧ msgs.length = c.room.length

/-- A client that has been written all that it sent, or is waiting for that. -/
structure Client.Fair (c : Client) : Prop where
  echo : c.written = c.echo
  even : c.state = .epollin → c.received.length = c.room.length

/-- Whose message is in the buffer; all others are waiting for one to read. -/
def Server.Owner (s : Server) (owner : Option Nat) : Prop :=
  (∀ fd c, s.clients fd = some c → owner ≠ some fd → c.state = .epollin) ∧
  match owner with
  | none => s.buf = zeros
  | some fd =>
      ∃ c msg, s.clients fd = some c ∧ c.Waiting msg ∧ 0 ∈ s.buf ∧
        s.buf = msg ++ List.replicate (MAXSIZE - msg.length) 0

/-- What holds while messages are read one at a time. -/
structure Server.Orderly (listenfd : Nat) (s : Server) : Prop where
  overrun : s.overrun = false
  events_nodup : (s.events.map Event.fd).Nodup
  events_match : ∀ e ∈ s.events, e.matches listenfd s.clients
  fair : ∀ {fd : Nat} {c : Client}, s.clients fd = some c → c.Fair
  closed : ∀ c ∈ s.closed, c.written = c.echo
  owner : ∃ owner, s.Owner owner

private theorem init_orderly (listenfd : Nat) : Server.Orderly listenfd .init where
  overrun := rfl
  events_nodup := List.nodup_nil
  events_match := by
    intro e he
    cases he
  fair := by
    intro fd c hc
    cases hc
  closed := by
    intro c hc
    cases hc
  owner := ⟨none, (by intro fd c hc; cases hc), rfl⟩

theorem matches_update {e : Event} {clients : Nat → Option Client} {fd : Nat} {c : Option Client}
    (hne : e.fd ≠ fd) : e.matches listenfd (Function.update clients fd c) = e.matches listenfd clients := by
  simp only [Event.matches, Function.update_of_ne hne]

/-- The state of a client for which an event is reported. -/
theorem state_of_matches {e : Event} {c : Client} (hmatch : e.matches listenfd s.clients)
    (hc : s.clients e.fd = some c) (hlisten : e.fd ≠ listenfd) :
    (e.epollin → c.state = .epollin) ∧ (e.epollout → c.state = .epollout) := by
  rw [Event.matches, if_neg hlisten, hc] at hmatch
  simp only [Bool.and_eq_true, Bool.or_eq_true, Bool.not_eq_true', decide_eq_true_eq] at hmatch
  constructor
  · intro hin
    rw [hin] at hmatch
    simpa using hmatch.1
  · intro hout
    rw [hout] at hmatch
    simpa using hmatch.2

private theorem cstring_pad (msg : List UInt8) (k : Nat) :
    cstring (msg ++ List.replicate k 0) = cstring msg := by
  induction msg with
  | nil =>
      cases k with
      | zero => rfl
      | succ k => rfl
  | cons b bs ih =>
      rw [cstring, cstring, List.cons_append, List.takeWhile_cons, List.takeWhile_cons]
      split
      · rw [← cstring, ← cstring, ih]
      · rfl

theorem echo_sublist (c : Client) : c.echo.Sublist c.received.flatten := by
  unfold Client.echo
  generalize c.room = room
  induction c.received generalizing room with
  | nil => exact List.Sublist.refl _
  | cons msg msgs ih =>
      cases room with
      | nil => exact List.nil_sublist _
      | cons k ks =>
          rw [List.zipWith_cons_cons, List.flatten_cons, List.flatten_cons]
          have hmsg : ((cstring msg).take k).Sublist msg :=
            (List.take_sublist k _).trans (List.takeWhile_sublist _)
          exact hmsg.append (ih ks)

/-- Writing the message of a waiting client makes up for it. -/
theorem Client.Waiting.echo_write {c : Client} {msg : List UInt8} (h : c.Waiting msg) (room : Nat)
    (written : List UInt8) :
    Client.echo {c with state := .epollin, room := c.room ++ [room], written := written} =
      c.echo ++ (cstring msg).take room := by
  obtain ⟨-, msgs, hreceived, hlength⟩ := h
  have hrest : c.echo = (List.zipWith (fun m k => (cstring m).take k) msgs c.room).flatten := by
    rw [Client.echo, hreceived, ← List.append_nil c.room, List.zipWith_append hlength,
      List.append_nil, List.zipWith_nil_right, List.append_nil]
  rw [hrest, Client.echo, hreceived]
  simp only
  rw [List.zipWith_append hlength, List.flatten_append]
  simp

/-- A message that has just been read does not count yet. -/
theorem echo_received {c : Client} (heven : c.received.length = c.room.length) (msg : List UInt8) :
    Client.echo {c with state := .epollout, received := c.received ++ [msg]} = c.echo := by
  unfold Client.echo
  simp only
  conv_lhs => rw [← List.append_nil c.room, List.zipWith_append heven]
  rw [List.zipWith_nil_right, List.append_nil]

namespace Server.Orderly

theorem tail (h : Server.Orderly listenfd s) {e : Event} {rest : List Event}
    (hevents : s.events = e :: rest) : Server.Orderly listenfd {s with events := rest} := by
  have hnodup := h.events_nodup
  rw [hevents, List.map_cons, List.nodup_cons] at hnodup
  refine ⟨h.overrun, hnodup.2, ?_, h.fair, h.closed, h.owner⟩
  intro e' he'
  exact h.events_match e' (hevents ▸ List.mem_cons_of_mem _ he')

/-- A client is added or changes, none of the events left being about it. -/
theorem put (h : Server.Orderly listenfd s) {fd : Nat} {c : Client} {buf : List UInt8}
    (owner : Option Nat) (hevents : ∀ e ∈ s.events, e.fd ≠ fd) (hfair : c.Fair)
    (howner : Server.Owner {s.put fd c with buf := buf} owner) :
    Server.Orderly listenfd {s.put fd c with buf := buf} := by
  refine ⟨h.overrun, h.events_nodup, ?_, ?_, h.closed, owner, howner⟩
  · intro e he
    have hmatch := h.events_match e he
    rwa [← matches_update (hevents e he)] at hmatch
  · intro fd' c' hc'
    simp only [Server.put, Function.update_apply] at hc'
    split at hc'
    · exact Option.some.inj hc' ▸ hfair
    · exact h.fair hc'

theorem close (h : Server.Orderly listenfd s) {fd : Nat} {c : Client} {buf : List UInt8}
    (owner : Option Nat) (hevents : ∀ e ∈ s.events, e.fd ≠ fd) (hc : s.clients fd = some c)
    (howner : Server.Owner {s.close fd c with buf := buf} owner) :
    Server.Orderly listenfd {s.close fd c with buf := buf} := by
  refine ⟨h.overrun, h.events_nodup, ?_, ?_, ?_, owner, howner⟩
  · intro e he
    have hmatch := h.events_match e he
    rwa [← matches_update (hevents e he)] at hmatch
  · intro fd' c' hc'
    simp only [Server.close, Function.update_apply] at hc'
    split at hc'
    · cases hc'
    · exact h.fair hc'
  · intro c' hc'
    rcases List.mem_cons.mp hc' with rfl | hold
    · exact (h.fair hc).echo
    · exact h.closed c' hold

/-- When a client that is not waiting to be written changes or goes, the buffer
still belongs to the same one. -/
theorem owner_update {owner : Option Nat} {fd : Nat} {c? : Option Client} (h : s.Owner owner)
    (hbefore : ∀ c, s.clients fd = some c → c.state = .epollin)
    (hafter : ∀ c, c? = some c → c.state = .epollin) :
    Server.Owner {s with clients := Function.update s.clients fd c?} owner := by
  obtain ⟨hothers, hbuf⟩ := h
  constructor
  · intro fd' c hc hne
    simp only [Function.update_apply] at hc
    split at hc
    · exact hafter c hc
    · exact hothers fd' c hc hne
  · cases owner with
    | none => exact hbuf
    | some fd' =>
        obtain ⟨c, msg, hc, hwaiting⟩ := hbuf
        have hne : fd' ≠ fd := by
          rintro rfl
          have hin := hbefore c hc
          rw [hwaiting.1.1] at hin
          cases hin
        exact ⟨c, msg, (Function.update_of_ne hne _ _).trans hc, hwaiting⟩

private theorem buf_of_readers (h : Server.Orderly listenfd s)
    (hreaders : ∀ fd c, s.clients fd = some c → c.state = .epollin) : s.buf = zeros := by
  obtain ⟨owner, -, hbuf⟩ := h.owner
  cases owner with
  | none => exact hbuf
  | some fd =>
      obtain ⟨c, msg, hc, hwaiting, -⟩ := hbuf
      have hin := hreaders fd c hc
      rw [hwaiting.1] at hin
      cases hin

theorem accept (h : Server.Orderly listenfd s) {newfd : Nat} (hlisten : newfd ≠ listenfd)
    (hnew : s.clients newfd = none) :
    Server.Orderly listenfd
      (s.put newfd {state := .epollin, received := [], room := [], written := []}) := by
  have hevents : ∀ e ∈ s.events, e.fd ≠ newfd := by
    rintro e he rfl
    have hmatch := h.events_match e he
    rw [Event.matches, if_neg hlisten, hnew] at hmatch
    cases hmatch
  obtain ⟨owner, howner⟩ := h.owner
  refine h.put owner hevents ⟨rfl, fun _ => rfl⟩ (owner_update howner ?_ ?_)
  · intro c hc
    rw [hnew] at hc
    cases hc
  · rintro c ⟨⟩
    rfl

/-- A client that was waiting for a message is closed. -/
theorem close_reader (h : Server.Orderly listenfd s) {fd : Nat} {c : Client}
    (hevents : ∀ e ∈ s.events, e.fd ≠ fd) (hc : s.clients fd = some c) (hstate : c.state = .epollin) :
    Server.Orderly listenfd (s.close fd c) := by
  obtain ⟨owner, howner⟩ := h.owner
  refine h.close owner hevents hc (owner_update howner ?_ ?_)
  · intro c' hc'
    obtain rfl := Option.some.inj (hc.symm.trans hc')
    exact hstate
  · rintro c' ⟨⟩

theorem read (h : Server.Orderly listenfd s) {fd : Nat} {c : Client} {msg? : Option (List UInt8)}
    (hevents : ∀ e ∈ s.events, e.fd ≠ fd) (hc : s.clients fd = some c) (hstate : c.state = .epollin)
    (halone : ∀ msg, msg? = some msg → msg ≠ [] →
      (∀ fd c, s.clients fd = some c → c.state = .epollin) ∧ (msg.length = MAXSIZE → 0 ∈ msg))
    (hread : do_read s fd c msg? = some s') : Server.Orderly listenfd s' := by
  match msg? with
  | none =>
      rw [do_read] at hread
      exact Option.some.inj hread ▸ h.close_reader hevents hc hstate
  | some [] =>
      rw [do_read] at hread
      exact Option.some.inj hread ▸ h.close_reader hevents hc hstate
  | some (byte :: bytes) =>
      obtain ⟨hreaders, hfull⟩ := halone (byte :: bytes) rfl (List.cons_ne_nil _ _)
      rw [do_read] at hread
      generalize byte :: bytes = msg at hread hfull
      simp only at hread
      split at hread
      · cases hread
      · next hsize =>
        have hzeros : s.buf = zeros := h.buf_of_readers hreaders
        have hbuf : msg ++ s.buf.drop msg.length = msg ++ List.replicate (MAXSIZE - msg.length) 0 := by
          rw [hzeros, zeros, List.drop_replicate]
        have hend : 0 ∈ msg ++ List.replicate (MAXSIZE - msg.length) 0 := by
          rcases Nat.lt_or_ge msg.length MAXSIZE with hlt | hge
          · exact List.mem_append_right _ (List.mem_replicate.mpr ⟨by omega, rfl⟩)
          · exact List.mem_append_left _ (hfull (by omega))
        rw [hbuf, if_pos hend] at hread
        rw [← Option.some.inj hread]
        have hfair := h.fair hc
        have heven := hfair.even hstate
        refine h.put (some fd) hevents ⟨?_, ?_⟩ ⟨?_, ?_⟩
        · exact hfair.echo.trans (echo_received heven msg).symm
        · rintro ⟨⟩
        · intro fd' c' hc' hne
          have hfd : fd' ≠ fd := fun heq => hne (congrArg some heq.symm)
          exact hreaders fd' c' ((Function.update_of_ne hfd _ _).symm.trans hc')
        · exact ⟨_, msg, Function.update_self _ _ _, ⟨rfl, c.received, rfl, heven⟩, hend, rfl⟩

theorem write (h : Server.Orderly listenfd s) {fd : Nat} {c : Client} {room? : Option Nat}
    (hevents : ∀ e ∈ s.events, e.fd ≠ fd) (hc : s.clients fd = some c) (hstate : c.state = .epollout)
    (hwrite : do_write s fd c room? = some s') : Server.Orderly listenfd s' := by
  obtain ⟨owner, hothers, hbuf⟩ := h.owner
  have howner : owner = some fd := by
    by_contra hne
    have hin := hothers fd c hc hne
    rw [hstate] at hin
    cases hin
  subst howner
  obtain ⟨c', msg, hc', hwaiting, hend, hmsg⟩ := hbuf
  obtain rfl := Option.some.inj (hc.symm.trans hc')
  simp only [do_write, hend, ↓reduceIte] at hwrite
  have hreaders {fd' : Nat} {c' : Client} (hc' : s.clients fd' = some c') (hne : fd' ≠ fd) :
      c'.state = .epollin := hothers fd' c' hc' (fun heq => hne (Option.some.inj heq).symm)
  cases room? with
  | none =>
      rw [← Option.some.inj hwrite]
      refine h.close none hevents hc ⟨?_, rfl⟩
      intro fd' c' hc' _
      simp only [Server.close, Function.update_apply] at hc'
      split at hc'
      · cases hc'
      · next hne => exact hreaders hc' hne
  | some room =>
      rw [← Option.some.inj hwrite]
      refine h.put none hevents ⟨?_, ?_⟩ ⟨?_, rfl⟩
      · rw [hwaiting.echo_write, hmsg, cstring_pad, (h.fair hc).echo]
      · intro _
        obtain ⟨-, msgs, hreceived, hlength⟩ := hwaiting
        rw [hreceived, List.length_append, List.length_append, hlength]
        rfl
      · intro fd' c' hc' _
        simp only [Server.put, Function.update_apply] at hc'
        split at hc'
        · rw [← Option.some.inj hc']
        · next hne => exact hreaders hc' hne

theorem step (h : Server.Orderly listenfd s) {a : Act} (hone : OneAtATime listenfd s a)
    (hstep : Echo.step listenfd s a = some s') : Server.Orderly listenfd s' := by
  obtain ⟨events, rfl, -, -, ⟨-, hnodup, hmatch⟩, rfl⟩ | ⟨k, e, rest, rfl, hevents, -, hhandle⟩ :=
    step_cases hstep
  · exact ⟨h.overrun, hnodup, hmatch, h.fair, h.closed, h.owner⟩
  · have htail := h.tail hevents
    have hnodup := h.events_nodup
    rw [hevents, List.map_cons, List.nodup_cons] at hnodup
    have hothers : ∀ e' ∈ rest, e'.fd ≠ e.fd :=
      fun e' he' heq => hnodup.1 (heq ▸ List.mem_map_of_mem he')
    have hmatch := h.events_match e (hevents ▸ List.mem_cons_self)
    obtain rfl | ⟨newfd, hlisten, hnew, rfl⟩ | ⟨c, hc, hio⟩ := handle_event_cases hhandle
    · exact htail
    · exact htail.accept hlisten hnew
    · rcases hio with ⟨hin, hread, hlisten⟩ | ⟨-, hout, hwrite⟩
      · exact htail.read hothers hc ((state_of_matches hmatch hc hlisten).1 hin)
          (hone e rest hevents hin hlisten) hread
      · have hlisten : e.fd ≠ listenfd := by
          intro heq
          rw [Event.matches, if_pos heq, hout] at hmatch
          cases hmatch
        exact htail.write hothers hc ((state_of_matches hmatch hc hlisten).2 hout) hwrite

theorem separate (h : Server.Orderly listenfd s) : s.Separate where
  overrun := h.overrun
  echo := by
    rintro c (⟨fd, hc⟩ | hc)
    · exact (h.fair hc).echo
    · exact h.closed c hc
  own := by
    rintro c (⟨fd, hc⟩ | hc)
    · exact (h.fair hc).echo ▸ echo_sublist c
    · exact h.closed c hc ▸ echo_sublist c

end Server.Orderly

/-- In every run that reads one message at a time, every client gets its own bytes. -/
theorem separate_of_one_at_a_time (listenfd : Nat) (acts : List Act) (s : Server)
    (halong : Along (step listenfd) (OneAtATime listenfd) .init acts)
    (hrun : runSteps (step listenfd) .init acts = some s) : s.Separate :=
  (invariant_along (fun h hone hstep => h.step hone hstep) (init_orderly listenfd) halong
    hrun).separate

theorem oneAtATime_of_no_read {a : Act} (h : a.read = none) : OneAtATime listenfd s a := by
  cases a with
  | epoll_wait events => trivial
  | handle k =>
      intro e rest _ _ _ msg hmsg
      rw [Act.read] at h
      rw [h] at hmsg
      cases hmsg

/-- Two clients are accepted, and one sends a message. -/
def oneMessage (msg : List UInt8) : List Act :=
  [Act.epoll_wait [⟨3, true, false⟩], .handle ⟨some 5, none, none⟩,
   .epoll_wait [⟨3, true, false⟩], .handle ⟨some 6, none, none⟩,
   .epoll_wait [⟨5, true, false⟩]] ++ Act.handle ⟨none, some msg, none⟩ ::
  [Act.epoll_wait [⟨5, false, true⟩], .handle ⟨none, none, some 100⟩]

theorem separate_one_message :
    ∃ s, runSteps (step 3) .init (oneMessage [1, 2, 3]) = some s ∧
      s.clients 5 = some ⟨.epollin, [[1, 2, 3]], [100], [1, 2, 3]⟩ ∧ s.Separate := by
  have hresult : (runSteps (step 3) .init (oneMessage [1, 2, 3])).map (fun s => s.clients 5) =
      some (some ⟨.epollin, [[1, 2, 3]], [100], [1, 2, 3]⟩) := by decide +kernel
  obtain ⟨s, hrun, hclient⟩ := Option.map_eq_some_iff.mp hresult
  refine ⟨s, hrun, hclient, separate_of_one_at_a_time 3 _ s ?_ hrun⟩
  refine along_append_iff.mpr
    ⟨along_of_forall (fun a ha s => oneAtATime_of_no_read ?_) _, fun s' hs' => ⟨?_, ?_⟩⟩
  · revert a
    decide
  · have hclients : some s' = some {
        clients := Function.update (Function.update (fun _ => none) 5 (some ⟨.epollin, [], [], []⟩)) 6
          (some ⟨.epollin, [], [], []⟩)
        closed := [], buf := zeros, events := [⟨5, true, false⟩], overrun := false } := hs'.symm
    obtain rfl := Option.some.inj hclients
    rintro e rest - - - msg ⟨⟩ -
    refine ⟨?_, by decide⟩
    intro fd c hc
    simp only [Function.update_apply] at hc
    split at hc
    · rw [← Option.some.inj hc]
    · split at hc
      · rw [← Option.some.inj hc]
      · cases hc
  · intro t _
    refine along_of_forall (fun a ha s => oneAtATime_of_no_read ?_) _
    revert a
    decide

/-- Two clients are accepted and send a message each before either is written. -/
def twoMessages (first second : List UInt8) : List Act :=
  [.epoll_wait [⟨3, true, false⟩], .handle ⟨some 5, none, none⟩,
   .epoll_wait [⟨3, true, false⟩], .handle ⟨some 6, none, none⟩,
   .epoll_wait [⟨5, true, false⟩, ⟨6, true, false⟩],
   .handle ⟨none, some first, none⟩, .handle ⟨none, some second, none⟩,
   .epoll_wait [⟨5, false, true⟩, ⟨6, false, true⟩],
   .handle ⟨none, none, some 100⟩, .handle ⟨none, none, some 100⟩]

/-- The first client sends 1 2 3 and gets 8 9 3, the second sends 8 9 and gets nothing. -/
theorem echo_mixes_messages :
    ∃ s, runSteps (step 3) .init (twoMessages [1, 2, 3] [8, 9]) = some s ∧
      s.clients 5 = some ⟨.epollin, [[1, 2, 3]], [100], [8, 9, 3]⟩ ∧
      s.clients 6 = some ⟨.epollin, [[8, 9]], [100], []⟩ ∧
      ¬ s.Separate := by
  have hresult : (runSteps (step 3) .init (twoMessages [1, 2, 3] [8, 9])).map
      (fun s => (s.clients 5, s.clients 6)) =
      some (some ⟨.epollin, [[1, 2, 3]], [100], [8, 9, 3]⟩, some ⟨.epollin, [[8, 9]], [100], []⟩) := by
    decide +kernel
  obtain ⟨s, hrun, hclients⟩ := Option.map_eq_some_iff.mp hresult
  obtain ⟨hfirst, hsecond⟩ := Prod.mk.inj hclients
  refine ⟨s, hrun, hfirst, hsecond, ?_⟩
  intro h
  have hecho := h.echo _ (Or.inl ⟨5, hfirst⟩)
  revert hecho
  decide

end LearningCpp.Echo
