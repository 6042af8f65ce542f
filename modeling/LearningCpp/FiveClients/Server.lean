import LearningCpp.Library.LeastUnused
import LearningCpp.Library.Machine

/-!
The server of `02.使用select函数提高服务器处理能力/server.cpp`, with five places for clients.
`conn_amount` says where the next one goes, and no disconnect takes it back: the server
serves five clients in all.
-/

namespace LearningCpp.FiveClients

open LearningCpp.Library

/-- The variables of `main` that outlive a round, the descriptors in use, and those that
`accept` has returned and no `close` has taken. -/
structure Server where
  server_fd : Nat
  client_sockfd : List Nat
  conn_amount : Nat
  maxsock : Nat
  opened : Finset Nat
  accepted : Finset Nat
  deriving DecidableEq

/-- What the kernel does in a round: the set `select` leaves in `client_fdset` (`none` for an
error, the empty set at the timeout), what `recv` returns for a client, the descriptor
`accept` returns, and what the first `recv` from it returns. -/
structure Answer where
  select : Option (Finset Nat)
  recv : Nat → Int
  accept : Option Nat
  first : Int

/-- The server before its first round. The standard input is open, and `socket` gives the
lowest unused descriptor. -/
def start (others : Finset Nat) : Server where
  server_fd := leastUnused (insert 0 others)
  client_sockfd := List.replicate 5 0
  conn_amount := 0
  maxsock := leastUnused (insert 0 others)
  opened := insert (leastUnused (insert 0 others)) (insert 0 others)
  accepted := ∅

/-- The descriptors given to `select`. -/
def Server.fdset (s : Server) : Finset Nat :=
  insert s.server_fd (s.client_sockfd.filter fun fd => fd ≠ 0).toFinset

/-- A scan of the clients: the server, and the bits left of what `select` has returned. -/
structure Scan where
  server : Server
  client_fdset : Finset Nat

/-- Read from `client_sockfd[i]`, and close it at the end of its stream or after an error. -/
def Scan.visit (recv : Nat → Int) (s : Scan) (i : Nat) : Scan :=
  let sockfd := s.server.client_sockfd.getD i 0
  if sockfd ∈ s.client_fdset then
    if recv sockfd ≤ 0 then
      { server := {s.server with
          client_sockfd := s.server.client_sockfd.set i 0
          opened := s.server.opened.erase sockfd
          accepted := s.server.accepted.erase sockfd }
        client_fdset := s.client_fdset.erase sockfd }
    else s
  else s

def Server.scan (s : Server) (recv : Nat → Int) (client_fdset : Finset Nat) : Scan :=
  (List.range s.conn_amount).foldl (Scan.visit recv) ⟨s, client_fdset⟩

/-- The branch for a new connection; `none` when the process ends. With no place left, the
descriptor is just forgotten. -/
def Server.enter (s : Server) (sock_client : Nat) (first : Int) : Option Server :=
  if s.conn_amount < 5 then
    if first < 0 then none
    else
      some {s with
        client_sockfd := s.client_sockfd.set s.conn_amount sock_client
        conn_amount := s.conn_amount + 1
        maxsock := if sock_client > s.maxsock then sock_client else s.maxsock
        opened := insert sock_client s.opened
        accepted := insert sock_client s.accepted }
  else
    some {s with
      opened := insert sock_client s.opened
      accepted := insert sock_client s.accepted }

/-- The connection that is accepted in a round, and the server at that moment. -/
def Server.accepting (s : Server) (a : Answer) : Option (Server × Nat) :=
  match a.select with
  | none => none
  | some client_fdset =>
      if client_fdset = ∅ then none
      else
        let scan := s.scan a.recv client_fdset
        if s.server_fd ∈ scan.client_fdset then a.accept.map fun fd => (scan.server, fd) else none

/-- A round of the loop; `none` when the process ends. -/
def Server.round (s : Server) (a : Answer) : Option Server :=
  match a.select with
  | none => none
  | some client_fdset =>
      if client_fdset = ∅ then some s
      else
        let scan := s.scan a.recv client_fdset
        if s.server_fd ∈ scan.client_fdset then
          match a.accept with
          | none => some scan.server
          | some sock_client => scan.server.enter sock_client a.first
        else some scan.server

/-- `select` only reports what it was asked for, and `accept` returns an unused descriptor. -/
def Server.Allows (s : Server) (a : Answer) : Prop :=
  (∀ client_fdset ∈ a.select, client_fdset ⊆ s.fdset.filter (· < s.maxsock + 1)) ∧
    ∀ p ∈ s.accepting a, p.2 ∉ p.1.opened

instance (s : Server) (a : Answer) : Decidable (s.Allows a) :=
  inferInstanceAs (Decidable (_ ∧ _))

def step (s : Server) (a : Answer) : Option Server := if s.Allows a then s.round a else none

/-- A descriptor is given to `select`, and the scan comes to it. -/
structure Server.Monitors (s : Server) (fd : Nat) : Prop where
  set : fd ∈ s.fdset
  below : fd < s.maxsock + 1
  scanned : ∃ i < s.conn_amount, s.client_sockfd[i]? = some fd

/-- Every accepted descriptor is in `client_sockfd` or closed. -/
def Server.Kept (s : Server) : Prop := ∀ fd ∈ s.accepted, fd ∈ s.client_sockfd

instance (s : Server) : Decidable s.Kept :=
  inferInstanceAs (Decidable (∀ fd ∈ s.accepted, fd ∈ s.client_sockfd))

/-- With fewer than five clients connected a new one is entered and monitored, and no
descriptor is lost. -/
structure Server.TakesIn (s : Server) (a : Answer) : Prop where
  entered : ∀ p ∈ s.accepting a, p.1.accepted.card < 5 →
    ∃ s', s.round a = some s' ∧ p.2 ∈ s'.client_sockfd ∧ s'.Monitors p.2
  kept : ∀ s', s.round a = some s' → s'.Kept

/-- When a connection is accepted, fewer than five have been before, and the first `recv` from
it succeeds. -/
def Server.HasRoom (s : Server) (a : Answer) : Prop :=
  ∀ p ∈ s.accepting a, s.conn_amount < 5 ∧ 0 ≤ a.first

/-- What holds at the top of every round while the connections fit. -/
structure Server.Sound (s : Server) : Prop where
  size : s.client_sockfd.length = 5
  amount : s.conn_amount ≤ 5
  distinct : ∀ {i j fd : Nat}, s.client_sockfd[i]? = some fd → s.client_sockfd[j]? = some fd →
    fd ≠ 0 → i = j
  entered : ∀ fd ∈ s.accepted, ∃ i < s.conn_amount, s.client_sockfd[i]? = some fd
  live : ∀ fd ∈ s.client_sockfd, fd ≠ 0 → fd ∈ s.accepted
  opened : s.accepted ⊆ s.opened
  input : 0 ∈ s.opened ∧ 0 ∉ s.accepted
  bound : ∀ fd ∈ s.accepted, fd ≤ s.maxsock
  listener : s.server_fd ≠ 0

theorem start_sound (others : Finset Nat) : (start others).Sound := by
  have hfree (fd : Nat) (hfd : fd ∈ (start others).client_sockfd) : fd = 0 :=
    List.eq_of_mem_replicate hfd
  constructor
  · rfl
  · exact Nat.zero_le 5
  · intro i j fd hi _ hne
    exact absurd (hfree fd (List.mem_of_getElem? hi)) hne
  · intro fd hfd
    exact absurd hfd (Finset.notMem_empty fd)
  · intro fd hfd hne
    exact absurd (hfree fd hfd) hne
  · exact Finset.empty_subset _
  · exact ⟨Finset.mem_insert_of_mem (Finset.mem_insert_self 0 others), Finset.notMem_empty 0⟩
  · intro fd hfd
    exact absurd hfd (Finset.notMem_empty fd)
  · intro hzero
    have hunused := leastUnused_notMem (insert 0 others)
    apply hunused
    rw [show leastUnused (insert 0 others) = 0 from hzero]
    exact Finset.mem_insert_self 0 others

namespace Server.Sound

variable {s : Server} {fd : Nat}

theorem mem_client (h : s.Sound) (hfd : fd ∈ s.accepted) : fd ∈ s.client_sockfd := by
  obtain ⟨i, -, hi⟩ := h.entered fd hfd
  exact List.mem_of_getElem? hi

private theorem ne_zero (h : s.Sound) (hfd : fd ∈ s.accepted) : fd ≠ 0 := by
  rintro rfl
  exact h.input.2 hfd

/-- Every accepted descriptor that is not closed is monitored. -/
theorem monitors (h : s.Sound) (hfd : fd ∈ s.accepted) : s.Monitors fd := by
  refine ⟨?_, Nat.lt_succ_of_le (h.bound fd hfd), h.entered fd hfd⟩
  apply Finset.mem_insert_of_mem
  rw [List.mem_toFinset, List.mem_filter]
  exact ⟨h.mem_client hfd, decide_eq_true (h.ne_zero hfd)⟩

/-- There are at most as many clients as connections have been accepted. -/
theorem card_accepted_le (h : s.Sound) : s.accepted.card ≤ s.conn_amount := by
  have hsub : s.accepted ⊆
      (Finset.range s.conn_amount).image fun i => s.client_sockfd.getD i 0 := by
    intro fd hfd
    obtain ⟨i, hi, hentry⟩ := h.entered fd hfd
    rw [Finset.mem_image]
    refine ⟨i, Finset.mem_range.2 hi, ?_⟩
    rw [List.getD_eq_getElem?_getD, hentry, Option.getD_some]
  calc s.accepted.card ≤ _ := Finset.card_le_card hsub
    _ ≤ (Finset.range s.conn_amount).card := Finset.card_image_le
    _ = s.conn_amount := Finset.card_range _

theorem close {i : Nat} (h : s.Sound) (hi : s.client_sockfd[i]? = some fd) (hne : fd ≠ 0) :
    Server.Sound {s with
      client_sockfd := s.client_sockfd.set i 0
      opened := s.opened.erase fd
      accepted := s.accepted.erase fd } := by
  have hold {n fd' : Nat} (hn : (s.client_sockfd.set i 0)[n]? = some fd') (hne' : fd' ≠ 0) :
      i ≠ n ∧ s.client_sockfd[n]? = some fd' := by
    rw [List.getElem?_set] at hn
    split at hn
    · split at hn
      · exact absurd (Option.some.inj hn).symm hne'
      · cases hn
    · next hother => exact ⟨hother, hn⟩
  constructor
  · simp only [List.length_set, h.size]
  · exact h.amount
  · intro j k fd' hj hk hne'
    exact h.distinct (hold hj hne').2 (hold hk hne').2 hne'
  · intro fd' hfd'
    obtain ⟨hother, hmem⟩ := Finset.mem_erase.1 hfd'
    obtain ⟨j, hj, hentry⟩ := h.entered fd' hmem
    refine ⟨j, hj, ?_⟩
    rw [List.getElem?_set_ne, hentry]
    rintro rfl
    exact hother (Option.some.inj (hentry.symm.trans hi))
  · intro fd' hfd' hne'
    obtain ⟨j, hj⟩ := List.mem_iff_getElem?.1 hfd'
    obtain ⟨hij, hentry⟩ := hold hj hne'
    apply Finset.mem_erase_of_ne_of_mem
    · rintro rfl
      exact hij (h.distinct hi hentry hne')
    · exact h.live fd' (List.mem_of_getElem? hentry) hne'
  · exact Finset.erase_subset_erase fd h.opened
  · exact ⟨Finset.mem_erase.2 ⟨hne.symm, h.input.1⟩,
      fun hzero => h.input.2 (Finset.mem_of_mem_erase hzero)⟩
  · exact fun fd' hfd' => h.bound fd' (Finset.mem_of_mem_erase hfd')
  · exact h.listener

theorem enter {sock_client : Nat} {s' : Server} (h : s.Sound) (hunused : sock_client ∉ s.opened)
    (hroom : s.conn_amount < 5) {first : Int} (henter : s.enter sock_client first = some s') :
    s'.Sound ∧ sock_client ∈ s'.accepted := by
  unfold Server.enter at henter
  rw [if_pos hroom] at henter
  split at henter
  · cases henter
  obtain rfl := Option.some.inj henter
  have hnew : sock_client ∉ s.client_sockfd := by
    intro hmem
    by_cases hzero : sock_client = 0
    · exact hunused (hzero ▸ h.input.1)
    · exact hunused (h.opened (h.live sock_client hmem hzero))
  have hentry {n fd : Nat} (hn : (s.client_sockfd.set s.conn_amount sock_client)[n]? = some fd) :
      (n = s.conn_amount ∧ fd = sock_client) ∨
        (s.client_sockfd[n]? = some fd ∧ fd ≠ sock_client) := by
    rw [List.getElem?_set] at hn
    split at hn
    · next heq =>
      split at hn
      · exact Or.inl ⟨heq.symm, (Option.some.inj hn).symm⟩
      · cases hn
    · refine Or.inr ⟨hn, ?_⟩
      rintro rfl
      exact hnew (List.mem_of_getElem? hn)
  refine ⟨?_, Finset.mem_insert_self ..⟩
  constructor
  · simp only [List.length_set, h.size]
  · exact hroom
  · intro i j fd hi hj hne
    rcases hentry hi with ⟨rfl, rfl⟩ | ⟨hi, hother⟩
    · rcases hentry hj with ⟨rfl, -⟩ | ⟨-, habsurd⟩
      · rfl
      · exact absurd rfl habsurd
    · rcases hentry hj with ⟨-, hsame⟩ | ⟨hj, -⟩
      · exact absurd hsame hother
      · exact h.distinct hi hj hne
  · intro fd hfd
    rcases Finset.mem_insert.1 hfd with rfl | hold
    · refine ⟨s.conn_amount, Nat.lt_succ_self _, ?_⟩
      exact List.getElem?_set_self (h.size ▸ hroom)
    · obtain ⟨i, hi, hget⟩ := h.entered fd hold
      refine ⟨i, Nat.lt_succ_of_lt hi, ?_⟩
      rw [List.getElem?_set_ne hi.ne', hget]
  · intro fd hfd hne
    obtain ⟨i, hi⟩ := List.mem_iff_getElem?.1 hfd
    rcases hentry hi with ⟨-, rfl⟩ | ⟨hget, -⟩
    · exact Finset.mem_insert_self ..
    · exact Finset.mem_insert_of_mem (h.live fd (List.mem_of_getElem? hget) hne)
  · exact Finset.insert_subset_insert sock_client h.opened
  · refine ⟨Finset.mem_insert_of_mem h.input.1, ?_⟩
    rw [Finset.mem_insert, not_or]
    refine ⟨?_, h.input.2⟩
    rintro rfl
    exact hunused h.input.1
  · have hmax : sock_client ≤ (if sock_client > s.maxsock then sock_client else s.maxsock) ∧
        s.maxsock ≤ (if sock_client > s.maxsock then sock_client else s.maxsock) := by
      split <;> omega
    intro fd hfd
    rcases Finset.mem_insert.1 hfd with rfl | hold
    · exact hmax.1
    · exact (h.bound fd hold).trans hmax.2
  · exact h.listener

end Server.Sound

/-- What holds during a scan that began with `n` connections. -/
structure Scan.Sound (n : Nat) (s : Scan) : Prop where
  server : s.server.Sound
  amount : s.server.conn_amount = n
  input : 0 ∉ s.client_fdset

theorem Scan.Sound.visit {n : Nat} {s : Scan} (h : s.Sound n) (recv : Nat → Int) (i : Nat) :
    (s.visit recv i).Sound n := by
  unfold Scan.visit
  simp only
  split
  · next hready =>
    split
    · have hne : s.server.client_sockfd.getD i 0 ≠ 0 := by
        intro hzero
        exact h.input (hzero ▸ hready)
      have hi : s.server.client_sockfd[i]? = some (s.server.client_sockfd.getD i 0) := by
        rw [List.getD_eq_getElem?_getD] at hne ⊢
        cases hget : s.server.client_sockfd[i]? with
        | none => exact absurd (by rw [hget, Option.getD_none]) hne
        | some fd => rfl
      refine ⟨h.server.close hi hne, h.amount, ?_⟩
      exact fun hzero => h.input (Finset.mem_of_mem_erase hzero)
    · exact h
  · exact h

namespace Server

variable {s s' : Server} {a : Answer}

theorem Sound.scan (h : s.Sound) (hallows : s.Allows a) {client_fdset : Finset Nat}
    (hselect : client_fdset ∈ a.select) :
    (s.scan a.recv client_fdset).Sound s.conn_amount := by
  apply List.foldlRecOn
  · refine ⟨h, rfl, ?_⟩
    intro hzero
    have hwatched := (Finset.mem_filter.1 (hallows.1 client_fdset hselect hzero)).1
    rw [fdset, Finset.mem_insert, List.mem_toFinset, List.mem_filter] at hwatched
    rcases hwatched with hlistener | ⟨-, hne⟩
    · exact h.listener hlistener.symm
    · exact of_decide_eq_true hne rfl
  · exact fun scan hscan i _ => hscan.visit a.recv i

/-- A round without a new connection. -/
theorem Sound.round_of_none (h : s.Sound) (hallows : s.Allows a) (hnone : s.accepting a = none)
    (hround : s.round a = some s') : s'.Sound := by
  unfold round at hround
  unfold accepting at hnone
  cases hselect : a.select with
  | none => simp [hselect] at hround
  | some client_fdset =>
    simp only [hselect] at hround hnone
    have hscan := h.scan hallows hselect
    split at hround
    · rwa [← Option.some.inj hround]
    · next hready =>
      rw [if_neg hready] at hnone
      split at hround
      · next hlistener =>
        rw [if_pos hlistener, Option.map_eq_none_iff] at hnone
        rw [hnone] at hround
        rw [← Option.some.inj hround]
        exact hscan.server
      · rw [← Option.some.inj hround]
        exact hscan.server

/-- A round with a new connection. -/
theorem Sound.round_of_some (h : s.Sound) (hallows : s.Allows a) {t : Server} {fd : Nat}
    (hsome : s.accepting a = some (t, fd)) :
    t.Sound ∧ t.conn_amount = s.conn_amount ∧ fd ∉ t.opened ∧ s.round a = t.enter fd a.first := by
  have hunused := hallows.2 (t, fd) hsome
  unfold accepting at hsome
  cases hselect : a.select with
  | none => simp [hselect] at hsome
  | some client_fdset =>
    have hscan := h.scan hallows hselect
    simp only [hselect] at hsome
    split at hsome
    · cases hsome
    · next hready =>
      split at hsome
      · next hlistener =>
        obtain ⟨sock_client, haccept, hpair⟩ := Option.map_eq_some_iff.1 hsome
        cases hpair
        refine ⟨hscan.server, hscan.amount, hunused, ?_⟩
        simp only [round, hselect, if_neg hready, if_pos hlistener, haccept]
      · cases hsome

theorem Sound.round (h : s.Sound) (hallows : s.Allows a) (hroom : s.HasRoom a)
    (hround : s.round a = some s') : s'.Sound := by
  cases haccepting : s.accepting a with
  | none => exact h.round_of_none hallows haccepting hround
  | some p =>
    obtain ⟨ht, hamount, hunused, hround'⟩ := h.round_of_some hallows haccepting
    rw [hround'] at hround
    exact (ht.enter hunused (hamount ▸ (hroom p haccepting).1) hround).1

/-- A connection that finds no place is lost. -/
theorem Sound.not_kept_of_full (h : s.Sound) {fd : Nat} (hunused : fd ∉ s.opened)
    (hfull : ¬ s.conn_amount < 5) (first : Int) :
    ∃ s', s.enter fd first = some s' ∧ ¬ s'.Kept := by
  refine ⟨_, if_neg hfull, ?_⟩
  intro hkept
  have hmem : fd ∈ s.client_sockfd := hkept fd (Finset.mem_insert_self ..)
  by_cases hzero : fd = 0
  · exact hunused (hzero ▸ h.input.1)
  · exact hunused (h.opened (h.live fd hmem hzero))

/-- A round takes in the new connection if and only if fewer than five have been accepted
before and the first `recv` succeeds. -/
theorem Sound.takesIn_iff (h : s.Sound) (hallows : s.Allows a) : s.TakesIn a ↔ s.HasRoom a := by
  constructor
  · rintro htakes ⟨t, fd⟩ haccepting
    obtain ⟨ht, hamount, hunused, hround⟩ := h.round_of_some hallows haccepting
    have hlt : s.conn_amount < 5 := by
      by_contra hfull
      obtain ⟨s', henter, hlost⟩ := ht.not_kept_of_full hunused (hamount ▸ hfull) a.first
      exact hlost (htakes.kept s' (hround.trans henter))
    refine ⟨hlt, ?_⟩
    have hfew : t.accepted.card < 5 := by
      have hle := ht.card_accepted_le
      omega
    obtain ⟨s', hgoes, -⟩ := htakes.entered (t, fd) haccepting hfew
    by_contra hfails
    rw [hround, Server.enter, if_pos (hamount ▸ hlt), if_pos (by omega)] at hgoes
    cases hgoes
  · intro hroom
    refine ⟨?_, ?_⟩
    · rintro ⟨t, fd⟩ haccepting -
      obtain ⟨ht, hamount, hunused, hround⟩ := h.round_of_some hallows haccepting
      obtain ⟨hlt, hfirst⟩ := hroom (t, fd) haccepting
      have hlt' : t.conn_amount < 5 := hamount ▸ hlt
      obtain ⟨s', henter⟩ : ∃ s', t.enter fd a.first = some s' := by
        rw [Server.enter, if_pos hlt', if_neg (by omega)]
        exact ⟨_, rfl⟩
      obtain ⟨hsound, hmem⟩ := ht.enter hunused hlt' henter
      exact ⟨s', hround.trans henter, hsound.mem_client hmem, hsound.monitors hmem⟩
    · intro s' hround fd hfd
      exact (h.round hallows hroom hround).mem_client hfd

end Server

theorem step_eq_some {s s' : Server} {a : Answer} (hstep : step s a = some s') :
    s.Allows a ∧ s.round a = some s' := by
  unfold step at hstep
  split at hstep
  · next hallows => exact ⟨hallows, hstep⟩
  · cases hstep

/-- In a run, every new connection is taken in while fewer than five clients are connected, and
no descriptor is lost, if and only if no connection is accepted after the fifth and the first
`recv` from each succeeds. -/
theorem takesIn_along_iff (others : Finset Nat) (as : List Answer) :
    Along step (fun s a => s.Allows a → s.TakesIn a) (start others) as ↔
      Along step (fun s a => s.Allows a → s.HasRoom a) (start others) as := by
  apply along_congr_allowed (I := Server.Sound)
  · exact fun hstep => (step_eq_some hstep).1
  · exact fun h hallows => h.takesIn_iff hallows
  · exact fun h hroom hstep => h.round (step_eq_some hstep).1 hroom (step_eq_some hstep).2
  · exact start_sound others

/-- A client connects. -/
def connects (fd : Nat) : Answer := ⟨some {3}, fun _ => 1, some fd, 1⟩

/-- A client disconnects. -/
def disconnects (fd : Nat) : Answer := ⟨some {fd}, fun _ => 0, none, 0⟩

/-- Five clients have come, and the first one has gone. -/
def fourLeft : Server := ⟨3, [0, 5, 6, 7, 8], 5, 8, {8, 7, 6, 5, 3, 0, 1, 2}, {8, 7, 6, 5}⟩

/-- The sixth client is lost although only four are connected. -/
theorem not_takesIn_sixth :
    ¬ Along step (fun s a => s.Allows a → s.TakesIn a) (start {1, 2})
      ([connects 4, connects 5, connects 6, connects 7, connects 8, disconnects 4] ++
        [connects 4]) := by
  have hrun : runSteps step (start {1, 2})
      [connects 4, connects 5, connects 6, connects 7, connects 8, disconnects 4] =
        some fourLeft := by
    decide +kernel
  rw [along_append_iff]
  rintro ⟨-, hrest⟩
  obtain ⟨htakes, -⟩ := hrest fourLeft hrun
  have hkept := (htakes (by decide +kernel)).kept
    {fourLeft with
      opened := insert 4 fourLeft.opened
      accepted := insert 4 fourLeft.accepted } (by decide +kernel)
  revert hkept
  decide +kernel

end LearningCpp.FiveClients
