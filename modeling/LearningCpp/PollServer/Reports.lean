import LearningCpp.Library.Census
import LearningCpp.PollServer.Server

/-!
Which reads have been reported. A round reads what `poll` has not reported in two cases: when
`poll` has failed, and when a connection takes the entry behind all others while the count is
kept up by a client that reports an error only.
-/

namespace LearningCpp.PollServer

open Library

/-- `poll` has reported `POLLIN` for the descriptor. -/
def Reported (s : Server) (a : Answer) (fd : Nat) : Prop :=
  a.failed = false ∧ ∃ i ≤ s.maxi, (s.client i).fd = fd ∧ pollin (a.revents i)

/-- What is read in the round has been reported, and is not the connection just accepted. -/
def ReadsReported (s : Server) (a : Answer) : Prop :=
  ∀ fd ∈ (s.round a).fds, Reported s a fd ∧ a.connfd ≠ some fd

/-- `poll` has failed and left the bit of a client, and not the listener's. -/
def Stale (s : Server) (a : Answer) : Prop :=
  a.failed = true ∧ pollin (a.revents 0) = false ∧
    ∃ i ∈ List.range' 1 s.maxi, 0 ≤ (s.client i).fd ∧ pollin (a.revents i)

/-- A connection takes the entry behind all others, which are in use; the bit has stood there
from the beginning; and a client with another event than `POLLIN` keeps the count up, while
`Read` fails for no client in a way that ends the process. -/
def Unwritten (s : Server) (a : Answer) : Prop :=
  a.failed = false ∧ pollin (a.revents 0) ∧ a.connfd ≠ none ∧ s.maxi + 1 < OPEN_MAX ∧
    pollin (s.client (s.maxi + 1)).revents ∧
    (∀ i ∈ List.range' 1 s.maxi, 0 ≤ (s.client i).fd) ∧
    (∃ i ∈ List.range' 1 s.maxi, a.revents i ≠ 0 ∧ pollin (a.revents i) = false) ∧
    ∀ i ∈ List.range' 1 s.maxi, pollin (a.revents i) → a.read (s.client i).fd.toNat ≠ .error

theorem step_eq_some {s s' : Server} {a : Answer} (hstep : step s a = some s') :
    s.Allows a ∧ (s.round a).server = s' := by
  unfold step at hstep
  split at hstep
  · next hround => exact ⟨hround.1, Option.some.inj hstep⟩
  · cases hstep

/-- Only entries up to `maxi` are in use, each for a descriptor of its own that is open. -/
structure Sound (s : Server) : Prop where
  size : s.maxi < OPEN_MAX
  above : ∀ {i}, s.maxi < i → (s.client i).fd = -1
  used : ∀ {i}, 0 ≤ (s.client i).fd → (s.client i).fd.toNat ∈ s.opened
  distinct : ∀ {i j}, 0 ≤ (s.client i).fd → (s.client j).fd = (s.client i).fd → j = i

theorem pollin_zero : pollin 0 = false := rfl

/-! What a scan reads. -/

namespace Round

variable {read : Nat → Result} {r : Round} {i j k : Nat} {is : List Nat} {n : Int}

@[simp]
theorem new_server (s : Server) : (new s).server = s := rfl

@[simp]
theorem new_fds (s : Server) : (new s).fds = [] := rfl

@[simp]
theorem new_exited (s : Server) : (new s).exited = false := rfl

theorem client_serve_of_ne (hne : j ≠ i) :
    (r.serve read i).server.client j = r.server.client j := by
  unfold serve
  simp only
  split
  · exact Function.update_of_ne hne ..
  · rfl
  · split
    · exact Function.update_of_ne hne ..
    · rfl

theorem ready_serve_of_ne (hne : j ≠ i) : (r.serve read i).ready j = r.ready j := by
  rw [ready, ready, client_serve_of_ne hne]

theorem fds_serve : (r.serve read i).fds = r.fds ++ [(r.server.client i).fd.toNat] := by
  unfold serve fds
  simp only
  split
  · simp
  · simp
  · split <;> simp

theorem exited_serve (hr : r.exited = false) :
    (r.serve read i).exited = true ↔ read (r.server.client i).fd.toNat = .error := by
  unfold serve
  simp only
  cases read (r.server.client i).fd.toNat with
  | ECONNRESET => simp [hr]
  | error => simp
  | bytes buf =>
    simp only [reduceCtorEq, iff_false, Bool.not_eq_true]
    split <;> exact hr

theorem mem_fds_scan_of_mem {fd : Nat} (hmem : fd ∈ r.fds) : fd ∈ (scan read is n r).fds := by
  induction is generalizing r n with
  | nil => exact hmem
  | cons i is ih =>
    have hserved : fd ∈ (r.serve read i).fds := by
      rw [fds_serve]
      exact List.mem_append_left _ hmem
    unfold scan
    split
    · split
      · exact hserved
      · exact ih hserved
    · exact ih hmem

/-- Only what was ready before the scan is read in it. -/
theorem mem_fds_scan (hnodup : is.Nodup) {fd : Nat} (hmem : fd ∈ (scan read is n r).fds) :
    fd ∈ r.fds ∨ ∃ i ∈ is, r.ready i ∧ fd = (r.server.client i).fd.toNat := by
  induction is generalizing r n with
  | nil => exact Or.inl hmem
  | cons i is ih =>
    obtain ⟨hi, his⟩ := List.nodup_cons.1 hnodup
    have hserve (hready : r.ready i) (hserved : fd ∈ (r.serve read i).fds) :
        fd ∈ r.fds ∨ ∃ j ∈ i :: is, r.ready j ∧ fd = (r.server.client j).fd.toNat := by
      rw [fds_serve, List.mem_append, List.mem_singleton] at hserved
      exact hserved.imp_right fun heq => ⟨i, List.mem_cons_self, hready, heq⟩
    unfold scan at hmem
    split at hmem
    · next hready =>
      split at hmem
      · exact hserve hready hmem
      · obtain hserved | ⟨j, hj, hjready, hfd⟩ := ih his hmem
        · exact hserve hready hserved
        · have hne : j ≠ i := by
            rintro rfl
            exact hi hj
          rw [ready_serve_of_ne hne] at hjready
          rw [client_serve_of_ne hne] at hfd
          exact Or.inr ⟨j, List.mem_cons_of_mem i hj, hjready, hfd⟩
    · obtain hbefore | ⟨j, hj, hjready, hfd⟩ := ih his hmem
      · exact Or.inl hbefore
      · exact Or.inr ⟨j, List.mem_cons_of_mem i hj, hjready, hfd⟩

/-- A ready entry makes the scan read something. -/
theorem fds_scan_ne_nil (hready : ∃ i ∈ is, r.ready i) : (scan read is n r).fds ≠ [] := by
  induction is with
  | nil =>
    obtain ⟨i, hi, -⟩ := hready
    cases hi
  | cons i is ih =>
    unfold scan
    split
    · have hserved : (r.server.client i).fd.toNat ∈ (r.serve read i).fds := by
        rw [fds_serve]
        exact List.mem_append_right _ (List.mem_singleton.2 rfl)
      split
      · exact List.ne_nil_of_mem hserved
      · exact List.ne_nil_of_mem (mem_fds_scan_of_mem hserved)
    · next hnot =>
      obtain ⟨j, hj, hjready⟩ := hready
      rcases List.mem_cons.1 hj with rfl | hrest
      · exact absurd hjready hnot
      · exact ih ⟨j, hrest, hjready⟩

/-- The scan comes to the last entry when no `Read` has ended the process before and the
count was higher than the number of ready entries. -/
theorem last_mem_fds_scan_iff (hnodup : (is ++ [k]).Nodup) (hready : r.ready k) (hn : 0 < n)
    (hexited : r.exited = false) (hnew : (r.server.client k).fd.toNat ∉ r.fds)
    (hdistinct : ∀ i ∈ is, r.ready i →
      (r.server.client k).fd.toNat ≠ (r.server.client i).fd.toNat) :
    (r.server.client k).fd.toNat ∈ (scan read (is ++ [k]) n r).fds ↔
      (∀ i ∈ is, r.ready i → read (r.server.client i).fd.toNat ≠ .error) ∧
        is.countP r.ready < n := by
  induction is generalizing r n with
  | nil =>
    have hlast : (r.server.client k).fd.toNat ∈ (r.serve read k).fds := by
      rw [fds_serve]
      exact List.mem_append_right _ (List.mem_singleton.2 rfl)
    refine iff_of_true ?_ ⟨nofun, by simpa using hn⟩
    rw [List.nil_append, scan, if_pos hready]
    split
    · exact hlast
    · exact hlast
  | cons i is ih =>
    rw [List.cons_append, List.nodup_cons, List.mem_append, List.mem_singleton, not_or] at hnodup
    obtain ⟨⟨hi, hik⟩, hrest⟩ := hnodup
    rw [List.forall_mem_cons] at hdistinct
    rw [List.forall_mem_cons, List.cons_append, scan]
    by_cases hhit : r.ready i
    · have hframe (j : Nat) (hj : j ∈ is) : j ≠ i := by
        rintro rfl
        exact hi hj
      have hsame : is.countP (r.serve read i).ready = is.countP r.ready := by
        apply List.countP_congr
        intro j hj
        rw [ready_serve_of_ne (hframe j hj)]
      have hunread : (r.server.client k).fd.toNat ∉ (r.serve read i).fds := by
        rw [fds_serve, List.mem_append, List.mem_singleton, not_or]
        exact ⟨hnew, hdistinct.1 hhit⟩
      rw [if_pos hhit, List.countP_cons_of_pos hhit]
      split
      · next hstop =>
        refine iff_of_false hunread ?_
        rintro ⟨⟨hfine, -⟩, hcount⟩
        rcases hstop with hends | hdone
        · exact hfine hhit ((exited_serve hexited).1 hends)
        · omega
      · next hgoes =>
        rw [not_or, Bool.not_eq_true] at hgoes
        have hfine : read (r.server.client i).fd.toNat ≠ .error := by
          intro herror
          exact absurd ((exited_serve hexited).2 herror) (by simp [hgoes.1])
        have hrec := ih (r := r.serve read i) (n := n - 1) hrest
          (by rw [ready_serve_of_ne (Ne.symm hik)]; exact hready) (by omega) hgoes.1
          (by rw [client_serve_of_ne (Ne.symm hik)]; exact hunread) (by
            intro j hj hjready
            rw [ready_serve_of_ne (hframe j hj)] at hjready
            rw [client_serve_of_ne (Ne.symm hik), client_serve_of_ne (hframe j hj)]
            exact hdistinct.2 j hj hjready)
        rw [client_serve_of_ne (Ne.symm hik), hsame] at hrec
        rw [hrec]
        constructor
        · rintro ⟨hall, hcount⟩
          refine ⟨⟨fun _ => hfine, ?_⟩, by omega⟩
          intro j hj hjready
          have herror := hall j hj (by rw [ready_serve_of_ne (hframe j hj)]; exact hjready)
          rwa [client_serve_of_ne (hframe j hj)] at herror
        · rintro ⟨⟨-, hall⟩, hcount⟩
          refine ⟨?_, by omega⟩
          intro j hj hjready
          rw [ready_serve_of_ne (hframe j hj)] at hjready
          rw [client_serve_of_ne (hframe j hj)]
          exact hall j hj hjready
    · rw [if_neg hhit, List.countP_cons_of_neg hhit, ih hrest hready hn hexited hnew hdistinct.2]
      simp only [hhit, Bool.false_eq_true, false_imp_iff, true_and]

end Round

variable {s s' : Server} {a : Answer} {i connfd : Nat}

namespace Server

@[simp]
theorem place_self : (s.place i connfd).client i = {s.client i with fd := connfd, events := POLLIN} :=
  Function.update_self ..

@[simp]
theorem place_of_ne {j : Nat} (hne : j ≠ i) : (s.place i connfd).client j = s.client j :=
  Function.update_of_ne hne ..

/-- Where a new connection goes: to the first entry that is not in use. -/
theorem accept_eq_some (haccept : s.accept connfd = some s') :
    ∃ i, 1 ≤ i ∧ i < OPEN_MAX ∧ (s.client i).fd < 0 ∧
      (∀ j, 1 ≤ j → j < i → 0 ≤ (s.client j).fd) ∧ s' = s.place i connfd := by
  obtain ⟨i, hfind, hs'⟩ := Option.map_eq_some_iff.1 haccept
  obtain ⟨hfree, hmem, hbefore⟩ := List.find?_range'_eq_some.1 hfind
  rw [List.mem_range'_1] at hmem
  refine ⟨i, hmem.1, ?_, by simpa using hfree, ?_, hs'.symm⟩
  · have hlt := hmem.2
    rw [OPEN_MAX] at hlt ⊢
    omega
  · intro j hj hlt
    simpa using hbefore j hj hlt

/-- A connection is turned away when all entries are in use. -/
theorem accept_eq_none (haccept : s.accept connfd = none) :
    ∀ i, 1 ≤ i → i < OPEN_MAX → 0 ≤ (s.client i).fd := by
  intro i hi hlt
  rw [accept, Option.map_eq_none_iff, List.find?_eq_none] at haccept
  have hused := haccept i (by
    rw [List.mem_range'_1]
    rw [OPEN_MAX] at hlt ⊢
    omega)
  simpa using hused

end Server

namespace Sound

theorem poll (h : Sound s) (a : Answer) : Sound (s.poll a) := by
  have hfd (i : Nat) : ((s.poll a).client i).fd = (s.client i).fd := by
    simp only [Server.poll]
    split <;> rfl
  constructor
  · exact h.size
  · intro i hi
    rw [hfd]
    exact h.above hi
  · intro i hi
    rw [hfd] at hi ⊢
    exact h.used hi
  · intro i j hi hj
    rw [hfd] at hi hj
    rw [hfd] at hj
    exact h.distinct hi hj

theorem place (h : Sound s) (hunused : connfd ∉ s.opened) (hlt : i < OPEN_MAX) :
    Sound (s.place i connfd) := by
  have hnew {j : Nat} (hj : 0 ≤ (s.client j).fd) : (s.client j).fd ≠ connfd := by
    intro heq
    have hopen := h.used hj
    rw [heq, Int.toNat_natCast] at hopen
    exact hunused hopen
  constructor
  · have hsize := h.size
    simp only [Server.place]
    split <;> omega
  · intro j hj
    simp only [Server.place] at hj
    rw [Server.place_of_ne]
    · exact h.above (by split at hj <;> omega)
    · rintro rfl
      split at hj <;> omega
  · intro j hj
    by_cases heq : j = i
    · rw [heq, Server.place_self, Int.toNat_natCast]
      exact Finset.mem_insert_self ..
    · rw [Server.place_of_ne heq] at hj ⊢
      exact Finset.mem_insert_of_mem (h.used hj)
  · intro j k hj hk
    by_cases hji : j = i
    · by_cases hki : k = i
      · exact hki.trans hji.symm
      · rw [hji, Server.place_self, Server.place_of_ne hki] at hk
        exact absurd hk (hnew (by rw [hk]; exact Int.natCast_nonneg connfd))
    · rw [Server.place_of_ne hji] at hj hk
      by_cases hki : k = i
      · rw [hki, Server.place_self] at hk
        exact absurd hk.symm (hnew hj)
      · rw [Server.place_of_ne hki] at hk
        exact h.distinct hj hk

theorem accept (h : Sound s) (hunused : connfd ∉ s.opened) (haccept : s.accept connfd = some s') :
    Sound s' := by
  obtain ⟨i, -, hlt, -, -, rfl⟩ := Server.accept_eq_some haccept
  exact h.place hunused hlt

theorem close (h : Sound s) (hi : 0 ≤ (s.client i).fd) :
    Sound (s.close i (s.client i).fd.toNat) := by
  constructor
  · exact h.size
  · intro j hj
    simp only [Server.close, Function.update_apply]
    split
    · rfl
    · exact h.above hj
  · intro j hj
    simp only [Server.close] at hj ⊢
    by_cases heq : j = i
    · rw [heq, Function.update_self] at hj
      exact absurd hj (by simp)
    · rw [Function.update_of_ne heq] at hj ⊢
      refine Finset.mem_erase.2 ⟨?_, h.used hj⟩
      intro hsame
      exact heq (h.distinct hi (by omega))
  · intro j k hj hk
    simp only [Server.close] at hj hk
    by_cases hji : j = i
    · rw [hji, Function.update_self] at hj
      exact absurd hj (by simp)
    · rw [Function.update_of_ne hji] at hj hk
      by_cases hki : k = i
      · rw [hki, Function.update_self] at hk
        rw [← hk] at hj
        exact absurd hj (by simp)
      · rw [Function.update_of_ne hki] at hk
        exact h.distinct hj hk

theorem serve {read : Nat → Result} {r : Round} (h : Sound r.server) (hready : r.ready i) :
    Sound (r.serve read i).server := by
  have hi : 0 ≤ (r.server.client i).fd := by
    simp only [Round.ready, decide_eq_true_eq] at hready
    exact hready.1
  unfold Round.serve
  simp only
  split
  · exact h.close hi
  · exact h
  · split
    · exact h.close hi
    · exact h

theorem scan {read : Nat → Result} {r : Round} {is : List Nat} {n : Int} (h : Sound r.server) :
    Sound (Round.scan read is n r).server := by
  induction is generalizing r n with
  | nil => exact h
  | cons i is ih =>
    unfold Round.scan
    split
    · next hready =>
      split
      · exact h.serve hready
      · exact ih (h.serve hready)
    · exact ih h

theorem round (h : Sound s) (hallows : s.Allows a) : Sound (s.round a).server := by
  have hpolled := h.poll a
  unfold Server.round
  simp only
  split
  · cases hconn : a.connfd.bind (s.poll a).accept with
    | none => exact hpolled
    | some s' =>
      obtain ⟨connfd, hconnfd, haccept⟩ := Option.bind_eq_some_iff.1 hconn
      have haccepted := hpolled.accept (hallows.1 connfd hconnfd) haccept
      simp only
      split
      · exact haccepted
      · exact haccepted.scan
  · exact hpolled.scan

theorem step (h : Sound s) (hstep : step s a = some s') : Sound s' := by
  obtain ⟨hallows, rfl⟩ := step_eq_some hstep
  exact h.round hallows

end Sound

theorem sound_start (garbage : Nat → PollFd) (listenfd : Nat) (others : Finset Nat) :
    Sound (start garbage listenfd others) := by
  have hfree {i : Nat} (hi : 0 ≤ ((start garbage listenfd others).client i).fd) : i = 0 := by
    by_contra hne
    simp only [start, hne, if_false] at hi
    exact absurd hi (by simp)
  constructor
  · exact Nat.zero_lt_succ _
  · intro i hi
    have hne : i ≠ 0 := Nat.ne_of_gt hi
    simp only [start, hne, if_false]
  · intro i hi
    rw [hfree hi]
    exact Finset.mem_insert_self ..
  · intro i j hi hj
    have hjused : 0 ≤ ((start garbage listenfd others).client j).fd := by
      rw [hj]
      exact hi
    exact (hfree hjused).trans (hfree hi).symm

namespace Server

theorem poll_fd (s : Server) (a : Answer) (i : Nat) :
    ((s.poll a).client i).fd = (s.client i).fd := by
  simp only [poll]
  split <;> rfl

theorem poll_revents (hi : i ≤ s.maxi) : ((s.poll a).client i).revents = a.revents i := by
  simp only [poll, hi, if_true]

private theorem poll_above (hi : s.maxi < i) : (s.poll a).client i = s.client i := by
  simp only [poll, Nat.not_le.2 hi, if_false]

/-- Less the listener, `nready` counts the clients that report something. -/
theorem nready_sub_one (hok : a.failed = false) (hlisten : pollin (a.revents 0)) :
    s.nready a - 1 = ((List.range' 1 s.maxi).countP fun i => a.revents i ≠ 0 : Nat) := by
  have hzero : a.revents 0 ≠ 0 := by
    intro heq
    rw [heq, pollin_zero] at hlisten
    cases hlisten
  have hrange : List.range (s.maxi + 1) = 0 :: List.range' 1 s.maxi := by
    rw [List.range_eq_range', List.range'_succ]
  rw [nready, hok, if_neg Bool.false_ne_true, hrange, List.countP_cons_of_pos (by simpa using hzero)]
  omega

end Server

/-- What is read from an entry that `poll` has looked at has been reported. -/
theorem reported_of_polled (h : Sound s) (hallows : s.Allows a) (hok : a.failed = false) {fd : Nat}
    (hi : i ≤ s.maxi) (hused : 0 ≤ (s.client i).fd) (hfd : fd = (s.client i).fd.toNat)
    (hbit : pollin (a.revents i)) : Reported s a fd ∧ a.connfd ≠ some fd := by
  refine ⟨⟨hok, i, hi, ?_, hbit⟩, ?_⟩
  · rw [hfd, Int.toNat_of_nonneg hused]
  · intro hconn
    exact hallows.1 fd hconn (hfd ▸ h.used hused)

theorem le_maxi_of_mem (hi : i ∈ List.range' 1 s.maxi) : i ≤ s.maxi :=
  Nat.lt_one_add_iff.1 (List.mem_range'_1.1 hi).2

/-- A round without a new connection. -/
theorem reported_iff_of_quiet (h : Sound s) (hallows : s.Allows a)
    (hquiet : pollin (a.revents 0) = false) : ReadsReported s a ↔ ¬ Stale s a := by
  have hround : s.round a = (s.poll a).scan a (s.nready a) := by
    rw [Server.round]
    simp only [Server.poll_revents (Nat.zero_le _), hquiet, Bool.false_eq_true, if_false]
  have hready (i : Nat) (hi : i ∈ List.range' 1 s.maxi) :
      (Round.new (s.poll a)).ready i = true ↔
        0 ≤ (s.client i).fd ∧ pollin (a.revents i) := by
    rw [List.mem_range'_1] at hi
    rw [Round.ready, decide_eq_true_eq, Round.new_server, Server.poll_fd,
      Server.poll_revents (by omega)]
  rw [ReadsReported, hround]
  constructor
  · rintro hall ⟨hfailed, -, i, hi, hused, hbit⟩
    have hread : ((s.poll a).scan a (s.nready a)).fds ≠ [] :=
      Round.fds_scan_ne_nil ⟨i, hi, (hready i hi).2 ⟨hused, hbit⟩⟩
    obtain ⟨fd, hfd⟩ := List.exists_mem_of_ne_nil _ hread
    obtain ⟨⟨hok, -⟩, -⟩ := hall fd hfd
    rw [hfailed] at hok
    cases hok
  · intro hstale fd hfd
    obtain hbefore | ⟨i, hi, hiready, hifd⟩ := Round.mem_fds_scan List.nodup_range' hfd
    · cases hbefore
    · obtain ⟨hused, hbit⟩ := (hready i hi).1 hiready
      rw [Round.new_server, Server.poll_fd] at hifd
      have hok : a.failed = false := by
        rw [← Bool.not_eq_true]
        intro hfailed
        exact hstale ⟨hfailed, hquiet, i, hi, hused, hbit⟩
      exact reported_of_polled h hallows hok (le_maxi_of_mem hi) hused hifd hbit

private theorem ne_zero_of_pollin {revents : UInt16} (hbit : pollin revents) : revents ≠ 0 := by
  rintro rfl
  cases hbit

/-- The scan of a round in which the new connection has taken an entry that `poll` has looked
at. -/
theorem reported_of_reused (h : Sound s) (hallows : s.Allows a) (hok : a.failed = false)
    (hi : i ≤ s.maxi) (hfree : (s.client i).fd < 0) (n : Int) :
    ∀ fd ∈ (((s.poll a).place i connfd).scan a n).fds, Reported s a fd ∧ a.connfd ≠ some fd := by
  have hmaxi : ((s.poll a).place i connfd).maxi = s.maxi := if_neg (Nat.not_lt.2 hi)
  intro fd hfd
  rw [Server.scan, hmaxi] at hfd
  obtain hbefore | ⟨j, hj, hready, hjfd⟩ := Round.mem_fds_scan List.nodup_range' hfd
  · cases hbefore
  · have hle := le_maxi_of_mem hj
    rw [Round.ready, decide_eq_true_eq, Round.new_server] at hready
    rw [Round.new_server] at hjfd
    by_cases heq : j = i
    · -- its `revents` are 0, since it was not in use
      have hzero := ((hallows.2 hok).2 i hi).1 hfree
      rw [heq, Server.place_self, Server.poll_revents hi, hzero, pollin_zero] at hready
      cases hready.2
    · rw [Server.place_of_ne heq, Server.poll_fd, Server.poll_revents hle] at hready
      rw [Server.place_of_ne heq, Server.poll_fd] at hjfd
      exact reported_of_polled h hallows hok hle hready.1 hjfd hready.2

/-- A round in which it has taken the entry behind all others, before the scan. -/
def behind (s : Server) (a : Answer) (connfd : Nat) : Round :=
  .new ((s.poll a).place (s.maxi + 1) connfd)

theorem behind_last :
    (behind s a connfd).server.client (s.maxi + 1) =
      {s.client (s.maxi + 1) with fd := connfd, events := POLLIN} := by
  rw [behind, Round.new_server, Server.place_self, Server.poll_above (Nat.lt_succ_self _)]

theorem behind_last_ready :
    (behind s a connfd).ready (s.maxi + 1) = pollin (s.client (s.maxi + 1)).revents := by
  simp [Round.ready, behind_last]

theorem behind_client (hi : i ≤ s.maxi) :
    (behind s a connfd).server.client i = (s.poll a).client i := by
  rw [behind, Round.new_server, Server.place_of_ne (by omega)]

theorem behind_fd (hi : i ≤ s.maxi) :
    ((behind s a connfd).server.client i).fd = (s.client i).fd := by
  rw [behind_client hi, Server.poll_fd]

theorem behind_ready (hi : i ≤ s.maxi) (hused : 0 ≤ (s.client i).fd) :
    (behind s a connfd).ready i = pollin (a.revents i) := by
  rw [Round.ready, behind_fd hi, behind_client hi, Server.poll_revents hi]
  simp [hused]

theorem behind_scan (n : Int) :
    ((s.poll a).place (s.maxi + 1) connfd).scan a n =
      Round.scan a.read (List.range' 1 s.maxi ++ [s.maxi + 1]) n (behind s a connfd) := by
  have hmaxi : ((s.poll a).place (s.maxi + 1) connfd).maxi = s.maxi + 1 :=
    if_pos (Nat.lt_succ_self _)
  rw [Server.scan, hmaxi, List.range'_1_concat, Nat.add_comm 1, behind]

theorem nodup_behind (s : Server) : (List.range' 1 s.maxi ++ [s.maxi + 1]).Nodup := by
  rw [Nat.add_comm, ← List.range'_1_concat]
  exact List.nodup_range'

/-- Every ready entry counts in `nready`, so the count is higher when another one counts too. -/
theorem countP_ready_lt_iff (hused : ∀ i ∈ List.range' 1 s.maxi, 0 ≤ (s.client i).fd) :
    (List.range' 1 s.maxi).countP (behind s a connfd).ready <
        (List.range' 1 s.maxi).countP (fun i => a.revents i ≠ 0) ↔
      ∃ i ∈ List.range' 1 s.maxi, a.revents i ≠ 0 ∧ pollin (a.revents i) = false := by
  have hready : (List.range' 1 s.maxi).countP (behind s a connfd).ready =
      (List.range' 1 s.maxi).countP fun i => pollin (a.revents i) :=
    List.countP_congr fun i hi => by rw [behind_ready (le_maxi_of_mem hi) (hused i hi)]
  rw [hready, countP_lt_countP_iff (fun i _ hp => by simpa using ne_zero_of_pollin hp)]
  simp only [ne_eq, decide_eq_true_eq]

/-- The new connection is read when its entry has the bit and the scan comes to it. -/
theorem behind_read_iff (h : Sound s) (hunused : connfd ∉ s.opened)
    (hused : ∀ i ∈ List.range' 1 s.maxi, 0 ≤ (s.client i).fd)
    (hbit : pollin (s.client (s.maxi + 1)).revents) {n : Int} (hn : 0 < n)
    (hcount : n = ((List.range' 1 s.maxi).countP fun i => a.revents i ≠ 0 : Nat)) :
    connfd ∈ (((s.poll a).place (s.maxi + 1) connfd).scan a n).fds ↔
      (∀ i ∈ List.range' 1 s.maxi, pollin (a.revents i) →
        a.read (s.client i).fd.toNat ≠ .error) ∧
      ∃ i ∈ List.range' 1 s.maxi, a.revents i ≠ 0 ∧ pollin (a.revents i) = false := by
  have hlast : ((behind s a connfd).server.client (s.maxi + 1)).fd.toNat = connfd := by
    rw [behind_last, Int.toNat_natCast]
  have hnew : ((behind s a connfd).server.client (s.maxi + 1)).fd.toNat ∉
      (behind s a connfd).fds := by
    rw [behind, Round.new_fds]
    exact List.not_mem_nil
  have hdistinct : ∀ i ∈ List.range' 1 s.maxi, (behind s a connfd).ready i →
      ((behind s a connfd).server.client (s.maxi + 1)).fd.toNat ≠
        ((behind s a connfd).server.client i).fd.toNat := by
    intro i hi _ heq
    rw [hlast, behind_fd (le_maxi_of_mem hi)] at heq
    exact hunused (heq ▸ h.used (hused i hi))
  have hfine : (∀ i ∈ List.range' 1 s.maxi, (behind s a connfd).ready i →
      a.read ((behind s a connfd).server.client i).fd.toNat ≠ .error) ↔
        ∀ i ∈ List.range' 1 s.maxi, pollin (a.revents i) →
          a.read (s.client i).fd.toNat ≠ .error := by
    apply forall₂_congr
    intro i hi
    rw [behind_ready (le_maxi_of_mem hi) (hused i hi), behind_fd (le_maxi_of_mem hi)]
  have hreads : _ ∈ (Round.scan a.read _ n _).fds ↔ _ := Round.last_mem_fds_scan_iff
    (nodup_behind s) (behind_last_ready.trans hbit) hn rfl hnew hdistinct
  rw [hlast, hcount, Int.ofNat_lt, countP_ready_lt_iff hused, hfine, ← hcount] at hreads
  rw [behind_scan]
  exact hreads

/-- What else is read in the round has been reported. -/
theorem behind_reported (h : Sound s) (hallows : s.Allows a) (hok : a.failed = false)
    (hused : ∀ i ∈ List.range' 1 s.maxi, 0 ≤ (s.client i).fd) {n : Int} {fd : Nat}
    (hmem : fd ∈ (((s.poll a).place (s.maxi + 1) connfd).scan a n).fds) :
    (Reported s a fd ∧ a.connfd ≠ some fd) ∨
      (fd = connfd ∧ pollin (s.client (s.maxi + 1)).revents) := by
  rw [behind_scan] at hmem
  obtain hbefore | ⟨i, hi, hready, hifd⟩ := Round.mem_fds_scan (nodup_behind s) hmem
  · cases hbefore
  · rcases List.mem_append.1 hi with hpolled | hnew
    · have hle := le_maxi_of_mem hpolled
      rw [behind_ready hle (hused i hpolled)] at hready
      rw [behind_fd hle] at hifd
      exact Or.inl (reported_of_polled h hallows hok hle (hused i hpolled) hifd hready)
    · rw [List.mem_singleton.1 hnew, behind_last_ready] at hready
      rw [List.mem_singleton.1 hnew, behind_last, Int.toNat_natCast] at hifd
      exact Or.inr ⟨hifd, hready⟩

private theorem reported_iff_of_new (h : Sound s) (hallows : s.Allows a) (hok : a.failed = false)
    (hconn : a.connfd = some connfd) (hused : ∀ i ∈ List.range' 1 s.maxi, 0 ≤ (s.client i).fd)
    {n : Int} (hn : 0 < n)
    (hcount : n = ((List.range' 1 s.maxi).countP fun i => a.revents i ≠ 0 : Nat)) :
    (∀ fd ∈ (((s.poll a).place (s.maxi + 1) connfd).scan a n).fds,
        Reported s a fd ∧ a.connfd ≠ some fd) ↔
      ¬ (pollin (s.client (s.maxi + 1)).revents ∧
        (∃ i ∈ List.range' 1 s.maxi, a.revents i ≠ 0 ∧ pollin (a.revents i) = false) ∧
        ∀ i ∈ List.range' 1 s.maxi, pollin (a.revents i) →
          a.read (s.client i).fd.toNat ≠ .error) := by
  have hunused : connfd ∉ s.opened := hallows.1 connfd hconn
  constructor
  · rintro hreported ⟨hbit, hother, hfine⟩
    have hread := (behind_read_iff h hunused hused hbit hn hcount).2 ⟨hfine, hother⟩
    exact (hreported connfd hread).2 hconn
  · intro hmisled fd hmem
    obtain hpolled | ⟨rfl, hbit⟩ := behind_reported h hallows hok hused hmem
    · exact hpolled
    · obtain ⟨hfine, hother⟩ := (behind_read_iff h hunused hused hbit hn hcount).1 hmem
      exact absurd ⟨hbit, hother, hfine⟩ hmisled

/-- A round with a new connection and nothing else to do. -/
theorem not_unwritten_of_done (hlisten : pollin (a.revents 0)) (hdone : s.nready a - 1 ≤ 0) :
    ¬ Unwritten s a := by
  rintro ⟨hok, -, -, -, -, -, ⟨j, hj, hreports, -⟩, -⟩
  rw [Server.nready_sub_one hok hlisten] at hdone
  have hpos : 0 < (List.range' 1 s.maxi).countP fun i => a.revents i ≠ 0 :=
    List.countP_pos_iff.2 ⟨j, hj, by simpa using hreports⟩
  omega

/-- A round with a new connection and more to do. -/
theorem reported_iff_of_accepted (h : Sound s) (hallows : s.Allows a)
    (hlisten : pollin (a.revents 0)) (hconn : a.connfd = some connfd)
    (haccept : (s.poll a).accept connfd = some s') (hmore : ¬ s.nready a - 1 ≤ 0) :
    (∀ fd ∈ (s'.scan a (s.nready a - 1)).fds, Reported s a fd ∧ a.connfd ≠ some fd) ↔
      ¬ Unwritten s a := by
  obtain ⟨i, hi, hlt, hfree, hbefore, rfl⟩ := Server.accept_eq_some haccept
  simp only [Server.poll_fd] at hfree hbefore
  have hok : a.failed = false := by
    rw [← Bool.not_eq_true]
    intro hfailed
    apply hmore
    rw [Server.nready, if_pos hfailed]
    omega
  rcases Nat.lt_or_ge s.maxi i with habove | hle
  · have hlast : i = s.maxi + 1 := by
      by_contra hne
      have hused := hbefore (s.maxi + 1) (Nat.succ_pos _) (by omega)
      rw [h.above (Nat.lt_succ_self _)] at hused
      omega
    subst hlast
    have hused : ∀ j ∈ List.range' 1 s.maxi, 0 ≤ (s.client j).fd := by
      intro j hj
      rw [List.mem_range'_1] at hj
      exact hbefore j hj.1 (by omega)
    rw [reported_iff_of_new h hallows hok hconn hused (by omega)
      (Server.nready_sub_one hok hlisten), not_iff_not]
    constructor
    · rintro ⟨hbit, hother, hfine⟩
      exact ⟨hok, hlisten, by simp [hconn], hlt, hbit, hused, hother, hfine⟩
    · rintro ⟨-, -, -, -, hbit, -, hother, hfine⟩
      exact ⟨hbit, hother, hfine⟩
  · refine iff_of_true (reported_of_reused h hallows hok hle hfree _) ?_
    rintro ⟨-, -, -, -, -, hused, -⟩
    have hnot := hused i (List.mem_range'_1.2 ⟨hi, by omega⟩)
    omega

/-- A round with a new connection. -/
theorem reported_iff_of_listening (h : Sound s) (hallows : s.Allows a)
    (hlisten : pollin (a.revents 0)) : ReadsReported s a ↔ ¬ Unwritten s a := by
  have hzero : pollin ((s.poll a).client 0).revents := by
    rw [Server.poll_revents (Nat.zero_le _)]
    exact hlisten
  have hquiet (hfds : (s.round a).fds = []) : ReadsReported s a := by
    intro fd hfd
    rw [hfds] at hfd
    cases hfd
  cases hconn : a.connfd with
  | none =>
    refine iff_of_true (hquiet ?_) (fun hmisled => hmisled.2.2.1 hconn)
    rw [Server.round]
    simp only [hzero, if_true, hconn, Option.bind_none]
    rfl
  | some connfd =>
    cases haccept : (s.poll a).accept connfd with
    | none =>
      refine iff_of_true (hquiet ?_) ?_
      · rw [Server.round]
        simp only [hzero, if_true, hconn, Option.bind_some, haccept]
        rfl
      · rintro ⟨-, -, -, hlt, -⟩
        have hused := Server.accept_eq_none haccept (s.maxi + 1) (Nat.succ_pos _) hlt
        rw [Server.poll_fd, h.above (Nat.lt_succ_self _)] at hused
        omega
    | some s' =>
      by_cases hdone : s.nready a - 1 ≤ 0
      · refine iff_of_true (hquiet ?_) (not_unwritten_of_done hlisten hdone)
        rw [Server.round]
        simp only [hzero, if_true, hconn, Option.bind_some, haccept, hdone]
        rfl
      · have hround : s.round a = s'.scan a (s.nready a - 1) := by
          rw [Server.round]
          simp only [hzero, if_true, hconn, Option.bind_some, haccept, hdone, if_false]
        rw [ReadsReported, hround]
        exact reported_iff_of_accepted h hallows hlisten hconn haccept hdone

/-- A round reads only what has been reported, except for the two cases. -/
theorem readsReported_iff (h : Sound s) (hallows : s.Allows a) :
    ReadsReported s a ↔ ¬ (Stale s a ∨ Unwritten s a) := by
  rw [not_or]
  cases hbit : pollin (a.revents 0) with
  | true =>
    rw [reported_iff_of_listening h hallows hbit]
    refine (and_iff_right ?_).symm
    rintro ⟨-, hquiet, -⟩
    rw [hbit] at hquiet
    cases hquiet
  | false =>
    rw [reported_iff_of_quiet h hallows hbit]
    refine (and_iff_left ?_).symm
    rintro ⟨-, hlisten, -⟩
    rw [hbit] at hlisten
    cases hlisten

/-- In every run, whatever stood in the memory of `client`, the reads of all rounds have been
reported if and only if neither case comes up in one of them. -/
theorem readsReported_along_iff (garbage : Nat → PollFd) (listenfd : Nat) (others : Finset Nat)
    (as : List Answer) :
    Along step (fun t a => t.Allows a → ReadsReported t a) (start garbage listenfd others) as ↔
      Along step (fun t a => t.Allows a → ¬ (Stale t a ∨ Unwritten t a))
        (start garbage listenfd others) as := by
  apply along_congr_allowed (I := Sound)
  · exact fun hstep => (step_eq_some hstep).1
  · exact fun h hallows => readsReported_iff h hallows
  · exact fun h _ hstep => h.step hstep
  · exact sound_start garbage listenfd others

/-- A client connects as 4; then a client is accepted as 5 while 4 reports an error only. -/
def twoClients : List Answer :=
  [ ⟨false, fun _ => 1, some 4, fun _ => .ECONNRESET⟩,
    ⟨false, fun i => if i = 0 then 1 else 8, some 5, fun _ => .ECONNRESET⟩ ]

/-- The bit stands in the memory of the entry that 5 takes, and 5 is read in the round in
which it is accepted. -/
theorem not_readsReported_new :
    ¬ Along step (fun t a => t.Allows a → ReadsReported t a)
      (start (fun _ => ⟨0, 0, 1⟩) 3 {0, 1, 2}) twoClients := by
  have hrun : (step (start (fun _ => ⟨0, 0, 1⟩) 3 {0, 1, 2})
      ⟨false, fun _ => 1, some 4, fun _ => .ECONNRESET⟩).map
        (fun t => decide (t.Allows ⟨false, fun i => if i = 0 then 1 else 8, some 5,
          fun _ => .ECONNRESET⟩) && (t.round ⟨false, fun i => if i = 0 then 1 else 8, some 5,
            fun _ => .ECONNRESET⟩).fds.contains 5) = some true := by
    decide +kernel
  obtain ⟨t, hstep, hsecond⟩ := Option.map_eq_some_iff.1 hrun
  rw [Bool.and_eq_true, decide_eq_true_eq, List.contains_iff_mem] at hsecond
  rintro ⟨-, hnext⟩
  have hreported := (hnext t hstep).1 hsecond.1 5 hsecond.2
  exact hreported.2 rfl

end LearningCpp.PollServer
