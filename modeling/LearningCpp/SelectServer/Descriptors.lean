import LearningCpp.Library.LeastUnused
import LearningCpp.SelectServer.Server

/-!
The descriptors that reach `FD_SET`, `FD_CLR` and `FD_ISSET` when `accept` returns the lowest
unused one. The places of `client` are as many as the bits of a set, but the bits of 0, 1, 2
and the listener are taken, so the places outlast the bits.
-/

namespace LearningCpp.SelectServer

open LearningCpp.Library

variable {s s' : Server} {a : Answer}

/-- `Read` gets the end of the stream. -/
def ends (read : Nat → Option {buf : List UInt8 // buf.length ≤ BUFSIZ}) (sockfd : Nat) : Bool :=
  (read sockfd).any fun buf => buf.val.length = 0

/-- What a scan of the places passes to `FD_ISSET` and `FD_CLR`. -/
def Scan.passed (rset : Finset Nat)
    (read : Nat → Option {buf : List UInt8 // buf.length ≤ BUFSIZ}) :
    List Nat → Int → Scan → List Nat
  | [], _, _ => []
  | i :: is, nready, s =>
      let sockfd := s.server.client.getD i (-1)
      if sockfd < 0 then Scan.passed rset read is nready s
      else if sockfd.toNat ∈ rset then
        sockfd.toNat :: ((if ends read sockfd.toNat then [sockfd.toNat] else []) ++
          if nready - 1 = 0 then [] else Scan.passed rset read is (nready - 1) (s.serve read i))
      else sockfd.toNat :: Scan.passed rset read is nready s

def Server.scanPassed (s : Server) (rset : Finset Nat)
    (read : Nat → Option {buf : List UInt8 // buf.length ≤ BUFSIZ}) (nready : Int) : List Nat :=
  Scan.passed rset read (List.range (s.maxi + 1).toNat) nready {server := s, served := []}

/-- What a round passes to `FD_ISSET`, `FD_SET` and `FD_CLR`. -/
def Server.passed (s : Server) (a : Answer) : List Nat :=
  match a.select with
  | none => []
  | some rset =>
      s.listenfd ::
        if s.listenfd ∈ rset then
          match s.accept a.connfd with
          | none => []
          | some s' =>
              a.connfd ::
                if (rset.card : Int) - 1 = 0 then [] else s'.scanPassed rset a.read (rset.card - 1)
        else s.scanPassed rset a.read rset.card

/-- `accept` returns the lowest unused descriptor. -/
def Server.GivesLowest (s : Server) (a : Answer) : Prop :=
  a.connfd = leastUnused s.opened ∧
    ∀ rset ∈ a.select, rset.Nonempty ∧ rset ⊆ s.allset.filter (· ≤ s.maxfd)

instance (s : Server) (a : Answer) : Decidable (s.GivesLowest a) :=
  inferInstanceAs (Decidable (_ ∧ _))

def stepLowest (s : Server) (a : Answer) : Option Server :=
  if s.GivesLowest a then (s.round a).map Scan.server else none

theorem stepLowest_eq_some (hstep : stepLowest s a = some s') :
    s.GivesLowest a ∧ ∃ scan, s.round a = some scan ∧ scan.server = s' := by
  unfold stepLowest at hstep
  split at hstep
  · next hlowest => exact ⟨hlowest, Option.map_eq_some_iff.1 hstep⟩
  · cases hstep

/-- How many clients are connected. -/
def Server.connected (s : Server) : Nat := s.client.countP fun fd => 0 ≤ fd

/-- All descriptors have a bit. -/
def Server.InSets (s : Server) (a : Answer) : Prop := ∀ fd ∈ s.passed a, fd < FD_SETSIZE

/-- When a connection is accepted, there are fewer clients than bits left for them. -/
def Server.Few (s : Server) (a : Answer) : Prop :=
  ∀ rset ∈ a.select, s.listenfd ∈ rset → s.connected < FD_SETSIZE - 4

/-- What holds at the top of every round while all descriptors have a bit. -/
structure Server.Low (s : Server) : Prop where
  sound : s.Sound
  listenfd : s.listenfd = 3
  opened : ∀ fd, fd ∈ s.opened ↔ fd < 3 ∨ fd ∈ s.allset
  apart : ∀ fd ∈ s.allset, 3 ≤ fd
  below : ∀ fd ∈ s.allset, fd < FD_SETSIZE

theorem low_start : (start 3 {0, 1, 2, 3}).Low := by
  refine ⟨start_sound (by decide), rfl, ?_, ?_, ?_⟩
  · intro fd
    simp only [start, Finset.mem_insert, Finset.mem_singleton]
    omega
  · intro fd hfd
    rw [Finset.mem_singleton.1 hfd]
  · intro fd hfd
    rw [Finset.mem_singleton.1 hfd]
    decide

namespace Server.Low

theorem accept {connfd : Nat} (h : s.Low) (hunused : connfd ∉ s.opened)
    (hconn : connfd < FD_SETSIZE) (haccept : s.accept connfd = some s') : s'.Low := by
  have hsound := h.sound.accept hunused haccept
  obtain ⟨i, -, rfl⟩ := accept_eq_some h.sound haccept
  have hthree : 3 ≤ connfd := by
    by_contra hlt
    exact hunused ((h.opened connfd).2 (Or.inl (by omega)))
  refine ⟨hsound, h.listenfd, ?_, ?_, ?_⟩
  · intro fd
    rw [Finset.mem_insert, Finset.mem_insert, h.opened]
    tauto
  · intro fd hfd
    rcases Finset.mem_insert.1 hfd with rfl | hold
    · exact hthree
    · exact h.apart fd hold
  · intro fd hfd
    rcases Finset.mem_insert.1 hfd with rfl | hold
    · exact hconn
    · exact h.below fd hold

theorem close {i fd : Nat} (h : s.Low) (hi : s.client[i]? = some (fd : Int)) :
    Server.Low {s with
      opened := s.opened.erase fd
      allset := s.allset.erase fd
      client := s.client.set i (-1) } := by
  have hwatched : fd ∈ s.allset := (h.sound.watched fd).2 (Or.inr (List.mem_of_getElem? hi))
  have hthree := h.apart fd hwatched
  refine ⟨h.sound.close hi, h.listenfd, ?_, ?_, ?_⟩
  · intro fd'
    rw [Finset.mem_erase, Finset.mem_erase, h.opened]
    constructor
    · rintro ⟨hne, hlow | hmem⟩
      · exact Or.inl hlow
      · exact Or.inr ⟨hne, hmem⟩
    · rintro (hlow | ⟨hne, hmem⟩)
      · exact ⟨by omega, Or.inl hlow⟩
      · exact ⟨hne, Or.inr hmem⟩
  · exact fun fd' hfd' => h.apart fd' (Finset.mem_of_mem_erase hfd')
  · exact fun fd' hfd' => h.below fd' (Finset.mem_of_mem_erase hfd')

theorem serve {scan : Scan} {rset : Finset Nat} {i : Nat}
    {read : Nat → Option {buf : List UInt8 // buf.length ≤ BUFSIZ}} (h : scan.server.Low)
    (hready : scan.ready rset i) : (scan.serve read i).server.Low := by
  obtain ⟨fd, hi, -, hgetD⟩ := Scan.client_of_ready hready
  unfold Scan.serve
  simp only [hgetD, Int.toNat_natCast]
  cases hread : read fd with
  | none => exact h
  | some buf =>
    simp only
    split
    · exact h.close hi
    · exact h

theorem scan {rset : Finset Nat} {read : Nat → Option {buf : List UInt8 // buf.length ≤ BUFSIZ}}
    (h : s.Low) (nready : Int) : (s.scan rset read nready).server.Low :=
  countdown_invariant (I := fun scan : Scan => scan.server.Low) (fun h hready => h.serve hready) h

theorem round (h : s.Low) {scan : Scan} (hunused : a.connfd ∉ s.opened)
    (hconn : ∀ rset ∈ a.select, s.listenfd ∈ rset → a.connfd < FD_SETSIZE)
    (hround : s.round a = some scan) : scan.server.Low := by
  unfold Server.round at hround
  cases hrset : a.select with
  | none => simp [hrset] at hround
  | some rset =>
    simp only [hrset] at hround
    split at hround
    · next hlisten =>
      obtain ⟨s', haccept, rfl⟩ := Option.map_eq_some_iff.1 hround
      have haccepted := h.accept hunused (hconn rset hrset hlisten) haccept
      split
      · exact haccepted
      · exact haccepted.scan _
    · rw [← Option.some.inj hround]
      exact h.scan _

end Server.Low

/-! What is passed in a round, and how many descriptors are open. -/

theorem Scan.mem_client_of_serve {scan : Scan} {i : Nat}
    {read : Nat → Option {buf : List UInt8 // buf.length ≤ BUFSIZ}} {fd : Nat}
    (hmem : (fd : Int) ∈ (scan.serve read i).server.client) : (fd : Int) ∈ scan.server.client := by
  unfold serve at hmem
  simp only at hmem
  cases hread : read (scan.server.client.getD i (-1)).toNat with
  | none =>
    rw [hread] at hmem
    exact hmem
  | some buf =>
    simp only [hread] at hmem
    split at hmem
    · rcases List.mem_or_eq_of_mem_set hmem with hold | hminus
      · exact hold
      · omega
    · exact hmem

/-- A scan passes the descriptors of clients only. -/
theorem Scan.mem_client_of_passed {rset : Finset Nat}
    {read : Nat → Option {buf : List UInt8 // buf.length ≤ BUFSIZ}} {is : List Nat} {nready : Int}
    {scan : Scan} {fd : Nat} (hmem : fd ∈ Scan.passed rset read is nready scan) :
    (fd : Int) ∈ scan.server.client := by
  induction is generalizing nready scan with
  | nil => cases hmem
  | cons i is ih =>
    have hclient (hused : ¬ scan.server.client.getD i (-1) < 0) :
        ((scan.server.client.getD i (-1)).toNat : Int) ∈ scan.server.client := by
      rw [Int.toNat_of_nonneg (by omega)]
      rw [List.getD_eq_getElem?_getD] at hused ⊢
      cases hget : scan.server.client[i]? with
      | none =>
        rw [hget, Option.getD_none] at hused
        omega
      | some fd' => exact List.mem_of_getElem? hget
    unfold Scan.passed at hmem
    simp only at hmem
    split at hmem
    · exact ih hmem
    · next hused =>
      split at hmem
      · rcases List.mem_cons.1 hmem with rfl | hrest
        · exact hclient hused
        · rcases List.mem_append.1 hrest with hcleared | hlater
          · split at hcleared
            · rw [List.mem_singleton.1 hcleared]
              exact hclient hused
            · cases hcleared
          · split at hlater
            · cases hlater
            · exact mem_client_of_serve (ih hlater)
      · rcases List.mem_cons.1 hmem with rfl | hlater
        · exact hclient hused
        · exact ih hlater

/-- The descriptors of the clients. -/
def Server.clients (s : Server) : Finset Nat :=
  ((s.client.filter fun fd => 0 ≤ fd).map Int.toNat).toFinset

theorem Server.mem_clients {fd : Nat} : fd ∈ s.clients ↔ (fd : Int) ∈ s.client := by
  simp only [clients, List.mem_toFinset, List.mem_map, List.mem_filter, decide_eq_true_eq]
  constructor
  · rintro ⟨x, ⟨hx, hpos⟩, rfl⟩
    rwa [Int.toNat_of_nonneg hpos]
  · exact fun hmem => ⟨fd, ⟨hmem, Int.natCast_nonneg fd⟩, Int.toNat_natCast fd⟩

namespace Server.Low

theorem opened_below (h : s.Low) : s.opened ⊆ Finset.range FD_SETSIZE := by
  intro fd hfd
  rw [Finset.mem_range]
  rcases (h.opened fd).1 hfd with hlow | hmem
  · rw [FD_SETSIZE]
    omega
  · exact h.below fd hmem

private theorem card_clients (h : s.Low) : s.clients.card = s.connected := by
  have hnodup : ((s.client.filter fun fd => 0 ≤ fd).map Int.toNat).Nodup := by
    apply List.Nodup.map_on
    · intro x hx y hy heq
      have hxpos := of_decide_eq_true (List.mem_filter.1 hx).2
      have hypos := of_decide_eq_true (List.mem_filter.1 hy).2
      omega
    · rw [List.Nodup, List.pairwise_filter, List.pairwise_iff_getElem]
      intro i j hi hj hlt hpos _ heq
      have hsame := h.sound.distinct (List.getElem?_eq_getElem hi)
        ((List.getElem?_eq_getElem hj).trans (by rw [heq])) (of_decide_eq_true hpos)
      omega
  rw [clients, List.toFinset_card_of_nodup hnodup, List.length_map,
    ← List.countP_eq_length_filter, connected]

/-- The open descriptors are those of the clients, and 0 to 3. -/
theorem opened_eq (h : s.Low) : s.opened = Finset.range 4 ∪ s.clients := by
  ext fd
  rw [Finset.mem_union, Finset.mem_range, mem_clients, h.opened, h.sound.watched, h.listenfd,
    ← or_assoc]
  apply or_congr_left
  omega

private theorem disjoint_clients (h : s.Low) : Disjoint (Finset.range 4) s.clients := by
  rw [Finset.disjoint_left]
  intro fd hfour hmem
  rw [Finset.mem_range] at hfour
  rw [mem_clients] at hmem
  have hthree := h.apart fd ((h.sound.watched fd).2 (Or.inr hmem))
  have hlistener := h.sound.listener
  rw [h.listenfd] at hlistener
  have hfd : fd = 3 := by omega
  exact hlistener (hfd ▸ hmem)

theorem card_opened (h : s.Low) : s.opened.card = s.connected + 4 := by
  rw [h.opened_eq, Finset.card_union_of_disjoint h.disjoint_clients, Finset.card_range,
    h.card_clients]
  exact Nat.add_comm ..

/-- There is a place for a connection as long as all descriptors have a bit. -/
theorem accept_ne_none (h : s.Low) (connfd : Nat) : s.accept connfd ≠ none := by
  intro haccept
  unfold Server.accept at haccept
  simp only at haccept
  split at haccept
  · next hfull =>
    rw [← h.sound.size, List.findIdx_eq_length] at hfull
    have hconnected : s.connected = FD_SETSIZE := by
      rw [connected, ← h.sound.size, List.countP_eq_length]
      intro fd hfd
      simpa using hfull fd hfd
    have hcard := Finset.card_le_card h.opened_below
    rw [h.card_opened, hconnected, Finset.card_range] at hcard
    omega
  · cases haccept

/-- The lowest unused descriptor has a bit exactly when few clients are connected. -/
theorem leastUnused_lt_iff (h : s.Low) :
    leastUnused s.opened < FD_SETSIZE ↔ s.connected < FD_SETSIZE - 4 := by
  have hcard := h.card_opened
  constructor
  · intro hlt
    have hinsert : insert (leastUnused s.opened) s.opened ⊆ Finset.range FD_SETSIZE :=
      Finset.insert_subset (Finset.mem_range.2 hlt) h.opened_below
    have hle := Finset.card_le_card hinsert
    rw [Finset.card_insert_of_notMem (leastUnused_notMem _), Finset.card_range] at hle
    omega
  · intro hfew
    have hle := leastUnused_le_card s.opened
    omega

theorem client_below (h : s.Low) {fd : Nat} (hmem : (fd : Int) ∈ s.client) : fd < FD_SETSIZE :=
  h.below fd ((h.sound.watched fd).2 (Or.inr hmem))

theorem listenfd_below (h : s.Low) : s.listenfd < FD_SETSIZE := by
  rw [h.listenfd]
  decide

/-- In a round with a new connection, its descriptor is the only one that may have no bit. -/
theorem inSets_accept_iff (h : s.Low) {rset : Finset Nat} (hrset : a.select = some rset)
    (hlisten : s.listenfd ∈ rset) (haccept : s.accept a.connfd = some s') :
    s.InSets a ↔ a.connfd < FD_SETSIZE := by
  have hpassed : s.passed a = s.listenfd :: a.connfd ::
      if (rset.card : Int) - 1 = 0 then [] else s'.scanPassed rset a.read (rset.card - 1) := by
    simp only [passed, hrset, hlisten, if_true, haccept]
  rw [InSets, hpassed, List.forall_mem_cons, List.forall_mem_cons]
  constructor
  · exact fun hall => hall.2.1
  · intro hconn
    refine ⟨h.listenfd_below, hconn, ?_⟩
    intro fd hfd
    split at hfd
    · cases hfd
    · rcases (mem_client_of_accept h.sound haccept fd).1 (Scan.mem_client_of_passed hfd) with
        rfl | hold
      · exact hconn
      · exact h.client_below hold

/-- A round without a new connection passes only descriptors with a bit. -/
theorem inSets_of_quiet (h : s.Low) {rset : Finset Nat} (hrset : a.select = some rset)
    (hlisten : s.listenfd ∉ rset) : s.InSets a := by
  have hpassed : s.passed a = s.listenfd :: s.scanPassed rset a.read rset.card := by
    simp only [passed, hrset, hlisten, if_false]
  rw [InSets, hpassed, List.forall_mem_cons]
  refine ⟨h.listenfd_below, ?_⟩
  intro fd hfd
  exact h.client_below (Scan.mem_client_of_passed hfd)

/-- A round passes only descriptors with a bit if and only if few clients are connected when
a connection is accepted. -/
theorem inSets_iff (h : s.Low) (hlowest : s.GivesLowest a) : s.InSets a ↔ s.Few a := by
  cases hrset : a.select with
  | none =>
    refine iff_of_true ?_ ?_
    · intro fd hfd
      simp only [passed, hrset] at hfd
      cases hfd
    · intro rset hmem
      rw [hrset] at hmem
      cases hmem
  | some rset =>
    by_cases hlisten : s.listenfd ∈ rset
    · obtain ⟨s', haccept⟩ := Option.ne_none_iff_exists'.1 (h.accept_ne_none a.connfd)
      rw [h.inSets_accept_iff hrset hlisten haccept, hlowest.1, h.leastUnused_lt_iff, Few, hrset]
      simp only [Option.mem_some, forall_eq', hlisten, forall_true_left]
    · refine iff_of_true (h.inSets_of_quiet hrset hlisten) ?_
      intro rset' hmem hready
      cases hrset.symm.trans hmem
      exact absurd hready hlisten

theorem step (h : s.Low) (hfew : s.Few a) (hstep : stepLowest s a = some s') : s'.Low := by
  obtain ⟨hlowest, scan, hround, rfl⟩ := stepLowest_eq_some hstep
  refine h.round (hlowest.1 ▸ leastUnused_notMem _) ?_ hround
  intro rset hrset hlisten
  rw [hlowest.1, h.leastUnused_lt_iff]
  exact hfew rset hrset hlisten

end Server.Low

/-- In a run on a system that gives the lowest unused descriptors, every descriptor passed to
the macros has a bit if and only if fewer than 1020 clients are connected whenever another
one is accepted. -/
theorem inSets_along_iff (as : List Answer) :
    Along stepLowest (fun t a => t.GivesLowest a → t.InSets a) (start 3 {0, 1, 2, 3}) as ↔
      Along stepLowest (fun t a => t.GivesLowest a → t.Few a) (start 3 {0, 1, 2, 3}) as := by
  apply along_congr_allowed (I := Server.Low)
  · exact fun hstep => (stepLowest_eq_some hstep).1
  · exact fun h hlowest => h.inSets_iff hlowest
  · exact fun h hfew hstep => h.step hfew hstep
  · exact low_start

/-- The `i`-th client connects. -/
def connects (i : Nat) : Answer := ⟨some {3}, 4 + i, fun _ => none⟩

theorem Server.Low.givesLowest_connects (h : s.Low) {n : Nat}
    (hopened : s.opened = Finset.range (4 + n)) : s.GivesLowest (connects n) := by
  refine ⟨?_, ?_⟩
  · rw [hopened, leastUnused_range]
    rfl
  · intro rset hrset
    cases hrset
    refine ⟨Finset.singleton_nonempty 3, ?_⟩
    have hwatched : 3 ∈ s.allset := (h.sound.watched 3).2 (Or.inl h.listenfd.symm)
    rw [Finset.singleton_subset_iff, Finset.mem_filter]
    exact ⟨hwatched, h.sound.bound 3 hwatched⟩

/-- The clients get the descriptors from 4 on. -/
theorem run_connects (n : Nat) (hn : n ≤ FD_SETSIZE - 4) :
    ∃ s, runSteps stepLowest (start 3 {0, 1, 2, 3}) ((List.range n).map connects) = some s ∧
      s.Low ∧ s.opened = Finset.range (4 + n) := by
  induction n with
  | zero => exact ⟨start 3 {0, 1, 2, 3}, rfl, low_start, by decide⟩
  | succ n ih =>
    obtain ⟨s, hrun, hlow, hopened⟩ := ih (by omega)
    have hlowest := hlow.givesLowest_connects hopened
    obtain ⟨s', haccept⟩ := Option.ne_none_iff_exists'.1 (hlow.accept_ne_none (4 + n))
    have hunused : 4 + n ∉ s.opened := by
      rw [hopened]
      exact Finset.notMem_range_self
    have hround : s.round (connects n) = some {server := s', served := []} := by
      simp only [Server.round, connects, hlow.listenfd, Finset.mem_singleton, if_true, haccept,
        Finset.card_singleton, Option.map_some]
      rfl
    refine ⟨s', ?_, hlow.accept hunused (by rw [FD_SETSIZE] at hn ⊢; omega) haccept, ?_⟩
    · rw [List.range_succ, List.map_append, runSteps_append, hrun, Option.bind_some, List.map_cons,
        List.map_nil, runSteps, stepLowest, if_pos hlowest, hround]
      rfl
    · obtain ⟨i, -, rfl⟩ := Server.accept_eq_some hlow.sound haccept
      simp only [hopened]
      exact Finset.range_add_one.symm

/-- The descriptor of the `n`-th client is passed to `FD_SET`. -/
theorem Server.Low.lt_of_inSets_connects (h : s.Low) {n : Nat} (hsets : s.InSets (connects n)) :
    4 + n < FD_SETSIZE := by
  obtain ⟨s', haccept⟩ := Option.ne_none_iff_exists'.1 (h.accept_ne_none (4 + n))
  apply hsets
  simp only [Server.passed, connects, h.listenfd, Finset.mem_singleton, if_true, haccept]
  exact List.mem_cons_of_mem _ List.mem_cons_self

/-- The client that comes when 1020 others are connected gets the descriptor 1024. -/
theorem not_inSets_1021 :
    ¬ Along stepLowest (fun t a => t.GivesLowest a → t.InSets a) (start 3 {0, 1, 2, 3})
      ((List.range 1020).map connects ++ [connects 1020]) := by
  obtain ⟨s, hrun, hlow, hopened⟩ := run_connects 1020 (Nat.le_of_eq rfl)
  rw [along_append_iff]
  rintro ⟨-, hrest⟩
  obtain ⟨hsets, -⟩ := hrest s hrun
  have hbit := hlow.lt_of_inSets_connects (hsets (hlow.givesLowest_connects hopened))
  exact Nat.lt_irrefl FD_SETSIZE hbit

end LearningCpp.SelectServer
