import Mathlib.Tactic
import LearningCpp.Library.Countdown
import LearningCpp.Library.Machine
import LearningCpp.Library.Mutex
import LearningCpp.Runtime.Memory

/-!
The server of `select_concurrent/server.c`: the clients are kept in an array and in
the set of descriptors that `select` watches, and `maxi`, `maxfd` and the countdown of
`nready` cut the work short. None of the shortcuts loses a client.
-/

namespace LearningCpp.SelectServer

open LearningCpp.Library

def FD_SETSIZE : Nat := 1024

def BUFSIZ : Nat := 8192

/-- The variables of `main` that outlive a round, and the descriptors in use. -/
structure Server where
  listenfd : Nat
  client : List Int
  maxi : Int
  maxfd : Nat
  allset : Finset Nat
  opened : Finset Nat

/-- What the kernel does in a round: the set `select` leaves in `rset` (`none` for an
error), the descriptor `Accept` returns, and what `Read` gets from a descriptor. -/
structure Answer where
  select : Option (Finset Nat)
  connfd : Nat
  read : Nat → Option {buf : List UInt8 // buf.length ≤ BUFSIZ}

/-- The server before its first round. -/
def start (listenfd : Nat) (opened : Finset Nat) : Server where
  listenfd := listenfd
  client := List.replicate FD_SETSIZE (-1)
  maxi := -1
  maxfd := listenfd
  allset := {listenfd}
  opened := opened

/-- The branch for a new connection; `none` for the exit with too many clients. -/
def Server.accept (s : Server) (connfd : Nat) : Option Server :=
  let i := s.client.findIdx (· < 0)
  if i = FD_SETSIZE then none
  else
    some {s with
      client := s.client.set i connfd
      allset := insert connfd s.allset
      maxfd := if connfd > s.maxfd then connfd else s.maxfd
      maxi := if (i : Int) > s.maxi then i else s.maxi
      opened := insert connfd s.opened }

/-- A scan of the clients: the server, and the descriptors read with what was written
back to them. -/
structure Scan where
  server : Server
  served : List (Nat × List UInt8)

/-- `client[i]` is a descriptor whose bit is set. -/
def Scan.ready (rset : Finset Nat) (s : Scan) (i : Nat) : Bool :=
  let sockfd := s.server.client.getD i (-1)
  0 ≤ sockfd ∧ sockfd.toNat ∈ rset

/-- Read from `client[i]` and answer, or close it at the end of its stream. -/
def Scan.serve (read : Nat → Option {buf : List UInt8 // buf.length ≤ BUFSIZ}) (s : Scan)
    (i : Nat) : Scan :=
  let sockfd := (s.server.client.getD i (-1)).toNat
  match read sockfd with
  | none => {s with served := s.served ++ [(sockfd, [])]}
  | some buf =>
      if buf.val.length = 0 then
        { server := {s.server with
            opened := s.server.opened.erase sockfd
            allset := s.server.allset.erase sockfd
            client := s.server.client.set i (-1) }
          served := s.served ++ [(sockfd, [])] }
      else {s with served := s.served ++ [(sockfd, buf.val.map toupper)]}

/-- `for (i = 0; i <= maxi; i++)`, left when `nready` has come down to 0. -/
def Server.scan (s : Server) (rset : Finset Nat)
    (read : Nat → Option {buf : List UInt8 // buf.length ≤ BUFSIZ}) (nready : Int) : Scan :=
  countdown (Scan.ready rset) (Scan.serve read) (List.range (s.maxi + 1).toNat) nready
    {server := s, served := []}

/-- One round of the `while` loop; `none` when the process exits. -/
def Server.round (s : Server) (a : Answer) : Option Scan :=
  match a.select with
  | none => none
  | some rset =>
      if s.listenfd ∈ rset then
        (s.accept a.connfd).map fun s' =>
          if (rset.card : Int) - 1 = 0 then {server := s', served := []}
          else s'.scan rset a.read (rset.card - 1)
      else some (s.scan rset a.read rset.card)

/-- `select` blocks until a descriptor is ready, and looks only at those it is told of. When
the listener is among them, `accept` returns an unused descriptor below `FD_SETSIZE`. -/
def Server.Allows (s : Server) (a : Answer) : Prop :=
  ∀ rset ∈ a.select, rset.Nonempty ∧ rset ⊆ s.allset.filter (· ≤ s.maxfd) ∧
    (s.listenfd ∈ rset → a.connfd ∉ s.opened ∧ a.connfd < FD_SETSIZE)

instance (s : Server) (a : Answer) : Decidable (s.Allows a) := by
  unfold Server.Allows
  infer_instance

def step (s : Server) (a : Answer) : Option Server :=
  if s.Allows a then (s.round a).map Scan.server else none

/-- What holds at the top of every round. -/
structure Server.Sound (s : Server) : Prop where
  size : s.client.length = FD_SETSIZE
  watched : ∀ fd : Nat, fd ∈ s.allset ↔ fd = s.listenfd ∨ (fd : Int) ∈ s.client
  distinct : ∀ {i j : Nat} {fd : Int}, s.client[i]? = some fd → s.client[j]? = some fd → 0 ≤ fd →
    i = j
  free : ∀ fd ∈ s.client, fd < 0 → fd = -1
  above : ∀ {i : Nat} {fd : Int}, s.maxi < i → s.client[i]? = some fd → fd = -1
  bound : ∀ fd ∈ s.allset, fd ≤ s.maxfd
  listener : (s.listenfd : Int) ∉ s.client
  used : s.allset ⊆ s.opened

theorem start_sound {listenfd : Nat} {opened : Finset Nat} (hlisten : listenfd ∈ opened) :
    (start listenfd opened).Sound := by
  have hclient : ∀ fd, fd ∈ (start listenfd opened).client → fd = -1 := by
    intro fd hfd
    exact List.eq_of_mem_replicate hfd
  constructor
  · simp [start]
  · simp [start]
  · intro i j fd hi _ hfd
    have hminus := hclient fd (List.mem_of_getElem? hi)
    omega
  · exact fun fd hfd _ => hclient fd hfd
  · exact fun _ hi => hclient _ (List.mem_of_getElem? hi)
  · simp [start]
  · intro hmem
    have hminus := hclient _ hmem
    omega
  · simpa [start] using hlisten

variable {s s' : Server} {read : Nat → Option {buf : List UInt8 // buf.length ≤ BUFSIZ}}
  {rset : Finset Nat}

/-- A descriptor that is in use nowhere is neither watched nor a client. -/
theorem Server.Sound.unused (h : s.Sound) {connfd : Nat} (hconn : connfd ∉ s.opened) :
    connfd ∉ s.allset ∧ connfd ≠ s.listenfd ∧ (connfd : Int) ∉ s.client := by
  have hunwatched : connfd ∉ s.allset := fun hmem => hconn (h.used hmem)
  have hneither := (h.watched connfd).not.1 hunwatched
  exact ⟨hunwatched, fun heq => hneither (Or.inl heq), fun hmem => hneither (Or.inr hmem)⟩

/-- What `accept` does when there is a place for the connection. -/
theorem Server.accept_eq_some {connfd : Nat} (h : s.Sound) (haccept : s.accept connfd = some s') :
    ∃ i : Nat, s.client[i]? = some (-1) ∧
      s' = {s with
        client := s.client.set i connfd
        allset := insert connfd s.allset
        maxfd := if connfd > s.maxfd then connfd else s.maxfd
        maxi := if (i : Int) > s.maxi then i else s.maxi
        opened := insert connfd s.opened } := by
  unfold accept at haccept
  simp only at haccept
  split at haccept
  next => cases haccept
  next hroom =>
    rw [Option.some.injEq] at haccept
    have hlt : s.client.findIdx (· < 0) < s.client.length := by
      have hle : s.client.findIdx (· < 0) ≤ s.client.length := List.findIdx_le_length
      have hsize := h.size
      omega
    have hnegative : s.client[s.client.findIdx (· < 0)] < 0 := by
      simpa using List.findIdx_getElem (w := hlt)
    refine ⟨s.client.findIdx (· < 0), ?_, haccept.symm⟩
    rw [List.getElem?_eq_getElem hlt, h.free _ (List.getElem_mem hlt) hnegative]

theorem Server.listenfd_accept {connfd : Nat} (h : s.Sound)
    (haccept : s.accept connfd = some s') : s'.listenfd = s.listenfd := by
  obtain ⟨i, -, rfl⟩ := accept_eq_some h haccept
  rfl

theorem Server.mem_client_of_accept {connfd : Nat} (h : s.Sound)
    (haccept : s.accept connfd = some s') (fd : Nat) :
    (fd : Int) ∈ s'.client ↔ fd = connfd ∨ (fd : Int) ∈ s.client := by
  obtain ⟨i, hi, rfl⟩ := accept_eq_some h haccept
  simp only [List.mem_iff_getElem?, Mutex.getElem?_set_of_some hi]
  constructor
  · rintro ⟨j, ⟨-, hnew⟩ | ⟨-, hold⟩⟩
    · left
      omega
    · exact Or.inr ⟨j, hold⟩
  · rintro (rfl | ⟨j, hj⟩)
    · exact ⟨i, Or.inl ⟨rfl, rfl⟩⟩
    · refine ⟨j, Or.inr ⟨?_, hj⟩⟩
      rintro rfl
      rw [hi, Option.some.injEq] at hj
      omega

theorem Server.Sound.accept {connfd : Nat} (h : s.Sound) (hconn : connfd ∉ s.opened)
    (haccept : s.accept connfd = some s') : s'.Sound := by
  obtain ⟨hunwatched, hlistener, hclient⟩ := h.unused hconn
  have hmem := mem_client_of_accept h haccept
  obtain ⟨i, hi, rfl⟩ := accept_eq_some h haccept
  have habsent : ∀ j : Nat, s.client[j]? ≠ some (connfd : Int) :=
    fun j hj => hclient (List.mem_of_getElem? hj)
  constructor
  · simpa using h.size
  · intro fd
    rw [hmem, Finset.mem_insert, h.watched]
    tauto
  · intro j k fd hj hk hfd
    rcases (Mutex.getElem?_set_of_some hi j).1 hj with ⟨rfl, rfl⟩ | ⟨_, hold⟩
    · rcases (Mutex.getElem?_set_of_some hi k).1 hk with ⟨rfl, -⟩ | ⟨_, hother⟩
      · rfl
      · exact absurd hother (habsent k)
    · rcases (Mutex.getElem?_set_of_some hi k).1 hk with ⟨rfl, rfl⟩ | ⟨_, hother⟩
      · exact absurd hold (habsent j)
      · exact h.distinct hold hother hfd
  · intro fd hfd hnegative
    rcases List.mem_or_eq_of_mem_set hfd with hold | rfl
    · exact h.free fd hold hnegative
    · omega
  · intro j fd hj hfd
    simp only at hj
    rcases (Mutex.getElem?_set_of_some hi j).1 hfd with ⟨rfl, -⟩ | ⟨_, hold⟩
    · split at hj <;> omega
    · exact h.above (by split at hj <;> omega) hold
  · intro fd hfd
    rcases Finset.mem_insert.1 hfd with rfl | hold
    · simp only
      split <;> omega
    · have hle := h.bound fd hold
      simp only
      split <;> omega
  · rw [hmem]
    rintro (heq | hold)
    · exact hlistener heq.symm
    · exact h.listener hold
  · exact Finset.insert_subset_insert connfd h.used

/-- A client is closed: its place becomes free and its descriptor is not watched. -/
theorem Server.Sound.close (h : s.Sound) {i fd : Nat} (hi : s.client[i]? = some (fd : Int)) :
    Server.Sound {s with
      opened := s.opened.erase fd
      allset := s.allset.erase fd
      client := s.client.set i (-1) } := by
  have hmem : ∀ fd' : Nat, (fd' : Int) ∈ s.client.set i (-1) ↔
      fd' ≠ fd ∧ (fd' : Int) ∈ s.client := by
    intro fd'
    simp only [List.mem_iff_getElem?, Mutex.getElem?_set_of_some hi]
    constructor
    · rintro ⟨j, ⟨-, hminus⟩ | ⟨hne, hold⟩⟩
      · omega
      · refine ⟨?_, j, hold⟩
        rintro rfl
        exact hne (h.distinct hold hi (by omega))
    · rintro ⟨hne, j, hj⟩
      refine ⟨j, Or.inr ⟨?_, hj⟩⟩
      rintro rfl
      rw [hi, Option.some.injEq] at hj
      omega
  have hlistener : fd ≠ s.listenfd := by
    rintro rfl
    exact h.listener (List.mem_of_getElem? hi)
  constructor
  · simpa using h.size
  · intro fd'
    rw [hmem, Finset.mem_erase, h.watched]
    simp only
    by_cases heq : fd' = s.listenfd
    · simp [heq, hlistener.symm]
    · simp [heq]
  · intro j k fd' hj hk hfd
    rcases (Mutex.getElem?_set_of_some hi j).1 hj with ⟨-, rfl⟩ | ⟨_, hold⟩
    · omega
    · rcases (Mutex.getElem?_set_of_some hi k).1 hk with ⟨-, rfl⟩ | ⟨_, hother⟩
      · omega
      · exact h.distinct hold hother hfd
  · intro fd' hfd hnegative
    rcases List.mem_or_eq_of_mem_set hfd with hold | rfl
    · exact h.free fd' hold hnegative
    · rfl
  · intro j fd' hj hfd
    rcases (Mutex.getElem?_set_of_some hi j).1 hfd with ⟨-, rfl⟩ | ⟨_, hold⟩
    · rfl
    · exact h.above hj hold
  · intro fd' hfd
    exact h.bound fd' (Finset.mem_of_mem_erase hfd)
  · rw [hmem]
    exact fun hold => h.listener hold.2
  · exact Finset.erase_subset_erase fd h.used

variable {scan : Scan} {i : Nat}

/-- A ready place holds a client whose bit is set. -/
theorem Scan.client_of_ready (hready : scan.ready rset i) :
    ∃ fd : Nat, scan.server.client[i]? = some (fd : Int) ∧ fd ∈ rset ∧
      scan.server.client.getD i (-1) = fd := by
  simp only [ready, decide_eq_true_eq] at hready
  obtain ⟨hnonneg, hbit⟩ := hready
  obtain ⟨fd, hfd⟩ := Int.eq_ofNat_of_zero_le hnonneg
  rw [hfd, Int.toNat_natCast] at hbit
  refine ⟨fd, ?_, hbit, hfd⟩
  rw [List.getD_eq_getElem?_getD] at hfd
  cases hget : scan.server.client[i]? with
  | none =>
    rw [hget, Option.getD_none] at hfd
    omega
  | some fd' =>
    rw [hget, Option.getD_some] at hfd
    rw [hfd]

theorem Scan.serve_sound (h : scan.server.Sound) (hready : scan.ready rset i) :
    (scan.serve read i).server.Sound := by
  obtain ⟨fd, hi, -, hgetD⟩ := client_of_ready hready
  unfold serve
  simp only [hgetD, Int.toNat_natCast]
  cases hread : read fd with
  | none => exact h
  | some buf =>
    simp only
    split
    · exact h.close hi
    · exact h

theorem Scan.listenfd_serve : (scan.serve read i).server.listenfd = scan.server.listenfd := by
  unfold serve
  simp only
  cases hread : read (scan.server.client.getD i (-1)).toNat with
  | none => rfl
  | some buf =>
    simp only
    split <;> rfl

/-- Serving one place leaves the others as they are. -/
theorem Scan.getD_serve {j : Nat} (hne : i ≠ j) :
    (scan.serve read i).server.client.getD j (-1) = scan.server.client.getD j (-1) := by
  unfold serve
  simp only
  cases hread : read (scan.server.client.getD i (-1)).toNat with
  | none => rfl
  | some buf =>
    simp only
    split
    · simp [List.getD_eq_getElem?_getD, List.getElem?_set_ne hne]
    · rfl

theorem Scan.ready_serve (i j : Nat) (hne : i ≠ j) :
    (scan.serve read i).ready rset j = scan.ready rset j := by
  simp only [ready, getD_serve hne]

/-- The descriptors read in a scan. -/
def Scan.fds (scan : Scan) : List Nat := scan.served.map Prod.fst

theorem Scan.fds_serve :
    (scan.serve read i).fds = scan.fds ++ [(scan.server.client.getD i (-1)).toNat] := by
  unfold serve
  simp only
  cases hread : read (scan.server.client.getD i (-1)).toNat with
  | none => simp [fds]
  | some buf =>
    simp only
    split <;> simp [fds]

theorem Scan.fds_foldl {is : List Nat} (hnodup : is.Nodup) :
    (is.foldl (Scan.serve read) scan).fds =
      scan.fds ++ is.map fun i => (scan.server.client.getD i (-1)).toNat := by
  induction is generalizing scan with
  | nil => simp
  | cons i is ih =>
    obtain ⟨hi, his⟩ := List.nodup_cons.1 hnodup
    have hsame : (is.map fun j => ((scan.serve read i).server.client.getD j (-1)).toNat) =
        is.map fun j => (scan.server.client.getD j (-1)).toNat := by
      apply List.map_congr_left
      intro j hj
      rw [getD_serve (by rintro rfl; exact hi hj)]
    rw [List.foldl_cons, ih his, fds_serve, hsame, List.map_cons, List.append_assoc,
      List.singleton_append]

/-- The clients whose bit is set, in the order of their places. -/
def Server.readyFds (s : Server) (rset : Finset Nat) : List Nat :=
  ((List.range (s.maxi + 1).toNat).filter (Scan.ready rset {server := s, served := []})).map
    fun i => (s.client.getD i (-1)).toNat

theorem Server.Sound.mem_readyFds_iff (h : s.Sound) (fd : Nat) :
    fd ∈ s.readyFds rset ↔ fd ∈ rset ∧ (fd : Int) ∈ s.client := by
  simp only [readyFds, List.mem_map, List.mem_filter, List.mem_range]
  constructor
  · rintro ⟨i, ⟨-, hready⟩, rfl⟩
    obtain ⟨fd, hi, hbit, hgetD⟩ := Scan.client_of_ready hready
    simp only at hi hgetD
    rw [hgetD, Int.toNat_natCast]
    exact ⟨hbit, List.mem_of_getElem? hi⟩
  · rintro ⟨hbit, hmem⟩
    obtain ⟨i, hi⟩ := List.mem_iff_getElem?.1 hmem
    have hgetD : s.client.getD i (-1) = fd := by
      rw [List.getD_eq_getElem?_getD, hi, Option.getD_some]
    refine ⟨i, ⟨?_, ?_⟩, by rw [hgetD, Int.toNat_natCast]⟩
    · -- no client stands above `maxi`
      by_contra hle
      have hminus := h.above (i := i) (by omega) hi
      omega
    · simp only [Scan.ready, hgetD, Int.toNat_natCast]
      simpa using hbit

theorem Server.Sound.nodup_readyFds (h : s.Sound) : (s.readyFds rset).Nodup := by
  apply List.Nodup.map_on _ (List.nodup_range.filter _)
  intro i hi j hj heq
  obtain ⟨fd, hfd, -, hgetD⟩ := Scan.client_of_ready (List.mem_filter.1 hi).2
  obtain ⟨fd', hfd', -, hgetD'⟩ := Scan.client_of_ready (List.mem_filter.1 hj).2
  simp only at hfd hgetD hfd' hgetD'
  rw [hgetD, hgetD', Int.toNat_natCast, Int.toNat_natCast] at heq
  subst heq
  exact h.distinct hfd hfd' (by omega)

/-- The number `select` returned, less the listener, is the number of clients to serve. -/
theorem Server.Sound.card_readyFds (h : s.Sound)
    (hrset : ∀ fd ∈ rset, fd = s.listenfd ∨ (fd : Int) ∈ s.client) :
    (s.readyFds rset).length = (rset.erase s.listenfd).card := by
  rw [← List.toFinset_card_of_nodup h.nodup_readyFds]
  congr 1
  ext fd
  rw [List.mem_toFinset, h.mem_readyFds_iff, Finset.mem_erase]
  constructor
  · rintro ⟨hbit, hmem⟩
    refine ⟨?_, hbit⟩
    rintro rfl
    exact h.listener hmem
  · rintro ⟨hne, hbit⟩
    exact ⟨hbit, (hrset fd hbit).resolve_left hne⟩

theorem Server.scan_sound (h : s.Sound) (nready : Int) :
    (s.scan rset read nready).server.Sound :=
  countdown_invariant (I := fun scan : Scan => scan.server.Sound) (fun h => Scan.serve_sound h) h

theorem Server.listenfd_scan (s : Server) (nready : Int) :
    (s.scan rset read nready).server.listenfd = s.listenfd :=
  countdown_invariant (I := fun scan : Scan => scan.server.listenfd = s.listenfd)
    (fun h _ => Scan.listenfd_serve.trans h) rfl

/-- A scan with the right count serves the clients whose bit is set. -/
theorem Server.Sound.fds_scan (h : s.Sound)
    (read : Nat → Option {buf : List UInt8 // buf.length ≤ BUFSIZ})
    (hrset : ∀ fd ∈ rset, fd = s.listenfd ∨ (fd : Int) ∈ s.client) {nready : Int}
    (hnready : nready = (rset.erase s.listenfd).card) :
    (s.scan rset read nready).fds = s.readyFds rset := by
  have hcount : nready = (List.range (s.maxi + 1).toNat).countP
      (Scan.ready rset {server := s, served := []}) := by
    rw [hnready, ← h.card_readyFds hrset, readyFds, List.length_map, List.countP_eq_length_filter]
  unfold Server.scan
  rw [countdown_eq_foldl (fun scan i j => Scan.ready_serve i j) List.nodup_range hcount,
    Scan.fds_foldl (List.nodup_range.filter _)]
  rfl

/-- A round that does not exit leaves the server sound and reads the clients whose bit
is set, each once. -/
theorem Server.Sound.round (h : s.Sound) {a : Answer} (hallows : s.Allows a)
    (hround : s.round a = some scan) :
    scan.server.Sound ∧ ∀ rset ∈ a.select, scan.fds.Nodup ∧
      ∀ fd, fd ∈ scan.fds ↔ fd ∈ rset ∧ (fd : Int) ∈ s.client := by
  unfold Server.round at hround
  cases hrset : a.select with
  | none => simp [hrset] at hround
  | some rset =>
    simp only [hrset] at hround
    obtain ⟨-, hsubset, haccepted⟩ := hallows rset hrset
    have hwatched : ∀ fd ∈ rset, fd = s.listenfd ∨ (fd : Int) ∈ s.client := by
      intro fd hfd
      exact (h.watched fd).1 (Finset.mem_filter.1 (hsubset hfd)).1
    simp only [Option.mem_def, Option.some.injEq, forall_eq']
    split at hround
    next hlisten =>
      obtain ⟨s', haccept, rfl⟩ := Option.map_eq_some_iff.1 hround
      have hconn := (haccepted hlisten).1
      have hsound := h.accept hconn haccept
      have hmem := mem_client_of_accept h haccept
      have hlistenfd := listenfd_accept h haccept
      have hcard : (rset.erase s.listenfd).card = rset.card - 1 := Finset.card_erase_of_mem hlisten
      have hpos : 0 < rset.card := Finset.card_pos.2 ⟨_, hlisten⟩
      -- the new connection is not in `rset`, so it is not read in this round
      have hiff : ∀ fd, fd ∈ s'.readyFds rset ↔ fd ∈ rset ∧ (fd : Int) ∈ s.client := by
        intro fd
        rw [hsound.mem_readyFds_iff, hmem]
        constructor
        · rintro ⟨hbit, rfl | hold⟩
          · exact absurd (Finset.mem_filter.1 (hsubset hbit)).1 (h.unused hconn).1
          · exact ⟨hbit, hold⟩
        · exact fun ⟨hbit, hold⟩ => ⟨hbit, Or.inr hold⟩
      have hwatched' : ∀ fd ∈ rset, fd = s'.listenfd ∨ (fd : Int) ∈ s'.client := by
        intro fd hfd
        rw [hlistenfd, hmem]
        exact (hwatched fd hfd).imp_right Or.inr
      split
      next hdone =>
        have hnone : s'.readyFds rset = [] := by
          apply List.eq_nil_of_length_eq_zero
          rw [hsound.card_readyFds hwatched', hlistenfd]
          omega
        refine ⟨hsound, List.nodup_nil, ?_⟩
        intro fd
        rw [← hiff, hnone]
        rfl
      next hmore =>
        have hnready : (rset.card : Int) - 1 = (rset.erase s'.listenfd).card := by
          rw [hlistenfd]
          omega
        rw [hsound.fds_scan a.read hwatched' hnready]
        exact ⟨scan_sound hsound _, hsound.nodup_readyFds, hiff⟩
    next hlisten =>
      cases hround
      rw [h.fds_scan a.read hwatched (by rw [Finset.erase_eq_of_notMem hlisten])]
      exact ⟨scan_sound h _, h.nodup_readyFds, h.mem_readyFds_iff⟩

theorem Server.listenfd_round (h : s.Sound) {a : Answer} (hround : s.round a = some scan) :
    scan.server.listenfd = s.listenfd := by
  unfold Server.round at hround
  cases hrset : a.select with
  | none => simp [hrset] at hround
  | some rset =>
    simp only [hrset] at hround
    split at hround
    · obtain ⟨s', haccept, rfl⟩ := Option.map_eq_some_iff.1 hround
      split
      · exact listenfd_accept h haccept
      · exact (listenfd_scan s' _).trans (listenfd_accept h haccept)
    · cases hround
      exact listenfd_scan s _

theorem Server.Sound.step {a : Answer} (h : s.Sound) (hstep : step s a = some s') :
    s'.Sound ∧ s'.listenfd = s.listenfd := by
  unfold SelectServer.step at hstep
  split at hstep
  next hallows =>
    obtain ⟨scan, hround, rfl⟩ := Option.map_eq_some_iff.1 hstep
    exact ⟨(h.round hallows hround).1, listenfd_round h hround⟩
  next => cases hstep

/-- A client is served whether or not there is a descriptor for a further connection. -/
theorem Server.Sound.exists_step (h : s.Sound) {fd : Nat} (hclient : (fd : Int) ∈ s.client)
    (connfd : Nat) (read : Nat → Option {buf : List UInt8 // buf.length ≤ BUFSIZ}) :
    ∃ s', SelectServer.step s ⟨some {fd}, connfd, read⟩ = some s' := by
  have hlisten : s.listenfd ∉ ({fd} : Finset Nat) := by
    rw [Finset.mem_singleton]
    intro heq
    rw [← heq] at hclient
    exact h.listener hclient
  have hallows : s.Allows ⟨some {fd}, connfd, read⟩ := by
    intro rset hrset
    cases hrset
    have hwatched : fd ∈ s.allset := (h.watched fd).2 (Or.inr hclient)
    refine ⟨Finset.singleton_nonempty fd, ?_, fun hready => absurd hready hlisten⟩
    rw [Finset.singleton_subset_iff, Finset.mem_filter]
    exact ⟨hwatched, h.bound fd hwatched⟩
  refine ⟨(s.scan {fd} read ({fd} : Finset Nat).card).server, ?_⟩
  rw [SelectServer.step, if_pos hallows, Server.round]
  simp only [if_neg hlisten, Option.map_some]

/-- At the top of every round the set `select` watches is the listener and the clients,
which are distinct and stand below `maxi`, with descriptors up to `maxfd`; and the round
that follows reads every client whose bit is set once, and no other client. -/
theorem select_server_serves_ready {listenfd : Nat} {opened : Finset Nat}
    (hlisten : listenfd ∈ opened) {as : List Answer}
    (hrun : runSteps step (start listenfd opened) as = some s) :
    (∀ fd : Nat, fd ∈ s.allset ↔ fd = listenfd ∨ (fd : Int) ∈ s.client) ∧
      (∀ (i j : Nat) (fd : Int), s.client[i]? = some fd → s.client[j]? = some fd → 0 ≤ fd →
        i = j) ∧
      (∀ (i : Nat) (fd : Int), s.maxi < i → s.client[i]? = some fd → fd = -1) ∧
      (∀ fd ∈ s.allset, fd ≤ s.maxfd) ∧
      ∀ a scan, s.Allows a → s.round a = some scan → ∀ rset ∈ a.select,
        scan.fds.Nodup ∧ ∀ fd, fd ∈ scan.fds ↔ fd ∈ rset ∧ (fd : Int) ∈ s.client := by
  have hsound : s.Sound ∧ s.listenfd = listenfd := by
    refine invariant_run (I := fun s => s.Sound ∧ s.listenfd = listenfd) ?_
      ⟨start_sound hlisten, rfl⟩ hrun
    intro s s' a ⟨h, hlistenfd⟩ hstep
    exact ⟨(h.step hstep).1, (h.step hstep).2.trans hlistenfd⟩
  obtain ⟨hsound, rfl⟩ := hsound
  refine ⟨hsound.watched, fun i j fd => hsound.distinct, fun i fd => hsound.above,
    hsound.bound, ?_⟩
  intro a scan hallows hround
  exact (hsound.round hallows hround).2

/-- The server after its first client. -/
def oneClient : Server where
  listenfd := 3
  client := (List.replicate FD_SETSIZE (-1)).set 0 4
  maxi := 0
  maxfd := 4
  allset := {4, 3}
  opened := {4, 0, 1, 2, 3}

/-- A client connects, and the round in which it sends a byte reads it once and nobody else. -/
theorem select_server_serves_ready_one :
    runSteps step (start 3 {0, 1, 2, 3}) [⟨some {3}, 4, fun _ => none⟩] = some oneClient ∧
      ∃ scan, oneClient.round ⟨some {4}, 4, fun _ => some ⟨[97], by decide⟩⟩ = some scan ∧
        (∀ fd ∈ oneClient.allset, fd ≤ oneClient.maxfd) ∧
        scan.fds.Nodup ∧ 4 ∈ scan.fds ∧ 3 ∉ scan.fds := by
  have hlisten : (3 : Nat) ∈ ({0, 1, 2, 3} : Finset Nat) := by decide
  have hrun : runSteps step (start 3 {0, 1, 2, 3}) [⟨some {3}, 4, fun _ => none⟩] =
      some oneClient := rfl
  have hround : oneClient.round ⟨some {4}, 4, fun _ => some ⟨[97], by decide⟩⟩ = some _ := rfl
  obtain ⟨-, -, -, hbound, hserves⟩ := select_server_serves_ready hlisten hrun
  obtain ⟨hnodup, hserved⟩ := hserves _ _ (by decide) hround {4} rfl
  refine ⟨hrun, _, hround, hbound, hnodup, ?_, ?_⟩
  · exact (hserved 4).2 ⟨by decide, by decide⟩
  · exact fun hmem => absurd ((hserved 3).1 hmem).1 (by decide)

end LearningCpp.SelectServer
