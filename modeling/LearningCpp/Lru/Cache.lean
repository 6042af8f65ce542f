import LearningCpp.Library.Recency
import LearningCpp.Runtime.Memory

/-!
`LRUCache` of `c++11/LRUCache.cpp`: a list of pairs, the most recently used
first, and a map from keys to iterators into the list. The mutex lets one call
run at a time, so that a history of calls is a sequence.
-/

namespace LearningCpp.Lru

open Library

/-- An element of `list<pair<int,int>>`. An iterator is the address of its
element, which the element keeps when it is moved within the list. -/
structure Node where
  address : Nat
  first : Int32
  second : Int32
  deriving DecidableEq, Repr

def Node.entry (n : Node) : Int32 × Int32 := (n.first, n.second)

/-- `*it` -/
def deref (cache : List Node) (it : Nat) : Except Fault Node :=
  match cache.find? (fun n => n.address = it) with
  | some n => .ok n
  | none => .error .danglingIterator

def unlink (cache : List Node) (it : Nat) : List Node := cache.filter (fun n => n.address ≠ it)

/-- `cache.erase(it)` -/
def erase (cache : List Node) (it : Nat) : Except Fault (List Node) := do
  let _ ← deref cache it
  return unlink cache it

/-- `cache.splice(cache.begin(), cache, it)` -/
def splice (cache : List Node) (it : Nat) : Except Fault (List Node) := do
  let n ← deref cache it
  return n :: unlink cache it

/-- `unused` is the address of the next element that is allocated. -/
structure LRUCache where
  cap : Int32
  cache : List Node
  map : Map Int32 Nat
  unused : Nat

namespace LRUCache

/-- `LRUCache(int capacity)` -/
def new (capacity : Int32) : LRUCache := {cap := capacity, cache := [], map := ∅, unused := 0}

/-- The first branch of `put`: an element of the same key is erased. -/
def detach (c : LRUCache) (key : Int32) : Except Fault (List Node) :=
  match c.map.lookup key with
  | some it => erase c.cache it
  | none => .ok c.cache

/-- `push_front` and `map[key]=cache.begin()` -/
def push (c : LRUCache) (cache : List Node) (key value : Int32) : LRUCache :=
  {c with
    cache := ⟨c.unused, key, value⟩ :: cache
    map := c.map.insert key c.unused
    unused := c.unused + 1}

/-- The last branch of `put`: `rbegin` and `pop_back` need an element. -/
def evict (c : LRUCache) : Except Fault LRUCache :=
  match c.cache.getLast? with
  | some last => .ok {c with cache := c.cache.dropLast, map := c.map.erase last.first}
  | none => .error .emptyContainer

/-- The capacity is compared with `map.size()` as a `size_t`. -/
def put (c : LRUCache) (key value : Int32) : Except Fault LRUCache := do
  let cache ← c.detach key
  let pushed := c.push cache key value
  if pushed.map.entries.length > intToSize c.cap then evict pushed else return pushed

/-- What `get` returns and what it leaves in `value`, with the cache after it. -/
structure Got where
  found : Bool
  value : Int32
  cache : LRUCache

def get (c : LRUCache) (key value : Int32) : Except Fault Got :=
  match c.map.lookup key with
  | none => .ok ⟨false, value, c⟩
  | some it => do
      let cache ← splice c.cache it
      let n ← deref cache it
      return ⟨true, n.second, {c with cache := cache}⟩

/-- Keys occur once in the list, and the map holds an iterator to each element
under its key and no other. -/
structure Valid (c : LRUCache) : Prop where
  addresses_nodup : (c.cache.map Node.address).Nodup
  keys_nodup : (c.cache.map Node.first).Nodup
  allocated : ∀ n ∈ c.cache, n.address < c.unused
  indexed : ∀ k it, c.map.lookup k = some it ↔ ∃ n ∈ c.cache, n.first = k ∧ n.address = it

private theorem new_valid (capacity : Int32) : (new capacity).Valid where
  addresses_nodup := List.nodup_nil
  keys_nodup := List.nodup_nil
  allocated n hn := by simp [new] at hn
  indexed k it := by simp [new]

theorem Valid.same_address {c : LRUCache} (h : c.Valid) {m n : Node} (hm : m ∈ c.cache)
    (hn : n ∈ c.cache) : m.address = n.address ↔ m.first = n.first := by
  constructor
  · intro haddress
    rw [List.inj_on_of_nodup_map h.addresses_nodup hm hn haddress]
  · intro hkey
    rw [List.inj_on_of_nodup_map h.keys_nodup hm hn hkey]

theorem Valid.deref {c : LRUCache} (h : c.Valid) {n : Node} (hn : n ∈ c.cache) :
    deref c.cache n.address = .ok n := by
  have hfound : c.cache.find? (fun m => m.address = n.address) = some n := by
    have hself := (mem_firstsBy_iff Node.address c.cache n).mp
    rw [firstsBy_eq_self h.addresses_nodup] at hself
    exact hself hn
  simp only [Lru.deref, hfound]

theorem Valid.unlink {c : LRUCache} (h : c.Valid) {n : Node} (hn : n ∈ c.cache) :
    unlink c.cache n.address = c.cache.filter (fun m => m.first ≠ n.first) := by
  apply List.filter_congr
  intro m hm
  exact decide_eq_decide.mpr (not_congr (h.same_address hm hn))

theorem Valid.lookup_eq_none_iff {c : LRUCache} (h : c.Valid) (key : Int32) :
    c.map.lookup key = none ↔ key ∉ c.cache.map Node.first := by
  rw [Option.eq_none_iff_forall_ne_some]
  constructor
  · intro hnone hmem
    obtain ⟨n, hn, hkey⟩ := List.mem_map.mp hmem
    exact hnone n.address ((h.indexed key n.address).mpr ⟨n, hn, hkey, rfl⟩)
  · intro hmem it hlookup
    obtain ⟨n, hn, hkey, _⟩ := (h.indexed key it).mp hlookup
    exact hmem (List.mem_map.mpr ⟨n, hn, hkey⟩)

theorem Valid.map_size {c : LRUCache} (h : c.Valid) :
    c.map.entries.length = c.cache.length := by
  have hperm : c.map.keys.Perm (c.cache.map Node.first) := by
    rw [List.perm_ext_iff_of_nodup c.map.keys_nodup h.keys_nodup]
    intro k
    have hnone := not_congr (h.lookup_eq_none_iff k)
    rw [not_not, AList.lookup_eq_none, not_not, AList.mem_keys] at hnone
    exact hnone
  have hlength := hperm.length_eq
  rwa [List.length_map, AList.keys, List.keys, List.length_map] at hlength

theorem Valid.detach {c : LRUCache} (h : c.Valid) (key : Int32) :
    c.detach key = .ok (c.cache.filter (fun n => n.first ≠ key)) := by
  cases hlookup : c.map.lookup key with
  | none =>
      have hmissing := (h.lookup_eq_none_iff key).mp hlookup
      have hkept : c.cache.filter (fun n => n.first ≠ key) = c.cache := by
        apply List.filter_eq_self.mpr
        intro n hn
        exact decide_eq_true fun hkey => hmissing (List.mem_map.mpr ⟨n, hn, hkey⟩)
      simp only [LRUCache.detach, hlookup, hkept]
  | some it =>
      obtain ⟨n, hn, rfl, rfl⟩ := (h.indexed key it).mp hlookup
      simp only [LRUCache.detach, hlookup, erase, h.deref hn, h.unlink hn]
      rfl

theorem Valid.push {c : LRUCache} (h : c.Valid) (key value : Int32) :
    (c.push (c.cache.filter (fun n => n.first ≠ key)) key value).Valid where
  addresses_nodup := by
    have hrest : ((c.cache.filter (fun n => n.first ≠ key)).map Node.address).Nodup :=
      h.addresses_nodup.sublist (List.filter_sublist.map Node.address)
    refine List.nodup_cons.mpr ⟨?_, hrest⟩
    intro hmem
    obtain ⟨n, hn, haddress⟩ := List.mem_map.mp hmem
    have hlt := h.allocated n (List.mem_of_mem_filter hn)
    change n.address = c.unused at haddress
    omega
  keys_nodup := by
    have hrest : ((c.cache.filter (fun n => n.first ≠ key)).map Node.first).Nodup :=
      h.keys_nodup.sublist (List.filter_sublist.map Node.first)
    refine List.nodup_cons.mpr ⟨?_, hrest⟩
    intro hmem
    obtain ⟨n, hn, hkey⟩ := List.mem_map.mp hmem
    exact of_decide_eq_true (List.mem_filter.mp hn).2 hkey
  allocated n hn := by
    rcases List.mem_cons.mp hn with rfl | hrest
    · exact Nat.lt_succ_self c.unused
    · exact Nat.lt_succ_of_lt (h.allocated n (List.mem_of_mem_filter hrest))
  indexed k it := by
    rcases eq_or_ne k key with rfl | hne
    · simp only [LRUCache.push, AList.lookup_insert, Option.some.injEq, List.mem_cons,
        List.mem_filter, decide_eq_true_eq]
      constructor
      · rintro rfl
        exact ⟨_, Or.inl rfl, rfl, rfl⟩
      · rintro ⟨n, rfl | ⟨_, hother⟩, hkey, rfl⟩
        · rfl
        · exact (hother hkey).elim
    · simp only [LRUCache.push, AList.lookup_insert_ne hne, h.indexed, List.mem_cons,
        List.mem_filter, decide_eq_true_eq]
      constructor
      · rintro ⟨n, hn, rfl, rfl⟩
        exact ⟨n, Or.inr ⟨hn, hne⟩, rfl, rfl⟩
      · rintro ⟨n, rfl | ⟨hn, _⟩, hkey, haddress⟩
        · exact (hne hkey.symm).elim
        · exact ⟨n, hn, hkey, haddress⟩

theorem Valid.evict {c : LRUCache} (h : c.Valid) (hne : c.cache ≠ []) :
    ∃ c', c.evict = .ok c' ∧ c'.Valid ∧ c'.cache = c.cache.dropLast ∧ c'.cap = c.cap := by
  have hlast : c.cache.getLast? = some (c.cache.getLast hne) := List.getLast?_eq_some_getLast hne
  have hsplit : c.cache.dropLast ++ [c.cache.getLast hne] = c.cache :=
    List.dropLast_concat_getLast hne
  refine
    ⟨{c with cache := c.cache.dropLast, map := c.map.erase (c.cache.getLast hne).first},
      by simp only [LRUCache.evict, hlast], ?_, rfl, rfl⟩
  have hkept : c.cache.dropLast.Sublist c.cache := List.dropLast_sublist c.cache
  have hkeys := h.keys_nodup
  rw [← hsplit, List.map_append, List.nodup_append] at hkeys
  refine
    { addresses_nodup := h.addresses_nodup.sublist (hkept.map Node.address)
      keys_nodup := h.keys_nodup.sublist (hkept.map Node.first)
      allocated := fun n hn => h.allocated n (hkept.subset hn)
      indexed := ?_ }
  intro k it
  rcases eq_or_ne k (c.cache.getLast hne).first with rfl | hother
  · simp only [AList.lookup_erase, reduceCtorEq, false_iff, not_exists, not_and]
    intro n hn hkey
    exact (hkeys.2.2 n.first (List.mem_map_of_mem hn) _ (by simp) hkey).elim
  · simp only [AList.lookup_erase_ne hother, h.indexed]
    constructor
    · rintro ⟨n, hn, rfl, haddress⟩
      rw [← hsplit, List.mem_append, List.mem_singleton] at hn
      rcases hn with hn | rfl
      · exact ⟨n, hn, rfl, haddress⟩
      · exact (hother rfl).elim
    · rintro ⟨n, hn, hkey, haddress⟩
      exact ⟨n, hkept.subset hn, hkey, haddress⟩

/-- Moving elements within the list keeps every iterator. -/
theorem Valid.reorder {c : LRUCache} (h : c.Valid) {cache : List Node}
    (hperm : cache.Perm c.cache) : ({c with cache := cache} : LRUCache).Valid where
  addresses_nodup := (hperm.map Node.address).nodup_iff.mpr h.addresses_nodup
  keys_nodup := (hperm.map Node.first).nodup_iff.mpr h.keys_nodup
  allocated n hn := h.allocated n (hperm.mem_iff.mp hn)
  indexed k it := by simp only [h.indexed, hperm.mem_iff]

theorem Valid.front_perm {c : LRUCache} (h : c.Valid) {n : Node} (hn : n ∈ c.cache) :
    (n :: c.cache.filter (fun m => m.first ≠ n.first)).Perm c.cache := by
  have hnodup : c.cache.Nodup := h.keys_nodup.of_map Node.first
  have hfront : (n :: c.cache.filter (fun m => m.first ≠ n.first)).Nodup := by
    refine List.nodup_cons.mpr ⟨?_, hnodup.filter _⟩
    intro hmem
    exact of_decide_eq_true (List.mem_filter.mp hmem).2 rfl
  rw [List.perm_ext_iff_of_nodup hfront hnodup]
  intro m
  rw [List.mem_cons, List.mem_filter]
  constructor
  · rintro (rfl | ⟨hm, _⟩)
    · exact hn
    · exact hm
  · intro hm
    rcases eq_or_ne m.first n.first with hsame | hother
    · exact Or.inl (List.inj_on_of_nodup_map h.keys_nodup hm hn hsame)
    · exact Or.inr ⟨hm, decide_eq_true hother⟩

/-- The cache `c` at work is the cache `s` of size `cap`. -/
structure Represents {cap : Nat} (c : LRUCache) (s : RecencyCache Int32 Int32 cap) : Prop where
  valid : c.Valid
  capacity : intToSize c.cap = cap
  entries : c.cache.map Node.entry = s.entries

theorem new_represents (capacity : Int32) :
    (new capacity).Represents (RecencyCache.empty Int32 Int32 (intToSize capacity)) :=
  ⟨new_valid capacity, rfl, rfl⟩

theorem entries_filter (cache : List Node) (key : Int32) :
    (cache.filter (fun n => n.first ≠ key)).map Node.entry =
      (cache.map Node.entry).filter (fun e => e.1 ≠ key) := by
  rw [List.filter_map]
  rfl

/-- `put` never fails, and is a use of its key. -/
theorem put_represents {cap : Nat} {c : LRUCache} {s : RecencyCache Int32 Int32 cap}
    (h : c.Represents s) (key value : Int32) :
    ∃ c', c.put key value = .ok c' ∧ c'.Represents (s.use key value) := by
  obtain ⟨pushed, hpushed⟩ :
      ∃ pushed, pushed = c.push (c.cache.filter (fun n => n.first ≠ key)) key value := ⟨_, rfl⟩
  have hput : c.put key value =
      if pushed.map.entries.length > intToSize c.cap then pushed.evict else .ok pushed := by
    rw [put, h.valid.detach key, hpushed]
    rfl
  have hvalid : pushed.Valid := hpushed ▸ h.valid.push key value
  have hcap : pushed.cap = c.cap := by rw [hpushed, push]
  have hentries : pushed.cache.map Node.entry = touch key value s.entries := by
    rw [hpushed, push, List.map_cons, entries_filter, h.entries]
    rfl
  have hlength : pushed.cache.length = (touch key value s.entries).length := by
    rw [← hentries, List.length_map]
  have htouch := length_touch_le s.entries key value
  have hbounded := s.bounded
  rw [hput, hvalid.map_size, h.capacity, hlength]
  split
  case isTrue hfull =>
    have hne : pushed.cache ≠ [] := by
      apply List.ne_nil_of_length_pos
      omega
    obtain ⟨c', hevict, hvalid', hcache, hcap'⟩ := hvalid.evict hne
    refine ⟨c', hevict, hvalid', by rw [hcap', hcap, h.capacity], ?_⟩
    have hcut : (touch key value s.entries).length - 1 = cap := by omega
    rw [hcache, List.map_dropLast, hentries, List.dropLast_eq_take, hcut]
    rfl
  case isFalse hroom =>
    refine ⟨pushed, rfl, hvalid, by rw [hcap, h.capacity], ?_⟩
    rw [hentries]
    exact (List.take_of_length_le (by omega)).symm

theorem Represents.mem_entries_iff {cap : Nat} {c : LRUCache} {s : RecencyCache Int32 Int32 cap}
    (h : c.Represents s) (key value : Int32) :
    s.lookup key = some value ↔ ∃ n ∈ c.cache, n.first = key ∧ n.second = value := by
  rw [s.lookup_eq_some_iff, ← h.entries, List.mem_map]
  simp only [Node.entry, Prod.mk.injEq]

/-- A hit is a use of its key, with the value that is held. -/
theorem get_hit {cap : Nat} {c : LRUCache} {s : RecencyCache Int32 Int32 cap}
    (h : c.Represents s) {key held : Int32} (hheld : s.lookup key = some held) (value : Int32) :
    ∃ c', c.get key value = .ok ⟨true, held, c'⟩ ∧ c'.Represents (s.use key held) := by
  obtain ⟨n, hn, rfl, rfl⟩ := (h.mem_entries_iff key held).mp hheld
  have hlookup : c.map.lookup n.first = some n.address :=
    (h.valid.indexed n.first n.address).mpr ⟨n, hn, rfl, rfl⟩
  have hderef : deref (n :: c.cache.filter (fun m => m.first ≠ n.first)) n.address = .ok n :=
    (h.valid.reorder (h.valid.front_perm hn)).deref List.mem_cons_self
  refine ⟨{c with cache := n :: c.cache.filter (fun m => m.first ≠ n.first)}, ?_,
    h.valid.reorder (h.valid.front_perm hn), h.capacity, ?_⟩
  · simp only [get, hlookup, splice, h.valid.deref hn, h.valid.unlink hn]
    change (deref (n :: c.cache.filter (fun m => m.first ≠ n.first)) n.address >>= _) = _
    rw [hderef]
    rfl
  · have hmem : n.first ∈ s.entries.map Prod.fst := by
      rw [← h.entries, List.map_map]
      exact List.mem_map_of_mem hn
    have hlength := length_touch_of_mem s.keys_nodup n.second hmem
    have hbounded := s.bounded
    have hfits : (touch n.first n.second s.entries).length ≤ cap := by omega
    rw [List.map_cons, entries_filter, h.entries]
    exact (List.take_of_length_le hfits).symm

theorem get_miss {cap : Nat} {c : LRUCache} {s : RecencyCache Int32 Int32 cap}
    (h : c.Represents s) {key : Int32} (hmissing : s.lookup key = none) (value : Int32) :
    c.get key value = .ok ⟨false, value, c⟩ := by
  have hlookup : c.map.lookup key = none := by
    rw [h.valid.lookup_eq_none_iff]
    intro hmem
    obtain ⟨n, hn, hkey⟩ := List.mem_map.mp hmem
    have hfound := (h.mem_entries_iff key n.second).mpr ⟨n, hn, hkey, rfl⟩
    simp [hmissing] at hfound
  simp only [get, hlookup]

end LRUCache

end LearningCpp.Lru
