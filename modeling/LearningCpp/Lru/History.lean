import LearningCpp.Lru.Cache

/-!
Histories of calls on an `LRUCache`: what a `get` answers is determined by the
uses before it, a larger cache answers every `get` that a smaller one does, and the
list and the map stay consistent.
-/

namespace LearningCpp.Lru

open Library

/-- `get` gives its answer in the variable that held `value`. -/
inductive Call where
  | put (key value : Int32)
  | get (key value : Int32)
  deriving DecidableEq, Repr

/-- A call that has returned. -/
inductive Event where
  | put (key value : Int32)
  | get (key : Int32) (found : Bool) (value : Int32)
  deriving DecidableEq, Repr

namespace LRUCache

def step (c : LRUCache) : Call → Except Fault (Event × LRUCache)
  | .put key value => do
      let after ← c.put key value
      return (.put key value, after)
  | .get key value => do
      let got ← c.get key value
      return (.get key got.found got.value, got.cache)

def run (c : LRUCache) : List Call → Except Fault (List Event × LRUCache)
  | [] => .ok ([], c)
  | call :: calls => do
      let (event, next) ← c.step call
      let (events, last) ← next.run calls
      return (event :: events, last)

end LRUCache

/-- Any `put` of a key and any `get` that hit uses it. -/
def Event.used : Event → List Int32
  | .put key _ => [key]
  | .get key found _ => if found then [key] else []

/-- The distinct keys that were used, the most recently used first. -/
def recentKeys (events : List Event) : List Int32 := firstsBy id (events.flatMap Event.used).reverse

def Event.putValue (key : Int32) : Event → Option Int32
  | .put k value => if k = key then some value else none
  | .get _ _ _ => none

/-- The value of the latest `put(key, .)`. -/
def latestPut (events : List Event) (key : Int32) : Option Int32 :=
  events.reverse.findSome? (Event.putValue key)

/-- A use together with the value its key had then. -/
def Event.usedEntry : Event → List (Int32 × Int32)
  | .put key value => [(key, value)]
  | .get key found value => if found then [(key, value)] else []

private theorem recentKeys_eq (events : List Event) :
    recentKeys events = (recency (events.flatMap Event.usedEntry)).map Prod.fst := by
  have hused : events.flatMap Event.used = (events.flatMap Event.usedEntry).map Prod.fst := by
    rw [List.map_flatMap]
    congr 1
    funext event
    cases event with
    | put key value => rfl
    | get key found value => cases found <;> rfl
  rw [recentKeys, recency, hused, ← List.map_reverse, map_firstsBy]

theorem latestPut_snoc (events : List Event) (event : Event) (key : Int32) :
    latestPut (events ++ [event]) key = (event.putValue key).or (latestPut events key) := by
  simp only [latestPut, List.reverse_append, List.reverse_singleton, List.singleton_append,
    List.findSome?_cons]
  cases event.putValue key <;> rfl

/-- The entries of a cache after `events`: those of the keys used last, each
with the value that was put last. -/
structure After {cap : Nat} (s : RecencyCache Int32 Int32 cap) (events : List Event) : Prop where
  follows : s.Follows (events.flatMap Event.usedEntry)
  latest : ∀ key value, s.lookup key = some value → latestPut events key = some value

theorem after_nil (cap : Nat) : After (RecencyCache.empty Int32 Int32 cap) [] where
  follows := RecencyCache.empty_follows
  latest key value h := by simp [RecencyCache.empty, RecencyCache.lookup] at h

variable {cap cap' : Nat} {s : RecencyCache Int32 Int32 cap} {events : List Event}

theorem After.put (h : After s events) (key value : Int32) :
    After (s.use key value) (events ++ [.put key value]) where
  follows := by
    rw [List.flatMap_append]
    exact h.follows.use key value
  latest k v hlookup := by
    rw [latestPut_snoc]
    rcases RecencyCache.lookup_use hlookup with ⟨rfl, rfl⟩ | ⟨hne, hold⟩
    · simp [Event.putValue]
    · simpa [Event.putValue, hne.symm] using h.latest k v hold

theorem After.hit (h : After s events) {key held : Int32} (hheld : s.lookup key = some held) :
    After (s.use key held) (events ++ [.get key true held]) where
  follows := by
    rw [List.flatMap_append]
    exact h.follows.use key held
  latest k v hlookup := by
    rw [latestPut_snoc]
    rcases RecencyCache.lookup_use hlookup with ⟨rfl, rfl⟩ | ⟨_, hold⟩
    · exact h.latest k v hheld
    · exact h.latest k v hold

theorem After.miss (h : After s events) (key value : Int32) :
    After s (events ++ [.get key false value]) where
  follows := by
    rw [List.flatMap_append]
    simpa [Event.usedEntry] using h.follows
  latest k v hlookup := by
    rw [latestPut_snoc]
    exact h.latest k v hlookup

theorem After.keys (h : After s events) :
    s.entries.map Prod.fst = (recentKeys events).take cap := by
  rw [recentKeys_eq, h.follows, List.map_take]

namespace LRUCache

variable {c : LRUCache}

theorem step_put (h : c.Represents s) (key value : Int32) :
    ∃ c', c.step (.put key value) = .ok (.put key value, c') ∧
      c'.Represents (s.use key value) := by
  obtain ⟨c', hput, hafter⟩ := put_represents h key value
  exact ⟨c', by rw [step, hput]; rfl, hafter⟩

theorem step_hit (h : c.Represents s) {key held : Int32} (hheld : s.lookup key = some held)
    (value : Int32) :
    ∃ c', c.step (.get key value) = .ok (.get key true held, c') ∧
      c'.Represents (s.use key held) := by
  obtain ⟨c', hget, hafter⟩ := get_hit h hheld value
  exact ⟨c', by rw [step, hget]; rfl, hafter⟩

theorem step_miss (h : c.Represents s) {key : Int32} (hmissing : s.lookup key = none)
    (value : Int32) : c.step (.get key value) = .ok (.get key false value, c) := by
  rw [step, get_miss h hmissing value]
  rfl

private theorem step_after (h : c.Represents s) (hafter : After s events) (call : Call) :
    ∃ event c', ∃ s' : RecencyCache Int32 Int32 cap,
      c.step call = .ok (event, c') ∧ c'.Represents s' ∧ After s' (events ++ [event]) := by
  cases call with
  | put key value =>
      obtain ⟨c', hstep, hnext⟩ := step_put h key value
      exact ⟨_, c', _, hstep, hnext, hafter.put key value⟩
  | get key value =>
      cases hlookup : s.lookup key with
      | none => exact ⟨_, c, s, step_miss h hlookup value, h, hafter.miss key value⟩
      | some held =>
          obtain ⟨c', hstep, hnext⟩ := step_hit h hlookup value
          exact ⟨_, c', _, hstep, hnext, hafter.hit hlookup⟩

theorem run_cons {event : Event} {events : List Event} {call : Call} {calls : List Call}
    {c next last : LRUCache} (hstep : c.step call = .ok (event, next))
    (hrun : next.run calls = .ok (events, last)) :
    c.run (call :: calls) = .ok (event :: events, last) := by
  rw [run, hstep]
  change (next.run calls >>= _) = _
  rw [hrun]
  rfl

theorem run_after (calls : List Call) (h : c.Represents s) (hafter : After s events) :
    ∃ new c', ∃ s' : RecencyCache Int32 Int32 cap,
      c.run calls = .ok (new, c') ∧ c'.Represents s' ∧ After s' (events ++ new) := by
  induction calls generalizing c s events with
  | nil => exact ⟨[], c, s, rfl, h, by rwa [List.append_nil]⟩
  | cons call calls ih =>
      obtain ⟨event, next, s', hstep, hnext, hafter'⟩ := step_after h hafter call
      obtain ⟨new, last, s'', hrun, hlast, hafter''⟩ := ih hnext hafter'
      refine ⟨event :: new, last, s'', run_cons hstep hrun, hlast, ?_⟩
      rwa [← List.append_cons] at hafter''

theorem toNat_capacity {capacity : Int32} (hcap : 0 ≤ capacity) :
    intToSize capacity = capacity.toInt.toNat :=
  intToSize_of_nonneg (Int32.le_iff_toInt_le.mp hcap)

/-- After any history a `get` answers for the keys used last and for no other,
with the value put last, and a `get` that misses changes nothing. -/
theorem get_after_history (capacity : Int32) (hcap : 0 ≤ capacity) (calls : List Call) :
    ∃ events c, (new capacity).run calls = .ok (events, c) ∧
      ∀ key value, ∃ got, c.get key value = .ok got ∧
        (got.found = true ↔ key ∈ (recentKeys events).take capacity.toInt.toNat) ∧
        (got.found = true → latestPut events key = some got.value) ∧
        (got.found = false → got.value = value ∧ got.cache = c) := by
  obtain ⟨events, c, s, hrun, hrep, hafter⟩ :=
    run_after calls (new_represents capacity) (after_nil _)
  refine ⟨events, c, hrun, ?_⟩
  intro key value
  have hkeys : s.entries.map Prod.fst = (recentKeys events).take capacity.toInt.toNat :=
    hafter.keys.trans (by rw [List.nil_append, toNat_capacity hcap])
  cases hlookup : s.lookup key with
  | none =>
      have hmissing := (s.lookup_eq_none_iff key).mp hlookup
      rw [hkeys] at hmissing
      refine ⟨_, get_miss hrep hlookup value, ?_, by simp, by simp⟩
      simpa using hmissing
  | some held =>
      obtain ⟨c', hget, _⟩ := get_hit hrep hlookup value
      have hmem := (s.exists_lookup_iff key).mp ⟨held, hlookup⟩
      rw [hkeys] at hmem
      refine ⟨_, hget, by simpa using hmem, ?_, by simp⟩
      intro _
      exact hafter.latest key held hlookup

/-- An overwrite, a hit that reorders and an eviction on a cache of two. -/
theorem get_after_mixed_history :
    ∃ events c, (new 2).run [.put 1 1, .put 2 2, .put 1 3, .get 2 0, .put 3 3] =
        .ok (events, c) ∧
      ∀ key value, ∃ got, c.get key value = .ok got ∧
        (got.found = true ↔ key ∈ (recentKeys events).take (2 : Int32).toInt.toNat) ∧
        (got.found = true → latestPut events key = some got.value) ∧
        (got.found = false → got.value = value ∧ got.cache = c) :=
  get_after_history 2 (by decide) _

/-- The program's own scripted run. -/
example : ((new 2).run [.put 1 1, .put 2 2, .get 1 0, .put 3 3, .get 2 0, .put 4 4, .get 1 0,
      .get 3 0, .get 4 0]).map Prod.fst =
    .ok [.put 1 1, .put 2 2, .get 1 true 1, .put 3 3, .get 2 false 0, .put 4 4, .get 1 false 0,
      .get 3 true 3, .get 4 true 4] := by
  rfl

private theorem step_within {c' : LRUCache} {l : RecencyCache Int32 Int32 cap'} (hcap : cap ≤ cap')
    (h : c.Represents s) (h' : c'.Represents l) (hwithin : s.Within l) (call : Call) :
    ∃ event event' d d', ∃ s' : RecencyCache Int32 Int32 cap,
      ∃ l' : RecencyCache Int32 Int32 cap',
        c.step call = .ok (event, d) ∧ c'.step call = .ok (event', d') ∧
        d.Represents s' ∧ d'.Represents l' ∧ s'.Within l' ∧
        ∀ key value, event = .get key true value → event' = .get key true value := by
  cases call with
  | put key value =>
      obtain ⟨d, hstep, hnext⟩ := step_put h key value
      obtain ⟨d', hstep', hnext'⟩ := step_put h' key value
      refine ⟨_, _, d, d', _, _, hstep, hstep', hnext, hnext', hwithin.use hcap key value, ?_⟩
      intro k v hevent
      exact Event.noConfusion hevent
  | get key value =>
      cases hlookup : s.lookup key with
      | some held =>
          obtain ⟨d, hstep, hnext⟩ := step_hit h hlookup value
          obtain ⟨d', hstep', hnext'⟩ := step_hit h' (hwithin.lookup hlookup) value
          refine ⟨_, _, d, d', _, _, hstep, hstep', hnext, hnext',
            hwithin.use hcap key held, ?_⟩
          intro k v hevent
          exact hevent
      | none =>
          have hmiss := step_miss h hlookup value
          cases hlarge : l.lookup key with
          | none =>
              refine ⟨_, _, c, c', s, l, hmiss, step_miss h' hlarge value, h, h', hwithin, ?_⟩
              intro k v hevent
              exact hevent
          | some held =>
              obtain ⟨d', hstep', hnext'⟩ := step_hit h' hlarge value
              refine ⟨_, _, c, d', s, _, hmiss, hstep', h, hnext',
                hwithin.use_large hlookup hlarge, ?_⟩
              intro k v hevent
              simp at hevent

private theorem run_within {c' : LRUCache} {l : RecencyCache Int32 Int32 cap'} (hcap : cap ≤ cap')
    (h : c.Represents s) (h' : c'.Represents l) (hwithin : s.Within l) (calls : List Call) :
    ∃ events events' d d', c.run calls = .ok (events, d) ∧ c'.run calls = .ok (events', d') ∧
      ∀ (i : Nat) (key value : Int32), events[i]? = some (.get key true value) →
        events'[i]? = some (.get key true value) := by
  induction calls generalizing c c' s l with
  | nil => exact ⟨[], [], c, c', rfl, rfl, fun i key value hi => by simp at hi⟩
  | cons call calls ih =>
      obtain ⟨event, event', d, d', s', l', hstep, hstep', hnext, hnext', hwithin', hhit⟩ :=
        step_within hcap h h' hwithin call
      obtain ⟨events, events', e, e', hrun, hrun', hhits⟩ := ih hnext hnext' hwithin'
      refine ⟨event :: events, event' :: events', e, e', run_cons hstep hrun,
        run_cons hstep' hrun', ?_⟩
      intro i key value hi
      cases i with
      | zero =>
          rw [List.getElem?_cons_zero, Option.some.injEq] at hi ⊢
          exact hhit key value hi
      | succ i =>
          rw [List.getElem?_cons_succ] at hi ⊢
          exact hhits i key value hi

/-- Enlarging the cache never turns a hit into a miss. -/
theorem hits_of_larger (capacity capacity' : Int32) (hcap : 0 ≤ capacity)
    (hle : capacity ≤ capacity') (calls : List Call) :
    ∃ events events' c c', (new capacity).run calls = .ok (events, c) ∧
      (new capacity').run calls = .ok (events', c') ∧
      ∀ (i : Nat) (key value : Int32), events[i]? = some (.get key true value) →
        events'[i]? = some (.get key true value) := by
  have hsize : intToSize capacity ≤ intToSize capacity' := by
    rw [toNat_capacity hcap, toNat_capacity (by grind)]
    exact Int.toNat_le_toNat (Int32.le_iff_toInt_le.mp hle)
  exact run_within hsize (new_represents capacity) (new_represents capacity')
    RecencyCache.empty_within calls

/-- The `get` of 1 hits only in the larger cache, which alone is reordered; the `get` of 3 hits
in both. -/
theorem hits_of_larger_diverging :
    ∃ events events' c c',
      (new 1).run [.put 1 1, .put 2 2, .get 1 0, .put 3 3, .get 3 0] = .ok (events, c) ∧
      (new 2).run [.put 1 1, .put 2 2, .get 1 0, .put 3 3, .get 3 0] = .ok (events', c') ∧
      events[2]? = some (.get 1 false 0) ∧ events'[2]? = some (.get 1 true 1) ∧
      events[4]? = some (.get 3 true 3) ∧ events'[4]? = some (.get 3 true 3) := by
  obtain ⟨events, events', c, c', hsmall, hlarge, hhits⟩ := hits_of_larger 1 2 (by decide)
    (by decide) [.put 1 1, .put 2 2, .get 1 0, .put 3 3, .get 3 0]
  have hevents : ((new 1).run [.put 1 1, .put 2 2, .get 1 0, .put 3 3, .get 3 0]).map Prod.fst =
      .ok [.put 1 1, .put 2 2, .get 1 false 0, .put 3 3, .get 3 true 3] := rfl
  have hevents' : (((new 2).run [.put 1 1, .put 2 2, .get 1 0, .put 3 3, .get 3 0]).map
      fun r => r.1[2]?) = .ok (some (.get 1 true 1)) := rfl
  rw [hsmall] at hevents
  rw [hlarge] at hevents'
  cases hevents
  exact ⟨_, events', c, c', hsmall, hlarge, rfl, Except.ok.inj hevents', rfl, hhits 4 3 3 rfl⟩

/-- The keys of the list are distinct and are those of the map, every iterator of the map is
valid and points to the element of its key, and there are no more entries than fit. -/
structure Consistent (c : LRUCache) (capacity : Int32) : Prop where
  keys_nodup : (c.cache.map Node.first).Nodup
  keys : ∀ key, key ∈ c.map ↔ key ∈ c.cache.map Node.first
  iterators : ∀ key it, c.map.lookup key = some it →
    ∃ n ∈ c.cache, deref c.cache it = .ok n ∧ n.first = key
  bounded : (c.cache.length : Int) ≤ capacity.toInt ∧ c.map.entries.length = c.cache.length

theorem Valid.mem_map_iff (h : c.Valid) (key : Int32) :
    key ∈ c.map ↔ key ∈ c.cache.map Node.first := by
  have hnone := not_congr (h.lookup_eq_none_iff key)
  rwa [not_not, AList.lookup_eq_none, not_not] at hnone

theorem Represents.consistent {capacity : Int32} (h : c.Represents s) (hcap : 0 ≤ capacity)
    (hsize : cap = intToSize capacity) : c.Consistent capacity where
  keys_nodup := h.valid.keys_nodup
  keys := h.valid.mem_map_iff
  iterators key it hlookup := by
    obtain ⟨n, hn, hkey, rfl⟩ := (h.valid.indexed key it).mp hlookup
    exact ⟨n, hn, h.valid.deref hn, hkey⟩
  bounded := by
    refine ⟨?_, h.valid.map_size⟩
    have hlength : c.cache.length = s.entries.length := by
      rw [← h.entries, List.length_map]
    have hbounded := s.bounded
    have hnonneg := Int32.le_iff_toInt_le.mp hcap
    rw [toNat_capacity hcap] at hsize
    change 0 ≤ capacity.toInt at hnonneg
    omega

/-- No sequence of calls uses an iterator that dangles or an element of an empty list, and
the cache is consistent after it. -/
theorem reachable_consistent (capacity : Int32) (hcap : 0 ≤ capacity) (calls : List Call) :
    ∃ events c, (new capacity).run calls = .ok (events, c) ∧ c.Consistent capacity := by
  obtain ⟨events, c, s, hrun, hrep, _⟩ := run_after calls (new_represents capacity) (after_nil _)
  exact ⟨events, c, hrun, hrep.consistent hcap rfl⟩

/-- A cache without room: every `put` evicts the element it has just pushed. -/
theorem reachable_consistent_zero :
    ∃ events c, (new 0).run [.put 1 1, .put 1 2, .get 1 0] = .ok (events, c) ∧
      c.Consistent 0 :=
  reachable_consistent 0 (by decide) _

end LRUCache

end LearningCpp.Lru
