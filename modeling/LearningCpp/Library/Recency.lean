import LearningCpp.Library.FirstOccurrence

/-!
Caches of bounded size that give up the entry whose last use is longest ago. A
history of uses determines such a cache, and of two caches with the same
history of calls the larger one holds what the smaller one holds.
-/

namespace LearningCpp.Library

/-- A cut that is at least as wide on the longer list keeps the order. -/
theorem take_sublist_take {α : Type*} {small large : List α} (h : small.Sublist large) {m n : Nat}
    (hcut : large.length - n ≤ small.length - m) :
    (small.take m).Sublist (large.take n) := by
  have hless : (small.reverse.drop (small.length - m)).Sublist
      (small.reverse.drop (large.length - n)) := List.drop_sublist_drop_left small.reverse hcut
  have hdrop : (small.take m).reverse.Sublist (large.take n).reverse := by
    rw [List.reverse_take, List.reverse_take]
    exact hless.trans (h.reverse.drop (large.length - n))
  exact List.reverse_sublist.mp hdrop

variable {κ ν : Type*} [DecidableEq κ]

/-- The entry comes to the front, in place of an older one of its key. -/
def touch (k : κ) (v : ν) (entries : List (κ × ν)) : List (κ × ν) :=
  (k, v) :: entries.filter (fun e => e.1 ≠ k)

/-- The last use of each key, the most recent first. -/
def recency (uses : List (κ × ν)) : List (κ × ν) := firstsBy Prod.fst uses.reverse

theorem recency_snoc (uses : List (κ × ν)) (k : κ) (v : ν) :
    recency (uses ++ [(k, v)]) = touch k v (recency uses) := by
  simp [recency, touch, firstsBy]

theorem recency_keys_nodup (uses : List (κ × ν)) : ((recency uses).map Prod.fst).Nodup :=
  firstsBy_keys_nodup Prod.fst uses.reverse

theorem filter_ne_of_notMem {entries : List (κ × ν)} {k : κ} (h : k ∉ entries.map Prod.fst) :
    entries.filter (fun e => e.1 ≠ k) = entries := by
  apply List.filter_eq_self.mpr
  intro e he
  apply decide_eq_true
  rintro rfl
  exact h (List.mem_map_of_mem he)

theorem length_touch_of_notMem {entries : List (κ × ν)} {k : κ} (v : ν)
    (h : k ∉ entries.map Prod.fst) : (touch k v entries).length = entries.length + 1 := by
  rw [touch, filter_ne_of_notMem h, List.length_cons]

theorem length_touch_of_mem {entries : List (κ × ν)} (hnodup : (entries.map Prod.fst).Nodup)
    {k : κ} (v : ν) (h : k ∈ entries.map Prod.fst) :
    (touch k v entries).length = entries.length := by
  induction entries with
  | nil => simp at h
  | cons e entries ih =>
      obtain ⟨he, hrest⟩ := List.nodup_cons.mp hnodup
      rcases List.mem_cons.mp h with rfl | htail
      · rw [touch, List.filter_cons_of_neg (by simp), filter_ne_of_notMem he]
        rfl
      · have hne : e.1 ≠ k := fun heq => he (heq ▸ htail)
        have hkept : touch k v (e :: entries) =
            (k, v) :: e :: entries.filter (fun e => e.1 ≠ k) := by
          rw [touch, List.filter_cons_of_pos (by simpa using hne)]
        have htouch := ih hrest htail
        rw [touch, List.length_cons] at htouch
        rw [hkept, List.length_cons, List.length_cons, List.length_cons, htouch]

theorem length_touch_le (entries : List (κ × ν)) (k : κ) (v : ν) :
    (touch k v entries).length ≤ entries.length + 1 :=
  Nat.succ_le_succ (List.length_filter_le _ _)

theorem touch_keys_nodup {entries : List (κ × ν)} (hnodup : (entries.map Prod.fst).Nodup)
    (k : κ) (v : ν) : ((touch k v entries).map Prod.fst).Nodup := by
  rw [touch, List.map_cons, List.nodup_cons]
  refine ⟨?_, hnodup.sublist (List.filter_sublist.map Prod.fst)⟩
  intro hmem
  obtain ⟨e, he, hkey⟩ := List.mem_map.mp hmem
  exact of_decide_eq_true (List.mem_filter.mp he).2 hkey

/-- What fell out before does not come back by a use of another key. -/
theorem take_touch_take {entries : List (κ × ν)} (hnodup : (entries.map Prod.fst).Nodup)
    (cap : Nat) (k : κ) (v : ν) :
    (touch k v (entries.take cap)).take cap = (touch k v entries).take cap := by
  have hsplit : touch k v entries = touch k v (entries.take cap) ++
      (entries.drop cap).filter (fun e => e.1 ≠ k) := by
    simp only [touch, List.cons_append]
    rw [← List.filter_append, List.take_append_drop]
  rcases Nat.lt_or_ge (touch k v (entries.take cap)).length cap with hshort | hlong
  · have hle : entries.length ≤ cap := by
      by_contra hgt
      have htake : (entries.take cap).length = cap := by
        rw [List.length_take]
        omega
      have hnodup' : ((entries.take cap).map Prod.fst).Nodup :=
        hnodup.sublist ((List.take_sublist cap entries).map Prod.fst)
      by_cases hk : k ∈ (entries.take cap).map Prod.fst
      · have := length_touch_of_mem hnodup' v hk
        omega
      · have := length_touch_of_notMem v hk
        omega
    rw [List.take_of_length_le hle]
  · rw [hsplit, List.take_append_of_le_length hlong]

/-- The entries of a cache of size `cap`, the most recently used first. -/
structure RecencyCache (κ ν : Type*) [DecidableEq κ] (cap : Nat) where
  entries : List (κ × ν)
  keys_nodup : (entries.map Prod.fst).Nodup
  bounded : entries.length ≤ cap

namespace RecencyCache

variable {cap cap' : Nat}

def empty (κ ν : Type*) [DecidableEq κ] (cap : Nat) : RecencyCache κ ν cap :=
  ⟨[], List.nodup_nil, Nat.zero_le cap⟩

def lookup (s : RecencyCache κ ν cap) (k : κ) : Option ν :=
  (s.entries.find? (fun e => e.1 = k)).map Prod.snd

def use (s : RecencyCache κ ν cap) (k : κ) (v : ν) : RecencyCache κ ν cap :=
  { entries := (touch k v s.entries).take cap
    keys_nodup :=
      (touch_keys_nodup s.keys_nodup k v).sublist ((List.take_sublist _ _).map Prod.fst)
    bounded := List.length_take_le _ _ }

theorem lookup_eq_some_iff (s : RecencyCache κ ν cap) (k : κ) (v : ν) :
    s.lookup k = some v ↔ (k, v) ∈ s.entries := by
  have hfind := mem_firstsBy_iff Prod.fst s.entries (k, v)
  rw [firstsBy_eq_self s.keys_nodup] at hfind
  rw [hfind, lookup, Option.map_eq_some_iff]
  constructor
  · rintro ⟨⟨k', v'⟩, hfound, rfl⟩
    have hkey : k' = k := by simpa using List.find?_some hfound
    rw [hfound, hkey]
  · intro hfound
    exact ⟨(k, v), hfound, rfl⟩

theorem lookup_eq_none_iff (s : RecencyCache κ ν cap) (k : κ) :
    s.lookup k = none ↔ k ∉ s.entries.map Prod.fst := by
  simp only [lookup, Option.map_eq_none_iff, List.find?_eq_none, decide_eq_true_eq, List.mem_map,
    not_exists, not_and]

theorem lookup_use {s : RecencyCache κ ν cap} {k k' : κ} {v v' : ν}
    (h : (s.use k v).lookup k' = some v') :
    k' = k ∧ v' = v ∨ k' ≠ k ∧ s.lookup k' = some v' := by
  rw [lookup_eq_some_iff] at h
  rcases List.mem_cons.mp (List.mem_of_mem_take h) with hfront | hrest
  · exact Or.inl (Prod.mk.inj hfront)
  · have hkept := List.mem_filter.mp hrest
    exact Or.inr ⟨of_decide_eq_true hkept.2, (s.lookup_eq_some_iff k' v').mpr hkept.1⟩

theorem exists_lookup_iff (s : RecencyCache κ ν cap) (k : κ) :
    (∃ v, s.lookup k = some v) ↔ k ∈ s.entries.map Prod.fst := by
  rw [← Option.isSome_iff_exists, Option.isSome_iff_ne_none, ne_eq, lookup_eq_none_iff, not_not]

/-- The cache that a history of uses leads to. -/
def Follows (s : RecencyCache κ ν cap) (uses : List (κ × ν)) : Prop :=
  s.entries = (recency uses).take cap

theorem empty_follows : (empty κ ν cap).Follows [] := List.take_nil.symm

theorem Follows.use {s : RecencyCache κ ν cap} {uses : List (κ × ν)} (h : s.Follows uses)
    (k : κ) (v : ν) : (s.use k v).Follows (uses ++ [(k, v)]) := by
  change (touch k v s.entries).take cap = _
  rw [h, take_touch_take (recency_keys_nodup uses), recency_snoc]

/-- The smaller cache holds its entries in the order in which the larger one
does, and is not full only when it holds all of them. -/
structure Within (s : RecencyCache κ ν cap) (l : RecencyCache κ ν cap') : Prop where
  sublist : s.entries.Sublist l.entries
  length_eq : s.entries.length = min cap l.entries.length

theorem empty_within : (empty κ ν cap).Within (empty κ ν cap') :=
  ⟨List.Sublist.refl [], (Nat.min_zero cap).symm⟩

theorem Within.lookup {s : RecencyCache κ ν cap} {l : RecencyCache κ ν cap'} (h : s.Within l) {k : κ} {v : ν}
    (hfound : s.lookup k = some v) : l.lookup k = some v := by
  rw [lookup_eq_some_iff] at hfound ⊢
  exact h.sublist.subset hfound

theorem touch_sublist {small large : List (κ × ν)} (h : small.Sublist large) (k : κ) (v : ν) :
    (touch k v small).Sublist (touch k v large) :=
  (h.filter _).cons_cons (k, v)

theorem Within.full_of_missing {s : RecencyCache κ ν cap} {l : RecencyCache κ ν cap'} (h : s.Within l) {k : κ}
    (hs : k ∉ s.entries.map Prod.fst) (hl : k ∈ l.entries.map Prod.fst) :
    s.entries.length = cap := by
  rcases Nat.lt_or_ge l.entries.length cap with hlt | hge
  · have hlength : s.entries.length = l.entries.length := by
      rw [h.length_eq, Nat.min_eq_right hlt.le]
    have hsame : s.entries = l.entries := h.sublist.eq_of_length hlength
    exact (hs (hsame ▸ hl)).elim
  · rw [h.length_eq, Nat.min_eq_left hge]

/-- One use in both caches. The larger one may hold the key alone, but then the
smaller one is full. -/
theorem Within.use {s : RecencyCache κ ν cap} {l : RecencyCache κ ν cap'} (h : s.Within l) (hcap : cap ≤ cap')
    (k : κ) (v : ν) : (s.use k v).Within (l.use k v) := by
  have hbounded := l.bounded
  have hlength := h.length_eq
  have htouched : (touch k v l.entries).length - cap' ≤ (touch k v s.entries).length - cap ∧
      min cap (touch k v s.entries).length = min cap (min cap' (touch k v l.entries).length) := by
    by_cases hs : k ∈ s.entries.map Prod.fst
    · have hl : k ∈ l.entries.map Prod.fst := (h.sublist.map Prod.fst).subset hs
      rw [length_touch_of_mem s.keys_nodup v hs, length_touch_of_mem l.keys_nodup v hl]
      omega
    · by_cases hl : k ∈ l.entries.map Prod.fst
      · have hfull := h.full_of_missing hs hl
        rw [length_touch_of_notMem v hs, length_touch_of_mem l.keys_nodup v hl]
        omega
      · rw [length_touch_of_notMem v hs, length_touch_of_notMem v hl]
        omega
  refine ⟨take_sublist_take (touch_sublist h.sublist k v) htouched.1, ?_⟩
  change ((touch k v s.entries).take cap).length = min cap ((touch k v l.entries).take cap').length
  rw [List.length_take, List.length_take, htouched.2]

/-- A use of an entry that only the larger cache holds. -/
theorem Within.use_large {s : RecencyCache κ ν cap} {l : RecencyCache κ ν cap'} (h : s.Within l) {k : κ} {v : ν}
    (hs : s.lookup k = none) (hl : l.lookup k = some v) : s.Within (l.use k v) := by
  rw [lookup_eq_none_iff] at hs
  rw [lookup_eq_some_iff] at hl
  have hlength : (touch k v l.entries).length = l.entries.length :=
    length_touch_of_mem l.keys_nodup v (List.mem_map_of_mem hl)
  have hkept : (l.use k v).entries = touch k v l.entries :=
    List.take_of_length_le (hlength ▸ l.bounded)
  constructor
  · rw [hkept, ← filter_ne_of_notMem hs]
    exact (h.sublist.filter _).cons (k, v)
  · rw [hkept, hlength, h.length_eq]

end RecencyCache

end LearningCpp.Library
