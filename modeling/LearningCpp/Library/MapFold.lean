import Mathlib.Data.List.AList
import Mathlib.Tactic

/-!
Maps filled by repeated insertion, a later insertion replacing an earlier one
of the same key. When the inserted keys are distinct the order of insertion
does not matter.
-/

namespace LearningCpp.Library

variable {β κ ν : Type*} [DecidableEq κ]

abbrev Map (κ ν : Type*) := AList (fun _ : κ => ν)

def insertAll (key : β → κ) (val : β → ν) (m : Map κ ν) (bs : List β) : Map κ ν :=
  bs.foldl (fun m b => m.insert (key b) (val b)) m

variable {key : β → κ} {val : β → ν}

@[simp]
theorem insertAll_nil (m : Map κ ν) : insertAll key val m [] = m := rfl

@[simp]
theorem insertAll_cons (m : Map κ ν) (b : β) (bs : List β) :
    insertAll key val m (b :: bs) = insertAll key val (m.insert (key b) (val b)) bs := rfl

theorem insertAll_append (m : Map κ ν) (bs cs : List β) :
    insertAll key val m (bs ++ cs) = insertAll key val (insertAll key val m bs) cs := by
  simp [insertAll]

theorem lookup_insertAll_of_notMem (m : Map κ ν) (bs : List β) {k : κ}
    (hk : k ∉ bs.map key) : (insertAll key val m bs).lookup k = m.lookup k := by
  induction bs generalizing m with
  | nil => rfl
  | cons b bs ih =>
      simp only [List.map_cons, List.mem_cons, not_or] at hk
      rw [insertAll_cons, ih _ hk.2, AList.lookup_insert_ne hk.1]

/-- An inserted key is bound to the value of one of its insertions. -/
theorem exists_lookup_insertAll (val : β → ν) (m : Map κ ν) (bs : List β) {k : κ}
    (hk : k ∈ bs.map key) :
    ∃ b ∈ bs, key b = k ∧ (insertAll key val m bs).lookup k = some (val b) := by
  induction bs generalizing m with
  | nil => simp at hk
  | cons b bs ih =>
      by_cases hlater : k ∈ bs.map key
      · obtain ⟨c, hc, hkey, hlookup⟩ := ih (m.insert (key b) (val b)) hlater
        exact ⟨c, by simp [hc], hkey, hlookup⟩
      · have hkb : k = key b := by simpa [hlater] using hk
        refine ⟨b, by simp, hkb.symm, ?_⟩
        rw [insertAll_cons, lookup_insertAll_of_notMem _ _ hlater, hkb, AList.lookup_insert]

theorem lookup_insertAll_of_nodup (m : Map κ ν) (bs : List β)
    (hnodup : (bs.map key).Nodup) {b : β} (hb : b ∈ bs) :
    (insertAll key val m bs).lookup (key b) = some (val b) := by
  obtain ⟨c, hc, hkey, hlookup⟩ :=
    exists_lookup_insertAll val m bs (List.mem_map_of_mem hb)
  rw [hlookup, List.inj_on_of_nodup_map hnodup hc hb hkey]

/-- What was in the map before shows only under keys that are not inserted. -/
theorem lookup_insertAll_or (m : Map κ ν) (bs : List β) (k : κ) :
    (insertAll key val m bs).lookup k =
      ((insertAll key val ∅ bs).lookup k).or (m.lookup k) := by
  induction bs using List.reverseRecOn with
  | nil => simp
  | append_singleton bs b ih =>
      simp only [insertAll_append, insertAll_cons, insertAll_nil]
      by_cases hk : k = key b
      · rw [hk, AList.lookup_insert, AList.lookup_insert, Option.some_or]
      · rw [AList.lookup_insert_ne hk, AList.lookup_insert_ne hk, ih]

/-- Bindings inserted over an empty map come from the insertions. -/
theorem exists_of_lookup_insertAll {bs : List β} {k : κ} {v : ν}
    (h : (insertAll key val ∅ bs).lookup k = some v) :
    ∃ b ∈ bs, key b = k ∧ val b = v := by
  by_cases hk : k ∈ bs.map key
  · obtain ⟨b, hb, hkey, hlookup⟩ := exists_lookup_insertAll val ∅ bs hk
    exact ⟨b, hb, hkey, Option.some.inj (hlookup.symm.trans h)⟩
  · rw [lookup_insertAll_of_notMem _ _ hk] at h
    simp at h

theorem insertAll_entries_length_le (key : β → κ) (val : β → ν) (m : Map κ ν) (bs : List β) :
    (insertAll key val m bs).entries.length ≤ m.entries.length + bs.length := by
  induction bs generalizing m with
  | nil => exact Nat.le_refl _
  | cons b bs ih =>
      have hrest := ih (m.insert (key b) (val b))
      have herase : (List.kerase (key b) m.entries).length ≤ m.entries.length :=
        (List.kerase_sublist _ _).length_le
      simp only [AList.entries_insert, List.length_cons] at hrest
      simp only [insertAll_cons, List.length_cons]
      omega

/-- An insertion that leaves a key that is there alone. -/
def insertNew (m : Map κ ν) (k : κ) (v : ν) : Map κ ν :=
  if (m.lookup k).isSome then m else m.insert k v

theorem lookup_insertNew (m : Map κ ν) (k k' : κ) (v : ν) :
    (insertNew m k v).lookup k' = (m.lookup k').or (if k = k' then some v else none) := by
  rw [insertNew]
  cases hk : m.lookup k with
  | none =>
      rcases eq_or_ne k' k with rfl | hne
      · simp [AList.lookup_insert, hk]
      · simp [AList.lookup_insert_ne hne, hne.symm]
  | some old =>
      rcases eq_or_ne k' k with rfl | hne
      · simp [hk]
      · simp [hne.symm]

def insertAllNew (key : β → κ) (val : β → ν) (m : Map κ ν) (bs : List β) : Map κ ν :=
  bs.foldl (fun m b => insertNew m (key b) (val b)) m

theorem insertAllNew_append (m : Map κ ν) (bs cs : List β) :
    insertAllNew key val m (bs ++ cs) = insertAllNew key val (insertAllNew key val m bs) cs := by
  simp [insertAllNew]

/-- The first binding of a key stays. -/
theorem lookup_insertAllNew (m : Map κ ν) (bs : List β) (k : κ) :
    (insertAllNew key val m bs).lookup k =
      (m.lookup k).or ((bs.find? (fun b => key b = k)).map val) := by
  induction bs generalizing m with
  | nil => simp [insertAllNew]
  | cons b bs ih =>
      have hcons : insertAllNew key val m (b :: bs) =
          insertAllNew key val (insertNew m (key b) (val b)) bs := rfl
      rw [hcons, ih, lookup_insertNew, Option.or_assoc]
      rcases eq_or_ne (key b) k with hkey | hne
      · rw [if_pos hkey, List.find?_cons_of_pos (by simpa using hkey)]
        rfl
      · rw [if_neg hne, List.find?_cons_of_neg (by simpa using hne)]
        rfl

/-- A map is rebuilt from its own bindings, in whatever order they come. -/
theorem lookup_insertAll_of_perm (m : Map κ ν) {bs : List β}
    (hperm : (bs.map (fun b => (⟨key b, val b⟩ : Sigma (fun _ : κ => ν)))).Perm m.entries)
    (k : κ) : (insertAll key val ∅ bs).lookup k = m.lookup k := by
  have hkeys : (bs.map key).Perm m.keys := by
    have h := hperm.map Sigma.fst
    rwa [List.map_map] at h
  cases hlookup : m.lookup k with
  | none =>
      rw [lookup_insertAll_of_notMem, AList.lookup_empty]
      intro hk
      exact AList.lookup_eq_none.mp hlookup (AList.mem_keys.mpr (hkeys.mem_iff.mp hk))
  | some v =>
      have hentry : (⟨k, v⟩ : Sigma (fun _ : κ => ν)) ∈ m.entries := AList.mem_lookup_iff.mp hlookup
      obtain ⟨b, hb, heq⟩ := List.mem_map.mp (hperm.mem_iff.mpr hentry)
      obtain ⟨rfl, hval⟩ := Sigma.mk.inj heq
      rw [lookup_insertAll_of_nodup _ _ (hkeys.nodup_iff.mpr m.keys_nodup) hb, eq_of_heq hval]

end LearningCpp.Library
