/-
# `std::unordered_map`

Nothing in the modelled code depends on the iteration order, so an association
list with distinct keys is enough.  `insert` is the C++ one: it keeps the value
that is already there.
-/

import Mathlib.Data.List.AList
import Mathlib.Data.List.Dedup

namespace RoutePlanner.Std

universe u v

/-- A map with distinct keys. -/
abbrev UnorderedMap (κ : Type u) (ν : Type v) := AList fun _ : κ => ν

namespace UnorderedMap

variable {κ : Type u} {ν : Type v} [DecidableEq κ]

/-- `find`, as the value found or nothing. -/
def find (m : UnorderedMap κ ν) (k : κ) : Option ν := m.lookup k

/-- `insert(std::make_pair(k, v))`: no effect when the key is present. -/
def insertNew (m : UnorderedMap κ ν) (k : κ) (v : ν) : UnorderedMap κ ν :=
  if k ∈ m then m else AList.insert k v m

/-- Assign to the value of a key. -/
def assign (m : UnorderedMap κ ν) (k : κ) (v : ν) : UnorderedMap κ ν := AList.insert k v m

/-- `size()`. -/
def size (m : UnorderedMap κ ν) : Nat := m.keys.length

@[simp]
theorem find_empty (k : κ) : find (∅ : UnorderedMap κ ν) k = none := AList.lookup_empty k

theorem find_isSome {m : UnorderedMap κ ν} {k : κ} : (m.find k).isSome ↔ k ∈ m :=
  AList.lookup_isSome

theorem find_eq_none {m : UnorderedMap κ ν} {k : κ} : m.find k = none ↔ k ∉ m :=
  AList.lookup_eq_none

theorem mem_iff_of_find {m : UnorderedMap κ ν} {k : κ} {v : ν} {p : Prop} [Decidable p]
    (h : m.find k = if p then some v else none) : k ∈ m ↔ p := by
  rw [← find_isSome, h]
  by_cases hp : p <;> simp [hp]

/-- The first value inserted for a key is the one that stays. -/
theorem find_insertNew (m : UnorderedMap κ ν) (k k' : κ) (v : ν) :
    (m.insertNew k v).find k' = (m.find k').or (if k' = k then some v else none) := by
  by_cases hk : k ∈ m
  · rw [insertNew, if_pos hk]
    by_cases hkk : k' = k
    · obtain ⟨w, hw⟩ := Option.isSome_iff_exists.mp (find_isSome.mpr (hkk ▸ hk))
      rw [hw, Option.some_or]
    · rw [if_neg hkk, Option.or_none]
  · rw [insertNew, if_neg hk]
    by_cases hkk : k' = k
    · subst hkk
      rw [if_pos rfl, find_eq_none.mpr hk, Option.none_or]
      exact AList.lookup_insert m
    · rw [if_neg hkk, Option.or_none]
      exact AList.lookup_insert_ne hkk

theorem mem_insertNew (m : UnorderedMap κ ν) (k k' : κ) (v : ν) :
    k' ∈ m.insertNew k v ↔ k' ∈ m ∨ k' = k := by
  rw [← find_isSome, find_insertNew, Option.isSome_or, ← find_isSome]
  by_cases hkk : k' = k <;> simp [hkk]

theorem find_assign_self (m : UnorderedMap κ ν) (k : κ) (v : ν) :
    (m.assign k v).find k = some v :=
  AList.lookup_insert m

theorem find_assign_of_ne (m : UnorderedMap κ ν) {k k' : κ} (h : k' ≠ k) (v : ν) :
    (m.assign k v).find k' = m.find k' :=
  AList.lookup_insert_ne h

/-- Insert a list of pairs in order. -/
def insertAll (m : UnorderedMap κ ν) (pairs : List (κ × ν)) : UnorderedMap κ ν :=
  pairs.foldl (fun m pair => m.insertNew pair.1 pair.2) m

/-- Among pairs with one key the first wins. -/
theorem find_insertAll (pairs : List (κ × ν)) (m : UnorderedMap κ ν) (k : κ) :
    (m.insertAll pairs).find k =
      (m.find k).or ((pairs.find? fun pair => pair.1 = k).map Prod.snd) := by
  induction pairs generalizing m with
  | nil => simp [insertAll]
  | cons pair pairs ih =>
      rw [insertAll, List.foldl_cons, ← insertAll, ih, find_insertNew, Option.or_assoc]
      congr 1
      by_cases hk : pair.1 = k
      · rw [List.find?_cons_of_pos (by simpa using hk), if_pos hk.symm, Option.some_or]
        rfl
      · rw [List.find?_cons_of_neg (by simpa using hk), if_neg (Ne.symm hk), Option.none_or]

/-- A map filled from a list has one entry for each distinct key. -/
theorem size_insertAll_empty (pairs : List (κ × ν)) :
    (insertAll ∅ pairs).size = (pairs.map Prod.fst).dedup.length := by
  have hkeys : ∀ k, k ∈ (insertAll ∅ pairs).keys ↔ k ∈ (pairs.map Prod.fst).dedup := by
    intro k
    rw [← AList.mem_keys, ← find_isSome, find_insertAll, find_empty, Option.none_or,
      Option.isSome_map, List.find?_isSome, List.mem_dedup, List.mem_map]
    simp only [decide_eq_true_eq]
  exact ((List.perm_ext_iff_of_nodup (AList.keys_nodup _) (List.nodup_dedup _)).mpr
    hkeys).length_eq

end UnorderedMap

end RoutePlanner.Std
