/-
# How many objects are live

A program that never uses a dead address can still lose objects: they stay live, and
no pointer to them is left.  Counting shows that.  `new` adds one to the number of
live objects, `delete` takes one away, and an assignment does neither.
-/

import RoutePlanner.Std.Heap
import Mathlib.Data.Finset.Card
import Mathlib.Data.Finset.Range

namespace RoutePlanner.Std.Heap

universe u

variable {α : Type u}

instance (h : Heap α) : DecidablePred h.Live := fun p =>
  inferInstanceAs (Decidable ((h.cell p).isSome = true))

/-- The addresses that hold an object; none lies beyond the frontier. -/
def live (h : Heap α) : Finset Ptr := (Finset.range h.next).filter h.Live

/-- The number of live objects. -/
def count (h : Heap α) : Nat := h.live.card

theorem mem_live {h : Heap α} {p : Ptr} : p ∈ h.live ↔ h.Live p := by
  rw [live, Finset.mem_filter, Finset.mem_range]
  exact and_iff_right_of_imp lt_next_of_live

theorem count_alloc (h : Heap α) (a : α) : (h.alloc a).2.count = h.count + 1 := by
  have hnew : h.next ∉ h.live := fun hmem =>
    absurd (lt_next_of_live (mem_live.mp hmem)) (Nat.lt_irrefl _)
  have hlive : (h.alloc a).2.live = insert h.next h.live := by
    ext p
    rw [Finset.mem_insert, mem_live, mem_live]
    by_cases hp : p = h.next
    · subst hp
      exact iff_of_true (by rw [Live, alloc_cell_self]; rfl) (Or.inl rfl)
    · rw [or_iff_right hp, Live, Live]
      show (Function.update h.cell h.next (some a) p).isSome = true ↔ _
      rw [Function.update_of_ne hp]
  rw [count, hlive, Finset.card_insert_of_notMem hnew, count]

theorem count_allocAll (h : Heap α) (as : List α) :
    (h.allocAll as).2.count = h.count + as.length := by
  induction as generalizing h with
  | nil => rfl
  | cons a as ih =>
      show ((h.alloc a).2.allocAll as).2.count = h.count + (as.length + 1)
      rw [ih, count_alloc, Nat.add_assoc, Nat.add_comm 1]

theorem count_free {h h' : Heap α} {p : Ptr} (hfree : h.free p = .ok h') :
    h'.count + 1 = h.count := by
  have hp : h.Live p := by
    by_contra hdead
    rw [free_of_not_live hdead] at hfree
    cases hfree
  have hlive : h'.live = h.live.erase p := by
    ext q
    rw [Finset.mem_erase, mem_live, mem_live, Live, Live, cell_of_free hfree]
    by_cases hq : q = p
    · subst hq
      rw [Function.update_self]
      exact iff_of_false Bool.noConfusion fun h => h.1 rfl
    · rw [Function.update_of_ne hq]
      exact (and_iff_right hq).symm
  rw [count, hlive]
  exact Finset.card_erase_add_one (mem_live.mpr hp)

theorem count_freeAll {ps : List Ptr} {h h' : Heap α} (hall : h.freeAll ps = .ok h') :
    h'.count + ps.length = h.count := by
  induction ps generalizing h with
  | nil => exact Except.ok.inj hall ▸ rfl
  | cons p ps ih =>
      rw [freeAll, List.foldlM_cons] at hall
      obtain ⟨h₁, hfree, hrest⟩ := Fault.bind_eq_ok.mp hall
      rw [← count_free hfree, ← ih hrest]
      rfl

theorem count_modify {h h' : Heap α} {p : Ptr} {f : α → α} (hmodify : h.modify p f = .ok h') :
    h'.count = h.count := by
  unfold modify at hmodify
  split at hmodify
  · rename_i a ha
    obtain rfl := Except.ok.inj hmodify
    refine congrArg Finset.card (Finset.ext fun q => ?_)
    rw [mem_live, mem_live, Live, Live]
    by_cases hq : q = p
    · subst hq
      show (Function.update h.cell q _ q).isSome = true ↔ _
      rw [Function.update_self, ha]
      exact Iff.rfl
    · show (Function.update h.cell p _ q).isSome = true ↔ _
      rw [Function.update_of_ne hq]
  · cases hmodify

end RoutePlanner.Std.Heap
