/-
# A heap of objects with `new` and `delete`

The set of live objects is explicit: an address either holds an object or is
dead.  Reading, writing and deleting at a dead address are faults, so a
computation that returns has deleted nothing twice and has used no deleted
object.  Addresses are never handed out a second time; a pointer that was once
dead stays recognisable.
-/

import RoutePlanner.Std.Fault
import Mathlib.Data.List.Nodup
import Mathlib.Logic.Function.Basic

namespace RoutePlanner.Std

universe u v

/-- An address. -/
abbrev Ptr := Nat

/-- Live objects, and the next address to hand out.  Nothing lives there or
beyond. -/
structure Heap (α : Type u) where
  next : Ptr
  cell : Ptr → Option α
  fresh : ∀ p, next ≤ p → cell p = none

namespace Heap

variable {α : Type u}

/-- No object is live. -/
def empty : Heap α := ⟨0, fun _ => none, fun _ _ => rfl⟩

/-- The address holds an object. -/
def Live (h : Heap α) (p : Ptr) : Prop := (h.cell p).isSome = true

/-- `new`. -/
def alloc (h : Heap α) (a : α) : Ptr × Heap α :=
  (h.next,
    { next := h.next + 1
      cell := Function.update h.cell h.next (some a)
      fresh := fun p hp => by
        rw [Function.update_of_ne (Nat.ne_of_gt hp), h.fresh p (Nat.le_of_lt hp)] })

/-- `*p`. -/
def deref (h : Heap α) (p : Ptr) : Except Fault α :=
  match h.cell p with
  | some a => .ok a
  | none => .error .deletedObject

/-- Change the object at a live address. -/
def modify (h : Heap α) (p : Ptr) (f : α → α) : Except Fault (Heap α) :=
  match hp : h.cell p with
  | some a => .ok
      { next := h.next
        cell := Function.update h.cell p (some (f a))
        fresh := fun q hq => by
          have hne : q ≠ p := by
            rintro rfl
            rw [h.fresh q hq] at hp
            cases hp
          rw [Function.update_of_ne hne, h.fresh q hq] }
  | none => .error .deletedObject

/-- `delete p`. -/
def free (h : Heap α) (p : Ptr) : Except Fault (Heap α) :=
  match h.cell p with
  | some _ => .ok
      { next := h.next
        cell := Function.update h.cell p none
        fresh := fun q hq => by
          by_cases hqp : q = p
          · rw [hqp, Function.update_self]
          · rw [Function.update_of_ne hqp, h.fresh q hq] }
  | none => .error .deletedObject

/-- `new` for every object of a list, first to last. -/
def allocAll (h : Heap α) : List α → List Ptr × Heap α
  | [] => ([], h)
  | a :: as =>
      let rest := (h.alloc a).2.allocAll as
      ((h.alloc a).1 :: rest.1, rest.2)

/-- `delete` every pointer of a list, first to last. -/
def freeAll (h : Heap α) (ps : List Ptr) : Except Fault (Heap α) := ps.foldlM free h

/-! ## Reading -/

theorem live_iff {h : Heap α} {p : Ptr} : h.Live p ↔ ∃ a, h.cell p = some a :=
  Option.isSome_iff_exists

theorem deref_eq_ok {h : Heap α} {p : Ptr} {a : α} :
    h.deref p = .ok a ↔ h.cell p = some a := by
  cases hp : h.cell p with
  | none => simp [deref, hp]
  | some b => simp [deref, hp]

theorem lt_next_of_live {h : Heap α} {p : Ptr} (hp : h.Live p) : p < h.next := by
  by_contra hle
  rw [Live, h.fresh p (Nat.le_of_not_lt hle)] at hp
  cases hp

/-- What is read of listed objects is read of the objects that live there. -/
theorem map_cell_map {β : Type v} {h : Heap α} {ps : List Ptr} {as : List α}
    (hcells : ps.map h.cell = as.map some) (f : α → β) :
    (ps.map fun p => (h.cell p).map f) = as.map fun a => some (f a) := by
  have hmap := congrArg (List.map (Option.map f)) hcells
  rw [List.map_map, List.map_map] at hmap
  exact hmap

/-! ## Allocation -/

@[simp]
theorem alloc_next (h : Heap α) (a : α) : (h.alloc a).2.next = h.next + 1 := rfl

@[simp]
theorem alloc_cell_self (h : Heap α) (a : α) : (h.alloc a).2.cell h.next = some a :=
  Function.update_self ..

/-- Allocation disturbs no object that was live. -/
theorem alloc_cell_of_lt {h : Heap α} {p : Ptr} (hp : p < h.next) (a : α) :
    (h.alloc a).2.cell p = h.cell p :=
  Function.update_of_ne (Nat.ne_of_lt hp) ..

/-- The new addresses are pairwise distinct, lie at or beyond the old frontier
and hold the given objects; everything below the frontier is untouched. -/
theorem allocAll_spec (h : Heap α) (as : List α) :
    (h.allocAll as).1.Nodup ∧ (∀ p ∈ (h.allocAll as).1, h.next ≤ p) ∧
      (h.allocAll as).1.map (h.allocAll as).2.cell = as.map some ∧
      (∀ p, p < h.next → (h.allocAll as).2.cell p = h.cell p) ∧
      h.next ≤ (h.allocAll as).2.next := by
  induction as generalizing h with
  | nil =>
      exact ⟨List.nodup_nil, fun p hp => absurd hp List.not_mem_nil, rfl, fun _ _ => rfl,
        Nat.le_refl _⟩
  | cons a as ih =>
      obtain ⟨hnodup, hge, hcells, hkeep, hnext⟩ := ih (h.alloc a).2
      rw [alloc_next] at hge hkeep hnext
      refine ⟨?_, ?_, ?_, ?_, ?_⟩
      · refine List.nodup_cons.mpr ⟨fun hmem => ?_, hnodup⟩
        exact absurd (hge _ hmem) (Nat.not_succ_le_self _)
      · intro p hp
        rcases List.mem_cons.mp hp with rfl | hp
        · exact Nat.le_refl _
        · exact Nat.le_of_succ_le (hge p hp)
      · have hhead : (h.allocAll (a :: as)).2.cell h.next = some a :=
          (hkeep _ (Nat.lt_succ_self _)).trans (alloc_cell_self h a)
        rw [List.map_cons, ← hhead]
        exact congrArg _ hcells
      · intro p hp
        exact (hkeep p (Nat.lt_succ_of_lt hp)).trans (alloc_cell_of_lt hp a)
      · exact Nat.le_of_succ_le hnext

theorem cell_allocAll {h : Heap α} {p : Ptr} (hp : p < h.next) (as : List α) :
    (h.allocAll as).2.cell p = h.cell p :=
  (h.allocAll_spec as).2.2.2.1 p hp

/-- Allocation neither kills nor revives what was handed out before. -/
theorem live_allocAll {h : Heap α} {p : Ptr} (hp : p < h.next) (as : List α) :
    (h.allocAll as).2.Live p ↔ h.Live p := by
  rw [Live, Live, cell_allocAll hp]

/-- And it leaves the objects as they are. -/
theorem cell_allocAll_of_live {h : Heap α} {p : Ptr} (hp : h.Live p) (as : List α) :
    (h.allocAll as).2.cell p = h.cell p :=
  cell_allocAll (lt_next_of_live hp) as

theorem next_le_allocAll (h : Heap α) (as : List α) : h.next ≤ (h.allocAll as).2.next :=
  (h.allocAll_spec as).2.2.2.2

@[simp]
theorem length_allocAll (h : Heap α) (as : List α) :
    (h.allocAll as).1.length = as.length := by
  induction as generalizing h with
  | nil => rfl
  | cons a as ih => simp only [allocAll, List.length_cons, ih]

/-! ## Assignment -/

/-- Assigning at a live address changes that object and no other. -/
theorem modify_of_cell {h : Heap α} {p : Ptr} {a : α} (hp : h.cell p = some a)
    (f : α → α) :
    ∃ h', h.modify p f = .ok h' ∧ h'.cell = Function.update h.cell p (some (f a)) ∧
      h'.next = h.next := by
  unfold modify
  split
  · rename_i b hb
    obtain rfl : b = a := Option.some.inj (hb.symm.trans hp)
    exact ⟨_, rfl, rfl, rfl⟩
  · rename_i hnone
    rw [hp] at hnone
    cases hnone

/-! ## Deletion -/

theorem free_of_live {h : Heap α} {p : Ptr} (hp : h.Live p) :
    ∃ h', h.free p = .ok h' ∧ h'.cell = Function.update h.cell p none ∧
      h'.next = h.next := by
  obtain ⟨a, ha⟩ := live_iff.mp hp
  simp only [free, ha]
  exact ⟨_, rfl, rfl, rfl⟩

theorem free_of_not_live {h : Heap α} {p : Ptr} (hp : ¬ h.Live p) :
    h.free p = .error .deletedObject := by
  have hnone : h.cell p = none := by simpa [Live] using hp
  simp only [free, hnone]

/-- Deleting a list of live pointers without repetition kills these objects and
leaves the others as they were. -/
theorem freeAll_of_live {ps : List Ptr} (hnodup : ps.Nodup) {h : Heap α}
    (hlive : ∀ p ∈ ps, h.Live p) :
    ∃ h', h.freeAll ps = .ok h' ∧ (∀ p ∈ ps, h'.cell p = none) ∧
      (∀ p, p ∉ ps → h'.cell p = h.cell p) ∧ h'.next = h.next := by
  induction ps generalizing h with
  | nil => exact ⟨h, rfl, fun p hp => absurd hp List.not_mem_nil, fun _ _ => rfl, rfl⟩
  | cons p ps ih =>
      obtain ⟨hp, hnodup⟩ := List.nodup_cons.mp hnodup
      obtain ⟨h₁, hfree, hcell, hnext⟩ := free_of_live (hlive p List.mem_cons_self)
      have hlive₁ : ∀ q ∈ ps, h₁.Live q := by
        intro q hq
        have hne : q ≠ p := fun heq => hp (heq ▸ hq)
        rw [Live, hcell, Function.update_of_ne hne]
        exact hlive q (List.mem_cons_of_mem _ hq)
      obtain ⟨h', hall, hdead, hkeep, hnext'⟩ := ih hnodup hlive₁
      refine ⟨h', ?_, ?_, ?_, hnext'.trans hnext⟩
      · rw [freeAll, List.foldlM_cons, hfree]
        exact hall
      · intro q hq
        by_cases hmem : q ∈ ps
        · exact hdead q hmem
        · obtain rfl : q = p := (List.mem_cons.mp hq).resolve_right hmem
          rw [hkeep q hmem, hcell, Function.update_self]
      · intro q hq
        obtain ⟨hne, hmem⟩ := not_or.mp (List.mem_cons.not.mp hq)
        rw [hkeep q hmem, hcell, Function.update_of_ne hne]

theorem cell_of_free {h h' : Heap α} {p : Ptr} (hfree : h.free p = .ok h') :
    h'.cell = Function.update h.cell p none := by
  by_cases hp : h.Live p
  · obtain ⟨h₁, hfree₁, hcell, -⟩ := free_of_live hp
    obtain rfl : h₁ = h' := Except.ok.inj (hfree₁.symm.trans hfree)
    exact hcell
  · rw [free_of_not_live hp] at hfree
    cases hfree

/-- What was deleted is dead, and nothing comes to life by deletion. -/
theorem not_live_of_freeAll {ps : List Ptr} {h h' : Heap α} (hall : h.freeAll ps = .ok h')
    {p : Ptr} (hp : p ∈ ps ∨ ¬ h.Live p) : ¬ h'.Live p := by
  induction ps generalizing h with
  | nil =>
      obtain rfl : h = h' := Except.ok.inj hall
      exact hp.resolve_left List.not_mem_nil
  | cons q ps ih =>
      rw [freeAll, List.foldlM_cons] at hall
      obtain ⟨h₁, hfree, hrest⟩ := Fault.bind_eq_ok.mp hall
      have hcell := cell_of_free hfree
      apply ih hrest
      by_cases hpq : p = q
      · exact Or.inr (by rw [Live, hcell, hpq, Function.update_self]; exact Bool.noConfusion)
      · rcases hp with hp | hp
        · exact Or.inl ((List.mem_cons.mp hp).resolve_left hpq)
        · exact Or.inr (by rwa [Live, hcell, Function.update_of_ne hpq])

/-- A list is deleted exactly if its pointers are live and no two are the same. -/
theorem freeAll_returns_iff {ps : List Ptr} {h : Heap α} :
    (∃ h', h.freeAll ps = .ok h') ↔ ps.Nodup ∧ ∀ p ∈ ps, h.Live p := by
  apply Iff.intro
  · rintro ⟨h', hall⟩
    induction ps generalizing h with
    | nil => exact ⟨List.nodup_nil, fun p hp => absurd hp List.not_mem_nil⟩
    | cons q ps ih =>
        rw [freeAll, List.foldlM_cons] at hall
        obtain ⟨h₁, hfree, hrest⟩ := Fault.bind_eq_ok.mp hall
        obtain ⟨hnodup, hlive₁⟩ := ih hrest
        have hcell := cell_of_free hfree
        have hq : q ∉ ps := by
          intro hmem
          have hdead := hlive₁ q hmem
          rw [Live, hcell, Function.update_self] at hdead
          exact Bool.noConfusion hdead
        refine ⟨List.nodup_cons.mpr ⟨hq, hnodup⟩, fun p hp => ?_⟩
        rcases List.mem_cons.mp hp with rfl | hp
        · by_contra hdead
          rw [free_of_not_live hdead] at hfree
          cases hfree
        · have hlive := hlive₁ p hp
          have hne : p ≠ q := fun heq => hq (heq ▸ hp)
          rwa [Live, hcell, Function.update_of_ne hne] at hlive
  · rintro ⟨hnodup, hlive⟩
    obtain ⟨h', hall, -⟩ := freeAll_of_live hnodup hlive
    exact ⟨h', hall⟩

end Heap

end RoutePlanner.Std
