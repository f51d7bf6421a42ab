/-
# Where the objects are does not matter

Two planners with the same plan behind them can differ in everything that a C++
program can see of memory: in the addresses of their locations, in what lies
between them, in the order in which destinations were added.  Nothing of it shows
in a route cost.  That holds for any number of locations and for any costs, where
sums wrap and indices leave their vectors, so the answers are compared as they
are, faults included.
-/

import RoutePlanner.Route.RouteAnswers

set_option linter.dupNamespace false

namespace RoutePlanner.Route

open RoutePlanner.Std
open FileLocationDatabase (Holds)

namespace RoutePlanner

section Alike

variable {heap heap' : Heap Location} {locations locations' : List Ptr} {n : Nat}

/-- At every position stand objects of the same cost, which can be entered from the
same positions. -/
structure Alike (objects : Objects heap locations n) (objects' : Objects heap' locations' n) :
    Prop where
  cost_eq : ∀ i, (objects.object i).cost = (objects'.object i).cost
  valid_eq : ∀ i j, (objects.object i).destinationIsValid (objects.object j) =
    (objects'.object i).destinationIsValid (objects'.object j)

variable {objects : Objects heap locations n} {objects' : Objects heap' locations' n}

theorem index_of_le (objects : Objects heap locations n) {i : Nat} (hi : n ≤ i) :
    Fault.index locations i = .error .indexOutOfRange := by
  rw [Fault.index, List.getElem?_eq_none (objects.length_eq.symm ▸ hi)]

/-- A round of the inner loop cannot tell them apart, in whatever state it is. -/
theorem relaxStep_congr (h : Alike objects objects') (u : Fin n) (baseCost : UInt32)
    (sptSet : List Bool) (endI : Nat) (state : List UInt32 × Bool) (adjI : Nat) :
    relaxStep heap locations (objects.object u) baseCost sptSet endI state adjI =
      relaxStep heap' locations' (objects'.object u) baseCost sptSet endI state adjI := by
  rw [relaxStep, relaxStep]
  split
  · rcases Nat.lt_or_ge adjI n with hlt | hge
    · obtain ⟨p, hindex, hderef⟩ := objects.index_deref ⟨adjI, hlt⟩
      obtain ⟨p', hindex', hderef'⟩ := objects'.index_deref ⟨adjI, hlt⟩
      simp only [hindex, hindex', hderef, hderef', Fault.ok_bind, h.cost_eq, h.valid_eq]
    · rw [index_of_le objects hge, index_of_le objects' hge]
      rfl
  · rfl

/-- Neither can a round of the main loop. -/
theorem settleStep_congr (h : Alike objects objects') (endI : Nat)
    (state : List UInt32 × List Bool) (count : Nat) :
    settleStep heap locations endI state count = settleStep heap' locations' endI state count := by
  rw [settleStep, settleStep]
  refine congrArg _ (funext fun minCostI => ?_)
  refine congrArg _ (funext fun i => ?_)
  refine congrArg _ (funext fun sptSet => ?_)
  rcases Nat.lt_or_ge i n with hlt | hge
  · obtain ⟨p, hindex, hderef⟩ := objects.index_deref ⟨i, hlt⟩
    obtain ⟨p', hindex', hderef'⟩ := objects'.index_deref ⟨i, hlt⟩
    have hlen : locations.length = locations'.length :=
      objects.length_eq.trans objects'.length_eq.symm
    have hrelax : ∀ baseCost, relaxStep heap locations (objects.object ⟨i, hlt⟩) baseCost sptSet
          endI =
        relaxStep heap' locations' (objects'.object ⟨i, hlt⟩) baseCost sptSet endI :=
      fun baseCost => funext fun s => funext fun k => relaxStep_congr h _ baseCost sptSet endI s k
    simp only [hindex, hindex', hderef, hderef', Fault.ok_bind, hrelax, hlen]
  · rw [index_of_le objects hge, index_of_le objects' hge]
    rfl

end Alike

/-- The objects of two planners with one plan are alike. -/
theorem alike_of_follows {planner planner' : RoutePlanner} {plan : Plan}
    (h : Follows planner plan) (h' : Follows planner' plan) :
    Alike (listed h.locations) (listed h'.locations) := by
  have hentry : ∀ i, (((listed h.locations).object i).name, ((listed h.locations).object i).cost) =
      (((listed h'.locations).object i).name, ((listed h'.locations).object i).cost) := by
    intro i
    rw [entry_listed, entry_listed]
  refine ⟨fun i => congrArg Prod.snd (hentry i), fun i j => ?_⟩
  rw [Bool.eq_iff_iff]
  exact (h.listed_adj_iff i j).trans (h'.listed_adj_iff i j).symm

/-- Two planners with one plan give the same route costs and fail alike. -/
theorem getRouteCost_congr {planner planner' : RoutePlanner} {plan : Plan}
    (h : Follows planner plan) (h' : Follows planner' plan) (startName endName : Str) :
    planner.getRouteCost startName endName = planner'.getRouteCost startName endName := by
  by_cases hknown : startName ∈ plan.held.map Prod.fst ∧ endName ∈ plan.held.map Prod.fst
  · obtain ⟨i, hi⟩ := exists_firstAt hknown.1
    obtain ⟨j, hj⟩ := exists_firstAt hknown.2
    obtain ⟨routeCosts, hassign, -⟩ := assign_start i
    have halike := alike_of_follows h h'
    have hrounds : settleStep planner.locationDb.heap planner.locationDb.locationList j =
        settleStep planner'.locationDb.heap planner'.locationDb.locationList j :=
      funext fun state => funext fun count => settleStep_congr halike j state count
    obtain ⟨p, hindex, hderef⟩ := (listed h.locations).index_deref i
    obtain ⟨p', hindex', hderef'⟩ := (listed h'.locations).index_deref i
    rw [getRouteCost_eq h.locations hi hj hassign, getRouteCost_eq h'.locations hi hj hassign,
      hrounds]
    simp only [hindex, hindex', hderef, hderef', Fault.ok_bind, halike.cost_eq]
  · have hunknown : startName ∉ plan.held.map Prod.fst ∨ endName ∉ plan.held.map Prod.fst := by
      tauto
    rw [getRouteCost_of_unknown h.locations hunknown, getRouteCost_of_unknown h'.locations hunknown]

end RoutePlanner

end RoutePlanner.Route
