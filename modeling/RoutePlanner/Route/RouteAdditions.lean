/-
# The additions of a search

Costs are added in two places of `GetRouteCost`: in the relaxation, to the label of
the settled location unless that is `INT_MAX`, and at the end, to the label of the
end.  A label is never above `INT_MAX`, so what matters is how large a cost can be.
-/

import RoutePlanner.Route.SearchLabels

set_option linter.dupNamespace false

namespace RoutePlanner.Route

open RoutePlanner.Std
open FileLocationDatabase (Holds)

namespace RoutePlanner

/-- The vectors of the search before the given round. -/
def vectorsBefore (planner : RoutePlanner) (startI endI count : Nat) :
    Except Fault (List UInt32 × List Bool) := do
  let locations := planner.locationDb.getLocations
  let routeCosts ← Fault.assign (List.replicate locations.length intMax.toUInt32) startI 0
  Machine.run (settleStep planner.locationDb.heap locations endI)
    (routeCosts, List.replicate locations.length false) (List.range count)

/-- Both names have a location, and these are the positions the search works with. -/
structure Searches (planner : RoutePlanner) (startName endName : Str) (startI endI : Nat) :
    Prop where
  startKnown : planner.locationDb.getLocation startName ≠ none
  endKnown : planner.locationDb.getLocation endName ≠ none
  startAt : getLocationIndex planner.locationDb.heap startName planner.locationDb.getLocations =
    .ok startI
  endAt : getLocationIndex planner.locationDb.heap endName planner.locationDb.getLocations =
    .ok endI

/-- The call of `GetRouteCost` between two names adds these two costs. -/
inductive Adds (planner : RoutePlanner) (startName endName : Str) : UInt32 → UInt32 → Prop
  /-- `base_cost + dest_cost`, which the condition of the relaxation reaches only when
  the adjacent location is a destination, is not processed, and the base is not
  `INT_MAX`. -/
  | relaxation {startI endI count adjI : Nat} {state : List UInt32 × List Bool}
      {refLocation : Location} {baseCost : UInt32} {sptSet : List Bool} {routeCosts : List UInt32}
      {p : Ptr} {destination : Location}
      (hsearch : Searches planner startName endName startI endI)
      (hcount : count < planner.locationDb.getLocations.length - 1)
      (hbefore : vectorsBefore planner startI endI count = .ok state)
      (hbase : roundBase planner.locationDb.heap planner.locationDb.getLocations state =
        .ok (refLocation, baseCost, sptSet))
      (hrelaxed : Machine.run (relaxStep planner.locationDb.heap planner.locationDb.getLocations
        refLocation baseCost sptSet endI) (state.1, true) (List.range adjI) =
        .ok (routeCosts, true))
      (hindex : Fault.index planner.locationDb.getLocations adjI = .ok p)
      (hderef : planner.locationDb.heap.deref p = .ok destination)
      (hvalid : refLocation.destinationIsValid destination = true)
      (hprocessed : Fault.index sptSet adjI = .ok false)
      (hreached : baseCost ≠ intMax.toUInt32) :
      Adds planner startName endName baseCost destination.cost
  /-- `route_costs[end_i] + locations[start_i]->Cost()`. -/
  | answer {startI endI : Nat} {state : List UInt32 × List Bool} {routeCost : UInt32} {p : Ptr}
      {startLocation : Location}
      (hsearch : Searches planner startName endName startI endI)
      (hafter : vectorsBefore planner startI endI (planner.locationDb.getLocations.length - 1) =
        .ok state)
      (hcost : Fault.index state.1 endI = .ok routeCost)
      (hindex : Fault.index planner.locationDb.getLocations startI = .ok p)
      (hderef : planner.locationDb.heap.deref p = .ok startLocation) :
      Adds planner startName endName routeCost startLocation.cost

variable {planner : RoutePlanner} {held : List Entry} {startName endName : Str}

/-- There is no second location, or every cost is that of an `int` which is not
negative, or that of `INT_MIN`. -/
def CostsFit (held : List Entry) : Prop :=
  held.length ≤ 1 ∨ ∀ entry ∈ held, entry.2.toNat ≤ 2 ^ 31

/-- The positions of a search are those of the names. -/
theorem Searches.firstAt (hdb : Holds planner.locationDb held) {startI endI : Nat}
    (h : Searches planner startName endName startI endI) :
    ∃ s e : Fin held.length, FirstAt held startName s ∧ FirstAt held endName e ∧
      s.val = startI ∧ e.val = endI := by
  have hfirst : ∀ {name : Str} {i : Nat}, planner.locationDb.getLocation name ≠ none →
      getLocationIndex planner.locationDb.heap name planner.locationDb.getLocations = .ok i →
      ∃ k : Fin held.length, FirstAt held name k ∧ k.val = i := by
    intro name i hknown hat
    obtain ⟨k, hk⟩ := exists_firstAt ((hdb.getLocation_isSome name).mp
      (Option.isSome_iff_ne_none.mpr hknown))
    have hindex := getLocationIndex_of_first hdb.objects hk
    exact ⟨k, hk, Except.ok.inj (hindex.symm.trans hat)⟩
  obtain ⟨s, hs, hsI⟩ := hfirst h.startKnown h.startAt
  obtain ⟨e, he, heI⟩ := hfirst h.endKnown h.endAt
  exact ⟨s, e, hs, he, hsI, heI⟩

theorem searches_of_firstAt (hdb : Holds planner.locationDb held) {s e : Fin held.length}
    (hs : FirstAt held startName s) (he : FirstAt held endName e) :
    Searches planner startName endName s e where
  startKnown := Option.ne_none_iff_exists'.mpr (exists_getLocation hdb hs)
  endKnown := Option.ne_none_iff_exists'.mpr (exists_getLocation hdb he)
  startAt := getLocationIndex_of_first hdb.objects hs
  endAt := getLocationIndex_of_first hdb.objects he

/-- What relaxations pass on holds of the labels before every round. -/
theorem allGood_vectorsBefore (hdb : Holds planner.locationDb held) {s : Fin held.length}
    {Good : Fin held.length → UInt32 → Prop} (hpass : Passes (listed hdb) Good) (hstart : Good s 0)
    (hrest : ∀ v, Good v intMax.toUInt32) {endI count : Nat} {state : List UInt32 × List Bool}
    (hbefore : vectorsBefore planner s endI count = .ok state) : AllGood Good state.1 := by
  obtain ⟨routeCosts, hassign, hall⟩ := allGood_start hstart hrest
  rw [vectorsBefore, FileLocationDatabase.getLocations, hdb.length_eq, hassign,
    Fault.ok_bind] at hbefore
  exact rounds_keep hpass hall hbefore

/-- No label is ever above `INT_MAX`. -/
theorem passes_le (hdb : Holds planner.locationDb held) :
    Passes (listed hdb) fun _ routeCost => routeCost.toNat ≤ INT_MAX := by
  intro u v baseCost routeCost _ hroute _ _ hlt
  exact (Nat.le_of_lt (UInt32.lt_iff_toNat_lt.mp hlt)).trans hroute

theorem allGood_le_vectorsBefore (hdb : Holds planner.locationDb held) {s : Fin held.length}
    {endI count : Nat} {state : List UInt32 × List Bool}
    (hbefore : vectorsBefore planner s endI count = .ok state) :
    @AllGood held.length (fun _ routeCost => routeCost.toNat ≤ INT_MAX) state.1 :=
  allGood_vectorsBefore hdb (passes_le hdb) (Nat.zero_le _) (fun _ => toNat_intMax.le) hbefore

/-- What is read at a position has the cost held there. -/
theorem cost_mem_held (hdb : Holds planner.locationDb held) {i : Nat} {p : Ptr} {object : Location}
    (hindex : Fault.index planner.locationDb.getLocations i = .ok p)
    (hderef : planner.locationDb.heap.deref p = .ok object) :
    ∃ hi : i < held.length, object.cost = held[i].2 := by
  obtain ⟨hi, rfl⟩ := (listed hdb).of_index_deref hindex hderef
  exact ⟨hi, congrArg Prod.snd (entry_listed hdb ⟨i, hi⟩)⟩

/-- Where the costs fit, no addition wraps. -/
theorem Adds.lt_of_costsFit (hdb : Holds planner.locationDb held) (hfit : CostsFit held)
    {a b : UInt32} (h : Adds planner startName endName a b) : a.toNat + b.toNat < 2 ^ 32 := by
  cases h with
  | relaxation hsearch hcount hbefore hbase hrelaxed hindex hderef hvalid hprocessed hreached =>
      obtain ⟨s, e, -, -, rfl, rfl⟩ := hsearch.firstAt hdb
      have hall := allGood_le_vectorsBefore hdb hbefore
      obtain ⟨u, -, hle⟩ := roundBase_eq_ok (listed hdb) hall hbase
      have hlt := (ne_intMax_iff hle).mp hreached
      obtain ⟨hi, hcost⟩ := cost_mem_held hdb hindex hderef
      have hmany : ¬ held.length ≤ 1 := by
        rw [FileLocationDatabase.getLocations, hdb.length_eq] at hcount
        omega
      have hbound := hfit.resolve_left hmany _ (List.getElem_mem hi)
      rw [hcost]
      simp only [INT_MAX] at hlt
      omega
  | @answer startI endI state routeCost p startLocation hsearch hafter hcost hindex hderef =>
      obtain ⟨s, e, -, -, rfl, rfl⟩ := hsearch.firstAt hdb
      have hle := (allGood_le_vectorsBefore hdb hafter).of_index e hcost
      obtain ⟨hi, hstart⟩ := cost_mem_held hdb hindex hderef
      rcases hfit with hone | hfit
      · -- the only location is at distance zero from itself
        have hlen : held.length = 1 := Nat.le_antisymm hone (Nat.lt_of_le_of_lt (Nat.zero_le _) hi)
        have hs : s.val = 0 := by have hlt := s.isLt; omega
        have he : e.val = 0 := by have hlt := e.isLt; omega
        have hlist : planner.locationDb.getLocations.length = 1 := hdb.length_eq.trans hlen
        have hvectors : vectorsBefore planner 0 0 0 = .ok ([0], [false]) := by
          rw [vectorsBefore, hlist]
          rfl
        rw [hlist, hs, he, Nat.sub_self, hvectors] at hafter
        obtain rfl := Except.ok.inj hafter
        rw [he, Fault.index_eq_ok] at hcost
        obtain rfl := Option.some.inj hcost
        have hlt := startLocation.cost.toNat_lt
        simpa using hlt
      · have hbound := hfit _ (List.getElem_mem hi)
        rw [hstart]
        simp only [INT_MAX] at hle
        omega

/-- With no walk between them, the search between two positions ends with the sum of
`INT_MAX` and the cost of the start. -/
theorem adds_of_unreachable (hdb : Holds planner.locationDb held) (hn : held.length ≤ 2 ^ 31)
    {s e : Fin held.length} (hs : FirstAt held startName s) (he : FirstAt held endName e)
    (hwalk : ¬ ∃ vs, Math.Walk (listed hdb).Adj s vs e) :
    Adds planner startName endName intMax.toUInt32 (held.get s).2 := by
  obtain ⟨routeCosts, hassign, hready, hstart⟩ := assign_start s
  obtain ⟨state, hrun, hready', -⟩ := rounds_return (listed hdb) hn e hready
    (by rw [hstart]; rfl) (Nat.sub_le held.length 1)
  have hbefore : vectorsBefore planner s e (planner.locationDb.getLocations.length - 1) =
      .ok state := by
    rw [vectorsBefore, FileLocationDatabase.getLocations, hdb.length_eq, hassign, Fault.ok_bind]
    exact hrun
  have hcost := index_eq_getD (hready'.costs.symm ▸ e.isLt : e.val < state.1.length) 0
  have hreached := (allGood_vectorsBefore hdb (passes_reached hdb s) (reached_start hdb s)
    (reached_rest hdb s) hbefore).of_index e hcost
  obtain ⟨p, hindex, hderef⟩ := (listed hdb).index_deref s
  rw [reached_eq_intMax hreached hwalk] at hcost
  have hentry : _ = held.get s := entry_listed hdb s
  rw [← hentry]
  exact .answer (searches_of_firstAt hdb hs he) hbefore hcost hindex hderef

end RoutePlanner

end RoutePlanner.Route
