/-
# The route cost

`GetRouteCost` searches from the start, settling one location after the other.
The position of the location to settle next is kept in an `int`, on the way out
of `GetMinCostIndex` and in the caller; costs are `unsigned int` and are compared
with and assigned to an `int` in between.  The conversions are the ones of the
source.
-/

import RoutePlanner.Route.RoutePlanner
import RoutePlanner.Std.Machine

set_option linter.dupNamespace false

namespace RoutePlanner.Route

open RoutePlanner.Std

namespace RoutePlanner

/-- `INT_MAX` as an `int`. -/
def intMax : Int32 := 2147483647

/-- An `int` used as an index.  A negative one becomes a `size_t` behind the end
of any vector. -/
def intIndex (i : Int32) : Except Fault Nat :=
  if i < 0 then .error .indexOutOfRange else .ok i.toNatClampNeg

/-- The loop body of `GetMinCostIndex`; the state is `min` and `min_index`. -/
def minCostStep (routeCosts : List UInt32) (sptSet : List Bool) (best : Int32 × Option Int32)
    (i : Nat) : Except Fault (Int32 × Option Int32) := do
  let processed ← Fault.index sptSet i
  let routeCost ← Fault.index routeCosts i
  if processed = false ∧ routeCost ≤ best.1.toUInt32 then
    return (routeCost.toInt32, some (Int32.ofNat i))
  else
    return best

/-- `GetMinCostIndex`.  Its result is the `int` variable `min_index`; the way
through `size_t` to the caller's `int` does not change it. -/
def getMinCostIndex (routeCosts : List UInt32) (sptSet : List Bool) : Except Fault Int32 := do
  let (_, minIndex) ← Machine.run (minCostStep routeCosts sptSet) (intMax, none)
    (List.range routeCosts.length)
  match minIndex with
  | some i => return i
  | none => .error .uninitialised

/-- `GetLocationIndex`: the number of locations when none has the name. -/
def getLocationIndex (heap : Heap Location) (locationName : Str) : List Ptr → Except Fault Nat
  | [] => .ok 0
  | p :: ps => do
      let location ← heap.deref p
      if location.name = locationName then return 0
      else
        let i ← getLocationIndex heap locationName ps
        return i + 1

/-- The loop body over the adjacent locations; the state is `route_costs` and
`bSearch`. -/
def relaxStep (heap : Heap Location) (locations : List Ptr) (refLocation : Location)
    (baseCost : UInt32) (sptSet : List Bool) (endI : Nat) (state : List UInt32 × Bool)
    (adjI : Nat) : Except Fault (List UInt32 × Bool) :=
  if state.2 then do
    let adjacentLocation ← Fault.index locations adjI
    let destination ← heap.deref adjacentLocation
    if refLocation.destinationIsValid destination then
      let destCost := destination.cost
      let processed ← Fault.index sptSet adjI
      let routeCost ← Fault.index state.1 adjI
      if processed = false ∧ baseCost ≠ intMax.toUInt32 ∧ baseCost + destCost < routeCost then
        let routeCosts ← Fault.assign state.1 adjI (baseCost + destCost)
        return (routeCosts, adjI != endI)
      else return state
    else return state
  else return state

/-- The body of the main loop; the state is `route_costs` and `spt_set`. -/
def settleStep (heap : Heap Location) (locations : List Ptr) (endI : Nat)
    (state : List UInt32 × List Bool) (_count : Nat) : Except Fault (List UInt32 × List Bool) := do
  let minCostI ← getMinCostIndex state.1 state.2
  let i ← intIndex minCostI
  let sptSet ← Fault.assign state.2 i true
  let p ← Fault.index locations i
  let refLocation ← heap.deref p
  let baseCost ← Fault.index state.1 i
  let (routeCosts, _) ← Machine.run
    (relaxStep heap locations refLocation baseCost sptSet endI) (state.1, true)
    (List.range locations.length)
  return (routeCosts, sptSet)

/-- `GetRouteCost`. -/
def getRouteCost (planner : RoutePlanner) (startLocationName endLocationName : Str) :
    Except Fault UInt32 :=
  let db := planner.locationDb
  match db.getLocation startLocationName, db.getLocation endLocationName with
  | some _, some _ => do
      let locations := db.getLocations
      let startI ← getLocationIndex db.heap startLocationName locations
      let endI ← getLocationIndex db.heap endLocationName locations
      let routeCosts ← Fault.assign (List.replicate locations.length intMax.toUInt32) startI 0
      let sptSet := List.replicate locations.length false
      let (routeCosts, _) ← Machine.run (settleStep db.heap locations endI) (routeCosts, sptSet)
        (List.range (locations.length - 1))
      let routeCost ← Fault.index routeCosts endI
      let p ← Fault.index locations startI
      let startLocation ← db.heap.deref p
      return routeCost + startLocation.cost
  | _, _ => .ok 0

end RoutePlanner

end RoutePlanner.Route
