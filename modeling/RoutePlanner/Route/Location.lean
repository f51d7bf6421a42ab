/-
# Locations

A location knows its name, its cost and the destinations that can be reached
from it.  Destinations are raw pointers kept under the destination's name; an
entry is never overwritten.
-/

import RoutePlanner.Std.Chars
import RoutePlanner.Std.Heap
import RoutePlanner.Std.UnorderedMap

namespace RoutePlanner.Route

open RoutePlanner.Std

structure Location where
  name : Str
  cost : UInt32
  destinations : UnorderedMap Str Ptr

namespace Location

/-- The constructor: no destinations yet. -/
def create (name : Str) (cost : UInt32) : Location := ⟨name, cost, ∅⟩

/-- `AddDestination`, with the name read from the destination. -/
def addDestination (location : Location) (destination : Location) (address : Ptr) : Location :=
  { location with
    destinations := location.destinations.insertNew destination.name address }

/-- `DestinationIsValid` looks for the name only. -/
def destinationIsValid (location destination : Location) : Bool :=
  (location.destinations.find destination.name).isSome

theorem mem_addDestination (location destination : Location) (address : Ptr) (name : Str) :
    name ∈ (location.addDestination destination address).destinations ↔
      name ∈ location.destinations ∨ name = destination.name :=
  UnorderedMap.mem_insertNew ..

theorem destinationIsValid_iff (location destination : Location) :
    location.destinationIsValid destination = true ↔
      destination.name ∈ location.destinations :=
  UnorderedMap.find_isSome

end Location

end RoutePlanner.Route
