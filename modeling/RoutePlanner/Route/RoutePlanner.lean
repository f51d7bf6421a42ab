/-
# The route planner

`SetupRoutes` reloads both databases and, when one of them reports an update,
enters the routes of every listed location as destinations of its object.  The
names in the route database are resolved by the location database; a name it
does not know is passed over.  Destinations are only ever added: the objects of
a reload start without any, all others keep what they have.
-/

import RoutePlanner.Route.LocationReload
import RoutePlanner.Route.FileRouteDatabase

set_option linter.dupNamespace false

namespace RoutePlanner.Route

open RoutePlanner.Std

structure RoutePlanner where
  locationDb : FileLocationDatabase
  routeDb : FileRouteDatabase

namespace RoutePlanner

/-- Two databases that were not loaded yet. -/
def create : RoutePlanner := ⟨FileLocationDatabase.create, FileRouteDatabase.create⟩

/-- The inner loop of `SetupRoutes`. -/
def addRoutes (startLocation : Ptr) (db : FileLocationDatabase) (routes : List Str) :
    Except Fault FileLocationDatabase :=
  routes.foldlM
    (fun db location =>
      match db.getLocation location with
      | some endLocation => db.addDestination startLocation endLocation
      | none => .ok db)
    db

/-- The body of the outer loop of `SetupRoutes`. -/
def configureRoutes (routeDb : FileRouteDatabase) (db : FileLocationDatabase)
    (startLocation : Ptr) : Except Fault FileLocationDatabase := do
  let object ← db.heap.deref startLocation
  addRoutes startLocation db (routeDb.getRoutes object.name)

/-- `SetupRoutes`, with the files as they are when it is called. -/
def setupRoutes (planner : RoutePlanner) (locationFile routeFile : File) :
    Except Fault (List Ptr × RoutePlanner) := do
  let (locationsUpdated, locationDb) ← planner.locationDb.load locationFile
  let (routesUpdated, routeDb) ← planner.routeDb.load routeFile
  if locationsUpdated || routesUpdated then
    let locations := locationDb.getLocations
    let locationDb ← locations.foldlM (configureRoutes routeDb) locationDb
    return (locations, { locationDb, routeDb })
  else
    return (locationDb.getLocations, { locationDb, routeDb })

/-- `GetLocationNames`. -/
def getLocationNames (planner : RoutePlanner) (locationFile routeFile : File) :
    Except Fault (List Str × RoutePlanner) := do
  let (locations, planner) ← planner.setupRoutes locationFile routeFile
  let locationNames ← locations.mapM fun p => do
    let object ← planner.locationDb.heap.deref p
    return object.name
  return (locationNames, planner)

end RoutePlanner

namespace FileLocationDatabase

/-! ## Names and destinations behind the pointers -/

/-- The object at an address has a destination of this name. -/
def HasDestination (db : FileLocationDatabase) (p : Ptr) (name : Str) : Prop :=
  ∃ object, db.heap.cell p = some object ∧ name ∈ object.destinations

theorem hasDestination_of_cell {db : FileLocationDatabase} {p : Ptr} {object : Location}
    (hcell : db.heap.cell p = some object) (name : Str) :
    db.HasDestination p name ↔ name ∈ object.destinations := by
  apply Iff.intro
  · rintro ⟨other, hother, hname⟩
    rwa [Option.some.inj (hcell.symm.trans hother)]
  · exact fun hname => ⟨object, hcell, hname⟩

namespace Holds

variable {db : FileLocationDatabase} {held : List Entry}

/-- A name has a location exactly when it is held. -/
theorem getLocation_isSome (h : Holds db held) (name : Str) :
    (db.getLocation name).isSome = true ↔ name ∈ held.map Prod.fst := by
  rw [h.getLocation_eq, Option.isSome_map, List.find?_isSome]
  simp only [decide_eq_true_eq]
  apply Iff.intro
  · rintro ⟨pair, hpair, rfl⟩
    exact (List.of_mem_zip hpair).1
  · intro hname
    have hlen : (held.map Prod.fst).length ≤ db.locationList.length := by
      rw [List.length_map, h.length_eq]
    rw [← List.map_fst_zip hlen] at hname
    obtain ⟨pair, hpair, rfl⟩ := List.mem_map.mp hname
    exact ⟨pair, hpair, rfl⟩

/-- At equal positions the list of pointers and the list of entries agree. -/
theorem entryAt_getElem (h : Holds db held) (i : Nat) (hi : i < db.locationList.length)
    (hi' : i < held.length) : db.entryAt db.locationList[i] = some held[i] := by
  have hmap := congrArg (fun entries => entries[i]?) h.objects
  simpa only [List.getElem?_map, List.getElem?_eq_getElem hi, List.getElem?_eq_getElem hi',
    Option.map_some, Option.some.injEq] using hmap

/-- The object found under a name has that name. -/
theorem name_of_getLocation (h : Holds db held) {name : Str} {p : Ptr} {object : Location}
    (hp : db.getLocation name = some p) (hcell : db.heap.cell p = some object) :
    object.name = name := by
  rw [h.getLocation_eq] at hp
  obtain ⟨pair, hfind, rfl⟩ := Option.map_eq_some_iff.mp hp
  obtain rfl : pair.1 = name := by simpa using List.find?_some hfind
  obtain ⟨i, hi, rfl⟩ := List.mem_iff_getElem.mp (List.mem_of_find?_eq_some hfind)
  simp only [List.getElem_zip, List.getElem_map] at hcell ⊢
  simp only [List.length_zip, List.length_map, lt_inf_iff] at hi
  have hentry := h.entryAt_getElem i hi.2 hi.1
  rw [entryAt, hcell, Option.map_some, Option.some.injEq] at hentry
  exact congrArg Prod.fst hentry

/-- Two heaps behind one list of pointers show the same names and costs. -/
theorem entryAt_eq {heap : Heap Location} (h : Holds db held)
    (h' : Holds { db with heap } held) {p : Ptr} (hp : p ∈ db.locationList) :
    entryAt { db with heap } p = db.entryAt p :=
  List.map_inj_left.mp (h'.objects.trans h.objects.symm) p hp

end Holds

/-- One destination more for one object. -/
theorem addDestination_hasDestination {db : FileLocationDatabase} {held : List Entry}
    (hdb : Holds db held) {start : Ptr} (hstart : start ∈ db.locationList) {name : Str}
    {destination : Ptr} (hname : db.getLocation name = some destination) :
    ∃ heap, db.addDestination start destination = .ok { db with heap } ∧
      Holds { db with heap } held ∧
      ∀ p other, HasDestination { db with heap } p other ↔
        db.HasDestination p other ∨ (p = start ∧ other = name) := by
  obtain ⟨object, target, heap, hobject, htarget, hadd, hcell, -, hheap⟩ :=
    addDestination_of_holds hdb hstart (hdb.mem_of_getLocation hname)
  refine ⟨heap, hadd, hheap, fun p other => ?_⟩
  by_cases hp : p = start
  · subst hp
    have hnew : heap.cell p = some (object.addDestination target destination) := by
      rw [hcell, Function.update_self]
    rw [@hasDestination_of_cell { db with heap } _ _ hnew, hasDestination_of_cell hobject,
      Location.mem_addDestination, hdb.name_of_getLocation hname htarget]
    simp
  · have hsame : heap.cell p = db.heap.cell p := by rw [hcell, Function.update_of_ne hp]
    rw [HasDestination, HasDestination, hsame]
    simp [hp]

end FileLocationDatabase

namespace RoutePlanner

open FileLocationDatabase (Holds HasDestination)

/-! ## What the loops add -/

/-- The inner loop adds the routes that name a held location. -/
theorem addRoutes_spec {db : FileLocationDatabase} {held : List Entry} (hdb : Holds db held)
    {start : Ptr} (hstart : start ∈ db.locationList) (routes : List Str) :
    ∃ heap, addRoutes start db routes = .ok { db with heap } ∧ Holds { db with heap } held ∧
      ∀ p name, HasDestination { db with heap } p name ↔
        db.HasDestination p name ∨ (p = start ∧ name ∈ routes ∧ name ∈ held.map Prod.fst) := by
  induction routes generalizing db with
  | nil => exact ⟨db.heap, rfl, hdb, fun p name => by simp⟩
  | cons route routes ih =>
      cases hroute : db.getLocation route with
      | none =>
          obtain ⟨heap, hrest, hheap, hdest⟩ := ih hdb hstart
          refine ⟨heap, ?_, hheap, fun p name => ?_⟩
          · simp only [addRoutes, List.foldlM_cons, hroute, Fault.ok_bind]
            exact hrest
          · have hunknown : route ∉ held.map Prod.fst := by
              rw [← hdb.getLocation_isSome, hroute]
              exact Bool.noConfusion
            rw [hdest, List.mem_cons]
            refine or_congr_right (and_congr_right fun _ => ?_)
            apply Iff.intro
            · exact fun h => ⟨Or.inr h.1, h.2⟩
            · rintro ⟨rfl | hmem, hheld⟩
              · exact absurd hheld hunknown
              · exact ⟨hmem, hheld⟩
      | some destination =>
          obtain ⟨heap₁, hadd, hheap₁, hdest₁⟩ :=
            FileLocationDatabase.addDestination_hasDestination hdb hstart hroute
          obtain ⟨heap, hrest, hheap, hdest⟩ := ih hheap₁ hstart
          refine ⟨heap, ?_, hheap, fun p name => ?_⟩
          · simp only [addRoutes, List.foldlM_cons, hroute, hadd, Fault.ok_bind]
            exact hrest
          · have hknown : route ∈ held.map Prod.fst := by
              rw [← hdb.getLocation_isSome, hroute]
              rfl
            rw [hdest, hdest₁, List.mem_cons]
            apply Iff.intro
            · rintro ((h | ⟨rfl, rfl⟩) | ⟨hp, hmem, hheld⟩)
              · exact Or.inl h
              · exact Or.inr ⟨rfl, Or.inl rfl, hknown⟩
              · exact Or.inr ⟨hp, Or.inr hmem, hheld⟩
            · rintro (h | ⟨hp, rfl | hmem, hheld⟩)
              · exact Or.inl (Or.inl h)
              · exact Or.inl (Or.inr ⟨hp, rfl⟩)
              · exact Or.inr ⟨hp, hmem, hheld⟩

/-- The outer loop does so for every location it visits. -/
theorem configureRoutes_spec (routeDb : FileRouteDatabase) {db : FileLocationDatabase}
    {held : List Entry} (hdb : Holds db held) {ps : List Ptr}
    (hps : ∀ p ∈ ps, p ∈ db.locationList) :
    ∃ heap, ps.foldlM (configureRoutes routeDb) db = .ok { db with heap } ∧
      Holds { db with heap } held ∧
      ∀ p name, HasDestination { db with heap } p name ↔
        db.HasDestination p name ∨
          (p ∈ ps ∧ ∃ start, db.entryAt p = some start ∧
            name ∈ routeDb.getRoutes start.1 ∧ name ∈ held.map Prod.fst) := by
  induction ps generalizing db with
  | nil => exact ⟨db.heap, rfl, hdb, fun p name => by simp⟩
  | cons q ps ih =>
      have hq : q ∈ db.locationList := hps q List.mem_cons_self
      obtain ⟨object, hobject, -⟩ := hdb.exists_object hq
      obtain ⟨heap₁, hadd, hheap₁, hdest₁⟩ :=
        addRoutes_spec hdb hq (routeDb.getRoutes object.name)
      have hrest : ∀ p ∈ ps, p ∈ db.locationList := fun p hp => hps p (List.mem_cons_of_mem _ hp)
      obtain ⟨heap, hfold, hheap, hdest⟩ := ih hheap₁ hrest
      refine ⟨heap, ?_, hheap, fun p name => ?_⟩
      · rw [List.foldlM_cons, configureRoutes, Heap.deref_eq_ok.mpr hobject, Fault.ok_bind, hadd,
          Fault.ok_bind]
        exact hfold
      · have hentry : db.entryAt q = some (object.name, object.cost) := by
          rw [FileLocationDatabase.entryAt, hobject, Option.map_some]
        rw [hdest, hdest₁, List.mem_cons, or_assoc]
        apply or_congr_right
        apply Iff.intro
        · rintro (⟨rfl, hroute, hheld⟩ | ⟨hp, start, hstart, hroute, hheld⟩)
          · exact ⟨Or.inl rfl, _, hentry, hroute, hheld⟩
          · rw [hdb.entryAt_eq hheap₁ (hrest p hp)] at hstart
            exact ⟨Or.inr hp, start, hstart, hroute, hheld⟩
        · rintro ⟨rfl | hp, start, hstart, hroute, hheld⟩
          · obtain rfl := Option.some.inj (hentry.symm.trans hstart)
            exact Or.inl ⟨rfl, hroute, hheld⟩
          · rw [← hdb.entryAt_eq hheap₁ (hrest p hp)] at hstart
            exact Or.inr ⟨hp, start, hstart, hroute, hheld⟩

end RoutePlanner

end RoutePlanner.Route
