/-
# What names and destinations refer to

The location database answers for a name by its map and for a position by its list;
the planner looks a name up in the one and then works with positions of the other.
And the locations refer to each other by raw pointers, which a reload could leave
behind.  Along every history of files that parse, the two containers agree and every
destination is the location that the database has under its name.
-/

import RoutePlanner.Route.RouteHistory
import RoutePlanner.Route.RouteSearch

set_option linter.dupNamespace false

namespace RoutePlanner.Route

open RoutePlanner.Std

namespace FileLocationDatabase

/-! ## The list and the map -/

/-- A location of this name lives at the address. -/
def Named (db : FileLocationDatabase) (p : Ptr) (name : Str) : Prop :=
  ∃ location, db.heap.cell p = some location ∧ location.name = name

namespace Holds

variable {db : FileLocationDatabase} {held : List Entry}

/-- The location at a position has the name held there. -/
theorem named_getElem?_iff (h : Holds db held) {i : Nat} {p : Ptr}
    (hp : db.locationList[i]? = some p) (name : Str) :
    db.Named p name ↔ ∃ hi : i < held.length, held[i].1 = name := by
  obtain ⟨hlt, rfl⟩ := List.getElem?_eq_some_iff.mp hp
  have hi : i < held.length := h.length_eq ▸ hlt
  have hentry := h.entryAt_getElem i hlt hi
  rw [entryAt, Option.map_eq_some_iff] at hentry
  obtain ⟨location, hcell, hheld⟩ := hentry
  have hname : location.name = held[i].1 := congrArg Prod.fst hheld
  apply Iff.intro
  · rintro ⟨other, hother, rfl⟩
    obtain rfl := Option.some.inj (hcell.symm.trans hother)
    exact ⟨hi, hname.symm⟩
  · rintro ⟨-, rfl⟩
    exact ⟨location, hcell, hname⟩

/-- The map gives a name the pointer at its first position. -/
theorem getLocation_of_firstAt (h : Holds db held) {name : Str} {i : Fin held.length}
    (hi : RoutePlanner.FirstAt held name i) : db.getLocation name = db.locationList[i.val]? := by
  have hlt : i.val < db.locationList.length := h.length_eq.symm ▸ i.isLt
  rw [h.getLocation_eq, List.getElem?_eq_getElem hlt, Option.map_eq_some_iff]
  refine ⟨(name, db.locationList[i.val]), List.find?_eq_some_iff_getElem.mpr ⟨by simp, i.val, ?_⟩,
    rfl⟩
  refine ⟨by simp [hlt], ?_, fun j hj => ?_⟩
  · rw [List.getElem_zip, List.getElem_map]
    exact congrArg (·, _) hi.name_eq
  · rw [List.getElem_zip, List.getElem_map]
    have hne : held[j].1 ≠ name := fun heq =>
      absurd (hi.le ⟨j, hj.trans i.isLt⟩ heq) (Nat.not_le_of_lt hj)
    simpa using hne

end Holds

/-- Along every history of files that parse, a name has a location in the map exactly
when one in the list has that name, and it is the first of these.  The position the
search works with is that one, and it is inside the list. -/
theorem getLocation_first (calls : List Call)
    (hfiles : ∀ file, Call.load file ∈ calls → Parses file) :
    ∃ db, run calls = .ok db ∧ ∀ name,
      ((∃ p, db.getLocation name = some p) ↔ ∃ p ∈ db.getLocations, db.Named p name) ∧
        ∀ p, db.getLocation name = some p →
          ∃ i, RoutePlanner.getLocationIndex db.heap name db.getLocations = .ok i ∧
            i < db.getLocations.length ∧ db.getLocations[i]? = some p ∧ db.Named p name ∧
            ∀ j < i, ∀ q, db.getLocations[j]? = some q → ¬ db.Named q name := by
  obtain ⟨db, hrun, hdb⟩ := run_refines calls (by
    rintro pre call post db heq - - file rfl
    exact Or.inl (hfiles file (by simp [heq])))
  refine ⟨db, hrun, fun name => ⟨?_, fun p hp => ?_⟩⟩
  · rw [← Option.isSome_iff_exists, hdb.getLocation_isSome]
    apply Iff.intro
    · intro hname
      obtain ⟨i, hi⟩ := RoutePlanner.exists_firstAt hname
      have hat := List.getElem?_eq_getElem (hdb.length_eq.symm ▸ i.isLt :
        i.val < db.locationList.length)
      exact ⟨_, List.mem_of_getElem? hat, (hdb.named_getElem?_iff hat name).mpr
        ⟨i.isLt, hi.name_eq⟩⟩
    · rintro ⟨p, hp, hnamed⟩
      obtain ⟨i, hat⟩ := List.mem_iff_getElem?.mp hp
      obtain ⟨hi, rfl⟩ := (hdb.named_getElem?_iff hat name).mp hnamed
      exact List.mem_map_of_mem (List.getElem_mem hi)
  · have hname := (hdb.getLocation_isSome name).mp (by rw [hp]; rfl)
    obtain ⟨i, hi⟩ := RoutePlanner.exists_firstAt hname
    have hat : db.locationList[i.val]? = some p := by rw [← hdb.getLocation_of_firstAt hi, hp]
    refine ⟨i, RoutePlanner.getLocationIndex_of_first hdb.objects hi, ?_, hat,
      (hdb.named_getElem?_iff hat name).mpr ⟨i.isLt, hi.name_eq⟩, fun j hj q hq hnamed => ?_⟩
    · exact (List.getElem?_eq_some_iff.mp hat).1
    · obtain ⟨hlt, heq⟩ := (hdb.named_getElem?_iff hq name).mp hnamed
      exact absurd (hi.le ⟨j, hlt⟩ heq) (Nat.not_le_of_lt hj)

theorem getLocation_first_repeated_name :
    ∃ db, run [.load (some (str "London, 5\nLondon, 6")), .load none] = .ok db ∧ ∀ name,
      ((∃ p, db.getLocation name = some p) ↔ ∃ p ∈ db.getLocations, db.Named p name) ∧
        ∀ p, db.getLocation name = some p →
          ∃ i, RoutePlanner.getLocationIndex db.heap name db.getLocations = .ok i ∧
            i < db.getLocations.length ∧ db.getLocations[i]? = some p ∧ db.Named p name ∧
            ∀ j < i, ∀ q, db.getLocations[j]? = some q → ¬ db.Named q name :=
  getLocation_first _ (by
    simp only [List.mem_cons, List.not_mem_nil, or_false, Call.load.injEq]
    rintro file (rfl | rfl)
    · exact ⟨[(str "London", 5), (str "London", 6)], by decide⟩
    · exact ⟨[], by decide⟩)

/-! ## The destinations -/

/-- The database holds the entries, and every destination of a listed location is
what the map has under its name. -/
structure Linked (db : FileLocationDatabase) (held : List Entry) : Prop where
  holds : Holds db held
  targets : ∀ p ∈ db.locationList, ∀ location, db.heap.cell p = some location →
    ∀ name destination, location.destinations.find name = some destination →
      db.getLocation name = some destination

theorem Linked.create : Linked FileLocationDatabase.create [] :=
  ⟨Holds.create, fun _ hp => absurd hp List.not_mem_nil⟩

/-- A load keeps the locations with their destinations and the map, or it replaces
them by locations without any. -/
theorem Linked.load {db : FileLocationDatabase} {held entries : List Entry} (hdb : Linked db held)
    {file : File} (hfile : fileEntries file = .ok entries) :
    ∃ updated db', db.load file = .ok (updated, db') ∧ ∃ held', Linked db' held' := by
  obtain ⟨db', hload, hholds, hkept, hnew⟩ := RoutePlanner.load_destinations hdb.holds hfile
  refine ⟨_, db', hload, _, hholds, fun p hp location hcell name destination hfind => ?_⟩
  cases hupdated : (refresh held entries).1 with
  | true =>
      refine absurd ?_ (hnew hupdated p hp name)
      exact ⟨location, hcell, UnorderedMap.find_isSome.mp (by rw [hfind]; rfl)⟩
  | false =>
      obtain ⟨hlist, hcells⟩ := hkept hupdated
      rw [hlist] at hp
      rw [hcells p hp] at hcell
      have htarget := hdb.targets p hp location hcell name destination hfind
      rw [getLocation, hholds.map, hlist, Plan.held_of_not_updated hupdated, ← hdb.holds.map]
      exact htarget

/-- A destination is added under the name by which it was looked up. -/
theorem Linked.addDestination {db : FileLocationDatabase} {held : List Entry}
    (hdb : Linked db held) {start : Ptr} (hstart : start ∈ db.locationList) {route : Str}
    {endLocation : Ptr} (hroute : db.getLocation route = some endLocation) :
    ∃ heap, db.addDestination start endLocation = .ok { db with heap } ∧
      Linked { db with heap } held := by
  obtain ⟨object, target, heap, hobject, htarget, hadd, hcell, -, hheap⟩ :=
    addDestination_of_holds hdb.holds hstart (hdb.holds.mem_of_getLocation hroute)
  refine ⟨heap, hadd, hheap, fun p hp location hlocation name destination hfind => ?_⟩
  have hnamed := hdb.holds.name_of_getLocation hroute htarget
  by_cases hp' : p = start
  · subst hp'
    rw [hcell, Function.update_self, Option.some.injEq] at hlocation
    subst hlocation
    rw [Location.addDestination, UnorderedMap.find_insertNew, Option.or_eq_some_iff] at hfind
    rcases hfind with hold | ⟨-, hadded⟩
    · exact hdb.targets p hp object hobject name destination hold
    · split at hadded
      · rename_i hname
        obtain rfl := Option.some.inj hadded
        rw [hname, hnamed]
        exact hroute
      · cases hadded
  · rw [hcell, Function.update_of_ne hp'] at hlocation
    exact hdb.targets p hp location hlocation name destination hfind

end FileLocationDatabase

namespace RoutePlanner

open FileLocationDatabase (Linked)

/-- The inner loop of `SetupRoutes` adds destinations that the map knows. -/
theorem addRoutes_linked {db : FileLocationDatabase} {held : List Entry} (hdb : Linked db held)
    {start : Ptr} (hstart : start ∈ db.locationList) (routes : List Str) :
    ∃ heap, addRoutes start db routes = .ok { db with heap } ∧ Linked { db with heap } held := by
  induction routes generalizing db with
  | nil => exact ⟨db.heap, rfl, hdb⟩
  | cons route routes ih =>
      cases hroute : db.getLocation route with
      | none =>
          obtain ⟨heap, hrest, hheap⟩ := ih hdb hstart
          refine ⟨heap, ?_, hheap⟩
          simp only [addRoutes, List.foldlM_cons, hroute, Fault.ok_bind]
          exact hrest
      | some endLocation =>
          obtain ⟨heap₁, hadd, hheap₁⟩ := hdb.addDestination hstart hroute
          obtain ⟨heap, hrest, hheap⟩ := ih hheap₁ hstart
          refine ⟨heap, ?_, hheap⟩
          simp only [addRoutes, List.foldlM_cons, hroute, hadd, Fault.ok_bind]
          exact hrest

/-- And so does the outer loop, at every location that it visits. -/
theorem configureRoutes_linked (routeDb : FileRouteDatabase) {db : FileLocationDatabase}
    {held : List Entry} (hdb : Linked db held) {ps : List Ptr}
    (hps : ∀ p ∈ ps, p ∈ db.locationList) :
    ∃ heap, ps.foldlM (configureRoutes routeDb) db = .ok { db with heap } ∧
      Linked { db with heap } held := by
  induction ps generalizing db with
  | nil => exact ⟨db.heap, rfl, hdb⟩
  | cons p ps ih =>
      obtain ⟨hp, hrest⟩ := List.forall_mem_cons.mp hps
      obtain ⟨object, hobject, -⟩ := hdb.holds.exists_object hp
      obtain ⟨heap₁, hadd, hheap₁⟩ := addRoutes_linked hdb hp (routeDb.getRoutes object.name)
      obtain ⟨heap, hfold, hheap⟩ := ih hheap₁ hrest
      refine ⟨heap, ?_, hheap⟩
      rw [List.foldlM_cons, configureRoutes, Heap.deref_eq_ok.mpr hobject, Fault.ok_bind, hadd,
        Fault.ok_bind]
      exact hfold

/-- One call of `SetupRoutes` on a locations file that parses. -/
theorem exec_linked {planner : RoutePlanner} (hplanner : ∃ held, Linked planner.locationDb held)
    (edit : Edit) (hedit : FileLocationDatabase.Parses edit.locationFile) :
    ∃ planner', planner.exec edit = .ok planner' ∧ ∃ held, Linked planner'.locationDb held := by
  obtain ⟨held, hdb⟩ := hplanner
  obtain ⟨entries, hfile⟩ := hedit
  obtain ⟨locationsUpdated, locationDb, hload, held', hlinked⟩ := hdb.load hfile
  obtain ⟨routesUpdated, routeDb, hloadRoutes⟩ :
      ∃ updated routeDb, planner.routeDb.load edit.routeFile = .ok (updated, routeDb) := by
    rcases planner.routeDb.load_cases edit.routeFile with ⟨-, hkept⟩ | ⟨-, routeDb, hnew, -⟩
    · exact ⟨_, _, hkept⟩
    · exact ⟨_, routeDb, hnew⟩
  simp only [exec, setupRoutes, hload, hloadRoutes, Fault.ok_bind]
  split
  · obtain ⟨heap, hloop, hheap⟩ := @configureRoutes_linked routeDb _ _ hlinked
      locationDb.locationList fun _ hp => hp
    refine ⟨⟨{ locationDb with heap }, routeDb⟩, ?_, held', hheap⟩
    simp only [FileLocationDatabase.getLocations, hloop, Fault.ok_bind, Fault.pure_eq_ok]
  · exact ⟨⟨locationDb, routeDb⟩, rfl, held', hlinked⟩

/-- Every destination of a listed location is a live location of that name, the one
that `GetLocation` returns for it. -/
def Resolves (planner : RoutePlanner) : Prop :=
  ∀ p ∈ planner.locationDb.getLocations, ∃ location,
    planner.locationDb.heap.cell p = some location ∧
      ∀ name destination, location.destinations.find name = some destination →
        planner.locationDb.getLocation name = some destination ∧
          planner.locationDb.Named destination name

theorem resolves_of_linked {planner : RoutePlanner} {held : List Entry}
    (h : Linked planner.locationDb held) : planner.Resolves := by
  intro p hp
  obtain ⟨location, hcell, -⟩ := h.holds.exists_object hp
  refine ⟨location, hcell, fun name destination hfind => ?_⟩
  have htarget := h.targets p hp location hcell name destination hfind
  obtain ⟨target, hlive, -⟩ := h.holds.exists_object (h.holds.mem_of_getLocation htarget)
  exact ⟨htarget, target, hlive, h.holds.name_of_getLocation htarget hlive⟩

/-- After every call of any history whose locations files parse, whatever the routes
files are, no destination refers to a deleted location or to one of another name. -/
theorem destinations_resolve (edits : List Edit)
    (hfiles : ∀ edit ∈ edits, FileLocationDatabase.Parses edit.locationFile) :
    ∀ pre post, edits = pre ++ post → ∃ planner, run pre = .ok planner ∧ planner.Resolves := by
  rintro pre post rfl
  obtain ⟨planner, hrun, held, hlinked⟩ := Machine.run_invariant
    (fun planner edit hplanner => @exec_linked planner hplanner edit)
    (⟨[], Linked.create⟩ : ∃ held, Linked create.locationDb held) pre
    fun earlier edit rest _ heq _ _ => hfiles edit (by simp [heq])
  exact ⟨planner, hrun, resolves_of_linked hlinked⟩

/-- A reload between two cities that have a route to each other. -/
theorem destinations_resolve_reload :
    ∃ planner, run [⟨some (str "London, 5\nBath, 6"), some (str "London, Bath")⟩,
        ⟨some (str "Bath, 6\nLondon, 5\nLeeds, 7"), some (str "\n")⟩] = .ok planner ∧
      planner.Resolves :=
  destinations_resolve _ (by
    simp only [List.mem_cons, List.not_mem_nil, or_false]
    rintro edit (rfl | rfl)
    · exact ⟨[(str "London", 5), (str "Bath", 6)], by decide⟩
    · exact ⟨[(str "Bath", 6), (str "London", 5), (str "Leeds", 7)], by decide⟩) _ []
    (List.append_nil _).symm

end RoutePlanner

end RoutePlanner.Route
