/-
# Histories of the route planner

Between two calls of `SetupRoutes` both files may change in any way.  The
abstract plan remembers the entries held, the routes file taken over last, and
the graph of names that the calls so far have built.  The planner follows the
plan on all files whose lines parse; whether the graph is the one the current
contents give is then a question about plans.
-/

import RoutePlanner.Route.LocationHistory
import RoutePlanner.Route.RoutePlanner

set_option linter.dupNamespace false

namespace RoutePlanner.Route

open RoutePlanner.Std
open FileLocationDatabase (Parses HasDestination)
open FileRouteDatabase (refreshRoutes)

/-- The contents of both files at the time of a call. -/
structure Edit where
  locationFile : File
  routeFile : File

/-- What a planner holds, without the objects. -/
structure Plan where
  held : List Entry
  routesFrom : File
  edges : Str → Str → Prop

namespace Plan

def empty : Plan := ⟨[], none, fun _ _ => False⟩

/-- The edges that the contents alone determine: routes to a name that is held. -/
def FreshEdge (plan : Plan) (start destination : Str) : Prop :=
  destination ∈ fileRoutes plan.routesFrom start ∧ destination ∈ plan.held.map Prod.fst

/-- One call of `SetupRoutes` on a locations file with the given entries. -/
def refresh (plan : Plan) (entries : List Entry) (routeFile : File) : Plan :=
  let locations := Route.refresh plan.held entries
  let routes := refreshRoutes plan.routesFrom routeFile
  { held := locations.2
    routesFrom := routes.2
    edges := fun start destination =>
      (locations.1 = false ∧ plan.edges start destination) ∨
        ((locations.1 || routes.1) = true ∧
          destination ∈ fileRoutes routes.2 start ∧ destination ∈ locations.2.map Prod.fst) }

/-- The plan after a call. -/
def next (plan : Plan) (edit : Edit) : Plan :=
  match fileEntries edit.locationFile with
  | .ok entries => plan.refresh entries edit.routeFile
  | .error _ => plan

/-- Every held location has the edges that the contents give it. -/
def Current (plan : Plan) : Prop :=
  ∀ start ∈ plan.held.map Prod.fst, ∀ destination,
    plan.edges start destination ↔ plan.FreshEdge start destination

/-- The call takes over a routes file, keeps the locations, and drops a route
that was an edge. -/
def DropsRoute (plan : Plan) (entries : List Entry) (routeFile : File) : Prop :=
  (Route.refresh plan.held entries).1 = false ∧
    (refreshRoutes plan.routesFrom routeFile).1 = true ∧
    ∃ start ∈ plan.held.map Prod.fst, ∃ destination,
      plan.FreshEdge start destination ∧ destination ∉ fileRoutes routeFile start

theorem current_empty : empty.Current :=
  fun _ hstart => absurd hstart List.not_mem_nil

theorem held_of_not_updated {held entries : List Entry}
    (h : (Route.refresh held entries).1 = false) : (Route.refresh held entries).2 = held := by
  unfold Route.refresh at h ⊢
  split at h
  · rw [if_pos ‹_›]
  · cases h

theorem routesFrom_of_not_updated {held file : File} (h : (refreshRoutes held file).1 = false) :
    (refreshRoutes held file).2 = held := by
  unfold refreshRoutes at h ⊢
  split at h
  · rw [if_pos ‹_›]
  · cases h

theorem routesFrom_of_updated {held file : File} (h : (refreshRoutes held file).1 = true) :
    (refreshRoutes held file).2 = file := by
  unfold refreshRoutes at h ⊢
  split at h
  · cases h
  · rw [if_neg ‹_›]

/-- From a current plan a call leads to a current plan unless it drops a route:
edges are only added, except where the locations are built anew. -/
theorem current_refresh_iff {plan : Plan} (hplan : plan.Current) (entries : List Entry)
    (routeFile : File) :
    (plan.refresh entries routeFile).Current ↔ ¬ plan.DropsRoute entries routeFile := by
  cases hlocations : (Route.refresh plan.held entries).1 with
  | true =>
      refine iff_of_true (fun start _ destination => ?_) fun hdrop => ?_
      · simp only [Plan.refresh, FreshEdge, hlocations, Bool.true_or, Bool.true_eq_false, false_and,
          false_or, true_and]
      · rw [DropsRoute, hlocations] at hdrop
        exact Bool.noConfusion hdrop.1
  | false =>
      have hheld := held_of_not_updated hlocations
      cases hroutes : (refreshRoutes plan.routesFrom routeFile).1 with
      | false =>
          refine iff_of_true (fun start hstart destination => ?_) fun hdrop => ?_
          · simp only [Plan.refresh, hheld] at hstart
            simpa only [Plan.refresh, FreshEdge, hlocations, hroutes, hheld,
              routesFrom_of_not_updated hroutes, Bool.or_self, Bool.false_eq_true, false_and,
              or_false, true_and] using hplan start hstart destination
          · rw [DropsRoute, hroutes] at hdrop
            exact Bool.noConfusion hdrop.2.1
      | true =>
          have hfrom := routesFrom_of_updated hroutes
          apply Iff.intro
          · rintro hcurrent ⟨-, -, start, hstart, destination, hedge, hdropped⟩
            have hafter : (plan.refresh entries routeFile).FreshEdge start destination := by
              refine (hcurrent start ?_ destination).mp (Or.inl ⟨hlocations, ?_⟩)
              · simpa only [Plan.refresh, hheld] using hstart
              · exact (hplan start hstart destination).mpr hedge
            refine hdropped ?_
            simpa only [Plan.refresh, hfrom] using hafter.1
          · intro hkeeps start hstart destination
            simp only [Plan.refresh, hheld] at hstart
            have hold : plan.edges start destination →
                destination ∈ fileRoutes routeFile start ∧
                  destination ∈ plan.held.map Prod.fst := by
              intro hedge
              have hfresh := (hplan start hstart destination).mp hedge
              refine ⟨?_, hfresh.2⟩
              by_contra hdropped
              exact hkeeps ⟨hlocations, hroutes, start, hstart, destination, hfresh, hdropped⟩
            simp only [Plan.refresh, FreshEdge, hlocations, hroutes, hheld, hfrom, Bool.or_true,
              true_and]
            exact ⟨fun h => h.elim hold id, Or.inr⟩

end Plan

namespace RoutePlanner

open FileLocationDatabase (Holds)

/-- The planner holds what the plan says: both databases do, and every listed
object has the plan's edges as destinations. -/
structure Follows (planner : RoutePlanner) (plan : Plan) : Prop where
  locations : planner.locationDb.Holds plan.held
  routes : planner.routeDb.Holds plan.routesFrom
  edges : ∀ p ∈ planner.locationDb.getLocations, ∀ start,
    planner.locationDb.entryAt p = some start → ∀ destination,
      planner.locationDb.HasDestination p destination ↔ plan.edges start.1 destination

theorem Follows.create : Follows RoutePlanner.create Plan.empty :=
  ⟨Holds.create, FileRouteDatabase.Holds.create, fun _ hp => absurd hp List.not_mem_nil⟩

/-- What the load of the locations file leaves of the destinations: all of them
when the objects are kept, none when they are new. -/
theorem load_destinations {db : FileLocationDatabase} {held entries : List Entry}
    (hdb : Holds db held) {file : File} (hfile : fileEntries file = .ok entries) :
    ∃ db', db.load file = .ok ((refresh held entries).1, db') ∧
      Holds db' (refresh held entries).2 ∧
      ((refresh held entries).1 = false → db'.locationList = db.locationList ∧
        ∀ p ∈ db.locationList, db'.heap.cell p = db.heap.cell p) ∧
      ((refresh held entries).1 = true → ∀ p ∈ db'.locationList, ∀ destination,
        ¬ db'.HasDestination p destination) := by
  obtain ⟨db', hload, hdb'⟩ := FileLocationDatabase.load_refines hdb hfile
  refine ⟨db', hload, hdb', ?_, ?_⟩
  · intro hkept
    have hskip : entries.length = 0 ∨ entries.length = db.locationMap.size := by
      rw [hdb.size_map]
      by_contra hreplace
      rw [refresh, if_neg hreplace] at hkept
      exact Bool.noConfusion hkept
    rw [FileLocationDatabase.load_of_skip hfile hskip] at hload
    obtain ⟨-, rfl⟩ := Prod.mk.inj (Except.ok.inj hload)
    exact ⟨rfl, fun p hp => Heap.cell_allocAll_of_live (hdb.live hp) _⟩
  · intro hreplaced
    have hreplace : ¬ (entries.length = 0 ∨ entries.length = db.locationMap.size) := by
      rw [hdb.size_map]
      intro hskip
      rw [refresh, if_pos hskip] at hreplaced
      exact Bool.noConfusion hreplaced
    obtain ⟨db₁, hload₁, -, hcells⟩ := FileLocationDatabase.load_of_replace hdb.nodup
      (fun p => hdb.live) hfile hreplace
    rw [hload] at hload₁
    obtain ⟨-, rfl⟩ := Prod.mk.inj (Except.ok.inj hload₁)
    intro p hp destination
    have hcell := hcells ▸ List.mem_map_of_mem (f := db'.heap.cell) hp
    obtain ⟨object, hobject, hp⟩ := List.mem_map.mp hcell
    obtain ⟨entry, -, rfl⟩ := List.mem_map.mp hobject
    rw [FileLocationDatabase.hasDestination_of_cell hp.symm]
    exact fun hmem => absurd (AList.mem_keys.mp hmem) List.not_mem_nil

/-- One call of `SetupRoutes` on a locations file that parses. -/
theorem setupRoutes_refines {planner : RoutePlanner} {plan : Plan} (hplan : Follows planner plan)
    {locationFile : File} {entries : List Entry} (hfile : fileEntries locationFile = .ok entries)
    (routeFile : File) :
    ∃ planner', planner.setupRoutes locationFile routeFile =
        .ok (planner'.locationDb.getLocations, planner') ∧
      Follows planner' (plan.refresh entries routeFile) := by
  obtain ⟨locationDb, hload, hlocations, hkept, hnew⟩ :=
    load_destinations hplan.locations hfile
  obtain ⟨routeDb, hloadRoutes, hroutes⟩ := FileRouteDatabase.load_refines hplan.routes routeFile
  -- the edges between the load and the loops
  have hbase : ∀ p ∈ locationDb.locationList, ∀ start, locationDb.entryAt p = some start →
      ∀ destination, locationDb.HasDestination p destination ↔
        (refresh plan.held entries).1 = false ∧ plan.edges start.1 destination := by
    intro p hp start hstart destination
    cases hupdated : (refresh plan.held entries).1 with
    | true => simpa using hnew hupdated p hp destination
    | false =>
        obtain ⟨hlist, hcells⟩ := hkept hupdated
        rw [hlist] at hp
        rw [FileLocationDatabase.entryAt, hcells p hp] at hstart
        have hedges := hplan.edges p hp start hstart destination
        rw [HasDestination] at hedges ⊢
        rw [hcells p hp, hedges]
        simp
  simp only [setupRoutes, hload, hloadRoutes, Fault.ok_bind]
  cases hupdated : (refresh plan.held entries).1 || (refreshRoutes plan.routesFrom routeFile).1 with
  | false =>
      refine ⟨⟨locationDb, routeDb⟩, by simp, hlocations, hroutes, ?_⟩
      intro p hp start hstart destination
      rw [hbase p hp start hstart]
      simp only [Plan.refresh, hupdated, Bool.false_eq_true, false_and, or_false]
  | true =>
      obtain ⟨heap, hloop, hheap, hdest⟩ :=
        @configureRoutes_spec routeDb _ _ hlocations locationDb.locationList fun _ hp => hp
      refine ⟨⟨{ locationDb with heap }, routeDb⟩, ?_, hheap, hroutes, ?_⟩
      · simp only [if_true, FileLocationDatabase.getLocations, hloop, Fault.ok_bind,
          Fault.pure_eq_ok]
      · intro p hp start hstart destination
        have hstart' : locationDb.entryAt p = some start := by
          rw [← hlocations.entryAt_eq hheap hp]
          exact hstart
        rw [hdest, hbase p hp start hstart']
        simp only [Plan.refresh, hupdated, true_and]
        refine or_congr_right ⟨?_, ?_⟩
        · rintro ⟨-, start', hstart₁, hroute, hheld⟩
          obtain rfl := Option.some.inj (hstart'.symm.trans hstart₁)
          exact ⟨hroutes.routes _ ▸ hroute, hheld⟩
        · rintro ⟨hroute, hheld⟩
          exact ⟨hp, start, hstart', (hroutes.routes _).symm ▸ hroute, hheld⟩

/-! ## Along a history -/

/-- A call as a step. -/
def exec (planner : RoutePlanner) (edit : Edit) : Except Fault RoutePlanner := do
  let (_, planner) ← planner.setupRoutes edit.locationFile edit.routeFile
  return planner

/-- The planner after a history of calls that starts with its construction. -/
def run (edits : List Edit) : Except Fault RoutePlanner := Machine.run exec create edits

theorem exec_refines {planner : RoutePlanner} {plan : Plan} (hplan : Follows planner plan)
    (edit : Edit) (hedit : Parses edit.locationFile) :
    ∃ planner', planner.exec edit = .ok planner' ∧ Follows planner' (plan.next edit) := by
  obtain ⟨entries, hfile⟩ := hedit
  obtain ⟨planner', hsetup, hplan'⟩ := setupRoutes_refines hplan hfile edit.routeFile
  refine ⟨planner', by rw [exec, hsetup]; rfl, ?_⟩
  simpa only [Plan.next, hfile] using hplan'

/-- The planner follows the plan along every history of files that parse. -/
theorem run_refines (edits : List Edit) (hfiles : ∀ edit ∈ edits, Parses edit.locationFile) :
    ∃ planner, run edits = .ok planner ∧ Follows planner (edits.foldl Plan.next Plan.empty) :=
  @Machine.run_simulation _ _ _ exec Follows (fun _ edit => Parses edit.locationFile) Plan.next
    (fun _ _ edit hplan => exec_refines hplan edit) _ _ Follows.create edits
    fun _ edit _ _ heq _ _ => hfiles edit (by simp [heq])

/-- The destinations of every listed location are the names that the current
routes give it and that the current map knows. -/
def GraphCurrent (planner : RoutePlanner) : Prop :=
  ∀ p ∈ planner.locationDb.getLocations, ∃ location,
    planner.locationDb.heap.cell p = some location ∧
      ∀ name, name ∈ location.destinations ↔
        name ∈ planner.routeDb.getRoutes location.name ∧
          planner.locationDb.getLocation name ≠ none

theorem Follows.graphCurrent_iff {planner : RoutePlanner} {plan : Plan}
    (h : Follows planner plan) : planner.GraphCurrent ↔ plan.Current := by
  have hknown : ∀ name, planner.locationDb.getLocation name ≠ none ↔
      name ∈ plan.held.map Prod.fst := by
    intro name
    rw [← h.locations.getLocation_isSome, Option.isSome_iff_ne_none]
  apply Iff.intro
  · intro hgraph start hstart destination
    obtain ⟨entry, hentry, rfl⟩ := List.mem_map.mp hstart
    obtain ⟨p, hp, hat⟩ := List.mem_map.mp (h.locations.objects ▸ List.mem_map_of_mem hentry :
      some entry ∈ planner.locationDb.locationList.map planner.locationDb.entryAt)
    obtain ⟨location, hcell, hnames⟩ := hgraph p hp
    obtain rfl : (location.name, location.cost) = entry := by
      rw [FileLocationDatabase.entryAt, hcell] at hat
      exact Option.some.inj hat
    rw [← h.edges p hp _ hat, FileLocationDatabase.hasDestination_of_cell hcell, hnames, hknown,
      h.routes.routes, Plan.FreshEdge]
  · intro hcurrent p hp
    obtain ⟨location, hcell, hmem⟩ := h.locations.exists_object hp
    have hat : planner.locationDb.entryAt p = some (location.name, location.cost) := by
      rw [FileLocationDatabase.entryAt, hcell, Option.map_some]
    refine ⟨location, hcell, fun name => ?_⟩
    rw [← FileLocationDatabase.hasDestination_of_cell hcell, h.edges p hp _ hat,
      hcurrent _ (List.mem_map_of_mem hmem), hknown, h.routes.routes, Plan.FreshEdge]

/-- No call of the history takes over a routes file that drops a route of a held
location while the locations are kept. -/
def NoRouteDropped (edits : List Edit) : Prop :=
  ∀ pre edit post, edits = pre ++ edit :: post →
    ∀ entries, fileEntries edit.locationFile = .ok entries →
      ¬ (pre.foldl Plan.next Plan.empty).DropsRoute entries edit.routeFile

/-- Along every history, the graph is after each call the one that a fresh build
from the current contents would give, exactly when no call drops a route while
it keeps the locations. -/
theorem graphCurrent_iff_noRouteDropped (edits : List Edit)
    (hfiles : ∀ edit ∈ edits, Parses edit.locationFile) :
    (∀ pre post, edits = pre ++ post → ∃ planner, run pre = .ok planner ∧ GraphCurrent planner) ↔
      NoRouteDropped edits := by
  have hplans : (∀ pre post, edits = pre ++ post →
      ∃ planner, run pre = .ok planner ∧ GraphCurrent planner) ↔
      ∀ pre post, edits = pre ++ post → (pre.foldl Plan.next Plan.empty).Current := by
    refine forall_congr' fun pre => forall_congr' fun post => forall_congr' fun heq => ?_
    obtain ⟨planner, hrun, hplan⟩ := run_refines pre fun edit hedit =>
      hfiles edit (heq ▸ List.mem_append_left post hedit)
    apply Iff.intro
    · rintro ⟨planner₁, hrun₁, hgraph⟩
      obtain rfl := Except.ok.inj (hrun.symm.trans hrun₁)
      exact hplan.graphCurrent_iff.mp hgraph
    · exact fun hcurrent => ⟨planner, hrun, hplan.graphCurrent_iff.mpr hcurrent⟩
  rw [hplans]
  apply Iff.intro
  · rintro hcurrent pre edit post rfl entries hfile
    have hafter := hcurrent (pre ++ [edit]) post (by simp)
    rw [List.foldl_append, List.foldl_cons, List.foldl_nil, Plan.next, hfile] at hafter
    exact (Plan.current_refresh_iff (hcurrent pre _ rfl) entries edit.routeFile).mp hafter
  · intro hkeeps pre
    induction pre using List.reverseRecOn with
    | nil => exact fun _ _ => Plan.current_empty
    | append_singleton pre edit ih =>
        intro post heq
        rw [List.append_assoc, List.singleton_append] at heq
        obtain ⟨entries, hfile⟩ := hfiles edit (by simp [heq])
        rw [List.foldl_append, List.foldl_cons, List.foldl_nil, Plan.next, hfile]
        exact (Plan.current_refresh_iff (ih _ heq) entries edit.routeFile).mpr
          (hkeeps pre edit post heq entries hfile)

/-- Two cities, and then a routes file that no longer has the one route between
them. -/
def droppedRoute : List Edit :=
  [⟨some (str "London, 5\nBath, 6"), some (str "London, Bath")⟩,
    ⟨some (str "London, 5\nBath, 6"), some (str "Bath, London\nLeeds, London")⟩]

theorem graphCurrent_iff_noRouteDropped_first_call :
    (∀ pre post, droppedRoute.take 1 = pre ++ post →
      ∃ planner, run pre = .ok planner ∧ GraphCurrent planner) ↔
      NoRouteDropped (droppedRoute.take 1) :=
  graphCurrent_iff_noRouteDropped _ (by
    simp only [droppedRoute, List.take_succ_cons, List.take_zero, List.mem_singleton]
    rintro edit rfl
    exact ⟨[(str "London", 5), (str "Bath", 6)], by decide⟩)

/-- A route that the routes file no longer has stays a destination. -/
theorem not_graphCurrent_droppedRoute :
    (∀ edit ∈ droppedRoute, Parses edit.locationFile) ∧
      ∃ planner, run droppedRoute = .ok planner ∧ ¬ GraphCurrent planner := by
  have hfiles : ∀ edit ∈ droppedRoute, Parses edit.locationFile := by
    simp only [droppedRoute, List.mem_cons, List.not_mem_nil, or_false]
    rintro edit (rfl | rfl) <;> exact ⟨[(str "London", 5), (str "Bath", 6)], by decide⟩
  refine ⟨hfiles, ?_⟩
  obtain ⟨planner, hrun, hplan⟩ := run_refines droppedRoute hfiles
  refine ⟨planner, hrun, fun hgraph => ?_⟩
  have hreads : (do
      let planner ← run droppedRoute
      let p ← Fault.index planner.locationDb.getLocations 0
      let london ← planner.locationDb.heap.deref p
      return (london.name, (london.destinations.find (str "Bath")).isSome,
        planner.routeDb.getRoutes (str "London"))) = .ok (str "London", true, []) := by decide
  rw [hrun, Fault.ok_bind] at hreads
  obtain ⟨p, hindex, hreads⟩ := Fault.bind_eq_ok.mp hreads
  obtain ⟨london, hderef, hreads⟩ := Fault.bind_eq_ok.mp hreads
  have hp : p ∈ planner.locationDb.getLocations := by
    unfold Fault.index at hindex
    split at hindex
    · obtain rfl := Except.ok.inj hindex
      exact List.mem_of_getElem? ‹_›
    · cases hindex
  obtain ⟨location, hcell, hnames⟩ := hgraph p hp
  obtain rfl := Option.some.inj (hcell.symm.trans (Heap.deref_eq_ok.mp hderef))
  simp only [Fault.pure_eq_ok, Except.ok.injEq, Prod.mk.injEq] at hreads
  obtain ⟨hname, hbath, hroutes⟩ := hreads
  have hroute := ((hnames (str "Bath")).mp (UnorderedMap.find_isSome.mp hbath)).1
  rw [hname, hroutes] at hroute
  exact absurd hroute List.not_mem_nil

end RoutePlanner

end RoutePlanner.Route
