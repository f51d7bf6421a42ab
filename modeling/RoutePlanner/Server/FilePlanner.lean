/-
# The planner over files that do not change

The first request makes the planner take over both files, and every later one
finds it up to date, or makes it take over the same again.  So over a locations file
that parses, whatever the routes file, the names listed stay the same, and up to
`2 ^ 31` of them every route has a cost.  Over a well-formed one the roads are those
of the two files.
-/

import RoutePlanner.Route.LocationsFile
import RoutePlanner.Route.RouteHistory
import RoutePlanner.Route.SearchLabels
import RoutePlanner.Server.ServerMsgHandler

set_option linter.dupNamespace false

namespace RoutePlanner.Route

open RoutePlanner.Std
open RoutePlanner.Math (IsMinCost)
open FileRouteDatabase (refreshRoutes)

/-- What a planner holds after a call on these contents. -/
def Plan.ofFiles (entries : List Entry) (routeFile : File) : Plan :=
  Plan.empty.refresh entries routeFile

namespace Plan

variable {entries : List Entry} {routeFile : File}

/-- Whatever is held of the file's entries already, a call holds all of them. -/
theorem held_refresh {plan : Plan} (h : plan.held = [] ∨ plan.held = entries) :
    (plan.refresh entries routeFile).held = entries := by
  show (Route.refresh plan.held entries).2 = entries
  rw [Route.refresh]
  split
  · rename_i hskip
    rcases h with hnil | heq
    · rw [hnil] at hskip ⊢
      exact (List.length_eq_zero_iff.mp (hskip.elim id id)).symm
    · exact heq
  · rfl

theorem held_ofFiles : (ofFiles entries routeFile).held = entries := held_refresh (Or.inl rfl)

/-- A routes file without a line gives nobody a route. -/
theorem fileRoutes_of_textLines {file : File} (h : textLines file = []) (source : Str) :
    fileRoutes file source = [] := by
  rw [fileRoutes, h, List.flatMap_nil]

theorem fileRoutes_ofFiles (source : Str) :
    fileRoutes (ofFiles entries routeFile).routesFrom source = fileRoutes routeFile source := by
  rw [ofFiles, Plan.refresh]
  show fileRoutes (refreshRoutes none routeFile).2 source = _
  rw [refreshRoutes]
  split
  · rename_i hskip
    have hlines : textLines routeFile = [] :=
      hskip.elim id fun hcount => FileRouteDatabase.length_dedup_fileSources_eq_zero.mp hcount
    rw [fileRoutes_of_textLines hlines, fileRoutes_of_textLines rfl]
  · rfl

theorem edges_ofFiles (start destination : Str) :
    (ofFiles entries routeFile).edges start destination ↔
      destination ∈ fileRoutes routeFile start ∧ destination ∈ entries.map Prod.fst := by
  have hheld := @held_ofFiles entries routeFile
  have hroutes := @fileRoutes_ofFiles entries routeFile start
  rw [ofFiles, Plan.refresh] at hheld hroutes ⊢
  dsimp only at hheld hroutes ⊢
  rw [hheld, hroutes]
  apply Iff.intro
  · rintro (⟨-, hfalse⟩ | ⟨-, hedge⟩)
    · exact absurd hfalse id
    · exact hedge
  · intro hedge
    refine Or.inr ⟨?_, hedge⟩
    have hne : ¬ (entries.length = 0 ∨ entries.length = 0) := by
      rw [or_self, List.length_eq_zero_iff]
      rintro rfl
      exact absurd hedge.2 List.not_mem_nil
    have hupdated : (Route.refresh Plan.empty.held entries).1 = true := by
      show (Route.refresh [] entries).1 = true
      rw [Route.refresh]
      exact congrArg Prod.fst (if_neg hne)
    rw [hupdated, Bool.true_or]

/-- The routes file that was taken over, or the lack of one, is confirmed. -/
theorem refreshRoutes_ofFiles :
    refreshRoutes (ofFiles entries routeFile).routesFrom routeFile =
      (false, (ofFiles entries routeFile).routesFrom) := by
  have hfrom : (ofFiles entries routeFile).routesFrom = (refreshRoutes none routeFile).2 := rfl
  rw [refreshRoutes, if_pos]
  rw [hfrom, refreshRoutes]
  split
  · rename_i hskip
    exact Or.inl (hskip.elim id fun hcount =>
      FileRouteDatabase.length_dedup_fileSources_eq_zero.mp hcount)
  · exact Or.inr rfl

/-- Another call on the same files changes nothing.  Where names repeat it builds the
locations anew, and then the same edges again. -/
theorem refresh_ofFiles :
    (ofFiles entries routeFile).refresh entries routeFile = ofFiles entries routeFile := by
  have hheld := @held_ofFiles entries routeFile
  have hedges := @edges_ofFiles entries routeFile
  have hroutes := @refreshRoutes_ofFiles entries routeFile
  have hfrom := @fileRoutes_ofFiles entries routeFile
  have hkept := @held_refresh entries routeFile (ofFiles entries routeFile) (Or.inr hheld)
  generalize ofFiles entries routeFile = plan at *
  obtain ⟨held, routesFrom, edges⟩ := plan
  obtain rfl : held = entries := hheld
  rw [Plan.refresh] at hkept ⊢
  dsimp only at hkept hroutes hfrom ⊢
  rw [hkept, hroutes]
  refine congrArg _ (funext fun start => funext fun destination => propext ?_)
  rw [hfrom, ← hedges]
  cases (Route.refresh held held).1 <;> simp

end Plan

namespace RoutePlanner

/-- `GetLocationNames` gives the names that the plan holds afterwards. -/
theorem getLocationNames_refines {planner : RoutePlanner} {plan : Plan}
    (hplan : Follows planner plan) {locationFile : File} {entries : List Entry}
    (hfile : fileEntries locationFile = .ok entries) (routeFile : File) :
    ∃ planner', planner.getLocationNames locationFile routeFile =
        .ok ((plan.refresh entries routeFile).held.map Prod.fst, planner') ∧
      Follows planner' (plan.refresh entries routeFile) := by
  obtain ⟨planner', hsetup, hplan'⟩ := setupRoutes_refines hplan hfile routeFile
  refine ⟨planner', ?_, hplan'⟩
  have hread := hplan'.locations.mapM_deref Location.name Prod.fst fun _ => rfl
  rw [getLocationNames, hsetup, Fault.ok_bind]
  dsimp only
  rw [FileLocationDatabase.getLocations, hread]
  rfl

/-- After its first call on a file that parses a planner holds its entries. -/
theorem run_singleton {locationFile : File} {entries : List Entry}
    (hfile : fileEntries locationFile = .ok entries) (routeFile : File) :
    ∃ planner, run [⟨locationFile, routeFile⟩] = .ok planner ∧
      Follows planner (Plan.ofFiles entries routeFile) ∧ planner.locationDb.Holds entries := by
  obtain ⟨planner, hsetup, hplan⟩ := setupRoutes_refines Follows.create hfile routeFile
  have hlocations := hplan.locations
  rw [← Plan.ofFiles, Plan.held_ofFiles] at hlocations
  refine ⟨planner, ?_, hplan, hlocations⟩
  simp only [run, Machine.run_cons, Machine.run_nil, exec, hsetup, Fault.ok_bind,
    Fault.pure_eq_ok]

/-- Without a routes file no location has a destination. -/
theorem not_adj_of_no_routes {planner : RoutePlanner} {entries : List Entry}
    (hplan : Follows planner (Plan.ofFiles entries none))
    (hdb : planner.locationDb.Holds entries) (i j : Fin entries.length) :
    ¬ (listed hdb).Adj i j := by
  intro hadj
  obtain ⟨p, hp, hcell⟩ := (listed hdb).cell i
  have hat : planner.locationDb.entryAt p =
      some (((listed hdb).object i).name, ((listed hdb).object i).cost) := by
    rw [FileLocationDatabase.entryAt, hcell, Option.map_some]
  have hedge := hplan.edges p (List.mem_of_getElem? hp) _ hat ((listed hdb).object j).name
  rw [FileLocationDatabase.hasDestination_of_cell hcell, Plan.edges_ofFiles,
    Plan.fileRoutes_of_textLines rfl] at hedge
  rw [Objects.Adj, Location.destinationIsValid_iff, hedge] at hadj
  exact absurd hadj.1 List.not_mem_nil

end RoutePlanner

end RoutePlanner.Route

namespace RoutePlanner.Server

open RoutePlanner.Std
open RoutePlanner.Math (IsMinCost)
open RoutePlanner.Messages
open RoutePlanner.Route
open RoutePlanner.Route.RoutePlanner (Follows)

/-! ## Roads -/

section Roads

variable (entries : List (Str × Nat)) (routeFile : File)

/-- There is a road from one location to another when a line of the routes file
has the name of the one first and that of the other behind it. -/
def Road (i j : Fin entries.length) : Prop :=
  ∃ line ∈ textLines routeFile, ∃ destinations,
    csvFields line = entries[i].1 :: destinations ∧ entries[j].1 ∈ destinations

def entryCost (i : Fin entries.length) : Nat := entries[i].2

def entryName (i : Fin entries.length) : Str := entries[i].1

end Roads

section FilePlanner

variable {locationFile routeFile : File} {entries : List (Str × Nat)}

/-- The planner once it has taken over the files. -/
def UpToDate (held : List Entry) (routeFile : File) (planner : RoutePlanner) : Prop :=
  Follows planner (Plan.ofFiles held routeFile)

/-- Before the first request, or after it. -/
def Serving (held : List Entry) (routeFile : File) (planner : RoutePlanner) : Prop :=
  Follows planner Plan.empty ∨ UpToDate held routeFile planner

theorem getLocationNames_ofFiles {held : List Entry} (hfile : fileEntries locationFile = .ok held)
    {planner : RoutePlanner} (hplanner : Serving held routeFile planner) :
    ∃ planner', planner.getLocationNames locationFile routeFile =
        .ok (held.map Prod.fst, planner') ∧ UpToDate held routeFile planner' := by
  obtain ⟨plan, hplan, hrefresh⟩ : ∃ plan, Follows planner plan ∧
      plan.refresh held routeFile = Plan.ofFiles held routeFile :=
    hplanner.elim (fun hplan => ⟨_, hplan, rfl⟩) fun hplan => ⟨_, hplan, Plan.refresh_ofFiles⟩
  have hstep := RoutePlanner.getLocationNames_refines hplan hfile routeFile
  rwa [hrefresh, Plan.held_ofFiles] at hstep

/-- Without a load no name is known, and the route cost is zero. -/
theorem getRouteCost_empty {planner : RoutePlanner} (hplan : Follows planner Plan.empty)
    (startName endName : Str) : planner.getRouteCost startName endName = .ok 0 := by
  have hunknown : ∀ name, planner.locationDb.getLocation name = none := by
    intro name
    rw [← Option.not_isSome_iff_eq_none, hplan.locations.getLocation_isSome]
    exact List.not_mem_nil
  rw [RoutePlanner.getRouteCost, hunknown]

theorem UpToDate.holds {held : List Entry} {planner : RoutePlanner}
    (h : UpToDate held routeFile planner) : planner.locationDb.Holds held := by
  have hlocations := h.locations
  rwa [Plan.held_ofFiles] at hlocations

theorem toNat_cost_le (h : WellFormed locationFile entries) :
    ∀ entry ∈ entries.map toEntry, entry.2.toNat ≤ INT_MAX := by
  intro _ hmem
  obtain ⟨entry, hentry, rfl⟩ := List.mem_map.mp hmem
  obtain ⟨hcost, hle⟩ := h.toNat_cost hentry
  rwa [hcost]

/-- Positions of entries are positions of the list of locations. -/
def position (i : Fin entries.length) : Fin (entries.map toEntry).length :=
  finCongr (List.length_map _).symm i

/-- The destinations of the listed objects are the roads. -/
theorem road_iff_adj (h : WellFormed locationFile entries) {planner : RoutePlanner}
    (hplanner : UpToDate (entries.map toEntry) routeFile planner) (i j : Fin entries.length) :
    Road entries routeFile i j ↔
      (RoutePlanner.row hplanner.holds (toNat_cost_le h)).Adj (position i) (position j) := by
  let row := RoutePlanner.row hplanner.holds (toNat_cost_le h)
  have hname : ∀ k : Fin entries.length, (row.object (position k)).name = entries[k].1 := by
    intro k
    have hentry := RoutePlanner.entry_row hplanner.holds (toNat_cost_le h) (position k)
    simpa [position, toEntry] using congrArg Prod.fst hentry
  obtain ⟨p, hp, hcell⟩ := row.cell (position i)
  have hlisted := List.mem_of_getElem? hp
  have hat : planner.locationDb.entryAt p =
      some ((row.object (position i)).name, (row.object (position i)).cost) := by
    rw [FileLocationDatabase.entryAt, hcell, Option.map_some]
  have hedges := hplanner.edges p hlisted _ hat (row.object (position j)).name
  rw [FileLocationDatabase.hasDestination_of_cell hcell, Plan.edges_ofFiles, hname, hname,
    mem_fileRoutes] at hedges
  rw [Route.RoutePlanner.Objects.Adj, Location.destinationIsValid_iff, hname, hedges, Road]
  refine (and_iff_left ?_).symm
  rw [map_fst_toEntry]
  exact List.mem_map.mpr ⟨entries[j], List.getElem_mem _, rfl⟩

/-- The route cost between two locations is the cost of the start and the least
cost of a walk along the roads. -/
theorem getRouteCost_ofFiles (h : WellFormed locationFile entries) {planner : RoutePlanner}
    (hplanner : UpToDate (entries.map toEntry) routeFile planner) (hn : entries.length ≤ 2 ^ 31)
    (i j : Fin entries.length) :
    ∃ cost, planner.getRouteCost entries[i].1 entries[j].1 = .ok cost ∧
      ∀ d, IsMinCost (Road entries routeFile) (entryCost entries) i j d → d < INT_MAX →
        cost.toNat = entries[i].2 + d := by
  have hlen : (entries.map toEntry).length ≤ 2 ^ 31 := by rwa [List.length_map]
  obtain ⟨cost, hroute, hleast⟩ := RoutePlanner.getRouteCost_spec hplanner.holds (toNat_cost_le h)
    hlen (RoutePlanner.firstAt_of_nodup h.names_toEntry (position i))
    (RoutePlanner.firstAt_of_nodup h.names_toEntry (position j))
  have hentry : ∀ k : Fin entries.length,
      (entries.map toEntry)[position k] = toEntry entries[k] := by
    intro k
    simp [position]
  have htoNat : ∀ k : Fin entries.length, (toEntry entries[k]).2.toNat = entries[k].2 :=
    fun k => (h.toNat_cost (List.getElem_mem _)).1
  rw [hentry, hentry] at hroute
  refine ⟨cost, hroute, fun d hd hcap => ?_⟩
  have hcost : ∀ k, entryCost entries k =
      (RoutePlanner.row hplanner.holds (toNat_cost_le h)).cost (position k) := by
    intro k
    have hrow := RoutePlanner.entry_row hplanner.holds (toNat_cost_le h) (position k)
    rw [hentry] at hrow
    rw [entryCost, ← htoNat k, ← hrow, Route.RoutePlanner.Row.cost]
  have hsum := hleast d ((Math.isMinCost_map _ (road_iff_adj h hplanner) hcost).mp hd) hcap
  rwa [hentry, htoNat] at hsum

/-- Beyond `2 ^ 31` locations there is one whose route to itself is not found. -/
theorem getRouteCost_ofFiles_fault (h : WellFormed locationFile entries) {planner : RoutePlanner}
    (hplanner : UpToDate (entries.map toEntry) routeFile planner) (hn : 2 ^ 31 < entries.length) :
    planner.getRouteCost entries[2 ^ 31].1 entries[2 ^ 31].1 = .error .indexOutOfRange := by
  have hlen : 2 ^ 31 < (entries.map toEntry).length := by rwa [List.length_map]
  have hfault := RoutePlanner.getRouteCost_fault hplanner.holds
    (RoutePlanner.firstAt_of_nodup h.names_toEntry ⟨2 ^ 31, hlen⟩) (Nat.le_refl _)
    (Nat.pow_lt_pow_right Nat.one_lt_two (by decide))
  rwa [Fin.getElem_fin, List.getElem_map] at hfault

/-! ## Files that load -/

section Load

variable {held : List Entry}

/-- Over a locations file that parses and does not change, the planner of the program
lists the names of it, repeated ones included. -/
def Lister.ofFile (hfile : fileEntries locationFile = .ok held) (routeFile : File) :
    Lister RoutePlanner (held.map Prod.fst) where
  ops := fileOps locationFile routeFile
  Steady := Serving held routeFile
  getLocationNames_eq _ hplanner := by
    obtain ⟨planner', hnames, hplanner'⟩ := getLocationNames_ofFiles hfile hplanner
    exact ⟨planner', hnames, Or.inr hplanner'⟩

/-- And it finds the cost of every route, if an `int` can count the locations. -/
def SteadyPlanner.ofFile (hfile : fileEntries locationFile = .ok held) (routeFile : File)
    (hn : held.length ≤ 2 ^ 31) : SteadyPlanner RoutePlanner (held.map Prod.fst) where
  toLister := .ofFile hfile routeFile
  initial := .create
  steady_initial := Or.inl Follows.create
  getRouteCost_eq planner hplanner startName hstart endName hend := by
    rcases hplanner with hplan | hplan
    · exact ⟨0, getRouteCost_empty hplan startName endName⟩
    · obtain ⟨i, hi⟩ := RoutePlanner.exists_firstAt hstart
      obtain ⟨j, hj⟩ := RoutePlanner.exists_firstAt hend
      exact RoutePlanner.getRouteCost_returns hplan.holds hn hi hj

/-- The loader takes these locations from the file: one at least, and no more and no
longer names than a vector and a string can hold. -/
structure Loads (file : File) (entries : List Entry) : Prop where
  parses : fileEntries file = .ok entries
  ne_nil : entries ≠ []
  length_lt : entries.length < 2 ^ 63
  size_lt : ∀ entry ∈ entries, entry.1.length < 2 ^ 63

theorem Loads.length_names_lt (h : Loads locationFile held) :
    (held.map Prod.fst).length < 2 ^ 63 := by
  rw [List.length_map]
  exact h.length_lt

theorem Loads.size_names_lt (h : Loads locationFile held) :
    ∀ name ∈ held.map Prod.fst, name.length < 2 ^ 63 :=
  List.forall_mem_map.mpr h.size_lt

theorem loads_of_wellFormed (h : WellFormed locationFile entries) (hne : entries ≠ [])
    (hlength : entries.length < 2 ^ 63) : Loads locationFile (entries.map toEntry) where
  parses := h.fileEntries_eq
  ne_nil hnil := hne (List.map_eq_nil_iff.mp hnil)
  length_lt := by rwa [List.length_map]
  size_lt := List.forall_mem_map.mpr h.sizes

/-- The names of a file that loads, if none has the separator of the wire in it. -/
def LocationNames.ofFile (h : Loads locationFile held)
    (hsep : ∀ entry ∈ held, MSG_LOCATIONS_SEP_CHAR ∉ entry.1) : LocationNames where
  names := held.map Prod.fst
  ne_nil hnil := h.ne_nil (List.map_eq_nil_iff.mp hnil)
  length_lt := Nat.lt_trans h.length_names_lt (by decide)
  size_lt := h.size_names_lt
  no_sep := List.forall_mem_map.mpr hsep

end Load

end FilePlanner

end RoutePlanner.Server
