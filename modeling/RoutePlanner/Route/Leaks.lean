/-
# Objects that are lost

`Load` reads the whole file into new objects before it decides whether to take them
over.  Where it does not, nobody deletes them: they are live, in no list and in no map,
and the destructor does not find them either.  So the location database loses one
object for each line of every file that it reads and leaves as it was.
-/

import RoutePlanner.Route.RouteHistory
import RoutePlanner.Std.HeapCount

set_option linter.dupNamespace false

namespace RoutePlanner.Route

open RoutePlanner.Std

namespace FileLocationDatabase

/-- What a load of these entries loses when others are held. -/
def unowned (held entries : List Entry) : Nat :=
  if (refresh held entries).1 then 0 else entries.length

/-- An empty database loses nothing. -/
theorem unowned_nil (entries : List Entry) : unowned [] entries = 0 := by
  rw [unowned, refresh]
  split <;> simp_all

/-- A file that is read again is lost if its names are different, and is taken over
again if they are not. -/
theorem unowned_self (entries : List Entry) :
    unowned entries entries = if (entries.map Prod.fst).Nodup then entries.length else 0 := by
  by_cases hnames : (entries.map Prod.fst).Nodup
  · rw [unowned, refresh, hnames.dedup, List.length_map, if_pos (Or.inr rfl), if_pos hnames]
    rfl
  · have hrepeats : entries.length ≠ (entries.map Prod.fst).dedup.length := by
      intro hlength
      refine hnames (List.dedup_eq_self.mp ((List.dedup_sublist _).eq_of_length ?_))
      rw [← hlength, List.length_map]
    have hne : entries.length ≠ 0 := by
      rintro hzero
      obtain rfl := List.length_eq_zero_iff.mp hzero
      exact hnames List.nodup_nil
    rw [unowned, refresh, if_neg (not_or.mpr ⟨hne, hrepeats⟩), if_neg hnames]
    rfl

/-- What one call loses. -/
def lostBy (held : List Entry) : Call → Nat
  | .load file =>
      match fileEntries file with
      | .ok entries => unowned held entries
      | .error _ => 0
  | .addDestination _ _ => 0

/-- What the calls of a history lose one after the other. -/
def lost (held : List Entry) : List Call → Nat
  | [] => 0
  | call :: calls => lostBy held call + lost (storeNext held call) calls

section Calls

variable {db db' : FileLocationDatabase} {held entries : List Entry}

/-- Filling the list and the map makes no objects. -/
theorem heap_of_addLocations {ps : List Ptr} (h : ps.foldlM addLocation db = .ok db') :
    db'.heap = db.heap := by
  refine @Machine.run_keeps _ _ addLocation (fun db' => db'.heap = db.heap) ?_ _ _ rfl ps h
  intro db₁ p db₂ hheap hadd
  obtain ⟨object, -, heq⟩ := Fault.bind_eq_ok.mp hadd
  exact Except.ok.inj heq ▸ hheap

theorem count_of_destroy (h : db.destroy = .ok db') :
    db'.heap.count + db.locationList.length = db.heap.count := by
  obtain ⟨⟨locationList, db₁⟩, hdelete, heq⟩ := Fault.bind_eq_ok.mp h
  obtain ⟨heap, hfree, hreturn⟩ := Fault.bind_eq_ok.mp hdelete
  obtain ⟨-, rfl⟩ := Prod.mk.inj (Except.ok.inj hreturn)
  obtain rfl := Except.ok.inj heq
  exact Heap.count_freeAll hfree

theorem count_of_addDestination {start destination : Ptr}
    (h : db.addDestination start destination = .ok db') : db'.heap.count = db.heap.count := by
  obtain ⟨object, -, hadd⟩ := Fault.bind_eq_ok.mp h
  obtain ⟨heap, hmodify, heq⟩ := Fault.bind_eq_ok.mp hadd
  obtain rfl := Except.ok.inj heq
  exact Heap.count_modify hmodify

/-- A load makes an object for each entry, and deletes those that it replaces. -/
theorem count_of_load (hdb : Holds db held) {file : File}
    (hfile : fileEntries file = .ok entries) {updated : Bool}
    (hload : db.load file = .ok (updated, db')) :
    db'.heap.count + held.length =
      db.heap.count + (refresh held entries).2.length + unowned held entries := by
  have hallocated := db.heap.count_allocAll (entries.map newLocation)
  rw [List.length_map] at hallocated
  by_cases hskip : entries.length = 0 ∨ entries.length = db.locationMap.size
  · rw [load_of_skip hfile hskip] at hload
    obtain ⟨-, rfl⟩ := Prod.mk.inj (Except.ok.inj hload)
    rw [hdb.size_map] at hskip
    rw [unowned, refresh, if_pos hskip]
    show (db.heap.allocAll (entries.map newLocation)).2.count + held.length =
      db.heap.count + held.length + entries.length
    omega
  · rw [load, getLocationsOnDisk_of_ok hfile, Fault.ok_bind] at hload
    simp only [Heap.length_allocAll, List.length_map, if_neg hskip] at hload
    obtain ⟨⟨cleared, db₁⟩, hdelete, hrest⟩ := Fault.bind_eq_ok.mp hload
    obtain ⟨heap, hfree, hreturn⟩ := Fault.bind_eq_ok.mp hdelete
    obtain ⟨rfl, rfl⟩ := Prod.mk.inj (Except.ok.inj hreturn)
    obtain ⟨db₂, hadd, heq⟩ := Fault.bind_eq_ok.mp hrest
    obtain ⟨-, rfl⟩ := Prod.mk.inj (Except.ok.inj heq)
    rw [hdb.size_map] at hskip
    rw [heap_of_addLocations hadd, unowned, refresh, if_neg hskip]
    have hfreed : heap.count + db.locationList.length =
        (db.heap.allocAll (entries.map newLocation)).2.count := Heap.count_freeAll hfree
    rw [hdb.length_eq] at hfreed
    show heap.count + held.length = db.heap.count + entries.length + 0
    omega

/-- One call, and what it loses. -/
theorem Holds.count_of_call (hdb : Holds db held) {call : Call}
    (hcall : ∀ file, call = .load file → Parses file) (hexec : db.exec call = .ok db') :
    db'.heap.count + held.length =
      db.heap.count + (storeNext held call).length + lostBy held call := by
  cases call with
  | load file =>
      obtain ⟨entries, hfile⟩ := hcall file rfl
      obtain ⟨⟨updated, db₁⟩, hload, heq⟩ := Fault.bind_eq_ok.mp hexec
      obtain rfl := Except.ok.inj heq
      simp only [lostBy, storeNext, hfile]
      exact count_of_load hdb hfile hload
  | addDestination start destination =>
      have hcount : db'.heap.count = db.heap.count := by
        rw [exec] at hexec
        split at hexec
        · exact count_of_addDestination hexec
        · exact Except.ok.inj hexec ▸ rfl
      rw [hcount]
      rfl

end Calls

theorem lost_concat (held : List Entry) (calls : List Call) (call : Call) :
    lost held (calls ++ [call]) = lost held calls + lostBy (calls.foldl storeNext held) call := by
  induction calls generalizing held with
  | nil => exact Nat.add_comm _ _
  | cons first calls ih =>
      rw [List.cons_append, lost, lost, ih, Nat.add_assoc]
      rfl

/-- Along a history the live objects are the held ones and the lost ones. -/
structure Counted (db : FileLocationDatabase) (held : List Entry) (leaked : Nat) : Prop where
  holds : Holds db held
  count : db.heap.count = held.length + leaked

theorem Counted.exec {db : FileLocationDatabase} {held : List Entry} {leaked : Nat}
    (hdb : Counted db held leaked) {call : Call}
    (hcall : ∀ file, call = .load file → Parses file) :
    ∃ db', db.exec call = .ok db' ∧
      Counted db' (storeNext held call) (leaked + lostBy held call) := by
  obtain ⟨db', hexec, hholds⟩ := exec_refines hdb.holds call fun file hfile =>
    Or.inl (hcall file hfile)
  have hcount := hdb.holds.count_of_call hcall hexec
  have hbefore := hdb.count
  exact ⟨db', hexec, hholds, by omega⟩

/-- Whatever was loaded, as long as it parsed, the objects that are live are the listed
ones and one for each entry of every file that was read and not taken over.  The
destructor deletes the listed ones only. -/
theorem live_of_history (calls : List Call)
    (hfiles : ∀ file, Call.load file ∈ calls → Parses file) :
    ∃ db, run calls = .ok db ∧ db.heap.count = db.getLocations.length + lost [] calls ∧
      ∃ db', db.destroy = .ok db' ∧ db'.heap.count = lost [] calls := by
  have hrun : ∃ db, run calls = .ok db ∧ Counted db (calls.foldl storeNext []) (lost [] calls) := by
    induction calls using List.reverseRecOn with
    | nil => exact ⟨create, rfl, Holds.create, rfl⟩
    | append_singleton calls call ih =>
        obtain ⟨db, hrun, hdb⟩ := ih fun file hmem => hfiles file (List.mem_append_left _ hmem)
        obtain ⟨db', hexec, hdb'⟩ := @Counted.exec _ _ _ hdb call fun file hfile =>
          hfiles file (List.mem_append_right _ (List.mem_singleton.mpr hfile.symm))
        refine ⟨db', ?_, ?_⟩
        · rw [run, Machine.run_concat, show Machine.run FileLocationDatabase.exec create calls =
            .ok db from hrun]
          exact hexec
        · rw [List.foldl_append, lost_concat]
          exact hdb'
  obtain ⟨db, hreturns, hdb⟩ := hrun
  have hlength : db.getLocations.length = (calls.foldl storeNext []).length := hdb.holds.length_eq
  obtain ⟨db', hdestroy⟩ := destroy_of_holds hdb.holds
  have hdeleted := count_of_destroy hdestroy
  have hcount := hdb.count
  refine ⟨db, hreturns, by omega, db', hdestroy, ?_⟩
  have hlist : db.locationList.length = db.getLocations.length := rfl
  omega

/-- A city that is loaded three times, the second time at another cost, is lost twice. -/
theorem live_of_history_london :
    ∃ db, run [.load (some (str "London, 5")), .load (some (str "London, 6")),
          .load (some (str "London, 5"))] = .ok db ∧
      db.heap.count = db.getLocations.length + 2 ∧
      ∃ db', db.destroy = .ok db' ∧ db'.heap.count = 2 :=
  live_of_history _ (by
    simp only [List.mem_cons, List.not_mem_nil, or_false, Call.load.injEq]
    rintro file (rfl | rfl | rfl)
    · exact ⟨[(str "London", 5)], by decide⟩
    · exact ⟨[(str "London", 6)], by decide⟩
    · exact ⟨[(str "London", 5)], by decide⟩)

end FileLocationDatabase

/-! ## What the planner loses -/

namespace RoutePlanner

open FileLocationDatabase (Holds unowned count_of_addDestination count_of_load)

/-- The loops of `SetupRoutes` make no objects. -/
theorem count_of_configureRoutes {routeDb : FileRouteDatabase} {db db' : FileLocationDatabase}
    {start : Ptr} (h : configureRoutes routeDb db start = .ok db') :
    db'.heap.count = db.heap.count := by
  obtain ⟨object, -, hadd⟩ := Fault.bind_eq_ok.mp h
  refine @Machine.run_keeps _ _ _ (fun db' => db'.heap.count = db.heap.count) ?_ _ _ rfl _ hadd
  intro db₁ route db₂ hcount hstep
  split at hstep
  · exact (count_of_addDestination hstep).trans hcount
  · exact Except.ok.inj hstep ▸ hcount

/-- A call loses what its load of the locations loses. -/
theorem count_of_setupRoutes {planner planner' : RoutePlanner} {held entries : List Entry}
    (hdb : Holds planner.locationDb held) {locationFile routeFile : File}
    (hfile : fileEntries locationFile = .ok entries) {locations : List Ptr}
    (hsetup : planner.setupRoutes locationFile routeFile = .ok (locations, planner')) :
    planner'.locationDb.heap.count + held.length =
      planner.locationDb.heap.count + (Route.refresh held entries).2.length +
        unowned held entries := by
  obtain ⟨⟨locationsUpdated, db⟩, hload, hrest⟩ := Fault.bind_eq_ok.mp hsetup
  obtain ⟨⟨routesUpdated, routeDb⟩, -, hrest⟩ := Fault.bind_eq_ok.mp hrest
  have hcount := count_of_load hdb hfile hload
  dsimp only at hrest
  split at hrest
  · obtain ⟨db', hloop, hreturn⟩ := Fault.bind_eq_ok.mp hrest
    obtain ⟨-, rfl⟩ := Prod.mk.inj (Except.ok.inj hreturn)
    have hkept : db'.heap.count = db.heap.count :=
      @Machine.run_keeps _ _ _ (fun db' => db'.heap.count = db.heap.count)
        (fun _ _ _ hcount hstep => (count_of_configureRoutes hstep).trans hcount) _ _ rfl _ hloop
    rw [← hcount, ← hkept]
  · obtain ⟨-, rfl⟩ := Prod.mk.inj (Except.ok.inj hrest)
    exact hcount

end RoutePlanner

end RoutePlanner.Route
