/-
# Reloading the location database

What a load does to a database whose pointers are sound is described by an
abstract store: the list of entries held.  `refresh` is the store's load, and
the database follows it as long as no load gives up while locations are held.
When one does, the objects of the held locations are deleted and the list and
the map keep their addresses.
-/

import RoutePlanner.Route.FileLocationDatabase
import RoutePlanner.Std.Machine

namespace RoutePlanner.Route

open RoutePlanner.Std

/-- A name and its cost. -/
abbrev Entry := Str × UInt32

/-- The load of the abstract store: whether it was updated, and what it holds
then.  The comparison is of a number of lines with a number of distinct names. -/
def refresh (held entries : List Entry) : Bool × List Entry :=
  if entries.length = 0 ∨ entries.length = (held.map Prod.fst).dedup.length then (false, held)
  else (true, entries)

namespace FileLocationDatabase

/-- The name and cost of the object at an address, if one is live there. -/
def entryAt (db : FileLocationDatabase) (p : Ptr) : Option Entry :=
  (db.heap.cell p).map fun object => (object.name, object.cost)

/-- The database holds the given entries: its pointers are distinct, point to
objects with these names and costs in this order, and the map gives each name
the first of them. -/
structure Holds (db : FileLocationDatabase) (held : List Entry) : Prop where
  nodup : db.locationList.Nodup
  objects : db.locationList.map db.entryAt = held.map some
  map : db.locationMap = UnorderedMap.insertAll ∅ ((held.map Prod.fst).zip db.locationList)

namespace Holds

variable {db : FileLocationDatabase} {held : List Entry}

theorem create : Holds FileLocationDatabase.create [] :=
  ⟨List.nodup_nil, rfl, rfl⟩

theorem length_eq (h : Holds db held) : db.locationList.length = held.length := by
  simpa only [List.length_map] using congrArg List.length h.objects

/-- Every listed pointer points to an object with a held name and cost. -/
theorem exists_object (h : Holds db held) {p : Ptr} (hp : p ∈ db.locationList) :
    ∃ object, db.heap.cell p = some object ∧ (object.name, object.cost) ∈ held := by
  have hmem : db.entryAt p ∈ held.map some := h.objects ▸ List.mem_map_of_mem hp
  obtain ⟨entry, hentry, heq⟩ := List.mem_map.mp hmem
  obtain ⟨object, hcell, rfl⟩ := Option.map_eq_some_iff.mp heq.symm
  exact ⟨object, hcell, hentry⟩

/-- Reading all listed objects in turn gives what the entries give. -/
theorem mapM_deref (h : Holds db held) {β : Type} (f : Location → β) (g : Entry → β)
    (hfg : ∀ object : Location, f object = g (object.name, object.cost)) :
    (db.locationList.mapM fun p => do
      let object ← db.heap.deref p
      return f object) = (.ok (held.map g) : Except Fault _) := by
  have hread : ∀ (ps : List Ptr) (entries : List Entry), ps.map db.entryAt = entries.map some →
      (ps.mapM fun p => do
        let object ← db.heap.deref p
        return f object) = (.ok (entries.map g) : Except Fault _) := by
    intro ps
    induction ps with
    | nil =>
        intro entries heq
        obtain rfl : entries = [] := by simpa using heq.symm
        rfl
    | cons p ps ih =>
        intro entries heq
        cases entries with
        | nil => cases heq
        | cons entry entries =>
            rw [List.map_cons, List.map_cons, List.cons.injEq] at heq
            obtain ⟨object, hcell, rfl⟩ := Option.map_eq_some_iff.mp heq.1
            rw [List.mapM_cons, ih entries heq.2, Heap.deref_eq_ok.mpr hcell, List.map_cons, ← hfg]
            rfl
  exact hread _ _ h.objects

theorem live (h : Holds db held) {p : Ptr} (hp : p ∈ db.locationList) : db.heap.Live p := by
  obtain ⟨object, hcell, -⟩ := h.exists_object hp
  exact Heap.live_iff.mpr ⟨object, hcell⟩

/-- The map gives a name the first pointer of the list that is kept under it. -/
theorem getLocation_eq (h : Holds db held) (name : Str) :
    db.getLocation name =
      (((held.map Prod.fst).zip db.locationList).find? fun pair => pair.1 = name).map
        Prod.snd := by
  rw [getLocation, h.map, UnorderedMap.find_insertAll, UnorderedMap.find_empty,
    Option.none_or]

theorem mem_of_getLocation (h : Holds db held) {name : Str} {p : Ptr}
    (hp : db.getLocation name = some p) : p ∈ db.locationList := by
  rw [h.getLocation_eq] at hp
  obtain ⟨pair, hfind, rfl⟩ := Option.map_eq_some_iff.mp hp
  exact (List.of_mem_zip (List.mem_of_find?_eq_some hfind)).2

theorem size_map (h : Holds db held) :
    db.locationMap.size = (held.map Prod.fst).dedup.length := by
  rw [h.map, UnorderedMap.size_insertAll_empty, List.map_fst_zip]
  rw [List.length_map, h.length_eq]

/-- Only the names and costs behind the listed pointers matter. -/
theorem congr_heap (h : Holds db held) {heap : Heap Location}
    (hkeep : ∀ p ∈ db.locationList, entryAt { db with heap } p = db.entryAt p) :
    Holds { db with heap } held :=
  ⟨h.nodup, (List.map_congr_left hkeep).trans h.objects, h.map⟩

end Holds

/-! ## One load -/

section Load

variable {db : FileLocationDatabase} {file : File}

theorem getLocationsOnDisk_of_ok {entries : List Entry} (h : fileEntries file = .ok entries) :
    db.getLocationsOnDisk file =
      .ok ((db.heap.allocAll (entries.map newLocation)).1,
        { db with heap := (db.heap.allocAll (entries.map newLocation)).2 }) := by
  cases file with
  | none =>
      obtain rfl : [] = entries := Except.ok.inj h
      rfl
  | some content =>
      rw [getLocationsOnDisk, readEntries_of_ok db [] h, List.nil_append]

/-- A file with as many lines as there are names in the map is not taken over,
nor is an empty one; the objects built for its lines stay on the heap. -/
theorem load_of_skip {entries : List Entry} (h : fileEntries file = .ok entries)
    (hskip : entries.length = 0 ∨ entries.length = db.locationMap.size) :
    db.load file =
      .ok (false, { db with heap := (db.heap.allocAll (entries.map newLocation)).2 }) := by
  rw [load, getLocationsOnDisk_of_ok h, Fault.ok_bind]
  simp only [Heap.length_allocAll, List.length_map, if_pos hskip, Fault.pure_eq_ok]

/-- Adding objects one by one extends the list and fills the map. -/
theorem addLocations (db : FileLocationDatabase) (ps : List Ptr) (entries : List Entry)
    (hobjects : ps.map db.entryAt = entries.map some) :
    ps.foldlM addLocation db =
      .ok { db with
        locationList := db.locationList ++ ps
        locationMap := db.locationMap.insertAll ((entries.map Prod.fst).zip ps) } := by
  induction ps generalizing db entries with
  | nil =>
      obtain rfl : entries = [] := by simpa using hobjects.symm
      simp [UnorderedMap.insertAll]
  | cons p ps ih =>
      obtain ⟨entry, entries, rfl⟩ : ∃ entry tail, entries = entry :: tail := by
        cases entries with
        | nil => cases hobjects
        | cons entry tail => exact ⟨entry, tail, rfl⟩
      rw [List.map_cons, List.map_cons, List.cons.injEq] at hobjects
      obtain ⟨hp, hps⟩ := hobjects
      obtain ⟨object, hcell, rfl⟩ := Option.map_eq_some_iff.mp hp
      have hadd : db.addLocation p = .ok { db with
          locationList := db.locationList ++ [p]
          locationMap := db.locationMap.insertNew object.name p } := by
        rw [addLocation, Heap.deref_eq_ok.mpr hcell, Fault.ok_bind, Fault.pure_eq_ok]
      have hrest := ih { db with
          locationList := db.locationList ++ [p]
          locationMap := db.locationMap.insertNew object.name p } entries hps
      rw [List.foldlM_cons, hadd, Fault.ok_bind, hrest]
      simp only [List.append_assoc, List.singleton_append, List.map_cons, List.zip_cons_cons,
        UnorderedMap.insertAll, List.foldl_cons]

/-- A file with another number of lines replaces what a database with live objects
holds: the old objects are deleted, and the new ones have no destinations. -/
theorem load_of_replace {entries : List Entry} (hnodup : db.locationList.Nodup)
    (hlive : ∀ p ∈ db.locationList, db.heap.Live p) (h : fileEntries file = .ok entries)
    (hreplace : ¬ (entries.length = 0 ∨ entries.length = db.locationMap.size)) :
    ∃ db', db.load file = .ok (true, db') ∧ Holds db' entries ∧
      db'.locationList.map db'.heap.cell = (entries.map newLocation).map some := by
  obtain ⟨hnodup', hge, hcells, -, -⟩ := db.heap.allocAll_spec (entries.map newLocation)
  have hlow : ∀ p ∈ db.locationList, p < db.heap.next :=
    fun p hp => Heap.lt_next_of_live (hlive p hp)
  obtain ⟨heap, hfree, -, hother, -⟩ := Heap.freeAll_of_live hnodup fun p hp =>
    (Heap.live_allocAll (hlow p hp) (entries.map newLocation)).mpr (hlive p hp)
  have hnew : (db.heap.allocAll (entries.map newLocation)).1.map heap.cell =
      (entries.map newLocation).map some := by
    rw [← hcells]
    refine List.map_congr_left fun p hp => hother p fun hmem => ?_
    exact absurd (hlow p hmem) (Nat.not_lt_of_le (hge p hp))
  have hentries : (db.heap.allocAll (entries.map newLocation)).1.map
      (entryAt ⟨heap, ∅, []⟩) = entries.map some := by
    have hread := Heap.map_cell_map hnew fun object => (object.name, object.cost)
    rw [List.map_map] at hread
    exact hread
  refine ⟨⟨heap, UnorderedMap.insertAll ∅ ((entries.map Prod.fst).zip _), _⟩, ?_,
    ⟨hnodup', hentries, rfl⟩, hnew⟩
  rw [load, getLocationsOnDisk_of_ok h, Fault.ok_bind]
  simp only [Heap.length_allocAll, List.length_map, if_neg hreplace, deleteLocations, hfree,
    Fault.ok_bind, Fault.pure_eq_ok]
  rw [addLocations ⟨heap, ∅, []⟩ _ _ hentries]
  simp only [List.nil_append, Fault.ok_bind]

/-- A file on which the loader gives up frees the objects of the member list and
changes neither the list nor the map. -/
theorem load_of_giveUp (h : fileEntries file = .error .invalidArgument) :
    ∃ entries : List Entry,
      db.load file = do
        let heap ← (db.heap.allocAll (entries.map newLocation)).2.freeAll db.locationList
        return (false, { db with heap }) := by
  cases file with
  | none => cases h
  | some content =>
      obtain ⟨entries, hread⟩ := readEntries_of_invalidArgument db [] h
      refine ⟨entries, ?_⟩
      rw [load, getLocationsOnDisk, hread, deleteLocations]
      cases (db.heap.allocAll (entries.map newLocation)).2.freeAll db.locationList with
      | error e => rfl
      | ok heap =>
          simp only [Fault.ok_bind, Fault.pure_eq_ok, List.length_nil, true_or, if_true]

/-- On files that parse, the database follows the abstract store. -/
theorem load_refines {held entries : List Entry} (hdb : Holds db held)
    (h : fileEntries file = .ok entries) :
    ∃ db', db.load file = .ok ((refresh held entries).1, db') ∧
      Holds db' (refresh held entries).2 := by
  by_cases hskip : entries.length = 0 ∨ entries.length = db.locationMap.size
  · have hrefresh : refresh held entries = (false, held) := by
      rw [refresh, ← hdb.size_map, if_pos hskip]
    rw [hrefresh]
    refine ⟨_, load_of_skip h hskip, hdb.congr_heap fun p hp => ?_⟩
    rw [entryAt, entryAt, Heap.cell_allocAll_of_live (hdb.live hp)]
  · have hrefresh : refresh held entries = (true, entries) := by
      rw [refresh, ← hdb.size_map, if_neg hskip]
    rw [hrefresh]
    obtain ⟨db', hload, hdb', -⟩ := load_of_replace hdb.nodup (fun p => hdb.live) h hskip
    exact ⟨db', hload, hdb'⟩

/-- With no location held there is nothing to delete, so giving up is harmless. -/
theorem load_giveUp_of_nil (hdb : Holds db []) (h : fileEntries file = .error .invalidArgument) :
    ∃ db', db.load file = .ok (false, db') ∧ Holds db' [] ∧
      db'.locationList = db.locationList ∧ db'.locationMap = db.locationMap := by
  have hnil : db.locationList = [] := List.length_eq_zero_iff.mp hdb.length_eq
  obtain ⟨entries, hload⟩ := @load_of_giveUp db _ h
  refine ⟨{ db with heap := (db.heap.allocAll (entries.map newLocation)).2 }, ?_,
    hdb.congr_heap ?_, rfl, rfl⟩
  · rw [hload, hnil]
    rfl
  · intro p hp
    rw [hnil] at hp
    exact absurd hp List.not_mem_nil

/-- Giving up while a location is held leaves no listed pointer alive. -/
theorem not_live_of_load_giveUp (h : fileEntries file = .error .invalidArgument)
    {updated : Bool} {db' : FileLocationDatabase} (hload : db.load file = .ok (updated, db')) :
    updated = false ∧ db'.locationList = db.locationList ∧
      db'.locationMap = db.locationMap ∧ ∀ p ∈ db.locationList, ¬ db'.heap.Live p := by
  obtain ⟨entries, heq⟩ := @load_of_giveUp db _ h
  rw [heq] at hload
  obtain ⟨heap, hfree, hret⟩ := Fault.bind_eq_ok.mp hload
  obtain ⟨rfl, rfl⟩ := Prod.mk.inj (Except.ok.inj hret)
  exact ⟨rfl, rfl, rfl, fun p hp => Heap.not_live_of_freeAll hfree (Or.inl hp)⟩

end Load

/-! ## Destinations and destruction -/

/-- Adding a destination between listed locations changes the destinations of
the start and nothing else. -/
theorem addDestination_of_holds {db : FileLocationDatabase} {held : List Entry}
    (hdb : Holds db held) {start destination : Ptr} (hstart : start ∈ db.locationList)
    (hdestination : destination ∈ db.locationList) :
    ∃ object target heap,
      db.heap.cell start = some object ∧ db.heap.cell destination = some target ∧
      db.addDestination start destination = .ok { db with heap } ∧
      heap.cell = Function.update db.heap.cell start
        (some (object.addDestination target destination)) ∧
      heap.next = db.heap.next ∧ Holds { db with heap } held := by
  obtain ⟨object, hobject, -⟩ := hdb.exists_object hstart
  obtain ⟨target, htarget, -⟩ := hdb.exists_object hdestination
  obtain ⟨heap, hmodify, hcell, hnext⟩ := Heap.modify_of_cell hobject
    fun location => location.addDestination target destination
  refine ⟨object, target, heap, hobject, htarget, ?_, hcell, hnext, hdb.congr_heap ?_⟩
  · rw [addDestination, Heap.deref_eq_ok.mpr htarget, Fault.ok_bind, hmodify]
    rfl
  · intro p _
    by_cases hp : p = start
    · subst hp
      rw [entryAt, entryAt, hcell, Function.update_self, hobject]
      rfl
    · rw [entryAt, entryAt, hcell, Function.update_of_ne hp]

/-- The destructor of a sound database deletes each object once. -/
theorem destroy_of_holds {db : FileLocationDatabase} {held : List Entry}
    (hdb : Holds db held) : ∃ db', db.destroy = .ok db' := by
  obtain ⟨heap, hfree, -⟩ := Heap.freeAll_of_live hdb.nodup fun p => hdb.live
  refine ⟨{ db with heap, locationList := [] }, ?_⟩
  rw [destroy, deleteLocations, hfree]
  rfl

end FileLocationDatabase

end RoutePlanner.Route
