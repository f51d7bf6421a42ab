/-
# The location database and its data file

`FileLocationDatabase` keeps the locations twice, in a list in file order and in
a map by name, both as pointers to objects it owns.  The heap is part of its
state, so that ownership mistakes show up: `deleteLocations` frees the objects
of the member list whatever list it is given, and a load that fails calls it
with the list under construction.

A file is what the stream delivers, or `none` when it cannot be opened.  Logging
is not modelled.
-/

import RoutePlanner.Route.Location

namespace RoutePlanner.Route

open RoutePlanner.Std

/-- The content of a data file; `none` when it cannot be opened. -/
abbrev File := Option Str

/-- How the expression that builds a location from its fields can fail. -/
inductive EntryError
  /-- The exception that the loader catches. -/
  | invalidArgument
  /-- Anything else ends the load. -/
  | fault (f : Fault)
  deriving DecidableEq

/-- The trimmed fields of a line. -/
def csvFields (line : Str) : List Str :=
  (Text.fields comma (trimCopy line)).map trimCopy

def nameI : Nat := 0
def costI : Nat := 1

/-- The arguments of `new Location(location_data[name_i],
std::stoi(location_data[cost_i]))`. -/
def parseEntry (locationData : List Str) : Except EntryError (Str × UInt32) :=
  match locationData[nameI]?, locationData[costI]? with
  | some name, some cost =>
      match stoi cost with
      | .ok value => .ok (name, intToUnsigned value)
      | .error .invalidArgument => .error .invalidArgument
      | .error .outOfRange => .error (.fault .outOfRange)
  | _, _ => .error (.fault .indexOutOfRange)

structure FileLocationDatabase where
  heap : Heap Location
  locationMap : UnorderedMap Str Ptr
  locationList : List Ptr

namespace FileLocationDatabase

/-- The constructor. -/
def create : FileLocationDatabase := ⟨Heap.empty, ∅, []⟩

/-- `DeleteLocations`.  The objects freed are those of the member list; the list
cleared is the argument, returned here as the first component. -/
def deleteLocations (db : FileLocationDatabase) (_locations : List Ptr) :
    Except Fault (List Ptr × FileLocationDatabase) := do
  let heap ← db.heap.freeAll db.locationList
  return ([], { db with heap })

/-- `AddLocation`. -/
def addLocation (db : FileLocationDatabase) (location : Ptr) :
    Except Fault FileLocationDatabase := do
  let object ← db.heap.deref location
  return { db with
    locationList := db.locationList ++ [location]
    locationMap := db.locationMap.insertNew object.name location }

/-- The loop of `GetLocationsOnDisk` over the remaining lines. -/
def readEntries (db : FileLocationDatabase) (locationsOnDisk : List Ptr) :
    List Str → Except Fault (List Ptr × FileLocationDatabase)
  | [] => .ok (locationsOnDisk, db)
  | line :: rest =>
      if trimCopy line = [] then readEntries db locationsOnDisk rest
      else
        match parseEntry (csvFields line) with
        | .ok (name, cost) =>
            let allocated := db.heap.alloc (Location.create name cost)
            readEntries { db with heap := allocated.2 } (locationsOnDisk ++ [allocated.1]) rest
        -- the catch clause: the loop ends after the clean-up
        | .error .invalidArgument => db.deleteLocations locationsOnDisk
        | .error (.fault f) => .error f

/-- `GetLocationsOnDisk`. -/
def getLocationsOnDisk (db : FileLocationDatabase) :
    File → Except Fault (List Ptr × FileLocationDatabase)
  | none => .ok ([], db)
  | some content => db.readEntries [] (Text.lines newline content)

/-- `Load`. -/
def load (db : FileLocationDatabase) (file : File) :
    Except Fault (Bool × FileLocationDatabase) := do
  let (locationsOnDisk, db) ← db.getLocationsOnDisk file
  if locationsOnDisk.length = 0 ∨ locationsOnDisk.length = db.locationMap.size then
    return (false, db)
  else
    let (locationList, db) ← db.deleteLocations db.locationList
    let db ← locationsOnDisk.foldlM addLocation { db with locationList, locationMap := ∅ }
    return (true, db)

/-- `GetLocations`. -/
def getLocations (db : FileLocationDatabase) : List Ptr := db.locationList

/-- `GetLocation`; `none` is the null pointer. -/
def getLocation (db : FileLocationDatabase) (name : Str) : Option Ptr :=
  db.locationMap.find name

/-- The destructor. -/
def destroy (db : FileLocationDatabase) : Except Fault FileLocationDatabase := do
  let (locationList, db) ← db.deleteLocations db.locationList
  return { db with locationList }

/-- `start->AddDestination(destination)` for two objects of this database. -/
def addDestination (db : FileLocationDatabase) (start destination : Ptr) :
    Except Fault FileLocationDatabase := do
  let object ← db.heap.deref destination
  let heap ← db.heap.modify start fun location => location.addDestination object destination
  return { db with heap }

end FileLocationDatabase

/-! ## What a file says -/

/-- The entries of the non-blank lines in order, or the first error. -/
def parseEntries : List Str → Except EntryError (List (Str × UInt32))
  | [] => .ok []
  | line :: rest =>
      if trimCopy line = [] then parseEntries rest
      else
        match parseEntry (csvFields line) with
        | .ok entry => (parseEntries rest).map (entry :: ·)
        | .error e => .error e

/-- The entries of a locations file; a missing file has none. -/
def fileEntries : File → Except EntryError (List (Str × UInt32))
  | none => .ok []
  | some content => parseEntries (Text.lines newline content)

/-- A text parses if each of its lines that are not blank does. -/
theorem parseEntries_eq_ok {lines : List Str} {entries : List (Str × UInt32)} :
    parseEntries lines = .ok entries ↔
      List.Forall₂ (fun line entry => parseEntry (csvFields line) = .ok entry)
        (lines.filter fun line => trimCopy line ≠ []) entries := by
  induction lines generalizing entries with
  | nil => rw [List.filter_nil, List.forall₂_nil_left_iff, parseEntries, Except.ok.injEq, eq_comm]
  | cons line rest ih =>
      rw [parseEntries]
      by_cases hblank : trimCopy line = []
      · rw [if_pos hblank, List.filter_cons_of_neg (by simpa using hblank), ih]
      · rw [if_neg hblank, List.filter_cons_of_pos (by simpa using hblank),
          List.forall₂_cons_left_iff]
        cases hentry : parseEntry (csvFields line) with
        | error e => simp
        | ok entry =>
            simp only [Except.ok.injEq, exists_and_left, exists_eq_left', ← ih]
            cases parseEntries rest with
            | error e => simp [Except.map]
            | ok tail => simp [Except.map, eq_comm]

/-- It fails at the first such line that does. -/
theorem parseEntries_eq_error {lines : List Str} {e : EntryError} :
    parseEntries lines = .error e ↔
      ∃ line, ((lines.filter fun line => trimCopy line ≠ []).find? fun line =>
          (parseEntry (csvFields line)).isOk = false) = some line ∧
        parseEntry (csvFields line) = .error e := by
  induction lines with
  | nil => simp [parseEntries]
  | cons first rest ih =>
      rw [parseEntries]
      by_cases hblank : trimCopy first = []
      · rw [if_pos hblank, List.filter_cons_of_neg (by simpa using hblank), ih]
      · rw [if_neg hblank, List.filter_cons_of_pos (by simpa using hblank)]
        cases hentry : parseEntry (csvFields first) with
        | error e' =>
            rw [List.find?_cons_of_pos (by rw [hentry]; rfl)]
            simp [hentry]
        | ok entry =>
            rw [List.find?_cons_of_neg (by rw [hentry]; exact of_decide_eq_false rfl), ← ih]
            cases parseEntries rest <;> simp [Except.map]

/-- The object a freshly parsed entry becomes. -/
def newLocation (entry : Str × UInt32) : Location := Location.create entry.1 entry.2

namespace FileLocationDatabase

/-! ## Reading the file -/

section ReadEntries

variable (db : FileLocationDatabase) (locationsOnDisk : List Ptr)

/-- The loop allocates one object for each entry up to the first line that does not
parse, if there is one, and this line decides how it ends. -/
theorem readEntries_spec (rest : List Str) :
    ∃ entries : List (Str × UInt32),
      (∀ all, parseEntries rest = .ok all → all = entries) ∧
      db.readEntries locationsOnDisk rest =
        match parseEntries rest with
        | .ok _ => .ok (locationsOnDisk ++ (db.heap.allocAll (entries.map newLocation)).1,
            { db with heap := (db.heap.allocAll (entries.map newLocation)).2 })
        | .error .invalidArgument =>
            deleteLocations { db with heap := (db.heap.allocAll (entries.map newLocation)).2 }
              (locationsOnDisk ++ (db.heap.allocAll (entries.map newLocation)).1)
        | .error (.fault f) => .error f := by
  induction rest generalizing db locationsOnDisk with
  | nil =>
      refine ⟨[], fun all h => (Except.ok.inj h).symm, ?_⟩
      simp [readEntries, parseEntries, Heap.allocAll]
  | cons line rest ih =>
      rw [parseEntries, readEntries]
      by_cases hblank : trimCopy line = []
      · rw [if_pos hblank, if_pos hblank]
        exact ih db locationsOnDisk
      · rw [if_neg hblank, if_neg hblank]
        cases parseEntry (csvFields line) with
        | error e =>
            refine ⟨[], fun all h => (by cases h), ?_⟩
            cases e <;> simp [Heap.allocAll]
        | ok entry =>
            obtain ⟨entries, hall, hread⟩ := ih
              { db with heap := (db.heap.alloc (Location.create entry.1 entry.2)).2 }
              (locationsOnDisk ++ [(db.heap.alloc (Location.create entry.1 entry.2)).1])
            refine ⟨entry :: entries, fun all h => ?_, ?_⟩
            · cases hrest : parseEntries rest with
              | error e =>
                  rw [hrest] at h
                  cases h
              | ok tail =>
                  rw [hrest] at h
                  rw [← hall tail hrest]
                  exact (Except.ok.inj h).symm
            · simp only [hread, List.map_cons, Heap.allocAll, newLocation, List.append_assoc,
                List.singleton_append]
              cases parseEntries rest with
              | ok tail => rfl
              | error e => cases e <;> rfl

variable {rest : List Str}

/-- On lines that all parse, the loop allocates one object for each entry. -/
theorem readEntries_of_ok {entries : List (Str × UInt32)} (h : parseEntries rest = .ok entries) :
    db.readEntries locationsOnDisk rest =
      .ok (locationsOnDisk ++ (db.heap.allocAll (entries.map newLocation)).1,
        { db with heap := (db.heap.allocAll (entries.map newLocation)).2 }) := by
  obtain ⟨all, hall, hread⟩ := db.readEntries_spec locationsOnDisk rest
  obtain rfl := hall entries h
  rw [hread, h]

/-- A cost that is not a number ends the loop in the clean-up, after objects for
the good lines before it were allocated. -/
theorem readEntries_of_invalidArgument (h : parseEntries rest = .error .invalidArgument) :
    ∃ entries : List (Str × UInt32),
      db.readEntries locationsOnDisk rest =
        deleteLocations { db with heap := (db.heap.allocAll (entries.map newLocation)).2 }
          (locationsOnDisk ++ (db.heap.allocAll (entries.map newLocation)).1) := by
  obtain ⟨entries, -, hread⟩ := db.readEntries_spec locationsOnDisk rest
  exact ⟨entries, by rw [hread, h]⟩

/-- A line with one field, or with a number that no `int` holds, ends the call. -/
theorem readEntries_of_fault {f : Fault} (h : parseEntries rest = .error (.fault f)) :
    db.readEntries locationsOnDisk rest = .error f := by
  obtain ⟨entries, -, hread⟩ := db.readEntries_spec locationsOnDisk rest
  rw [hread, h]

end ReadEntries

end FileLocationDatabase

end RoutePlanner.Route
