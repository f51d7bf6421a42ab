/-
# What the data files say

The content of a data file is cut at its newlines, and a line that is not blank is
cut at its commas; a comma at the end of a line opens no further field.  Both are
said here without the loops of the readers, and the readers are compared with it.
-/

import RoutePlanner.Route.LocationStates
import RoutePlanner.Route.LocationsFile

namespace RoutePlanner.Route

open RoutePlanner.Std

/-- The lines that are not blank. -/
def dataLines (content : Str) : List Str :=
  (content.splitOn newline).filter fun line => trimCopy line ≠ []

/-- The trimmed pieces of a line. -/
def lineFields (line : Str) : List Str :=
  (Text.dropEmptyLast ((trimCopy line).splitOn comma)).map trimCopy

theorem filter_lines_eq_dataLines (content : Str) :
    ((Text.lines newline content).filter fun line => trimCopy line ≠ []) = dataLines content := by
  rw [Text.lines_eq_splitOn, dataLines]

theorem csvFields_eq_lineFields (line : Str) : csvFields line = lineFields line := by
  rw [csvFields, Text.fields_eq_splitOn, lineFields]

/-! ## The routes file -/

namespace FileRouteDatabase

/-- A blank line at the end is passed over. -/
theorem readRoutes_append_blank (routesOnDisk : UnorderedMap Str (List Str)) (rest : List Str) :
    readRoutes routesOnDisk (rest ++ [[]]) = readRoutes routesOnDisk rest := by
  induction rest generalizing routesOnDisk with
  | nil => rfl
  | cons line rest ih =>
      rw [List.cons_append, readRoutes, readRoutes]
      by_cases hblank : trimCopy line = []
      · rw [if_pos hblank, if_pos hblank, ih]
      · rw [if_neg hblank, if_neg hblank]
        simp only [ih]

/-- The sources are the first fields of the lines. -/
theorem mem_fileSources_iff {content source : Str} : source ∈ fileSources (some content) ↔
    ∃ line ∈ dataLines content, (lineFields line).head? = some source := by
  simp only [fileSources, textLines, filter_lines_eq_dataLines, List.mem_filterMap,
    csvFields_eq_lineFields]

/-- The routes of a source are the further fields of the lines that it begins. -/
theorem fileRoutes_eq_flatMap_filter (content source : Str) : fileRoutes (some content) source =
    ((dataLines content).filter fun line => (lineFields line).head? = some source).flatMap
      fun line => (lineFields line).tail := by
  simp only [fileRoutes, textLines, filter_lines_eq_dataLines, csvFields_eq_lineFields]
  induction dataLines content with
  | nil => rfl
  | cons line lines ih =>
      rw [List.flatMap_cons, List.filter_cons, ih]
      by_cases hhead : (lineFields line).head? = some source
      · rw [if_pos hhead, if_pos (by simpa using hhead), List.flatMap_cons]
      · rw [if_neg hhead, if_neg (by simpa using hhead), List.nil_append]

/-- Every routes file is read into the map from the first fields of its lines to
the further fields of all lines that start with them. -/
theorem getRoutesOnDisk_exact (content : Str) :
    ∃ routes, getRoutesOnDisk (some content) = .ok routes ∧
      getRoutesOnDisk (some (content ++ [newline])) = .ok routes ∧
      (∀ source, source ∈ routes ↔
        ∃ line ∈ dataLines content, (lineFields line).head? = some source) ∧
      ∀ source ∈ routes, routes.find source = some
        (((dataLines content).filter fun line => (lineFields line).head? = some source).flatMap
          fun line => (lineFields line).tail) := by
  obtain ⟨routes, hread, hfind, -⟩ := getRoutesOnDisk_ok (some content)
  have hmem : ∀ source, source ∈ routes ↔ source ∈ fileSources (some content) := fun source =>
    UnorderedMap.mem_iff_of_find (hfind source)
  refine ⟨routes, hread, ?_, fun source => (hmem source).trans mem_fileSources_iff, ?_⟩
  · rw [getRoutesOnDisk, Text.lines_append_delim, readRoutes_append_blank]
    exact hread
  · intro source hsource
    rw [hfind, if_pos ((hmem source).mp hsource), fileRoutes_eq_flatMap_filter]

example : (dataLines (str "a,b,,c,\n \n , \na\n,")).map lineFields =
    [[str "a", str "b", str "", str "c"], [str ""], [str "a"], [str ""]] := by decide

end FileRouteDatabase

/-! ## The locations file -/

/-- The location that a line writes down: it has a second field, which is an integer
that an `unsigned int` represents. -/
def lineEntry (line : Str) : Option (Str × Nat) :=
  match lineFields line with
  | name :: cost :: _ =>
      match writtenInt cost with
      | some value => if 0 ≤ value ∧ value < 2 ^ 32 then some (name, value.toNat) else none
      | none => none
  | _ => none

/-- `std::stoi` makes an `int` of the second field. -/
def CostReads (line : Str) : Prop :=
  ∃ cost value, (lineFields line)[costI]? = some cost ∧ stoi cost = .ok value

/-- `std::stoi` finds no number at the start of the second field. -/
def CostRefused (line : Str) : Prop :=
  ∃ cost, (lineFields line)[costI]? = some cost ∧ stoi cost = .error .invalidArgument

section Lines

variable {line : Str}

theorem lineEntry_eq_some {entry : Str × Nat} (h : lineEntry line = some entry) :
    ∃ cost rest, lineFields line = entry.1 :: cost :: rest ∧
      writtenInt cost = some (entry.2 : Int) := by
  unfold lineEntry at h
  split at h
  · rename_i name cost rest hfields
    split at h
    · rename_i value hvalue
      split at h
      · rename_i hrange
        obtain rfl := Option.some.inj h
        refine ⟨cost, rest, hfields, ?_⟩
        rw [hvalue, Int.toNat_of_nonneg hrange.1]
      · cases h
    · cases h
  · cases h

/-- A line that writes a location down is read as it, as far as an `int` goes. -/
theorem parseEntry_of_lineEntry {entry : Str × Nat} (h : lineEntry line = some entry) :
    parseEntry (csvFields line) =
      if entry.2 ≤ INT_MAX then .ok (toEntry entry) else .error (.fault .outOfRange) := by
  obtain ⟨cost, rest, hfields, hcost⟩ := lineEntry_eq_some h
  have hstoi := stoi_of_writtenInt hcost
  have hrange : (-(INT_MAX : Int) - 1 ≤ (entry.2 : Int) ∧ (entry.2 : Int) ≤ INT_MAX) ↔
      entry.2 ≤ INT_MAX := by
    rw [Int.ofNat_le]
    exact and_iff_right (by omega)
  simp only [hrange] at hstoi
  rw [csvFields_eq_lineFields, hfields, parseEntry]
  simp only [nameI, costI, List.getElem?_cons_zero, List.getElem?_cons_succ, hstoi, toEntry]
  by_cases hmax : entry.2 ≤ INT_MAX
  · simp only [if_pos hmax]
  · simp only [if_neg hmax]

/-- What becomes of a line is decided by its second field. -/
theorem parseEntry_outcome (line : Str) :
    ((∃ entry, parseEntry (csvFields line) = .ok entry) ↔ CostReads line) ∧
      (parseEntry (csvFields line) = .error .invalidArgument ↔ CostRefused line) := by
  rw [csvFields_eq_lineFields, CostReads, CostRefused, parseEntry]
  cases hfields : lineFields line with
  | nil => simp [nameI, costI]
  | cons name rest =>
      simp only [nameI, List.getElem?_cons_zero]
      cases (name :: rest)[costI]? with
      | none => simp
      | some cost =>
          cases hstoi : stoi cost with
          | ok value => simp [hstoi]
          | error e => cases e <;> simp [hstoi]

/-- Where a line is read and writes a location down, both are the same. -/
theorem lineEntry_of_parseEntry {line : Str} {entry : Entry} {entry' : Str × Nat}
    (h : parseEntry (csvFields line) = .ok entry) (h' : lineEntry line = some entry') :
    entry'.2 ≤ INT_MAX ∧ entry' = (entry.1, entry.2.toNat) := by
  rw [parseEntry_of_lineEntry h'] at h
  split at h
  · rename_i hmax
    obtain rfl := Except.ok.inj h
    refine ⟨hmax, ?_⟩
    rw [toEntry, toNat_intToUnsigned hmax]
  · cases h

/-- If all lines are read and write locations down, the costs are those of an `int`,
and the entries read are those written. -/
theorem lineEntry_of_parses {lines : List Str} {entries : List Entry}
    (h : List.Forall₂ (fun line entry => parseEntry (csvFields line) = .ok entry) lines entries)
    (hall : none ∉ lines.map lineEntry) :
    (∀ line ∈ lines, ∃ entry, lineEntry line = some entry ∧ entry.2 ≤ INT_MAX) ∧
      lines.map lineEntry = entries.map fun entry => some (entry.1, entry.2.toNat) := by
  induction h with
  | nil => exact ⟨fun line hline => absurd hline List.not_mem_nil, rfl⟩
  | @cons line entry lines entries hline hlines ih =>
      rw [List.map_cons, List.mem_cons, not_or] at hall
      obtain ⟨entry', hentry'⟩ := Option.ne_none_iff_exists'.mp (Ne.symm hall.1)
      obtain ⟨hmax, hsame⟩ := lineEntry_of_parseEntry hline hentry'
      obtain ⟨hrest, hmap⟩ := ih hall.2
      refine ⟨List.forall_mem_cons.mpr ⟨⟨entry', hentry', hmax⟩, hrest⟩, ?_⟩
      rw [List.map_cons, List.map_cons, hmap, hentry', hsame]

/-- The loader gives up at a refused cost, if every cost before it is read. -/
theorem parseEntries_eq_invalidArgument_iff (content : Str) :
    parseEntries (Text.lines newline content) = .error .invalidArgument ↔
      ∃ pre line post, dataLines content = pre ++ line :: post ∧
        (∀ earlier ∈ pre, CostReads earlier) ∧ CostRefused line := by
  have hreads : ∀ line, (parseEntry (csvFields line)).isOk = true ↔ CostReads line := by
    intro line
    rw [← (parseEntry_outcome line).1]
    cases parseEntry (csvFields line) <;> simp [Except.isOk, Except.toBool]
  rw [parseEntries_eq_error, filter_lines_eq_dataLines]
  simp only [List.find?_eq_some_iff_append, (parseEntry_outcome _).2]
  apply Iff.intro
  · rintro ⟨line, ⟨-, pre, post, heq, hpre⟩, hrefused⟩
    exact ⟨pre, line, post, heq, fun earlier hmem => (hreads earlier).mp (by
      simpa using hpre earlier hmem), hrefused⟩
  · rintro ⟨pre, line, post, heq, hpre, hrefused⟩
    refine ⟨line, ⟨?_, pre, post, heq, fun earlier hmem => ?_⟩, hrefused⟩
    · rw [(parseEntry_outcome line).2.mpr hrefused]
      rfl
    · simpa using (hreads earlier).mpr (hpre earlier hmem)

end Lines

namespace FileLocationDatabase

/-- The name and the cost, as a number, of the object at an address. -/
def written (db : FileLocationDatabase) (p : Ptr) : Option (Str × Nat) :=
  (db.heap.cell p).map fun object => (object.name, object.cost.toNat)

/-- The call returns one object for each line, with the name and cost on it, or
nothing if some line does not write a location down. -/
def ReadsExactly (db : FileLocationDatabase) (content : Str) : Prop :=
  ∃ locations db', db.getLocationsOnDisk (some content) = .ok (locations, db') ∧
    if none ∈ (dataLines content).map lineEntry then locations = []
    else locations.Nodup ∧ locations.map db'.written = (dataLines content).map lineEntry

/-- Every line writes a location down, with a cost that an `int` holds; or there is
a line whose second field starts with no number, every line before it has a number
there, and the objects that are listed are live. -/
def WrittenOrRefused (db : FileLocationDatabase) (content : Str) : Prop :=
  (∀ line ∈ dataLines content, ∃ entry, lineEntry line = some entry ∧ entry.2 ≤ INT_MAX) ∨
    ((∃ pre line post, dataLines content = pre ++ line :: post ∧
        (∀ earlier ∈ pre, CostReads earlier) ∧ CostRefused line) ∧
      ∀ p ∈ db.getLocations, db.heap.Live p)

/-- Objects for the entries of a file show their names and costs. -/
theorem map_written_allocAll (db : FileLocationDatabase) (entries : List Entry) :
    ((db.heap.allocAll (entries.map newLocation)).1.map
        (written { db with heap := (db.heap.allocAll (entries.map newLocation)).2 })) =
      entries.map fun entry => some (entry.1, entry.2.toNat) := by
  obtain ⟨-, -, hcells, -⟩ := db.heap.allocAll_spec (entries.map newLocation)
  have hread := Heap.map_cell_map hcells fun object => (object.name, object.cost.toNat)
  rw [List.map_map] at hread
  exact hread

section Outcomes

variable {db : FileLocationDatabase} {content : Str}

/-- Where every line is read, the objects show what is written on the lines exactly if
the lines write locations down. -/
theorem readsExactly_of_ok_iff (db : FileLocationDatabase) {entries : List Entry}
    (h : parseEntries (Text.lines newline content) = .ok entries) :
    ReadsExactly db content ↔
      ∀ line ∈ dataLines content, ∃ entry, lineEntry line = some entry ∧ entry.2 ≤ INT_MAX := by
  have hread := @getLocationsOnDisk_of_ok db (some content) _ h
  obtain ⟨hnodup, -⟩ := db.heap.allocAll_spec (entries.map newLocation)
  rw [parseEntries_eq_ok, filter_lines_eq_dataLines] at h
  apply Iff.intro
  · rintro ⟨locations, db', hread', hexact⟩
    obtain ⟨rfl, rfl⟩ := Prod.mk.inj (Except.ok.inj (hread.symm.trans hread'))
    refine (lineEntry_of_parses h fun hnone => ?_).1
    -- a line that writes nothing down should have left the list empty
    rw [if_pos hnone, ← List.length_eq_zero_iff, Heap.length_allocAll, List.length_map,
      ← h.length_eq, List.length_eq_zero_iff] at hexact
    rw [hexact] at hnone
    exact absurd hnone List.not_mem_nil
  · intro hall
    have hnone : none ∉ (dataLines content).map lineEntry := by
      intro hmem
      obtain ⟨line, hline, hnone⟩ := List.mem_map.mp hmem
      obtain ⟨entry, hentry, -⟩ := hall line hline
      rw [hentry] at hnone
      cases hnone
    refine ⟨_, _, hread, ?_⟩
    rw [if_neg hnone, (lineEntry_of_parses h hnone).2]
    exact ⟨hnodup, db.map_written_allocAll entries⟩

/-- Where a line is not read, not every line writes a location down. -/
theorem not_written_of_error {e : EntryError}
    (h : parseEntries (Text.lines newline content) = .error e) :
    ¬ ∀ line ∈ dataLines content, ∃ entry, lineEntry line = some entry ∧ entry.2 ≤ INT_MAX := by
  intro hall
  obtain ⟨line, hfind, hline⟩ := parseEntries_eq_error.mp h
  rw [filter_lines_eq_dataLines] at hfind
  obtain ⟨entry, hentry, hmax⟩ := hall line (List.mem_of_find?_eq_some hfind)
  rw [parseEntry_of_lineEntry hentry, if_pos hmax] at hline
  cases hline

/-- A file on which the loader gives up has a line that writes nothing down. -/
theorem none_mem_of_invalidArgument
    (h : parseEntries (Text.lines newline content) = .error .invalidArgument) :
    none ∈ (dataLines content).map lineEntry := by
  obtain ⟨pre, line, post, heq, -, hrefused⟩ := (parseEntries_eq_invalidArgument_iff content).mp h
  refine List.mem_map.mpr ⟨line, by simp [heq], ?_⟩
  rw [← (parseEntry_outcome line).2] at hrefused
  cases hentry : lineEntry line with
  | none => rfl
  | some entry =>
      rw [parseEntry_of_lineEntry hentry] at hrefused
      split at hrefused <;> cases hrefused

/-- Where the loader gives up, it returns nothing exactly if it can delete the objects
that are listed. -/
theorem readsExactly_of_invalidArgument_iff (hdb : Sound db)
    (h : parseEntries (Text.lines newline content) = .error .invalidArgument) :
    ReadsExactly db content ↔ ∀ p ∈ db.getLocations, db.heap.Live p := by
  obtain ⟨entries, hread⟩ := readEntries_of_invalidArgument db [] h
  rw [getLocations, ← freeAll_allocAll_returns_iff hdb entries, ReadsExactly, getLocationsOnDisk,
    hread]
  simp only [if_pos (none_mem_of_invalidArgument h)]
  apply Iff.intro
  · rintro ⟨locations, db', hdelete, -⟩
    obtain ⟨heap, hfree, -⟩ := Fault.bind_eq_ok.mp hdelete
    exact ⟨heap, hfree⟩
  · rintro ⟨heap, hfree⟩
    refine ⟨[], { db with heap }, ?_, rfl⟩
    rw [deleteLocations, hfree]
    rfl

theorem not_readsExactly_of_fault (db : FileLocationDatabase) {f : Fault}
    (h : parseEntries (Text.lines newline content) = .error (.fault f)) :
    ¬ ReadsExactly db content := by
  rintro ⟨locations, db', hread, -⟩
  rw [getLocationsOnDisk, readEntries_of_fault db [] h] at hread
  cases hread

end Outcomes

/-- In every state that any history reaches, the file is read exactly if its lines
write locations down with costs that an `int` holds, or if the first line without
such a number at the start of its second field has none at all there. -/
theorem readsExactly_iff {calls : List Call} {db : FileLocationDatabase}
    (hrun : run calls = .ok db) (content : Str) :
    ReadsExactly db content ↔ WrittenOrRefused db content := by
  rw [WrittenOrRefused, ← parseEntries_eq_invalidArgument_iff]
  cases hparse : parseEntries (Text.lines newline content) with
  | ok entries =>
      rw [readsExactly_of_ok_iff db hparse]
      refine (or_iff_left ?_).symm
      rintro ⟨hrefused, -⟩
      cases hrefused
  | error e =>
      rw [or_iff_right (not_written_of_error hparse)]
      cases e with
      | fault f =>
          exact iff_of_false (not_readsExactly_of_fault db hparse) fun hrefused =>
            EntryError.noConfusion (Except.error.inj hrefused.1)
      | invalidArgument =>
          rw [readsExactly_of_invalidArgument_iff (sound_of_run hrun) hparse]
          exact (and_iff_right rfl).symm

theorem readsExactly_iff_london :
    ReadsExactly create (str "London, 5") ↔ WrittenOrRefused create (str "London, 5") :=
  @readsExactly_iff [] create rfl _

/-- A line without a comma is indexed behind its end, and a number that no `int` holds
leaves the function as an exception; a negative number, and one with letters behind
it, are taken as costs. -/
theorem not_readsExactly_create :
    create.getLocationsOnDisk (some (str "London")) = .error .indexOutOfRange ∧
      create.getLocationsOnDisk (some (str "London, 9999999999")) = .error .outOfRange ∧
      ∀ content ∈ [str "London", str "London, 9999999999", str "London, -5",
        str "London, 5 miles"], ¬ ReadsExactly create content := by
  refine ⟨rfl, rfl, fun content hcontent => ?_⟩
  have hreads : ∀ content ∈ [str "London", str "London, 9999999999", str "London, -5",
      str "London, 5 miles"], none ∈ (dataLines content).map lineEntry ∧
        (create.getLocationsOnDisk (some content)).map Prod.fst ≠ .ok [] := by decide
  obtain ⟨hnone, hlocations⟩ := hreads content hcontent
  rintro ⟨locations, db', hread, hexact⟩
  rw [if_pos hnone] at hexact
  rw [hread, hexact] at hlocations
  exact hlocations rfl

end FileLocationDatabase

end RoutePlanner.Route
