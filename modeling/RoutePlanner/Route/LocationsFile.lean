/-
# Well-formed locations files

The documented form of a locations file is one line for each location, its name
and its cost with a comma between them.  Such a file parses, into the entries its
lines stand for.
-/

import RoutePlanner.Route.LocationReload
import RoutePlanner.Route.FileRouteDatabase

namespace RoutePlanner.Route

open RoutePlanner.Std

/-- The line is `name, cost`: one comma, blanks around the parts, and a cost that
is a decimal numeral up to `INT_MAX`. -/
def IsEntryLine (line : Str) (entry : Str × Nat) : Prop :=
  ∃ left right, line = left ++ comma :: right ∧ comma ∉ left ∧ comma ∉ right ∧
    trimCopy left = entry.1 ∧ IsDecimal (trimCopy right) entry.2

/-- The lines of the file that are not blank stand for these entries, whose names
are pairwise different.  A name is a string in memory, so its size is below
`std::string::max_size`. -/
structure WellFormed (file : File) (entries : List (Str × Nat)) : Prop where
  lines : List.Forall₂ IsEntryLine (textLines file) entries
  names : (entries.map Prod.fst).Nodup
  sizes : ∀ entry ∈ entries, entry.1.length < 2 ^ 63

/-- What the database keeps of an entry. -/
def toEntry (entry : Str × Nat) : Entry := (entry.1, intToUnsigned entry.2)

theorem map_fst_toEntry (entries : List (Str × Nat)) :
    (entries.map toEntry).map Prod.fst = entries.map Prod.fst :=
  List.map_map ..

theorem csvFields_of_one_comma {left right : Str} (hleft : comma ∉ left) (hright : comma ∉ right)
    (hne : trimCopy right ≠ []) :
    csvFields (left ++ comma :: right) = [trimCopy left, trimCopy right] := by
  have hcomma : isSpace comma = false := by decide
  have hleft' : comma ∉ left.dropWhile isSpace := fun h => hleft (List.dropWhile_subset _ h)
  have hright' : comma ∉ right.rdropWhile isSpace :=
    fun h => hright ((List.rdropWhile_prefix _ _).subset h)
  rw [csvFields, trimCopy, Text.trim_append_cons hcomma,
    Text.fields_append_cons hleft' hright' (Text.rdropWhile_ne_nil_of_trim hne)]
  simp only [List.map_cons, List.map_nil, trimCopy, Text.trim_dropWhile, Text.trim_rdropWhile]

theorem parseEntry_of_isEntryLine {line : Str} {entry : Str × Nat} (h : IsEntryLine line entry) :
    parseEntry (csvFields line) = .ok (toEntry entry) := by
  obtain ⟨left, right, rfl, hleft, hright, hname, hcost⟩ := h
  rw [csvFields_of_one_comma hleft hright hcost.1, parseEntry]
  simp only [nameI, costI, List.getElem?_cons_zero, List.getElem?_cons_succ,
    stoi_of_isDecimal hcost, hname, toEntry]

/-- Blank lines do not matter to the parser. -/
theorem parseEntries_of_forall₂ {lines : List Str} {entries : List (Str × Nat)}
    (h : List.Forall₂ IsEntryLine (lines.filter fun line => trimCopy line ≠ []) entries) :
    parseEntries lines = .ok (entries.map toEntry) := by
  rw [parseEntries_eq_ok, List.forall₂_map_right_iff]
  exact h.imp fun _ _ => parseEntry_of_isEntryLine

/-- A file whose lines all stand for entries parses into them. -/
theorem fileEntries_of_forall₂ {file : File} {entries : List (Str × Nat)}
    (h : List.Forall₂ IsEntryLine (textLines file) entries) :
    fileEntries file = .ok (entries.map toEntry) := by
  cases file with
  | none =>
      obtain rfl : entries = [] := List.forall₂_nil_left_iff.mp h
      rfl
  | some content => exact parseEntries_of_forall₂ h

namespace WellFormed

variable {file : File} {entries : List (Str × Nat)}

theorem fileEntries_eq (h : WellFormed file entries) :
    fileEntries file = .ok (entries.map toEntry) :=
  fileEntries_of_forall₂ h.lines

theorem names_toEntry (h : WellFormed file entries) :
    ((entries.map toEntry).map Prod.fst).Nodup := by
  rw [map_fst_toEntry]
  exact h.names

/-- The costs of a well-formed file are the numbers it has. -/
theorem toNat_cost (h : WellFormed file entries) {entry : Str × Nat} (hentry : entry ∈ entries) :
    (toEntry entry).2.toNat = entry.2 ∧ entry.2 ≤ INT_MAX := by
  obtain ⟨line, -, hline⟩ : ∃ line ∈ textLines file, IsEntryLine line entry := by
    obtain ⟨i, hi, rfl⟩ := List.mem_iff_getElem.mp hentry
    have hi' : i < (textLines file).length := h.lines.length_eq ▸ hi
    exact ⟨_, List.getElem_mem hi', h.lines.get hi' hi⟩
  obtain ⟨_, _, _, _, _, _, _, _, _, hmax⟩ := hline
  exact ⟨toNat_intToUnsigned hmax, hmax⟩

end WellFormed

def twoCitiesFile : File := some (str "London, 5\n\nBath, 6")

def twoCities : List (Str × Nat) := [(str "London", 5), (str "Bath", 6)]

theorem wellFormed_twoCities : WellFormed twoCitiesFile twoCities where
  lines := by
    have hlines : textLines twoCitiesFile = [str "London, 5", str "Bath, 6"] := by decide
    rw [hlines]
    exact .cons ⟨str "London", str " 5", by decide⟩ (.cons ⟨str "Bath", str " 6", by decide⟩ .nil)
  names := by decide
  sizes := by decide

end RoutePlanner.Route
