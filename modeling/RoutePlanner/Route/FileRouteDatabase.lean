/-
# The route database and its data file

A line of the routes file is a source followed by its destinations.  Lines with
one source are merged in file order.  Every file can be read: a line that is not
blank has a first field, so the index of the source is in range.
-/

import RoutePlanner.Route.FileLocationDatabase
import RoutePlanner.Std.Machine

namespace RoutePlanner.Route

open RoutePlanner.Std

structure FileRouteDatabase where
  routes : UnorderedMap Str (List Str)

namespace FileRouteDatabase

/-- The constructor. -/
def create : FileRouteDatabase := ⟨∅⟩

/-- The loop of `GetRoutesOnDisk` over the remaining lines. -/
def readRoutes (routesOnDisk : UnorderedMap Str (List Str)) :
    List Str → Except Fault (UnorderedMap Str (List Str))
  | [] => .ok routesOnDisk
  | line :: rest =>
      if trimCopy line = [] then readRoutes routesOnDisk rest
      else do
        let routeData := csvFields line
        let source ← Fault.index routeData 0
        let destinations := routeData.drop 1
        match routesOnDisk.find source with
        | none => readRoutes (routesOnDisk.insertNew source destinations) rest
        | some route => readRoutes (routesOnDisk.assign source (route ++ destinations)) rest

/-- `GetRoutesOnDisk`. -/
def getRoutesOnDisk : File → Except Fault (UnorderedMap Str (List Str))
  | none => .ok ∅
  | some content => readRoutes ∅ (Text.lines newline content)

/-- `Load`. -/
def load (db : FileRouteDatabase) (file : File) : Except Fault (Bool × FileRouteDatabase) := do
  let routesOnDisk ← getRoutesOnDisk file
  if routesOnDisk.size = 0 ∨ routesOnDisk.size = db.routes.size then return (false, db)
  else return (true, { routes := routesOnDisk })

/-- `GetRoutes`. -/
def getRoutes (db : FileRouteDatabase) (startLocation : Str) : List Str :=
  match db.routes.find startLocation with
  | some routes => routes
  | none => []

end FileRouteDatabase

/-! ## What a routes file says -/

/-- The lines of a file that are not blank. -/
def textLines : File → List Str
  | none => []
  | some content => (Text.lines newline content).filter fun line => trimCopy line ≠ []

/-- The first field of each line. -/
def fileSources (file : File) : List Str :=
  (textLines file).filterMap fun line => (csvFields line).head?

/-- The further fields of the lines that start with the given source, in file
order. -/
def fileRoutes (file : File) (source : Str) : List Str :=
  (textLines file).flatMap fun line =>
    if (csvFields line).head? = some source then (csvFields line).tail else []

theorem csvFields_ne_nil {line : Str} (h : trimCopy line ≠ []) : csvFields line ≠ [] :=
  fun hnil => Text.fields_ne_nil comma h (List.map_eq_nil_iff.mp hnil)

/-- A line that is not blank is a source and its destinations. -/
theorem exists_csvFields_eq_cons {line : Str} (h : trimCopy line ≠ []) :
    ∃ source destinations, csvFields line = source :: destinations :=
  List.exists_cons_of_ne_nil (csvFields_ne_nil h)

theorem mem_textLines {file : File} {line : Str} (h : line ∈ textLines file) :
    trimCopy line ≠ [] := by
  cases file with
  | none => exact absurd h List.not_mem_nil
  | some content => simpa using (List.mem_filter.mp h).2

/-- A source has destinations only if some line starts with it. -/
theorem fileRoutes_eq_nil {file : File} {source : Str} (h : source ∉ fileSources file) :
    fileRoutes file source = [] := by
  refine List.flatMap_eq_nil_iff.mpr fun line hline => if_neg fun hhead => h ?_
  exact List.mem_filterMap.mpr ⟨line, hline, hhead⟩

/-- A destination of a source is a further field of some line that starts with
it. -/
theorem mem_fileRoutes {file : File} {source destination : Str} :
    destination ∈ fileRoutes file source ↔
      ∃ line ∈ textLines file, ∃ destinations,
        csvFields line = source :: destinations ∧ destination ∈ destinations := by
  simp only [fileRoutes, List.mem_flatMap]
  refine exists_congr fun line => and_congr_right fun hline => ?_
  obtain ⟨first, others, heq⟩ := exists_csvFields_eq_cons (mem_textLines hline)
  simp only [heq, List.head?_cons, List.tail_cons, Option.some.injEq]
  by_cases hfirst : first = source
  · subst hfirst
    simp
  · rw [if_neg hfirst]
    apply Iff.intro
    · exact fun h => absurd h List.not_mem_nil
    · rintro ⟨destinations, hcons, -⟩
      exact absurd (List.cons.inj hcons).1 hfirst

namespace FileRouteDatabase

/-! ## Reading the file -/

/-- What the loop has collected after some lines: one entry for each source seen,
with the destinations of all its lines. -/
def Collected (routes : UnorderedMap Str (List Str)) (seen : List Str) : Prop :=
  ∀ source, routes.find source =
    if source ∈ seen.filterMap (fun line => (csvFields line).head?) then
      some (seen.flatMap fun line =>
        if (csvFields line).head? = some source then (csvFields line).tail else [])
    else none

theorem collected_empty : Collected ∅ [] := fun source => UnorderedMap.find_empty source

/-- One line keeps the loop invariant. -/
theorem readRoutes_cons {routes : UnorderedMap Str (List Str)} {seen : List Str}
    (hcollected : Collected routes seen) {line : Str} (hline : trimCopy line ≠ [])
    (rest : List Str) :
    ∃ routes', readRoutes routes (line :: rest) = readRoutes routes' rest ∧
      Collected routes' (seen ++ [line]) := by
  obtain ⟨source, destinations, heq⟩ := exists_csvFields_eq_cons hline
  have hindex : Fault.index (csvFields line) 0 = .ok source := by rw [heq]; rfl
  rw [readRoutes, if_neg hline]
  simp only [hindex, Fault.ok_bind]
  have hdrop : (csvFields line).drop 1 = destinations := by rw [heq]; rfl
  cases hfind : routes.find source with
  | none =>
      refine ⟨routes.insertNew source destinations, by rw [hdrop], fun other => ?_⟩
      have hfresh := hcollected source
      rw [hfind] at hfresh
      by_cases hother : other = source
      · subst hother
        have hseen : other ∉ seen.filterMap fun line => (csvFields line).head? := by
          intro hmem
          rw [if_pos hmem] at hfresh
          cases hfresh
        have hempty : (seen.flatMap fun line =>
            if (csvFields line).head? = some other then (csvFields line).tail else []) = [] :=
          List.flatMap_eq_nil_iff.mpr fun line' hline' => if_neg fun hhead =>
            hseen (List.mem_filterMap.mpr ⟨line', hline', hhead⟩)
        rw [UnorderedMap.find_insertNew, hfind, Option.none_or, if_pos rfl]
        simp [heq, hempty]
      · rw [UnorderedMap.find_insertNew, if_neg hother, Option.or_none, hcollected other]
        simp [heq, hother, Ne.symm hother]
  | some route =>
      refine ⟨routes.assign source (route ++ destinations), by rw [hdrop], fun other => ?_⟩
      by_cases hother : other = source
      · subst hother
        have hroute := hcollected other
        rw [hfind] at hroute
        by_cases hmem : other ∈ seen.filterMap fun line => (csvFields line).head?
        · rw [if_pos hmem] at hroute
          rw [UnorderedMap.find_assign_self, Option.some.inj hroute]
          simp [heq]
        · rw [if_neg hmem] at hroute
          cases hroute
      · rw [UnorderedMap.find_assign_of_ne _ hother, hcollected other]
        simp [heq, hother, Ne.symm hother]

/-- The loop reads any lines, skipping the blank ones. -/
theorem readRoutes_ok (rest : List Str) {routes : UnorderedMap Str (List Str)}
    {seen : List Str} (hcollected : Collected routes seen) :
    ∃ routes', readRoutes routes rest = .ok routes' ∧
      Collected routes' (seen ++ rest.filter fun line => trimCopy line ≠ []) := by
  induction rest generalizing routes seen with
  | nil => exact ⟨routes, rfl, by simpa using hcollected⟩
  | cons line rest ih =>
      by_cases hblank : trimCopy line = []
      · obtain ⟨routes', hread, hcollected'⟩ := ih hcollected
        refine ⟨routes', by rw [readRoutes, if_pos hblank, hread], ?_⟩
        rwa [List.filter_cons_of_neg (by simpa using hblank)]
      · obtain ⟨routes₁, hstep, hcollected₁⟩ := readRoutes_cons hcollected hblank rest
        obtain ⟨routes', hread, hcollected'⟩ := ih hcollected₁
        refine ⟨routes', by rw [hstep, hread], ?_⟩
        rw [List.filter_cons_of_pos (by simpa using hblank)]
        simpa using hcollected'

/-- Every routes file is read without a fault, into one entry for each source. -/
theorem getRoutesOnDisk_ok (file : File) :
    ∃ routes, getRoutesOnDisk file = .ok routes ∧
      (∀ source, routes.find source =
        if source ∈ fileSources file then some (fileRoutes file source) else none) ∧
      routes.size = (fileSources file).dedup.length := by
  have hread : ∃ routes, getRoutesOnDisk file = .ok routes ∧
      Collected routes (textLines file) := by
    cases file with
    | none => exact ⟨∅, rfl, collected_empty⟩
    | some content =>
        exact readRoutes_ok (Text.lines newline content) collected_empty
  obtain ⟨routes, hok, hcollected⟩ := hread
  refine ⟨routes, hok, hcollected, ?_⟩
  have hkeys : ∀ source, source ∈ routes.keys ↔ source ∈ (fileSources file).dedup := by
    intro source
    rw [← AList.mem_keys, UnorderedMap.mem_iff_of_find (hcollected source), List.mem_dedup]
    rfl
  exact ((List.perm_ext_iff_of_nodup (AList.keys_nodup _) (List.nodup_dedup _)).mpr
    hkeys).length_eq

/-! ## Loading -/

/-- A file has sources exactly when it has a line. -/
theorem length_dedup_fileSources_eq_zero {file : File} :
    (fileSources file).dedup.length = 0 ↔ textLines file = [] := by
  rw [List.length_eq_zero_iff, List.dedup_eq_nil]
  apply Iff.intro
  · intro hnil
    rw [List.eq_nil_iff_forall_not_mem]
    intro line hline
    obtain ⟨source, destinations, heq⟩ := exists_csvFields_eq_cons (mem_textLines hline)
    have hmem : source ∈ fileSources file :=
      List.mem_filterMap.mpr ⟨line, hline, by rw [heq]; rfl⟩
    rw [hnil] at hmem
    exact absurd hmem List.not_mem_nil
  · intro hnil
    rw [fileSources, hnil, List.filterMap_nil]

/-- The database answers as a file says, with one entry for each of its sources. -/
structure Holds (db : FileRouteDatabase) (held : File) : Prop where
  routes : ∀ source, db.getRoutes source = fileRoutes held source
  size : db.routes.size = (fileSources held).dedup.length

theorem Holds.create : Holds FileRouteDatabase.create none :=
  ⟨fun _ => rfl, rfl⟩

/-- A load keeps the database or replaces it by what the file says; the decision
compares two numbers of sources. -/
theorem load_cases (db : FileRouteDatabase) (file : File) :
    ((textLines file = [] ∨ (fileSources file).dedup.length = db.routes.size) ∧
        db.load file = .ok (false, db)) ∨
      (¬ (textLines file = [] ∨ (fileSources file).dedup.length = db.routes.size) ∧
        ∃ db', db.load file = .ok (true, db') ∧ Holds db' file) := by
  obtain ⟨routes, hread, hfind, hsize⟩ := getRoutesOnDisk_ok file
  have hzero : routes.size = 0 ↔ textLines file = [] := by
    rw [hsize, length_dedup_fileSources_eq_zero]
  rw [load, hread, Fault.ok_bind, ← hzero, ← hsize]
  by_cases hskip : routes.size = 0 ∨ routes.size = db.routes.size
  · exact Or.inl ⟨hskip, by rw [if_pos hskip]; rfl⟩
  · refine Or.inr ⟨hskip, ⟨routes⟩, by rw [if_neg hskip]; rfl, fun source => ?_, hsize⟩
    simp only [getRoutes, hfind source]
    by_cases hmem : source ∈ fileSources file
    · rw [if_pos hmem]
    · rw [if_neg hmem, fileRoutes_eq_nil hmem]

/-- The load of an abstract store that remembers which file it took over last. -/
def refreshRoutes (held file : File) : Bool × File :=
  if textLines file = [] ∨ (fileSources file).dedup.length = (fileSources held).dedup.length then
    (false, held)
  else (true, file)

/-- The database follows the abstract store on every file. -/
theorem load_refines {db : FileRouteDatabase} {held : File} (hdb : Holds db held) (file : File) :
    ∃ db', db.load file = .ok ((refreshRoutes held file).1, db') ∧
      Holds db' (refreshRoutes held file).2 := by
  rw [refreshRoutes, ← hdb.size]
  rcases db.load_cases file with ⟨hskip, hload⟩ | ⟨hreplace, db', hload, hdb'⟩
  · rw [if_pos hskip]
    exact ⟨db, hload, hdb⟩
  · rw [if_neg hreplace]
    exact ⟨db', hload, hdb'⟩

/-- A load as a step. -/
def exec (db : FileRouteDatabase) (file : File) : Except Fault FileRouteDatabase := do
  let (_, db) ← db.load file
  return db

/-- The database after a history of loads that starts with its construction. -/
def run (files : List File) : Except Fault FileRouteDatabase := Machine.run exec create files

theorem run_ok (files : List File) : ∃ db, run files = .ok db := by
  have hstep : ∀ (db : FileRouteDatabase) (file : File), True → True →
      ∃ db', db.exec file = .ok db' ∧ True := by
    intro db file _ _
    rcases db.load_cases file with ⟨-, hload⟩ | ⟨-, db', hload, -⟩
    · exact ⟨db, by rw [exec, hload]; rfl, trivial⟩
    · exact ⟨db', by rw [exec, hload]; rfl, trivial⟩
  obtain ⟨db, hrun, -⟩ := Machine.run_invariant hstep trivial files fun _ _ _ _ _ _ _ => trivial
  exact ⟨db, hrun⟩

/-- After loading a file with a line the database answers as the file says, and
the load reported an update if it answered differently before; a file without a
line is reported as no update and changes no answer. -/
def Refreshes (db : FileRouteDatabase) (file : File) : Prop :=
  ∃ updated db', db.load file = .ok (updated, db') ∧
    (textLines file ≠ [] →
      (∀ source, db'.getRoutes source = fileRoutes file source) ∧
        ((∃ source, db.getRoutes source ≠ fileRoutes file source) → updated = true)) ∧
    (textLines file = [] →
      updated = false ∧ ∀ source, db'.getRoutes source = db.getRoutes source)

/-- After any history, loading a file refreshes the database exactly when the
file has no line, or has another number of sources than the database holds, or
gives every source the destinations held already. -/
theorem loadRoutes_refreshes_iff (files : List File) :
    ∃ db, run files = .ok db ∧ ∀ file,
      (Refreshes db file ↔
        textLines file = [] ∨ (fileSources file).dedup.length ≠ db.routes.size ∨
          ∀ source, db.getRoutes source = fileRoutes file source) := by
  obtain ⟨db, hrun⟩ := run_ok files
  refine ⟨db, hrun, fun file => ?_⟩
  rcases db.load_cases file with ⟨hskip, hload⟩ | ⟨hreplace, db₁, hload, hdb₁⟩
  · apply Iff.intro
    · rintro ⟨updated, db', hload', hrefresh, -⟩
      obtain ⟨rfl, rfl⟩ := Prod.mk.inj (Except.ok.inj (hload.symm.trans hload'))
      by_cases hlines : textLines file = []
      · exact Or.inl hlines
      · exact Or.inr (Or.inr (hrefresh hlines).1)
    · intro hcond
      refine ⟨false, db, hload, fun hlines => ?_, fun _ => ⟨rfl, fun _ => rfl⟩⟩
      have hsame : ∀ source, db.getRoutes source = fileRoutes file source :=
        (hcond.resolve_left hlines).resolve_left
          (not_not.mpr (hskip.resolve_left hlines))
      exact ⟨hsame, fun ⟨source, hne⟩ => absurd (hsame source) hne⟩
  · obtain ⟨hlines, hcount⟩ := not_or.mp hreplace
    refine ⟨fun _ => Or.inr (Or.inl hcount), fun _ => ?_⟩
    exact ⟨true, db₁, hload, fun _ => ⟨hdb₁.routes, fun _ => rfl⟩, fun h => absurd h hlines⟩

/-- A changed destination in a file with as many sources as before is not taken
over. -/
theorem not_refreshes_changed_destination :
    ∃ db, run [some (str "London, Bath")] = .ok db ∧
      textLines (some (str "London, Leeds")) ≠ [] ∧
      ¬ Refreshes db (some (str "London, Leeds")) := by
  obtain ⟨db, hrun⟩ := run_ok [some (str "London, Bath")]
  have hlines : textLines (some (str "London, Leeds")) ≠ [] := by decide
  refine ⟨db, hrun, hlines, ?_⟩
  rintro ⟨updated, db', hload, hrefresh, -⟩
  have hanswer : (do
      let db ← run [some (str "London, Bath")]
      let (_, db) ← db.load (some (str "London, Leeds"))
      return db.getRoutes (str "London")) = .ok [str "Bath"] := by decide
  rw [hrun, Fault.ok_bind, hload, Fault.ok_bind] at hanswer
  have hroutes := (hrefresh hlines).1 (str "London")
  rw [Except.ok.inj hanswer] at hroutes
  exact absurd hroutes (by decide)

end FileRouteDatabase

end RoutePlanner.Route
