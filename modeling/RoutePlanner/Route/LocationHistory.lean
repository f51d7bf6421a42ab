/-
# Histories of the location database

A history is any sequence of loads, with destinations added to listed locations
in between.  The abstract store's history needs no heap; the theorems here say
along which histories the database follows it.
-/

import RoutePlanner.Route.LocationReload

namespace RoutePlanner.Route

open RoutePlanner.Std

namespace FileLocationDatabase

/-- What is done to a location database between its construction and its
destruction.  A destination is added between two positions of `GetLocations()`. -/
inductive Call
  | load (file : File)
  | addDestination (start destination : Nat)

/-- One call. -/
def exec (db : FileLocationDatabase) : Call → Except Fault FileLocationDatabase
  | .load file => do
      let (_, db) ← db.load file
      return db
  | .addDestination start destination =>
      match db.getLocations[start]?, db.getLocations[destination]? with
      | some p, some q => db.addDestination p q
      | _, _ => .ok db

/-- The database after a history that starts with its construction. -/
def run (calls : List Call) : Except Fault FileLocationDatabase :=
  Machine.run exec create calls

/-- What a caller of `GetLocations()` reads. -/
def listEntries (db : FileLocationDatabase) : Except Fault (List Entry) :=
  db.getLocations.mapM fun p => do
    let object ← db.heap.deref p
    return (object.name, object.cost)

/-- Some line's cost is not a number, and every line before it is good. -/
def GivesUp (file : File) : Prop := fileEntries file = .error .invalidArgument

/-- Every line parses; also an empty or a missing file. -/
def Parses (file : File) : Prop := ∃ entries, fileEntries file = .ok entries

/-! ## The abstract history -/

/-- What the store holds after a call. -/
def storeNext (held : List Entry) : Call → List Entry
  | .load file =>
      match fileEntries file with
      | .ok entries => (refresh held entries).2
      | .error _ => held
  | .addDestination _ _ => held

theorem refresh_eq_nil {held entries : List Entry} :
    (refresh held entries).2 = [] ↔ held = [] ∧ entries = [] := by
  rw [refresh]
  split
  · rename_i hskip
    apply Iff.intro
    · rintro rfl
      exact ⟨rfl, by simpa using hskip⟩
    · exact And.left
  · rename_i hreplace
    apply Iff.intro
    · rintro rfl
      exact absurd (Or.inl rfl) hreplace
    · exact And.right

/-- The store holds nothing as long as no file with a line was loaded. -/
theorem foldl_storeNext_eq_nil (calls : List Call) :
    calls.foldl storeNext [] = [] ↔
      ∀ file entries, Call.load file ∈ calls → fileEntries file = .ok entries →
        entries = [] := by
  induction calls using List.reverseRecOn with
  | nil => simp
  | append_singleton calls call ih =>
      rw [List.foldl_append, List.foldl_cons, List.foldl_nil]
      cases call with
      | addDestination start destination =>
          rw [storeNext, ih]
          simp
      | load file =>
          cases hfile : fileEntries file with
          | error e =>
              simp only [storeNext, hfile, ih, List.mem_append, List.mem_singleton, Call.load.injEq]
              apply Iff.intro
              · rintro h file' entries (hmem | rfl) hok
                · exact h file' entries hmem hok
                · rw [hfile] at hok
                  cases hok
              · exact fun h file' entries hmem => h file' entries (Or.inl hmem)
          | ok entries =>
              simp only [storeNext, hfile, refresh_eq_nil, ih, List.mem_append,
                List.mem_singleton, Call.load.injEq]
              apply Iff.intro
              · rintro ⟨h, hnil⟩ file' entries' (hmem | rfl) hok
                · exact h file' entries' hmem hok
                · rw [hfile] at hok
                  exact (Except.ok.inj hok).symm.trans hnil
              · exact fun h => ⟨fun file' entries' hmem => h file' entries' (Or.inl hmem),
                  h file entries (Or.inr rfl) hfile⟩

/-! ## The database along a history -/

theorem Holds.listEntries_eq {db : FileLocationDatabase} {held : List Entry}
    (h : Holds db held) : db.listEntries = .ok held := by
  have hread := h.mapM_deref (fun object => (object.name, object.cost)) id fun _ => rfl
  rwa [List.map_id] at hread

/-- A call after which the pointers are as sound as before: not a load that
gives up while locations are held. -/
def Harmless (db : FileLocationDatabase) (call : Call) : Prop :=
  ∀ file, call = .load file → Parses file ∨ (GivesUp file ∧ db.locationList = [])

/-- One harmless call on a sound database follows the store. -/
theorem exec_refines {db : FileLocationDatabase} {held : List Entry} (hdb : Holds db held)
    (call : Call) (hcall : Harmless db call) :
    ∃ db', db.exec call = .ok db' ∧ Holds db' (storeNext held call) := by
  cases call with
  | load file =>
      rcases hcall file rfl with ⟨entries, hfile⟩ | ⟨hfile, hnil⟩
      · obtain ⟨db', hload, hdb'⟩ := load_refines hdb hfile
        refine ⟨db', ?_, ?_⟩
        · rw [exec, hload]
          rfl
        · simpa only [storeNext, hfile] using hdb'
      · obtain rfl : held = [] := List.length_eq_zero_iff.mp (hdb.length_eq ▸ by rw [hnil]; rfl)
        obtain ⟨db', hload, hdb', -, -⟩ := load_giveUp_of_nil hdb hfile
        refine ⟨db', ?_, ?_⟩
        · rw [exec, hload]
          rfl
        · have hstore : storeNext [] (.load file) = [] := by
            rw [storeNext, show fileEntries file = .error .invalidArgument from hfile]
          rwa [hstore]
  | addDestination start destination =>
      rw [exec]
      split
      · rename_i p q hp hq
        obtain ⟨_, _, heap, _, _, hadd, _, _, hdb'⟩ := addDestination_of_holds hdb
          (List.mem_of_getElem? hp) (List.mem_of_getElem? hq)
        exact ⟨_, hadd, hdb'⟩
      · exact ⟨db, rfl, hdb⟩

/-- The database follows the store along every history of harmless calls. -/
theorem run_refines (calls : List Call)
    (hcalls : ∀ pre call post db, calls = pre ++ call :: post → run pre = .ok db →
      Holds db (pre.foldl storeNext []) → Harmless db call) :
    ∃ db, run calls = .ok db ∧ Holds db (calls.foldl storeNext []) :=
  @Machine.run_simulation _ _ _ exec Holds Harmless storeNext
    (fun _ _ call hdb => exec_refines hdb call) _ _ Holds.create calls hcalls

/-! ## A load that fails -/

/-- No entry of the list or the map refers to a deleted object. -/
structure Intact (db : FileLocationDatabase) : Prop where
  list : ∀ p ∈ db.getLocations, db.heap.Live p
  map : ∀ name p, db.getLocation name = some p → db.heap.Live p

/-- List and map are the same, and every object they refer to is still live with
the name, cost and destinations it had. -/
structure Kept (db db' : FileLocationDatabase) : Prop where
  list : db'.locationList = db.locationList
  map : db'.locationMap = db.locationMap
  objects : ∀ p, (p ∈ db.getLocations ∨ ∃ name, db.getLocation name = some p) →
    ∃ object, db.heap.cell p = some object ∧ db'.heap.cell p = some object

/-- Along the history no object is deleted twice and no entry refers to a
deleted one, also when the destructor runs next; and a load that gives up
reports it and keeps the previous locations. -/
structure FailureSafe (calls : List Call) : Prop where
  intact : ∀ pre post, calls = pre ++ post →
    ∃ db, run pre = .ok db ∧ Intact db ∧ ∃ db', db.destroy = .ok db'
  kept : ∀ pre file post db, calls = pre ++ .load file :: post → GivesUp file →
    run pre = .ok db → ∃ db', db.load file = .ok (false, db') ∧ Kept db db'

/-- Every file with a bad cost is loaded before the first good file that has a
line. -/
def BadFilesFirst (calls : List Call) : Prop :=
  ∀ pre file post, calls = pre ++ .load file :: post → GivesUp file →
    ∀ earlier entries, Call.load earlier ∈ pre → fileEntries earlier = .ok entries →
      entries = []

theorem Holds.intact {db : FileLocationDatabase} {held : List Entry} (h : Holds db held) :
    Intact db :=
  ⟨fun _ => h.live, fun _ _ hp => h.live (h.mem_of_getLocation hp)⟩

theorem Holds.locationList_eq_nil {db : FileLocationDatabase} {held : List Entry}
    (h : Holds db held) : db.locationList = [] ↔ held = [] := by
  rw [← List.length_eq_zero_iff, h.length_eq, List.length_eq_zero_iff]

/-- Giving up while a location is held does not keep it. -/
theorem not_kept_of_giveUp {db db' : FileLocationDatabase} {file : File} {updated : Bool}
    (hfile : GivesUp file) (hload : db.load file = .ok (updated, db'))
    (hne : db.locationList ≠ []) : ¬ Kept db db' := by
  intro hkept
  obtain ⟨p, hp⟩ := List.exists_mem_of_ne_nil _ hne
  obtain ⟨object, -, hcell⟩ := hkept.objects p (Or.inl hp)
  obtain ⟨-, -, -, hdead⟩ := not_live_of_load_giveUp hfile hload
  exact hdead p hp (Heap.live_iff.mpr ⟨object, hcell⟩)

/-- Over histories of good, bad, empty and missing files: failed loads keep the
previous locations, and nothing is deleted twice or left dangling, exactly when
no bad file follows a good one that has a line. -/
theorem failureSafe_iff (calls : List Call)
    (hfiles : ∀ file, Call.load file ∈ calls → Parses file ∨ GivesUp file) :
    FailureSafe calls ↔ BadFilesFirst calls := by
  apply Iff.intro
  · intro hsafe
    -- a bad load at which something is held would contradict `kept`
    have hnil : ∀ pre file post db, calls = pre ++ .load file :: post → GivesUp file →
        run pre = .ok db → db.locationList = [] := by
      intro pre file post db heq hfile hrun
      obtain ⟨db', hload, hkept⟩ := hsafe.kept pre file post db heq hfile hrun
      by_contra hne
      exact not_kept_of_giveUp hfile hload hne hkept
    intro pre file post heq hfile
    have hharmless : ∀ pre' call post' db, pre = pre' ++ call :: post' → run pre' = .ok db →
        Holds db (pre'.foldl storeNext []) → Harmless db call := by
      rintro pre' call post' db rfl hrun - file' rfl
      have hmem : Call.load file' ∈ calls := by simp [heq]
      refine (hfiles file' hmem).imp id fun hgives => ⟨hgives, ?_⟩
      exact hnil pre' file' (post' ++ .load file :: post) db (by simp [heq]) hgives hrun
    obtain ⟨db, hrun, hdb⟩ := run_refines pre hharmless
    exact fun earlier entries => (foldl_storeNext_eq_nil pre).mp
      (hdb.locationList_eq_nil.mp (hnil pre file post db heq hfile hrun)) earlier entries
  · intro hfirst
    have hholds : ∀ pre post, calls = pre ++ post →
        ∃ db, run pre = .ok db ∧ Holds db (pre.foldl storeNext []) := by
      intro pre post heq
      apply run_refines pre
      rintro pre' call post' db rfl - hdb file rfl
      refine (hfiles file (by simp [heq])).imp id fun hgives => ⟨hgives, ?_⟩
      exact hdb.locationList_eq_nil.mpr ((foldl_storeNext_eq_nil pre').mpr
        (hfirst pre' file (post' ++ post) (by simp [heq]) hgives))
    refine ⟨?_, ?_⟩
    · intro pre post heq
      obtain ⟨db, hrun, hdb⟩ := hholds pre post heq
      exact ⟨db, hrun, hdb.intact, destroy_of_holds hdb⟩
    · intro pre file post db heq hfile hrun
      obtain ⟨db₁, hrun₁, hdb⟩ := hholds pre _ heq
      obtain rfl : db₁ = db := Except.ok.inj (hrun₁.symm.trans hrun)
      have hnil := (foldl_storeNext_eq_nil pre).mpr (hfirst pre file post heq hfile)
      rw [hnil] at hdb
      obtain ⟨db', hload, -, hlist, hmap⟩ := load_giveUp_of_nil hdb hfile
      refine ⟨db', hload, hlist, hmap, fun p hp => ?_⟩
      have hlist₀ : db₁.locationList = [] := hdb.locationList_eq_nil.mpr rfl
      have hp' : p ∈ db₁.locationList :=
        hp.elim id fun ⟨_, hget⟩ => hdb.mem_of_getLocation hget
      rw [hlist₀] at hp'
      exact absurd hp' List.not_mem_nil

theorem failureSafe_iff_bad_then_good :
    FailureSafe [.load (some (str "London, x")), .load (some (str "London, 5"))] ↔
      BadFilesFirst [.load (some (str "London, x")), .load (some (str "London, 5"))] :=
  failureSafe_iff _ (by
    simp only [List.mem_cons, List.not_mem_nil, or_false, Call.load.injEq]
    rintro file (rfl | rfl)
    · exact Or.inr (by unfold GivesUp; decide)
    · exact Or.inl ⟨[(str "London", 5)], by decide⟩)

/-- A good file and then a bad one: the location held is deleted by the failed
load and stays in the list. -/
theorem not_failureSafe_good_then_bad :
    ¬ FailureSafe [.load (some (str "London, 5")), .load (some (str "London, x"))] := by
  intro hsafe
  obtain ⟨db, hrun, -⟩ := hsafe.intact [.load (some (str "London, 5"))] _ rfl
  have hgives : GivesUp (some (str "London, x")) := by unfold GivesUp; decide
  obtain ⟨db', hload, hkept⟩ := hsafe.kept [.load (some (str "London, 5"))] _ [] db rfl hgives hrun
  have hlist : (run [.load (some (str "London, 5"))]).map locationList = .ok [0] := by decide
  rw [hrun] at hlist
  refine not_kept_of_giveUp hgives hload ?_ hkept
  rw [Except.ok.inj hlist]
  exact List.cons_ne_nil _ _

/-! ## A load that succeeds -/

/-- After a load the listed locations are the entries of the file, and the load
reported an update if they differ from those listed before. -/
def Refreshes (db : FileLocationDatabase) (file : File) (entries : List Entry) : Prop :=
  ∃ held updated db', db.listEntries = .ok held ∧ db.load file = .ok (updated, db') ∧
    db'.listEntries = .ok entries ∧ (held ≠ entries → updated = true)

/-- After any history of files that parse, loading a file with at least one line
refreshes the database exactly when the number of lines differs from the number
of distinct names held or the file says what is held already. -/
theorem load_refreshes_iff (calls : List Call)
    (hfiles : ∀ file, Call.load file ∈ calls → Parses file) :
    ∃ db held, run calls = .ok db ∧ db.listEntries = .ok held ∧
      ∀ file entries, fileEntries file = .ok entries → entries ≠ [] →
        (Refreshes db file entries ↔
          entries.length ≠ (held.map Prod.fst).dedup.length ∨ held = entries) := by
  obtain ⟨db, hrun, hdb⟩ := run_refines calls (by
    rintro pre call post db heq - - file rfl
    exact Or.inl (hfiles file (by simp [heq])))
  refine ⟨db, _, hrun, hdb.listEntries_eq, fun file entries hfile hne => ?_⟩
  generalize calls.foldl storeNext [] = held at hdb ⊢
  obtain ⟨db', hload, hdb'⟩ := load_refines hdb hfile
  have hlen : entries.length ≠ 0 := fun h => hne (List.length_eq_zero_iff.mp h)
  -- the load is a function, so the property is one of the abstract store
  have hstore : Refreshes db file entries ↔
      (refresh held entries).2 = entries ∧
        (held ≠ entries → (refresh held entries).1 = true) := by
    apply Iff.intro
    · rintro ⟨held₁, updated, db₁, hheld, hload₁, hentries, hupdated⟩
      obtain rfl := Except.ok.inj (hdb.listEntries_eq.symm.trans hheld)
      obtain ⟨rfl, rfl⟩ := Prod.mk.inj (Except.ok.inj (hload.symm.trans hload₁))
      exact ⟨Except.ok.inj (hdb'.listEntries_eq.symm.trans hentries), hupdated⟩
    · rintro ⟨hentries, hupdated⟩
      refine ⟨held, _, db', hdb.listEntries_eq, hload, ?_, hupdated⟩
      rw [hdb'.listEntries_eq, hentries]
  rw [hstore, refresh]
  by_cases hcount : entries.length = (held.map Prod.fst).dedup.length
  · rw [if_pos (Or.inr hcount)]
    exact ⟨fun h => Or.inr h.1, fun h =>
      (h.resolve_left (not_not.mpr hcount)).symm ▸ ⟨rfl, fun hne' => absurd rfl hne'⟩⟩
  · rw [if_neg (not_or.mpr ⟨hlen, hcount⟩)]
    exact ⟨fun _ => Or.inl hcount, fun _ => ⟨rfl, fun _ => rfl⟩⟩

theorem load_refreshes_iff_after_london :
    ∃ db held, run [.load (some (str "London, 5"))] = .ok db ∧ db.listEntries = .ok held ∧
      ∀ file entries, fileEntries file = .ok entries → entries ≠ [] →
        (Refreshes db file entries ↔
          entries.length ≠ (held.map Prod.fst).dedup.length ∨ held = entries) :=
  load_refreshes_iff _ (by
    simp only [List.mem_singleton, Call.load.injEq]
    rintro file rfl
    exact ⟨[(str "London", 5)], by decide⟩)

/-- A changed cost in a file with as many lines as before is not taken over. -/
theorem not_refreshes_changed_cost :
    ∃ db, run [.load (some (str "London, 5"))] = .ok db ∧
      fileEntries (some (str "London, 6")) = .ok [(str "London", 6)] ∧
      ¬ Refreshes db (some (str "London, 6")) [(str "London", 6)] := by
  obtain ⟨db, hrun⟩ : ∃ db, run [.load (some (str "London, 5"))] = .ok db := ⟨_, rfl⟩
  refine ⟨db, hrun, by decide, ?_⟩
  rintro ⟨held, updated, db', -, hload, hentries, -⟩
  have hlisted : (do
      let db ← run [.load (some (str "London, 5"))]
      let (_, db) ← db.load (some (str "London, 6"))
      db.listEntries) = .ok [(str "London", 5)] := by decide
  rw [hrun, Fault.ok_bind, hload, Fault.ok_bind] at hlisted
  exact absurd (hentries.symm.trans hlisted) (by decide)

end FileLocationDatabase

end RoutePlanner.Route
