/-
# Every state of the location database

A history may load files of any kind and may delete objects that are still listed.
Whatever it did, as long as it returned, the list has no address twice, and list
and map have only addresses that were handed out.  That is enough to say what the
next load does, and when a second load of an unchanged file does nothing.
-/

import RoutePlanner.Route.LocationHistory

namespace RoutePlanner.Route

open RoutePlanner.Std

namespace FileLocationDatabase

/-- What every history leaves of the addresses, live or dead. -/
structure Sound (db : FileLocationDatabase) : Prop where
  nodup : db.locationList.Nodup
  allocated : ∀ p ∈ db.locationList, p < db.heap.next

/-- The file is not taken over: it has no line, or as many as the map has names. -/
def Skips (db : FileLocationDatabase) (entries : List Entry) : Prop :=
  entries.length = 0 ∨ entries.length = db.locationMap.size

theorem Holds.sound {db : FileLocationDatabase} {held : List Entry} (h : Holds db held) :
    Sound db :=
  ⟨h.nodup, fun _ hp => Heap.lt_next_of_live (h.live hp)⟩

/-- A heap that has only grown keeps the addresses sound. -/
theorem Sound.of_next_le {db : FileLocationDatabase} (h : Sound db) {heap : Heap Location}
    (hnext : db.heap.next ≤ heap.next) : Sound { db with heap } :=
  ⟨h.nodup, fun p hp => Nat.lt_of_lt_of_le (h.allocated p hp) hnext⟩

/-! ## One load -/

section Load

variable {db : FileLocationDatabase} {file : File} {entries : List Entry}

theorem load_of_fault {f : Fault} (h : fileEntries file = .error (.fault f)) :
    db.load file = .error f := by
  cases file with
  | none => cases h
  | some content =>
      rw [load, getLocationsOnDisk, readEntries_of_fault db [] h]
      rfl

/-- Objects are deleted in the heap that holds the new ones too. -/
theorem freeAll_allocAll_returns_iff (hdb : Sound db) (entries : List Entry) :
    (∃ heap, (db.heap.allocAll (entries.map newLocation)).2.freeAll db.locationList = .ok heap) ↔
      ∀ p ∈ db.locationList, db.heap.Live p := by
  rw [Heap.freeAll_returns_iff, and_iff_right hdb.nodup]
  exact forall₂_congr fun p hp => Heap.live_allocAll (hdb.allocated p hp) _

/-- A file is taken over only from a database whose objects are live. -/
theorem live_of_load (hdb : Sound db) (h : fileEntries file = .ok entries)
    (hreplace : ¬ Skips db entries) {updated : Bool} {db' : FileLocationDatabase}
    (hload : db.load file = .ok (updated, db')) : ∀ p ∈ db.locationList, db.heap.Live p := by
  rw [load, getLocationsOnDisk_of_ok h, Fault.ok_bind] at hload
  rw [Skips] at hreplace
  simp only [Heap.length_allocAll, List.length_map, if_neg hreplace] at hload
  obtain ⟨cleared, hdelete, -⟩ := Fault.bind_eq_ok.mp hload
  obtain ⟨heap, hfree, -⟩ := Fault.bind_eq_ok.mp hdelete
  exact (freeAll_allocAll_returns_iff hdb entries).mp ⟨heap, hfree⟩

/-- A load that returns has kept the list, or has replaced it by live objects. -/
theorem Sound.load (hdb : Sound db) {updated : Bool} {db' : FileLocationDatabase}
    (hload : db.load file = .ok (updated, db')) : Sound db' := by
  cases hfile : fileEntries file with
  | ok entries =>
      by_cases hskip : Skips db entries
      · rw [load_of_skip hfile hskip] at hload
        obtain ⟨-, rfl⟩ := Prod.mk.inj (Except.ok.inj hload)
        exact hdb.of_next_le (db.heap.next_le_allocAll _)
      · have hlive := live_of_load hdb hfile hskip hload
        obtain ⟨db₁, hload₁, hholds, -⟩ := load_of_replace hdb.nodup hlive hfile hskip
        obtain ⟨-, rfl⟩ := Prod.mk.inj (Except.ok.inj (hload₁.symm.trans hload))
        exact hholds.sound
  | error e =>
      cases e with
      | fault f =>
          rw [load_of_fault hfile] at hload
          cases hload
      | invalidArgument =>
          obtain ⟨entries, heq⟩ := @load_of_giveUp db _ hfile
          rw [heq] at hload
          obtain ⟨heap, hfree, hreturn⟩ := Fault.bind_eq_ok.mp hload
          obtain ⟨-, rfl⟩ := Prod.mk.inj (Except.ok.inj hreturn)
          obtain ⟨hnodup, hlive⟩ := Heap.freeAll_returns_iff.mp ⟨heap, hfree⟩
          obtain ⟨heap₁, hfree₁, -, -, hnext₁⟩ := Heap.freeAll_of_live hnodup hlive
          obtain rfl := Except.ok.inj (hfree₁.symm.trans hfree)
          exact hdb.of_next_le (hnext₁ ▸ db.heap.next_le_allocAll _)

end Load

/-! ## Any history -/

/-- Adding a destination changes an object and no address. -/
theorem addDestination_eq_ok {db db' : FileLocationDatabase} {start destination : Ptr}
    (hadd : db.addDestination start destination = .ok db') :
    ∃ heap, db' = { db with heap } ∧ heap.next = db.heap.next := by
  obtain ⟨object, -, hadd⟩ := Fault.bind_eq_ok.mp hadd
  obtain ⟨heap, hmodify, hreturn⟩ := Fault.bind_eq_ok.mp hadd
  refine ⟨heap, (Except.ok.inj hreturn).symm, ?_⟩
  cases hcell : db.heap.cell start with
  | none =>
      unfold Heap.modify at hmodify
      split at hmodify
      · rename_i location hlocation
        rw [hcell] at hlocation
        cases hlocation
      · cases hmodify
  | some location =>
      obtain ⟨heap₁, hmodify₁, -, hnext⟩ := Heap.modify_of_cell hcell
        fun location => location.addDestination object destination
      obtain rfl := Except.ok.inj (hmodify₁.symm.trans hmodify)
      exact hnext

/-- The call of a destination keeps everything but the heap. -/
theorem exec_addDestination_eq_ok {db db' : FileLocationDatabase} {start destination : Nat}
    (hexec : db.exec (.addDestination start destination) = .ok db') :
    ∃ heap, db' = { db with heap } ∧ heap.next = db.heap.next := by
  rw [exec] at hexec
  split at hexec
  · exact addDestination_eq_ok hexec
  · exact ⟨db.heap, (Except.ok.inj hexec).symm, rfl⟩

theorem Sound.exec {db db' : FileLocationDatabase} {call : Call} (hdb : Sound db)
    (hexec : db.exec call = .ok db') : Sound db' := by
  cases call with
  | load file =>
      obtain ⟨⟨updated, db₁⟩, hload, hreturn⟩ := Fault.bind_eq_ok.mp hexec
      obtain rfl := Except.ok.inj hreturn
      exact hdb.load hload
  | addDestination start destination =>
      obtain ⟨heap, rfl, hnext⟩ := exec_addDestination_eq_ok hexec
      exact hdb.of_next_le (Nat.le_of_eq hnext.symm)

/-- Every state that a history reaches is sound, whatever files were loaded. -/
theorem sound_of_run {calls : List Call} {db : FileLocationDatabase} (hrun : run calls = .ok db) :
    Sound db :=
  Machine.run_keeps (fun _ _ _ => Sound.exec) Holds.create.sound hrun

/-! ## Loading twice -/

/-- Destinations added between positions of `GetLocations()`, one after the other. -/
def addDestinations (db : FileLocationDatabase) (additions : List (Nat × Nat)) :
    Except Fault FileLocationDatabase :=
  Machine.run exec db (additions.map fun pair => .addDestination pair.1 pair.2)

/-- List and map are the same, and every object is as it was, its destinations
included. -/
structure Unchanged (db db' : FileLocationDatabase) : Prop where
  list : db'.locationList = db.locationList
  map : db'.locationMap = db.locationMap
  objects : ∀ p object, db.heap.cell p = some object → db'.heap.cell p = some object

/-- The file is loaded, destinations are added, and the file is loaded again: the
second load reports no update and changes nothing. -/
def LoadsOnce (db : FileLocationDatabase) (file : File) : Prop :=
  ∃ updated db₁, db.load file = .ok (updated, db₁) ∧
    ∀ additions db₂, db₁.addDestinations additions = .ok db₂ →
      ∃ db₃, db₂.load file = .ok (false, db₃) ∧ Unchanged db₂ db₃

theorem addDestinations_eq_ok {db db' : FileLocationDatabase} {additions : List (Nat × Nat)}
    (hadd : db.addDestinations additions = .ok db') :
    db'.locationList = db.locationList ∧ db'.locationMap = db.locationMap := by
  induction additions generalizing db with
  | nil =>
      obtain rfl := Except.ok.inj hadd
      exact ⟨rfl, rfl⟩
  | cons pair additions ih =>
      obtain ⟨db₁, hexec, hrest⟩ := Fault.bind_eq_ok.mp hadd
      obtain ⟨heap, rfl, -⟩ := exec_addDestination_eq_ok hexec
      exact @ih { db with heap } hrest

/-- A load that skips the file changes nothing. -/
theorem unchanged_of_skip {db : FileLocationDatabase} {file : File} {entries : List Entry}
    (hfile : fileEntries file = .ok entries) (hskip : Skips db entries) :
    ∃ db', db.load file = .ok (false, db') ∧ Unchanged db db' := by
  refine ⟨_, load_of_skip hfile hskip, rfl, rfl, fun p object hcell => ?_⟩
  rw [Heap.cell_allocAll_of_live (Heap.live_iff.mpr ⟨object, hcell⟩), hcell]

/-- The map has as many names as there are entries if no name is repeated. -/
theorem Holds.length_eq_size_map_iff {db : FileLocationDatabase} {held : List Entry}
    (h : Holds db held) : held.length = db.locationMap.size ↔ (held.map Prod.fst).Nodup := by
  rw [h.size_map, ← @List.length_map _ _ held Prod.fst, eq_comm]
  exact ⟨fun hlen => List.dedup_eq_self.mp ((List.dedup_sublist _).eq_of_length hlen),
    fun hnodup => by rw [hnodup.dedup]⟩

/-- In every state that any history reaches, a second load of a file that parses
does nothing exactly when the first load skips the file already, or the names of
the file are pairwise different and the objects that the first load deletes are
live. -/
theorem loadsOnce_iff {calls : List Call} {db : FileLocationDatabase} (hrun : run calls = .ok db)
    {file : File} {entries : List Entry} (hfile : fileEntries file = .ok entries) :
    LoadsOnce db file ↔
      entries.length = 0 ∨ entries.length = db.locationMap.size ∨
        ((entries.map Prod.fst).Nodup ∧ ∀ p ∈ db.getLocations, db.heap.Live p) := by
  have hdb := sound_of_run hrun
  rw [← or_assoc]
  by_cases hskip : Skips db entries
  · refine iff_of_true ?_ (Or.inl hskip)
    refine ⟨false, _, load_of_skip hfile hskip, fun additions db₂ hadd => ?_⟩
    obtain ⟨-, hmap⟩ := addDestinations_eq_ok hadd
    exact unchanged_of_skip hfile (by rw [Skips, hmap]; exact hskip)
  · -- the first load takes the file over, and the second counts its names
    refine Iff.trans ?_ (or_iff_right hskip).symm
    apply Iff.intro
    · rintro ⟨updated, db₁, hload, hagain⟩
      have hlive := live_of_load hdb hfile hskip hload
      obtain ⟨db₁', hload', hholds, -⟩ := load_of_replace hdb.nodup hlive hfile hskip
      obtain ⟨rfl, rfl⟩ := Prod.mk.inj (Except.ok.inj (hload.symm.trans hload'))
      refine ⟨hholds.length_eq_size_map_iff.mp ?_, hlive⟩
      obtain ⟨db₃, hsecond, -⟩ := hagain [] db₁ rfl
      by_contra hcount
      have hreplace : ¬ Skips db₁ entries :=
        not_or.mpr ⟨fun hlen => hskip (Or.inl hlen), hcount⟩
      obtain ⟨db₃', hsecond', -⟩ := load_of_replace hholds.nodup (fun _ => hholds.live) hfile
        hreplace
      exact Bool.noConfusion (Prod.mk.inj (Except.ok.inj (hsecond.symm.trans hsecond'))).1
    · rintro ⟨hnames, hlive⟩
      obtain ⟨db₁, hload, hholds, -⟩ := load_of_replace hdb.nodup hlive hfile hskip
      refine ⟨true, db₁, hload, fun additions db₂ hadd => ?_⟩
      obtain ⟨-, hmap⟩ := addDestinations_eq_ok hadd
      refine unchanged_of_skip hfile (Or.inr ?_)
      rw [hmap]
      exact hholds.length_eq_size_map_iff.mpr hnames

theorem loadsOnce_iff_london :
    LoadsOnce create (some (str "London, 5")) ↔
      [(str "London", (5 : UInt32))].length = 0 ∨
        [(str "London", (5 : UInt32))].length = create.locationMap.size ∨
          (([(str "London", (5 : UInt32))].map Prod.fst).Nodup ∧
            ∀ p ∈ create.getLocations, create.heap.Live p) :=
  @loadsOnce_iff [] create rfl _ _ (by decide)

/-- A file that has a name twice is taken over by every load. -/
theorem not_loadsOnce_repeated_name :
    ∃ db entries, run [] = .ok db ∧
      fileEntries (some (str "London, 5\nLondon, 6")) = .ok entries ∧
      ¬ LoadsOnce db (some (str "London, 5\nLondon, 6")) := by
  refine ⟨create, [(str "London", 5), (str "London", 6)], rfl, by decide, ?_⟩
  rintro ⟨updated, db₁, hload, hagain⟩
  obtain ⟨db₃, hsecond, -⟩ := hagain [] db₁ rfl
  have htwice : (create.load (some (str "London, 5\nLondon, 6")) >>= fun first =>
      Prod.fst <$> first.2.load (some (str "London, 5\nLondon, 6"))) = .ok true := by decide
  rw [hload, Fault.ok_bind, hsecond] at htwice
  exact Bool.noConfusion (Except.ok.inj htwice)

end FileLocationDatabase

end RoutePlanner.Route
