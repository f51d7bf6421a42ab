/-
# Route costs over any list of locations

For the route planner alone the names of the list may repeat and destinations may
be anything.  What `GetRouteCost` answers is then right for every list that is
short enough for an `int`, and for no length beyond.  A failure is reported for an
unknown name and never for a location that cannot be reached.  And nothing wraps
unless a cost of the file was negative.
-/

import RoutePlanner.Server.RouteRequests
import RoutePlanner.Route.RouteAdditions

namespace RoutePlanner.Server

open RoutePlanner.Std
open RoutePlanner.Math (IsMinCost Walk)
open RoutePlanner.Route
open RoutePlanner.Route.RoutePlanner (FirstAt listed row intMax)

variable {planner : RoutePlanner} {held : List Entry}

/-- Between any two names, if a walk that costs less than `INT_MAX` leads from the
first position of the one to that of the other, the answer is the least cost of a
walk and the cost of the start. -/
def AnswersDistance (hdb : planner.locationDb.Holds held)
    (hcosts : ∀ entry ∈ held, entry.2.toNat ≤ INT_MAX) : Prop :=
  ∀ (startName endName : Str) (s e : Fin held.length) (d : Nat),
    FirstAt held startName s → FirstAt held endName e →
    IsMinCost (row hdb hcosts).Adj (row hdb hcosts).cost s e d → d < INT_MAX →
    ∃ cost, planner.getRouteCost startName endName = .ok cost ∧
      cost.toNat = d + (held.get s).2.toNat

theorem answersDistance_of_le (hdb : planner.locationDb.Holds held)
    (hcosts : ∀ entry ∈ held, entry.2.toNat ≤ INT_MAX) (hn : held.length ≤ 2 ^ 31) :
    AnswersDistance hdb hcosts := by
  intro startName endName s e d hs he hd hcap
  obtain ⟨cost, hroute, hleast⟩ := RoutePlanner.getRouteCost_spec hdb hcosts hn hs he
  exact ⟨cost, hroute, by rw [hleast d hd hcap, Nat.add_comm]; rfl⟩

/-- The route from a position behind them to itself is not answered, if its name is
found there. -/
theorem not_answersDistance_of_first (hdb : planner.locationDb.Holds held)
    (hcosts : ∀ entry ∈ held, entry.2.toNat ≤ INT_MAX) {name : Str} {i : Fin held.length}
    (hi : FirstAt held name i) (hle : 2 ^ 31 ≤ i.val) (hlt : i.val < 2 ^ 32) :
    ¬ AnswersDistance hdb hcosts := by
  intro hanswers
  obtain ⟨cost, hroute, -⟩ :=
    hanswers name name i i 0 hi hi (Math.isMinCost_refl i) (by decide)
  rw [RoutePlanner.getRouteCost_fault hdb hi hle hlt] at hroute
  cases hroute

theorem not_answersDistance_of_lt (hdb : planner.locationDb.Holds held)
    (hcosts : ∀ entry ∈ held, entry.2.toNat ≤ INT_MAX) (hnames : (held.map Prod.fst).Nodup)
    (hn : 2 ^ 31 < held.length) : ¬ AnswersDistance hdb hcosts :=
  not_answersDistance_of_first hdb hcosts (RoutePlanner.firstAt_of_nodup hnames ⟨2 ^ 31, hn⟩)
    (Nat.le_refl _) (Nat.pow_lt_pow_right Nat.one_lt_two (by decide))

theorem toNat_cost_towns {n : Nat} :
    ∀ entry ∈ (towns n).map toEntry, entry.2.toNat ≤ INT_MAX := by
  intro _ hmem
  obtain ⟨entry, hentry, rfl⟩ := List.mem_map.mp hmem
  obtain ⟨k, -, rfl⟩ := List.mem_map.mp hentry
  show (intToUnsigned 5).toNat ≤ INT_MAX
  decide

theorem nodup_toEntry_towns (n : Nat) : (((towns n).map toEntry).map Prod.fst).Nodup := by
  rw [map_fst_toEntry]
  exact nodup_towns n

/-- All lists of a length are answered by the distance exactly when the length is at
most `2 ^ 31`, and so is each list of that length whose names are pairwise different. -/
theorem answersDistance_iff (n : Nat) :
    ((∀ (planner : RoutePlanner) (held : List Entry) (hdb : planner.locationDb.Holds held)
        (hcosts : ∀ entry ∈ held, entry.2.toNat ≤ INT_MAX), held.length = n →
        AnswersDistance hdb hcosts) ↔ n ≤ 2 ^ 31) ∧
      ∀ (planner : RoutePlanner) (held : List Entry) (hdb : planner.locationDb.Holds held)
        (hcosts : ∀ entry ∈ held, entry.2.toNat ≤ INT_MAX), held.length = n →
        (held.map Prod.fst).Nodup → (AnswersDistance hdb hcosts ↔ n ≤ 2 ^ 31) := by
  apply And.intro
  · apply Iff.intro
    · intro hanswers
      by_contra hle
      obtain ⟨planner, -, -, hdb⟩ :=
        RoutePlanner.run_singleton (fileEntries_of_forall₂ (forall₂_townsFile n)) none
      have hlen : ((towns n).map toEntry).length = n := by rw [List.length_map, length_towns]
      refine not_answersDistance_of_lt hdb toNat_cost_towns (nodup_toEntry_towns n) ?_
        (hanswers planner _ hdb toNat_cost_towns hlen)
      rw [hlen]
      exact Nat.lt_of_not_le hle
    · rintro hn planner held hdb hcosts rfl
      exact answersDistance_of_le hdb hcosts hn
  · rintro planner held hdb hcosts rfl hnames
    apply Iff.intro
    · intro hanswers
      by_contra hle
      exact not_answersDistance_of_lt hdb hcosts hnames (Nat.lt_of_not_le hle) hanswers
    · exact answersDistance_of_le hdb hcosts

/-- A planner that has loaded one town more than an `int` can count does not answer
all routes. -/
theorem not_answersDistance_towns :
    ∃ planner, RoutePlanner.run [⟨townsFile (2 ^ 31 + 1), none⟩] = .ok planner ∧
      ∃ hdb : planner.locationDb.Holds ((towns (2 ^ 31 + 1)).map toEntry),
        ¬ AnswersDistance hdb toNat_cost_towns := by
  obtain ⟨planner, hrun, -, hdb⟩ :=
    RoutePlanner.run_singleton (fileEntries_of_forall₂ (forall₂_townsFile (2 ^ 31 + 1))) none
  refine ⟨planner, hrun, hdb, not_answersDistance_of_lt hdb _ (nodup_toEntry_towns _) ?_⟩
  rw [List.length_map, length_towns]
  exact Nat.lt_succ_self _

/-- Two cities are few enough, with a road from the one to the other. -/
theorem answersDistance_iff_twoCities :
    ∃ planner, RoutePlanner.run [⟨twoCitiesFile, some (str "London, Bath")⟩] = .ok planner ∧
      ∃ hdb : planner.locationDb.Holds (twoCities.map toEntry),
        AnswersDistance hdb (toNat_cost_le wellFormed_twoCities) := by
  obtain ⟨planner, hrun, -, hdb⟩ := RoutePlanner.run_singleton wellFormed_twoCities.fileEntries_eq
    (some (str "London, Bath"))
  exact ⟨planner, hrun, hdb, ((answersDistance_iff 2).2 planner _ hdb _ rfl
    wellFormed_twoCities.names_toEntry).mpr (by decide)⟩

/-! ## Failures -/

/-- One of the names has no location in the database. -/
def NameUnknown (planner : RoutePlanner) (startName endName : Str) : Prop :=
  planner.locationDb.getLocation startName = none ∨ planner.locationDb.getLocation endName = none

/-- No walk along valid destinations leads from the location of the one name to that
of the other. -/
def Unreachable (hdb : planner.locationDb.Holds held) (startName endName : Str) : Prop :=
  ∀ s e : Fin held.length, FirstAt held startName s → FirstAt held endName e →
    ¬ ∃ vs, Walk (listed hdb).Adj s vs e

theorem exists_firstAt_of_known (hdb : planner.locationDb.Holds held) {name : Str}
    (hknown : planner.locationDb.getLocation name ≠ none) : ∃ i, FirstAt held name i := by
  refine RoutePlanner.exists_firstAt ((hdb.getLocation_isSome name).mp ?_)
  exact Option.isSome_iff_ne_none.mpr hknown

/-- Where there is no route to find, the answer is zero exactly if one of the names is
unknown. -/
theorem getRouteCost_eq_zero_iff (hdb : planner.locationDb.Holds held)
    (hcosts : ∀ entry ∈ held, entry.2.toNat ≤ INT_MAX) {startName endName : Str}
    (hfail : NameUnknown planner startName endName ∨ Unreachable hdb startName endName) :
    planner.getRouteCost startName endName = .ok 0 ↔ NameUnknown planner startName endName := by
  apply Iff.intro
  · intro hroute
    by_contra hknown
    obtain ⟨hstart, hend⟩ := not_or.mp hknown
    obtain ⟨s, hs⟩ := exists_firstAt_of_known hdb hstart
    obtain ⟨e, he⟩ := exists_firstAt_of_known hdb hend
    have hsum := RoutePlanner.getRouteCost_of_unreachable hdb hs he
      (hfail.resolve_left hknown s e hs he) hroute
    have hcost := RoutePlanner.toNat_add_cost RoutePlanner.toNat_intMax.le
      (hcosts _ (List.getElem_mem s.isLt))
    rw [List.get_eq_getElem] at hsum
    rw [← hsum, RoutePlanner.toNat_intMax, INT_MAX] at hcost
    simp only [UInt32.reduceToNat] at hcost
    omega
  · rintro (hunknown | hunknown)
    · rw [RoutePlanner.getRouteCost, hunknown]
    · rw [RoutePlanner.getRouteCost, hunknown]
      cases planner.locationDb.getLocation startName <;> rfl

/-- From London no road leads to Bath, and both are known. -/
theorem exists_unreachable :
    ∃ planner, RoutePlanner.run [⟨twoCitiesFile, none⟩] = .ok planner ∧
      ∃ hdb : planner.locationDb.Holds (twoCities.map toEntry),
        Unreachable hdb (str "London") (str "Bath") ∧
        ¬ NameUnknown planner (str "London") (str "Bath") := by
  obtain ⟨planner, hrun, hplan, hdb⟩ :=
    RoutePlanner.run_singleton wellFormed_twoCities.fileEntries_eq none
  refine ⟨planner, hrun, hdb, ?_, ?_⟩
  · rintro s e hs he ⟨_ | ⟨v, vs⟩, hwalk⟩
    · obtain rfl := Walk.nil_iff.mp hwalk
      exact absurd (hs.name_eq.symm.trans he.name_eq) (by decide)
    · exact RoutePlanner.not_adj_of_no_routes hplan hdb s v (Walk.cons_iff.mp hwalk).1
  · have hheld : ∀ name ∈ (twoCities.map toEntry).map Prod.fst,
        planner.locationDb.getLocation name ≠ none :=
      fun name hname => Option.isSome_iff_ne_none.mp ((hdb.getLocation_isSome name).mpr hname)
    rintro (hunknown | hunknown)
    · exact hheld _ (by decide) hunknown
    · exact hheld _ (by decide) hunknown

/-- The cost of that route is not reported as zero. -/
theorem not_getRouteCost_eq_zero_twoCities :
    ∃ planner, RoutePlanner.run [⟨twoCitiesFile, none⟩] = .ok planner ∧
      ∃ hdb : planner.locationDb.Holds (twoCities.map toEntry),
        Unreachable hdb (str "London") (str "Bath") ∧
        planner.getRouteCost (str "London") (str "Bath") = .ok 2147483652 := by
  obtain ⟨planner, hrun, hdb, hunreachable, -⟩ := exists_unreachable
  have hroute : (do
      let planner ← RoutePlanner.run [⟨twoCitiesFile, none⟩]
      planner.getRouteCost (str "London") (str "Bath")) = .ok 2147483652 := by
    decide +kernel
  rw [hrun] at hroute
  exact ⟨planner, hrun, hdb, hunreachable, hroute⟩

theorem getRouteCost_eq_zero_iff_twoCities :
    ∃ planner, RoutePlanner.run [⟨twoCitiesFile, none⟩] = .ok planner ∧
      planner.getRouteCost (str "London") (str "Bath") ≠ .ok 0 := by
  obtain ⟨planner, hrun, hdb, hunreachable, hknown⟩ := exists_unreachable
  refine ⟨planner, hrun, fun hroute => hknown ?_⟩
  exact (getRouteCost_eq_zero_iff hdb (toNat_cost_le wellFormed_twoCities)
    (Or.inr hunreachable)).mp hroute

/-! ## Additions -/

/-- Whatever calls a planner has behind it and whatever the routes were: as long as it
holds these entries, no addition between two locations wraps. -/
def NoWraps (entries : List Entry) : Prop :=
  ∀ (edits : List Edit) (planner : RoutePlanner), RoutePlanner.run edits = .ok planner →
    planner.locationDb.Holds entries → ∀ (startName endName : Str) (a b : UInt32),
      planner.Adds startName endName a b → a.toNat + b.toNat < 2 ^ 32

/-- If the costs do not fit, one that does not stands in the first line of its name, and
another line has another name. -/
def Exposed (entries : List Entry) : Prop :=
  ¬ RoutePlanner.CostsFit entries → ∃ i : Fin entries.length,
    2 ^ 31 < (entries.get i).2.toNat ∧ FirstAt entries (entries.get i).1 i ∧
      ∃ entry ∈ entries, entry.1 ≠ (entries.get i).1

theorem exposed_of_nodup {entries : List Entry} (hnames : (entries.map Prod.fst).Nodup) :
    Exposed entries := by
  intro hfit
  obtain ⟨hmany, hlarge⟩ := not_or.mp hfit
  push Not at hmany hlarge
  obtain ⟨entry, hentry, hcost⟩ := hlarge
  obtain ⟨i, rfl⟩ := List.mem_iff_get.mp hentry
  refine ⟨i, hcost, RoutePlanner.firstAt_of_nodup hnames i, ?_⟩
  have : Nontrivial (Fin entries.length) := Fin.nontrivial_iff_two_le.mpr hmany
  obtain ⟨e, hne⟩ := exists_ne i
  refine ⟨entries.get e, List.get_mem _ _, fun hsame => hne ?_⟩
  exact List.nodup_iff_injective_get.mp (hnames.of_map _) (List.inj_on_of_nodup_map hnames
    (List.get_mem _ _) (List.get_mem _ _) hsame)

/-- A cost that does not fit wraps where its location is the start and cannot reach
the end. -/
theorem exists_wrap {locationFile : File} {entries : List Entry}
    (hfile : fileEntries locationFile = .ok entries) (hn : entries.length ≤ 2 ^ 31)
    (hexposed : Exposed entries) (hfit : ¬ RoutePlanner.CostsFit entries) :
    ∃ planner, RoutePlanner.run [⟨locationFile, none⟩] = .ok planner ∧
      planner.locationDb.Holds entries ∧ ∃ startName endName a b,
        planner.Adds startName endName a b ∧ 2 ^ 32 ≤ a.toNat + b.toNat := by
  obtain ⟨planner, hrun, hplan, hdb⟩ := RoutePlanner.run_singleton hfile none
  obtain ⟨s, hcost, hs, other, hother, hne⟩ := hexposed hfit
  obtain ⟨e, he⟩ := RoutePlanner.exists_firstAt (List.mem_map_of_mem hother)
  refine ⟨planner, hrun, hdb, _, _, intMax.toUInt32, (entries.get s).2,
    RoutePlanner.adds_of_unreachable hdb hn hs he ?_, ?_⟩
  · rintro ⟨_ | ⟨v, vs⟩, hwalk⟩
    · obtain rfl := Walk.nil_iff.mp hwalk
      exact hne (he.name_eq.symm.trans hs.name_eq)
    · exact RoutePlanner.not_adj_of_no_routes hplan hdb s v (Walk.cons_iff.mp hwalk).1
  · rw [RoutePlanner.toNat_intMax, INT_MAX]
    omega

/-- Over a file whose costs fit no addition wraps; and over no other file of those that
an `int` can count, if one of the costs that do not fit is exposed. -/
theorem noWraps_iff {locationFile : File} {entries : List Entry}
    (hfile : fileEntries locationFile = .ok entries) :
    (RoutePlanner.CostsFit entries → NoWraps entries) ∧
      (entries.length ≤ 2 ^ 31 → Exposed entries →
        (NoWraps entries ↔ RoutePlanner.CostsFit entries)) := by
  have hfits : RoutePlanner.CostsFit entries → NoWraps entries :=
    fun hfit _ _ _ hdb _ _ _ _ hadds => hadds.lt_of_costsFit hdb hfit
  refine ⟨hfits, fun hn hexposed => ⟨fun hwraps => ?_, hfits⟩⟩
  by_contra hfit
  obtain ⟨planner, hrun, hdb, startName, endName, a, b, hadds, hle⟩ :=
    exists_wrap hfile hn hexposed hfit
  exact absurd (hwraps _ planner hrun hdb startName endName a b hadds) (Nat.not_lt_of_le hle)

/-- A file with a negative cost, which the loader accepts. -/
def negativeCostFile : File := some (str "A, 1\nB, -1")

theorem fileEntries_negativeCostFile :
    fileEntries negativeCostFile = .ok [(str "A", 1), (str "B", 4294967295)] := by
  decide +kernel

/-- From `B` to `A`, `INT_MAX` and `UINT_MAX` are added. -/
theorem not_noWraps_negativeCostFile :
    fileEntries negativeCostFile = .ok [(str "A", 1), (str "B", 4294967295)] ∧
      ¬ NoWraps [(str "A", 1), (str "B", 4294967295)] := by
  refine ⟨fileEntries_negativeCostFile, fun hwraps => ?_⟩
  have hfit : ¬ RoutePlanner.CostsFit [(str "A", 1), (str "B", 4294967295)] := by
    rintro (hone | hfit)
    · exact absurd hone (by decide)
    · exact absurd (hfit _ (List.mem_cons_of_mem _ List.mem_cons_self)) (by decide)
  obtain ⟨planner, hrun, hdb, startName, endName, a, b, hadds, hle⟩ :=
    exists_wrap fileEntries_negativeCostFile (by decide) (exposed_of_nodup (by decide)) hfit
  exact absurd (hwraps _ planner hrun hdb startName endName a b hadds) (Nat.not_lt_of_le hle)

/-- Where names repeat one exposed cost is enough. -/
theorem noWraps_iff_negativeTwice :
    NoWraps (twoCities.map toEntry) ∧
      ¬ NoWraps [(str "A", 1), (str "B", 4294967295), (str "A", 4294967295)] := by
  refine ⟨(noWraps_iff wellFormed_twoCities.fileEntries_eq).1 (Or.inr (by decide)),
    fun hwraps => ?_⟩
  have hfile : fileEntries (some (str "A, 1\nB, -1\nA, -1")) =
      .ok [(str "A", 1), (str "B", 4294967295), (str "A", 4294967295)] := by decide +kernel
  have hexposed : Exposed [(str "A", 1), (str "B", 4294967295), (str "A", 4294967295)] := fun _ =>
    ⟨⟨1, by decide⟩, by decide, ⟨rfl, by decide⟩, (str "A", 1), List.mem_cons_self, by decide⟩
  rcases ((noWraps_iff hfile).2 (by decide) hexposed).mp hwraps with hone | hfit
  · exact absurd hone (by decide)
  · exact absurd (hfit _ (List.mem_cons_of_mem _ List.mem_cons_self)) (by decide)

end RoutePlanner.Server
