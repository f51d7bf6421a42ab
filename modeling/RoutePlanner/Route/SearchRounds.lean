/-
# Every round of the search

What `GetMinCostIndex` returns is safe to index with because of what the rounds keep
together: no label above `INT_MAX`, and a position that is not processed.  This holds
for any list of live locations that an `int` can count, whatever their costs and
destinations are, and between any two positions.
-/

import RoutePlanner.Route.RouteAdditions
import RoutePlanner.Route.RouteHistory

set_option linter.dupNamespace false

namespace RoutePlanner.Route

open RoutePlanner.Std

namespace RoutePlanner

section Rounds

variable {planner : RoutePlanner} {n : Nat}

theorem vectorsBefore_succ (planner : RoutePlanner) (startI endI count : Nat) :
    vectorsBefore planner startI endI (count + 1) =
      vectorsBefore planner startI endI count >>= fun state =>
        settleStep planner.locationDb.heap planner.locationDb.getLocations endI state count := by
  simp only [vectorsBefore, List.range_succ, Machine.run_concat, bind_assoc]

/-- Before every round the vectors are there, and as many positions are processed as
rounds are done. -/
theorem vectorsBefore_ready
    (objects : Objects planner.locationDb.heap planner.locationDb.getLocations n)
    (hn : n ≤ 2 ^ 31) (startI : Fin n) (endI : Nat) {count : Nat} (hcount : count ≤ n) :
    ∃ state, vectorsBefore planner startI endI count = .ok state ∧ Ready n state.1 state.2 ∧
      (labels n state.1 state.2).settled.card = count := by
  obtain ⟨routeCosts, hassign, hready, hstart⟩ := assign_start startI
  obtain ⟨state, hrun, hready', hcard⟩ := rounds_return objects hn endI hready
    (by rw [hstart]; rfl) hcount
  refine ⟨state, ?_, hready', hcard⟩
  rw [vectorsBefore, objects.length_eq, hassign, Fault.ok_bind, hrun]

theorem vectorsBefore_round
    (objects : Objects planner.locationDb.heap planner.locationDb.getLocations n)
    (hn : n ≤ 2 ^ 31) (startI : Fin n) (endI : Nat) {count : Nat} (hcount : count < n) :
    ∃ before after u, vectorsBefore planner startI endI count = .ok before ∧
      vectorsBefore planner startI endI (count + 1) = .ok after ∧ Ready n before.1 before.2 ∧
      Round n before after u := by
  obtain ⟨before, hbefore, hready, hcard⟩ :=
    vectorsBefore_ready objects hn startI endI (Nat.le_of_lt hcount)
  obtain ⟨after, u, hstep, -, hround⟩ := settleStep_round objects hn endI hready
    (by rw [hcard]; exact hcount) count
  exact ⟨before, after, u, hbefore, by rw [vectorsBefore_succ, hbefore, Fault.ok_bind, hstep],
    hready, hround⟩

/-- The round with this number processes the position. -/
def Processes (planner : RoutePlanner) (startI endI count u : Nat) : Prop :=
  ∃ before minCostI, vectorsBefore planner startI endI count = .ok before ∧
    getMinCostIndex before.1 before.2 = .ok minCostI ∧ intIndex minCostI = .ok u

/-- It is the position of the round. -/
theorem Processes.eq_of_round (hn : n ≤ 2 ^ 31) {startI endI count u : Nat}
    (h : Processes planner startI endI count u) {before after : List UInt32 × List Bool}
    (hbefore : vectorsBefore planner startI endI count = .ok before) {w : Fin n}
    (hround : Round n before after w) : u = w.val := by
  obtain ⟨before', minCostI, hbefore', hselected, hindex⟩ := h
  obtain rfl := Except.ok.inj (hbefore.symm.trans hbefore')
  obtain rfl := Except.ok.inj (hround.selected.symm.trans hselected)
  rw [intIndex_of_lt (w.isLt.trans_le hn)] at hindex
  exact (Except.ok.inj hindex).symm

/-- What a round has processed stays processed. -/
theorem processed_stays
    (objects : Objects planner.locationDb.heap planner.locationDb.getLocations n)
    (hn : n ≤ 2 ^ 31) (startI : Fin n) (endI : Nat) {first : Nat}
    {before after : List UInt32 × List Bool} {u : Fin n}
    (hafter : vectorsBefore planner startI endI (first + 1) = .ok after)
    (hready : Ready n before.1 before.2) (hround : Round n before after u) (d : Nat)
    (hd : first + 1 + d ≤ n) {state : List UInt32 × List Bool}
    (hstate : vectorsBefore planner startI endI (first + 1 + d) = .ok state) :
    state.2.getD u false = true := by
  induction d generalizing state with
  | zero =>
      obtain rfl := Except.ok.inj (hafter.symm.trans hstate)
      rw [hround.processed, getD_set (hready.spt.symm ▸ u.isLt), if_pos rfl]
  | succ d ih =>
      obtain ⟨before', after', w, hbefore', hafter', hready', hround'⟩ :=
        vectorsBefore_round objects hn startI endI (Nat.lt_of_succ_le hd)
      obtain rfl := Except.ok.inj (hafter'.symm.trans hstate)
      rw [hround'.processed, getD_set (hready'.spt.symm ▸ w.isLt)]
      split
      · rfl
      · exact ih (Nat.le_of_succ_le hd) hbefore'

/-- Two rounds process different positions. -/
theorem not_processes_again
    (objects : Objects planner.locationDb.heap planner.locationDb.getLocations n)
    (hn : n ≤ 2 ^ 31) (startI : Fin n) (endI : Nat) {first second u : Nat} (hlt : first < second)
    (hsecond : second < n) (hfirst : Processes planner startI endI first u) :
    ¬ Processes planner startI endI second u := by
  intro hagain
  obtain ⟨d, rfl⟩ := Nat.exists_eq_add_of_lt hlt
  obtain ⟨before, after, v, hbefore, hafter, hready, hround⟩ :=
    vectorsBefore_round objects hn startI endI (hlt.trans hsecond)
  obtain ⟨before', after', w, hbefore', hafter', -, hround'⟩ :=
    vectorsBefore_round objects hn startI endI hsecond
  have hv := hfirst.eq_of_round hn hbefore hround
  have hw := hagain.eq_of_round hn hbefore' hround'
  rw [Nat.add_right_comm] at hbefore'
  have hprocessed := processed_stays objects hn startI endI hafter hready hround d
    (by omega) hbefore'
  rw [← hv, hw, hround'.unprocessed] at hprocessed
  exact Bool.noConfusion hprocessed

/-- Behind all rounds but one, one position is not processed. -/
theorem exists_unique_unprocessed
    (objects : Objects planner.locationDb.heap planner.locationDb.getLocations n)
    (hn : n ≤ 2 ^ 31) (startI : Fin n) (endI : Nat) :
    ∃ last, vectorsBefore planner startI endI (n - 1) = .ok last ∧
      ∃! v : Fin n, last.2.getD v false = false := by
  have hpos : 0 < n := Nat.lt_of_le_of_lt (Nat.zero_le _) startI.isLt
  obtain ⟨last, hlast, -, hcard⟩ :=
    vectorsBefore_ready objects hn startI endI (Nat.sub_le n 1)
  refine ⟨last, hlast, ?_⟩
  have hleft : (labels n last.1 last.2).settledᶜ.card = 1 := by
    rw [Finset.card_compl, Fintype.card_fin, hcard]
    omega
  obtain ⟨v, hv⟩ := Finset.card_eq_one.mp hleft
  have hmem : ∀ w, w ∈ ({v} : Finset (Fin n)) ↔ last.2.getD w false = false := by
    intro w
    rw [← hv, Finset.mem_compl, notMem_settled]
  exact ⟨v, (hmem v).mp (Finset.mem_singleton_self v), fun w hw =>
    Finset.mem_singleton.mp ((hmem w).mpr hw)⟩

/-- The answer is read from the vectors behind these rounds. -/
theorem getRouteCost_eq_vectorsBefore
    (objects : Objects planner.locationDb.heap planner.locationDb.getLocations n)
    {startName endName : Str} {startI endI : Nat}
    (hsearch : Searches planner startName endName startI endI) :
    planner.getRouteCost startName endName = do
      let last ← vectorsBefore planner startI endI (n - 1)
      let routeCost ← Fault.index last.1 endI
      let p ← Fault.index planner.locationDb.getLocations startI
      let startLocation ← planner.locationDb.heap.deref p
      return routeCost + startLocation.cost := by
  obtain ⟨p, hp⟩ := Option.ne_none_iff_exists'.mp hsearch.startKnown
  obtain ⟨q, hq⟩ := Option.ne_none_iff_exists'.mp hsearch.endKnown
  simp only [getRouteCost, hp, hq, hsearch.startAt, hsearch.endAt, vectorsBefore,
    objects.length_eq, Fault.ok_bind, bind_assoc]

/-- In a search between any two positions of fewer than `2 ^ 31` locations, every round
selects an unprocessed position of least cost, no position is processed twice, and one
is left at the end.  No label is above `INT_MAX` and none ever rises.  The answer is
read from the last vectors. -/
theorem search_rounds (planner : RoutePlanner) {n : Nat}
    (objects : Objects planner.locationDb.heap planner.locationDb.getLocations n)
    (hn : n < 2 ^ 31) (startI : Fin n) (endI : Nat) :
    (∀ count < n - 1, ∃ before after u,
      vectorsBefore planner startI endI count = .ok before ∧
        vectorsBefore planner startI endI (count + 1) = .ok after ∧
        Round n before after u ∧ intIndex (Int32.ofNat u) = .ok u.val) ∧
    (∀ count ≤ n - 1, ∃ state,
      vectorsBefore planner startI endI count = .ok state ∧ Ready n state.1 state.2) ∧
    (∀ first second u, first < second → second < n - 1 →
      Processes planner startI endI first u → ¬ Processes planner startI endI second u) ∧
    (∃ last, vectorsBefore planner startI endI (n - 1) = .ok last ∧
      ∃! v : Fin n, last.2.getD v false = false) ∧
    ∀ startName endName, Searches planner startName endName startI endI →
      planner.getRouteCost startName endName = do
        let last ← vectorsBefore planner startI endI (n - 1)
        let routeCost ← Fault.index last.1 endI
        let p ← Fault.index planner.locationDb.getLocations startI
        let startLocation ← planner.locationDb.heap.deref p
        return routeCost + startLocation.cost := by
  have hn' := Nat.le_of_lt hn
  refine ⟨fun count hcount => ?_, fun count hcount => ?_, fun first second u hlt hsecond => ?_,
    exists_unique_unprocessed objects hn' startI endI,
    fun startName endName => getRouteCost_eq_vectorsBefore objects⟩
  · obtain ⟨before, after, u, hbefore, hafter, -, hround⟩ :=
      vectorsBefore_round objects hn' startI endI (by omega : count < n)
    exact ⟨before, after, u, hbefore, hafter, hround, intIndex_of_lt (u.isLt.trans hn)⟩
  · obtain ⟨state, hstate, hready, -⟩ :=
      vectorsBefore_ready objects hn' startI endI (by omega : count ≤ n)
    exact ⟨state, hstate, hready⟩
  · exact not_processes_again objects hn' startI endI hlt (by omega)

/-- Two cities, one of which costs more than an `int` holds. -/
theorem search_rounds_negative_cost :
    ∃ planner, run [⟨some (str "London, 5\nBath, -1"), some (str "London, Bath")⟩] = .ok planner ∧
      ∃ last, vectorsBefore planner 0 1 1 = .ok last ∧
        ∃! v : Fin 2, last.2.getD v false = false := by
  have hfiles : ∀ edit ∈ [(⟨some (str "London, 5\nBath, -1"), some (str "London, Bath")⟩ : Edit)],
      FileLocationDatabase.Parses edit.locationFile := by
    rintro edit (_ | ⟨_, hmem⟩)
    · exact ⟨[(str "London", 5), (str "Bath", 4294967295)], by decide⟩
    · exact absurd hmem List.not_mem_nil
  obtain ⟨planner, hrun, hplan⟩ := run_refines _ hfiles
  have hdb : FileLocationDatabase.Holds planner.locationDb
      [(str "London", 5), (str "Bath", 4294967295)] := hplan.locations
  exact ⟨planner, hrun, (search_rounds planner (listed hdb) (by decide) 0 1).2.2.2.1⟩

end Rounds

end RoutePlanner

end RoutePlanner.Route
