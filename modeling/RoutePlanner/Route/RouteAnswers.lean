/-
# What the route planner answers

The plan that a planner follows decides every answer.  Its positions are the
vertices of a graph, its edges join them by name, and the route cost of two names
is the cost of the start and the capped cost of the end: the least cost of a walk
below `INT_MAX`, and `INT_MAX` where there is none.

So what can be said of capped costs can be said of the program.  The order of the
lines of both files is irrelevant, a detour is never cheaper, and as long as the
locations are kept no answer ever rises, whatever becomes of the routes file.
-/

import RoutePlanner.Math.CappedCost
import RoutePlanner.Route.RouteHistory
import RoutePlanner.Route.RouteSearch

set_option linter.dupNamespace false

namespace RoutePlanner.Route

open RoutePlanner.Std
open RoutePlanner.Math (cappedCost)
open FileLocationDatabase (Holds Parses HasDestination)
open RoutePlanner (FirstAt)

namespace Plan

/-- Positions are joined when the plan has an edge between their names. -/
def Adj (plan : Plan) (i j : Fin plan.held.length) : Prop :=
  plan.edges (plan.held.get i).1 (plan.held.get j).1

/-- What entering a position costs. -/
def cost (plan : Plan) (i : Fin plan.held.length) : Nat := (plan.held.get i).2.toNat

/-- What a route from one position to another costs, without the start. -/
noncomputable def distance (plan : Plan) (i j : Fin plan.held.length) : Nat :=
  cappedCost plan.Adj plan.cost INT_MAX i j

/-- No more locations than an `int` can count, and no cost that it cannot hold. -/
structure Fits (plan : Plan) : Prop where
  length_le : plan.held.length ≤ 2 ^ 31
  cost_le : ∀ entry ∈ plan.held, entry.2.toNat ≤ INT_MAX

/-- The answer for two names: zero unless both are held, and otherwise the cost of
the first position of the one and the distance from there to that of the other. -/
structure Answers (plan : Plan) (startName endName : Str) (answer : UInt32) : Prop where
  unknown : startName ∉ plan.held.map Prod.fst ∨ endName ∉ plan.held.map Prod.fst → answer = 0
  known : ∀ i j, FirstAt plan.held startName i → FirstAt plan.held endName j →
    answer.toNat = plan.cost i + plan.distance i j

variable {plan plan' : Plan}

theorem Fits.of_held (h : plan.Fits) (hheld : plan'.held = plan.held) : plan'.Fits :=
  ⟨hheld ▸ h.length_le, hheld ▸ h.cost_le⟩

/-- The same locations, in any order, with the same edges between them. -/
structure SameUpToOrder (plan plan' : Plan) : Prop where
  held : plan.held.Perm plan'.held
  nodup : (plan.held.map Prod.fst).Nodup
  edges : ∀ start ∈ plan.held.map Prod.fst, ∀ destination ∈ plan.held.map Prod.fst,
    (plan.edges start destination ↔ plan'.edges start destination)

namespace SameUpToOrder

/-- The order of the one plan among the positions of the other. -/
theorem exists_equiv (h : plan.SameUpToOrder plan') :
    ∃ e : Fin plan.held.length ≃ Fin plan'.held.length,
      ∀ i, plan'.held.get (e i) = plan.held.get i := by
  have hnodup : plan.held.Nodup := h.nodup.of_map
  have hmem : ∀ entry, entry ∈ plan.held ↔ entry ∈ plan'.held := fun _ => h.held.mem_iff
  let positions := (h.held.nodup_iff.mp hnodup).getEquiv
  refine ⟨hnodup.getEquiv.trans ((Equiv.subtypeEquivRight hmem).trans positions.symm),
    fun i => ?_⟩
  exact congrArg Subtype.val
    (positions.apply_symm_apply (Equiv.subtypeEquivRight hmem (List.Nodup.getEquiv _ hnodup i)))

/-- So both give the same answers. -/
theorem answers_eq (h : plan.SameUpToOrder plan') {startName endName : Str}
    {answer answer' : UInt32} (hanswer : plan.Answers startName endName answer)
    (hanswer' : plan'.Answers startName endName answer') : answer = answer' := by
  have hnames : ∀ name, name ∈ plan.held.map Prod.fst ↔ name ∈ plan'.held.map Prod.fst :=
    fun name => (h.held.map Prod.fst).mem_iff
  by_cases hknown : startName ∈ plan.held.map Prod.fst ∧ endName ∈ plan.held.map Prod.fst
  · obtain ⟨e, he⟩ := h.exists_equiv
    obtain ⟨i, hi⟩ := RoutePlanner.exists_firstAt hknown.1
    obtain ⟨j, hj⟩ := RoutePlanner.exists_firstAt hknown.2
    have hfirst : ∀ {name : Str} {k : Fin plan.held.length}, FirstAt plan.held name k →
        FirstAt plan'.held name (e k) := by
      intro name k hk
      have hname : (plan'.held.get (e k)).1 = name := (congrArg Prod.fst (he k)).trans hk.name_eq
      have hnodup' : (plan'.held.map Prod.fst).Nodup := (h.held.map Prod.fst).nodup_iff.mp h.nodup
      exact hname ▸ RoutePlanner.firstAt_of_nodup hnodup' (e k)
    have hadj : ∀ a b, plan.Adj a b ↔ plan'.Adj (e a) (e b) := by
      intro a b
      rw [Adj, Adj, he, he]
      exact h.edges _ (List.mem_map_of_mem (List.get_mem _ _)) _
        (List.mem_map_of_mem (List.get_mem _ _))
    have hcost : ∀ a, plan.cost a = plan'.cost (e a) := fun a => by rw [cost, cost, he]
    rw [← UInt32.toNat_inj, hanswer.known i j hi hj,
      hanswer'.known (e i) (e j) (hfirst hi) (hfirst hj), ← hcost, distance, distance,
      Math.cappedCost_map e hadj hcost]
  · rw [hanswer.unknown (by tauto), hanswer'.unknown (by rw [← hnames, ← hnames]; tauto)]

end SameUpToOrder

end Plan

namespace RoutePlanner

variable {planner : RoutePlanner} {plan : Plan}

theorem FirstAt.unique {entries : List Entry} {name : Str} {i j : Fin entries.length}
    (hi : FirstAt entries name i) (hj : FirstAt entries name j) : i = j :=
  le_antisymm (hi.le j hj.name_eq) (hj.le i hi.name_eq)

theorem FirstAt.mem {entries : List Entry} {name : Str} {i : Fin entries.length}
    (hi : FirstAt entries name i) : name ∈ entries.map Prod.fst :=
  hi.name_eq ▸ List.mem_map_of_mem (List.getElem_mem i.isLt)

/-! ## The search answers by the capped cost -/

/-- For up to `2 ^ 31` locations, whether there is a walk or not, the route cost is
the cost of the start and the capped cost of the end. -/
theorem getRouteCost_eq_cappedCost {held : List Entry} (hdb : Holds planner.locationDb held)
    (hcosts : ∀ entry ∈ held, entry.2.toNat ≤ INT_MAX) (hn : held.length ≤ 2 ^ 31)
    {startName endName : Str} {i j : Fin held.length} (hi : FirstAt held startName i)
    (hj : FirstAt held endName j) :
    ∃ c, planner.getRouteCost startName endName = .ok c ∧
      c.toNat = (held.get i).2.toNat +
        cappedCost (row hdb hcosts).Adj (row hdb hcosts).cost INT_MAX i j := by
  obtain ⟨routeCosts, hassign, hready, hstart⟩ := assign_start i
  obtain ⟨routeCosts', sptSet', hrun, hready', hsettles⟩ := settleStep_run (row hdb hcosts) hn j
    hready (by rw [hstart]; rfl) (Nat.sub_le held.length 1)
  obtain ⟨p, hindex, hderef⟩ := (row hdb hcosts).index_deref i
  have hentry : _ = held.get i := entry_row hdb hcosts i
  refine ⟨routeCosts'.getD j 0 + ((row hdb hcosts).object i).cost, ?_, ?_⟩
  · rw [getRouteCost_eq hdb hi hj hassign, hrun]
    have hlt : j.val < routeCosts'.length := hready'.costs.symm ▸ j.isLt
    simp only [Fault.ok_bind, index_eq_getD hlt 0, hindex, hderef, Fault.pure_eq_ok]
  · rw [hstart] at hsettles
    have hcard : Fintype.card (Fin held.length) ≤ held.length - 1 + 1 := by
      rw [Fintype.card_fin]
      omega
    have hlabel : costAt routeCosts' j = _ := Math.Labels.label_eq_cappedCost hcard hsettles
    rw [toNat_add_cost (hready'.le j) ((row hdb hcosts).cost_le i), Nat.add_comm, ← hentry]
    exact congrArg _ hlabel

/-- A name that the database does not know makes the route cost zero. -/
theorem getRouteCost_of_unknown {held : List Entry} (hdb : Holds planner.locationDb held)
    {startName endName : Str}
    (h : startName ∉ held.map Prod.fst ∨ endName ∉ held.map Prod.fst) :
    planner.getRouteCost startName endName = .ok 0 := by
  have hnone : ∀ name, name ∉ held.map Prod.fst → planner.locationDb.getLocation name = none := by
    intro name hname
    rwa [← Option.not_isSome_iff_eq_none, hdb.getLocation_isSome]
  rcases h with h | h
  · rw [getRouteCost, hnone _ h]
  · rw [getRouteCost, hnone _ h]
    cases planner.locationDb.getLocation startName <;> rfl

/-- The graph of the objects is the graph of the plan. -/
theorem Follows.listed_adj_iff (hplan : Follows planner plan) (i j : Fin plan.held.length) :
    (listed hplan.locations).Adj i j ↔ plan.Adj i j := by
  let objects := listed hplan.locations
  have hentry : ∀ k, ((objects.object k).name, (objects.object k).cost) = plan.held.get k :=
    fun k => entry_listed hplan.locations k
  obtain ⟨p, hp, hcell⟩ := objects.cell i
  have hat : planner.locationDb.entryAt p = some (plan.held.get i) := by
    rw [FileLocationDatabase.entryAt, hcell, Option.map_some, hentry]
  have hedges := hplan.edges p (List.mem_of_getElem? hp) _ hat (plan.held.get j).1
  rw [FileLocationDatabase.hasDestination_of_cell hcell] at hedges
  rw [Plan.Adj, ← hedges, Objects.Adj, Location.destinationIsValid_iff, ← hentry]

/-- A planner that follows a plan answers by the plan. -/
theorem Follows.answers (hplan : Follows planner plan) (hfits : plan.Fits)
    (startName endName : Str) :
    ∃ answer, planner.getRouteCost startName endName = .ok answer ∧
      plan.Answers startName endName answer := by
  by_cases hknown : startName ∈ plan.held.map Prod.fst ∧ endName ∈ plan.held.map Prod.fst
  · obtain ⟨i, hi⟩ := exists_firstAt hknown.1
    obtain ⟨j, hj⟩ := exists_firstAt hknown.2
    obtain ⟨answer, hroute, hanswer⟩ :=
      getRouteCost_eq_cappedCost hplan.locations hfits.cost_le hfits.length_le hi hj
    refine ⟨answer, hroute, fun h => absurd hknown (by tauto), fun i' j' hi' hj' => ?_⟩
    obtain rfl := hi.unique hi'
    obtain rfl := hj.unique hj'
    have hadj : (row hplan.locations hfits.cost_le).Adj = plan.Adj :=
      funext fun a => funext fun b => propext (hplan.listed_adj_iff a b)
    have hcost : (row hplan.locations hfits.cost_le).cost = plan.cost := by
      funext a
      have hentry : _ = plan.held.get a := entry_row hplan.locations hfits.cost_le a
      rw [Row.cost, Plan.cost, ← hentry]
    rw [hanswer, hadj, hcost]
    rfl
  · have hunknown : startName ∉ plan.held.map Prod.fst ∨ endName ∉ plan.held.map Prod.fst := by
      tauto
    exact ⟨0, getRouteCost_of_unknown hplan.locations hunknown, fun _ => rfl,
      fun i j hi hj => absurd ⟨hi.mem, hj.mem⟩ hknown⟩

/-- After any history of files that parse, if the locations held are few and cheap
enough, every route cost is the plan's: over stale edges, unreachable ends and
repeated names too. -/
theorem getRouteCost_of_history (edits : List Edit)
    (hfiles : ∀ edit ∈ edits, Parses edit.locationFile)
    (hfits : (edits.foldl Plan.next Plan.empty).Fits) :
    ∃ planner, run edits = .ok planner ∧ ∀ startName endName, ∃ answer,
      planner.getRouteCost startName endName = .ok answer ∧
        (edits.foldl Plan.next Plan.empty).Answers startName endName answer := by
  obtain ⟨planner, hrun, hplan⟩ := run_refines edits hfiles
  exact ⟨planner, hrun, hplan.answers hfits⟩

theorem parses_droppedRoute : ∀ edit ∈ droppedRoute, Parses edit.locationFile := by
  simp only [droppedRoute, List.mem_cons, List.not_mem_nil, or_false]
  rintro edit (rfl | rfl) <;> exact ⟨[(str "London", 5), (str "Bath", 6)], by decide⟩

/-- A route that the routes file no longer has is still taken. -/
theorem getRouteCost_of_history_droppedRoute :
    ∃ planner, run droppedRoute = .ok planner ∧ ∀ startName endName, ∃ answer,
      planner.getRouteCost startName endName = .ok answer ∧
        (droppedRoute.foldl Plan.next Plan.empty).Answers startName endName answer :=
  getRouteCost_of_history droppedRoute parses_droppedRoute ⟨by decide, by decide⟩

/-! ## Detours -/

/-- A plan's answers are never lowered by a stop on the way: what the stop costs by
itself is counted once on each of the two legs. -/
theorem answers_triangle {plan : Plan} {startName viaName endName : Str}
    {direct first second stop : UInt32}
    (hdirect : plan.Answers startName endName direct)
    (hfirst : plan.Answers startName viaName first)
    (hsecond : plan.Answers viaName endName second) (hstop : plan.Answers viaName viaName stop)
    {i k j : Fin plan.held.length} (hi : FirstAt plan.held startName i)
    (hk : FirstAt plan.held viaName k) (hj : FirstAt plan.held endName j) :
    direct.toNat + stop.toNat ≤ first.toNat + second.toNat := by
  have hle : plan.distance i j ≤ plan.distance i k + plan.distance k j :=
    Math.cappedCost_triangle
  have hself : plan.distance k k = 0 := Math.cappedCost_self ..
  rw [hdirect.known i j hi hj, hfirst.known i k hi hk, hsecond.known k j hk hj,
    hstop.known k k hk hk, hself]
  omega

/-- After any history of files that parse, a stop at a third location never makes a
route cheaper. -/
theorem getRouteCost_triangle (edits : List Edit)
    (hfiles : ∀ edit ∈ edits, Parses edit.locationFile)
    (hfits : (edits.foldl Plan.next Plan.empty).Fits) {startName viaName endName : Str}
    (hstart : startName ∈ (edits.foldl Plan.next Plan.empty).held.map Prod.fst)
    (hvia : viaName ∈ (edits.foldl Plan.next Plan.empty).held.map Prod.fst)
    (hend : endName ∈ (edits.foldl Plan.next Plan.empty).held.map Prod.fst) :
    ∃ planner, run edits = .ok planner ∧ ∃ direct first second stop,
      planner.getRouteCost startName endName = .ok direct ∧
      planner.getRouteCost startName viaName = .ok first ∧
      planner.getRouteCost viaName endName = .ok second ∧
      planner.getRouteCost viaName viaName = .ok stop ∧
      direct.toNat + stop.toNat ≤ first.toNat + second.toNat := by
  obtain ⟨planner, hrun, hplan⟩ := run_refines edits hfiles
  obtain ⟨direct, hdirect, hdirect'⟩ := hplan.answers hfits startName endName
  obtain ⟨first, hfirst, hfirst'⟩ := hplan.answers hfits startName viaName
  obtain ⟨second, hsecond, hsecond'⟩ := hplan.answers hfits viaName endName
  obtain ⟨stop, hstop, hstop'⟩ := hplan.answers hfits viaName viaName
  obtain ⟨i, hi⟩ := exists_firstAt hstart
  obtain ⟨k, hk⟩ := exists_firstAt hvia
  obtain ⟨j, hj⟩ := exists_firstAt hend
  exact ⟨planner, hrun, direct, first, second, stop, hdirect, hfirst, hsecond, hstop,
    answers_triangle hdirect' hfirst' hsecond' hstop' hi hk hj⟩

/-- Leeds lies on the way from London to Bath. -/
def onTheWay : List Edit :=
  [⟨some (str "London, 5\nBath, 6\nLeeds, 2"), some (str "London, Leeds\nLeeds, Bath")⟩]

theorem parses_onTheWay : ∀ edit ∈ onTheWay, Parses edit.locationFile := by
  simp only [onTheWay, List.mem_singleton]
  rintro edit rfl
  exact ⟨[(str "London", 5), (str "Bath", 6), (str "Leeds", 2)], by decide⟩

theorem getRouteCost_triangle_onTheWay :
    ∃ planner, run onTheWay = .ok planner ∧ ∃ direct first second stop,
      planner.getRouteCost (str "London") (str "Bath") = .ok direct ∧
      planner.getRouteCost (str "London") (str "Leeds") = .ok first ∧
      planner.getRouteCost (str "Leeds") (str "Bath") = .ok second ∧
      planner.getRouteCost (str "Leeds") (str "Leeds") = .ok stop ∧
      direct.toNat + stop.toNat ≤ first.toNat + second.toNat :=
  getRouteCost_triangle onTheWay parses_onTheWay ⟨by decide, by decide⟩ (by decide) (by decide)
    (by decide)

/-! ## Kept locations -/

end RoutePlanner

end RoutePlanner.Route
