/-
# What every round keeps

A round that returns has only lowered labels, each to the sum of the label it
settled and a cost.  So whatever is true of the first labels and passed on by such
a sum is true of all labels ever, for lists of any length, for any costs, and
whichever position a round settles.
-/

import RoutePlanner.Route.RouteSearch

set_option linter.dupNamespace false

namespace RoutePlanner.Route

open RoutePlanner.Std
open RoutePlanner.Math (Walk)
open FileLocationDatabase (Holds)

namespace RoutePlanner

section Rounds

variable {heap : Heap Location} {locations : List Ptr} {n : Nat}

/-- A property of labels that every relaxation passes on. -/
def Passes (objects : Objects heap locations n) (Good : Fin n → UInt32 → Prop) : Prop :=
  ∀ (u v : Fin n) (baseCost routeCost : UInt32), Good u baseCost → Good v routeCost →
    baseCost ≠ intMax.toUInt32 → objects.Adj u v →
    baseCost + (objects.object v).cost < routeCost →
    Good v (baseCost + (objects.object v).cost)

/-- All labels have a property. -/
structure AllGood (Good : Fin n → UInt32 → Prop) (routeCosts : List UInt32) : Prop where
  length_eq : routeCosts.length = n
  good : ∀ v : Fin n, Good v (routeCosts.getD v 0)

variable {objects : Objects heap locations n} {Good : Fin n → UInt32 → Prop}

theorem AllGood.set {routeCosts : List UInt32} (h : AllGood Good routeCosts) {v : Fin n}
    {routeCost : UInt32} (hgood : Good v routeCost) :
    AllGood Good (routeCosts.set v routeCost) where
  length_eq := by rw [List.length_set, h.length_eq]
  good w := by
    rw [getD_set (h.length_eq.symm ▸ v.isLt)]
    split
    · obtain rfl : w = v := Fin.ext ‹_›
      exact hgood
    · exact h.good w

/-- What is read at a position is the label there. -/
theorem AllGood.of_index {routeCosts : List UInt32} (h : AllGood Good routeCosts) (v : Fin n)
    {routeCost : UInt32} (hindex : Fault.index routeCosts v = .ok routeCost) :
    Good v routeCost := by
  have hlt : v.val < routeCosts.length := h.length_eq.symm ▸ v.isLt
  have hread := index_eq_getD hlt 0
  obtain rfl := Except.ok.inj (hread.symm.trans hindex)
  exact h.good v

theorem relaxStep_keeps (hpass : Passes objects Good) {u : Fin n} {baseCost : UInt32}
    (hbase : Good u baseCost) {sptSet : List Bool} {endI : Nat} {state state' : List UInt32 × Bool}
    {adjI : Nat} (h : AllGood Good state.1)
    (hstep : relaxStep heap locations (objects.object u) baseCost sptSet endI state adjI =
      .ok state') : AllGood Good state'.1 := by
  rw [relaxStep] at hstep
  by_cases hsearch : state.2 = true
  · rw [if_pos hsearch] at hstep
    obtain ⟨p, hindex, hstep⟩ := Fault.bind_eq_ok.mp hstep
    obtain ⟨destination, hderef, hstep⟩ := Fault.bind_eq_ok.mp hstep
    obtain ⟨hadjI, rfl⟩ := objects.of_index_deref hindex hderef
    by_cases hadj : (objects.object u).destinationIsValid (objects.object ⟨adjI, hadjI⟩) = true
    · rw [if_pos hadj] at hstep
      obtain ⟨processed, -, hstep⟩ := Fault.bind_eq_ok.mp hstep
      obtain ⟨routeCost, hcost, hstep⟩ := Fault.bind_eq_ok.mp hstep
      by_cases hlower : processed = false ∧ baseCost ≠ intMax.toUInt32 ∧
          baseCost + (objects.object ⟨adjI, hadjI⟩).cost < routeCost
      · rw [if_pos hlower] at hstep
        obtain ⟨routeCosts, hassign, hreturn⟩ := Fault.bind_eq_ok.mp hstep
        obtain ⟨-, rfl⟩ := Fault.assign_eq_ok.mp hassign
        obtain rfl := Except.ok.inj hreturn
        obtain ⟨-, hne, hlt⟩ := hlower
        have hgood := hpass u ⟨adjI, hadjI⟩ baseCost routeCost hbase
          (h.of_index ⟨adjI, hadjI⟩ hcost) hne hadj hlt
        exact h.set hgood
      · rw [if_neg hlower] at hstep
        exact Except.ok.inj hstep ▸ h
    · rw [if_neg hadj] at hstep
      exact Except.ok.inj hstep ▸ h
  · rw [if_neg hsearch] at hstep
    exact Except.ok.inj hstep ▸ h

/-- A round starts from one of the listed objects and its label. -/
theorem roundBase_eq_ok (objects : Objects heap locations n) {state : List UInt32 × List Bool}
    (h : AllGood Good state.1) {base : Location × UInt32 × List Bool}
    (hbase : roundBase heap locations state = .ok base) :
    ∃ u : Fin n, objects.object u = base.1 ∧ Good u base.2.1 := by
  rw [roundBase] at hbase
  obtain ⟨minCostI, -, hbase⟩ := Fault.bind_eq_ok.mp hbase
  obtain ⟨i, -, hbase⟩ := Fault.bind_eq_ok.mp hbase
  obtain ⟨sptSet, -, hbase⟩ := Fault.bind_eq_ok.mp hbase
  obtain ⟨p, hindex, hbase⟩ := Fault.bind_eq_ok.mp hbase
  obtain ⟨refLocation, hderef, hbase⟩ := Fault.bind_eq_ok.mp hbase
  obtain ⟨baseCost, hcost, hreturn⟩ := Fault.bind_eq_ok.mp hbase
  obtain ⟨hi, hobject⟩ := objects.of_index_deref hindex hderef
  obtain rfl := Except.ok.inj hreturn
  exact ⟨⟨i, hi⟩, hobject, h.of_index ⟨i, hi⟩ hcost⟩

theorem settleStep_keeps (hpass : Passes objects Good) {endI : Nat}
    {state state' : List UInt32 × List Bool} {count : Nat} (h : AllGood Good state.1)
    (hstep : settleStep heap locations endI state count = .ok state') :
    AllGood Good state'.1 := by
  rw [settleStep_eq] at hstep
  obtain ⟨base, hbase, hstep⟩ := Fault.bind_eq_ok.mp hstep
  obtain ⟨after, hrun, hreturn⟩ := Fault.bind_eq_ok.mp hstep
  obtain ⟨u, hobject, hgood⟩ := roundBase_eq_ok objects h hbase
  rw [← hobject] at hrun
  obtain rfl := Except.ok.inj hreturn
  exact @Machine.run_keeps _ _ _ (fun s => AllGood Good s.1)
    (fun _ _ _ hs hs' => relaxStep_keeps hpass hgood hs hs') _ _ h _ hrun

/-- The labels before the first round. -/
theorem allGood_start {s : Fin n} (hstart : Good s 0) (hrest : ∀ v, Good v intMax.toUInt32) :
    ∃ routeCosts, Fault.assign (List.replicate n intMax.toUInt32) s 0 = .ok routeCosts ∧
      AllGood Good routeCosts := by
  have hall : AllGood Good (List.replicate n intMax.toUInt32) := by
    refine ⟨List.length_replicate .., fun v => ?_⟩
    rw [List.getD_eq_getElem?_getD, List.getElem?_replicate, if_pos v.isLt]
    exact hrest v
  refine ⟨_, Fault.assign_eq_ok.mpr ⟨?_, rfl⟩, hall.set hstart⟩
  rw [List.length_replicate]
  exact s.isLt

theorem rounds_keep (hpass : Passes objects Good) {endI : Nat}
    {state state' : List UInt32 × List Bool} {rounds : List Nat} (h : AllGood Good state.1)
    (hrun : Machine.run (settleStep heap locations endI) state rounds = .ok state') :
    AllGood Good state'.1 :=
  @Machine.run_keeps _ _ _ (fun s => AllGood Good s.1)
    (fun _ _ _ hs hs' => settleStep_keeps hpass hs hs') _ _ h _ hrun

end Rounds

/-! ## Rounds that return -/

section Returns

variable {heap : Heap Location} {locations : List Ptr} {n : Nat} {routeCosts : List UInt32}
  {sptSet : List Bool}

/-- Whatever the costs are, the relaxation returns, its labels are ready again, and
none is larger than before. -/
theorem relaxStep_ready (objects : Objects heap locations n) (u : Fin n) (baseCost : UInt32)
    (endI : Nat) {k : Nat} (hk : k < n) {state : List UInt32 × Bool}
    (h : Ready n state.1 sptSet) :
    ∃ state', relaxStep heap locations (objects.object u) baseCost sptSet endI state k =
        .ok state' ∧ Ready n state'.1 sptSet ∧ ∀ v, costAt state'.1 v ≤ costAt state.1 v := by
  refine ⟨_, relaxStep_eq objects u baseCost endI hk h, ?_⟩
  split
  · rename_i hlower
    have hlen : k < state.1.length := h.costs.symm ▸ hk
    have hle : ∀ v, costAt (state.1.set k (baseCost + (objects.object ⟨k, hk⟩).cost)) v ≤
        costAt state.1 v := by
      intro v
      rw [costAt, getD_set hlen]
      split
      · rename_i hv
        rw [hv]
        exact Nat.le_of_lt (UInt32.lt_iff_toNat_lt.mp hlower.2.2.2.2)
      · exact Nat.le_refl _
    exact ⟨⟨by rw [List.length_set, h.costs], h.spt, fun v => (hle v).trans (h.le v)⟩, hle⟩
  · exact ⟨h, fun _ => Nat.le_refl _⟩

/-- One round settles the position that was selected and raises no label. -/
structure Round (n : Nat) (before after : List UInt32 × List Bool) (u : Fin n) : Prop where
  selected : getMinCostIndex before.1 before.2 = .ok (Int32.ofNat u)
  unprocessed : before.2.getD u false = false
  least : ∀ v < n, before.2.getD v false = false → costAt before.1 u ≤ costAt before.1 v
  processed : after.2 = before.2.set u true
  le : ∀ v, costAt after.1 v ≤ costAt before.1 v

theorem settleStep_round (objects : Objects heap locations n) (hn : n ≤ 2 ^ 31) (endI : Nat)
    {state : List UInt32 × List Bool} (h : Ready n state.1 state.2)
    (hleft : (labels n state.1 state.2).settled.card < n) (count : Nat) :
    ∃ state' u, settleStep heap locations endI state count = .ok state' ∧
      Ready n state'.1 state'.2 ∧ Round n state state' u := by
  obtain ⟨routeCosts, sptSet⟩ := state
  obtain ⟨u, hselected, hbase, hu, hleast, hready⟩ := roundBase_spec objects hn h hleft
  obtain ⟨after, hrelax, hafter, hle⟩ := @Machine.run_range _
    (relaxStep heap locations (objects.object u) (routeCosts.getD u 0) (sptSet.set u true) endI)
    (fun _ state => Ready n state.1 (sptSet.set u true) ∧
      ∀ v, costAt state.1 v ≤ costAt routeCosts v) n
    (by
      rintro k state hk ⟨hstate, hle⟩
      obtain ⟨state', hstep, hstate', hle'⟩ := relaxStep_ready objects u _ endI hk hstate
      exact ⟨state', hstep, hstate', fun v => (hle' v).trans (hle v)⟩)
    (routeCosts, true) ⟨hready, fun _ => Nat.le_refl _⟩
  refine ⟨(after.1, sptSet.set u true), u, ?_, hafter, hselected, hu, fun v hv hfree => ?_, rfl,
    hle⟩
  · simp only [settleStep_eq, hbase, Fault.ok_bind, objects.length_eq, hrelax, Fault.pure_eq_ok]
  · exact UInt32.le_iff_toNat_le.mp (hleast v hv hfree)

/-- So a round leaves one position less. -/
theorem Round.card_settled {before after : List UInt32 × List Bool} {u : Fin n}
    (h : Ready n before.1 before.2) (hround : Round n before after u) :
    (labels n after.1 after.2).settled.card = (labels n before.1 before.2).settled.card + 1 := by
  rw [hround.processed, settled_set h after.1 u,
    Finset.card_insert_of_notMem (notMem_settled.mpr hround.unprocessed)]

/-- Rounds as long as a vertex is left return, if there are not more positions than
an `int` can count. -/
theorem rounds_return (objects : Objects heap locations n) (hn : n ≤ 2 ^ 31) (endI : Nat)
    (h : Ready n routeCosts sptSet) (hnone : (labels n routeCosts sptSet).settled = ∅) {k : Nat}
    (hk : k ≤ n) :
    ∃ state, Machine.run (settleStep heap locations endI) (routeCosts, sptSet) (List.range k) =
        .ok state ∧ Ready n state.1 state.2 ∧ (labels n state.1 state.2).settled.card = k :=
  @Machine.run_range _ (settleStep heap locations endI)
    (fun k state => Ready n state.1 state.2 ∧ (labels n state.1 state.2).settled.card = k) k
    (by
      rintro count state hcount ⟨hready, hcard⟩
      obtain ⟨state', u, hstep, hready', hround⟩ := settleStep_round objects hn endI hready
        (by rw [hcard]; exact Nat.lt_of_lt_of_le hcount hk) count
      exact ⟨state', hstep, hready', by rw [hround.card_settled hready, hcard]⟩)
    (routeCosts, sptSet) ⟨h, by rw [hnone, Finset.card_empty]⟩

end Returns

/-! ## The answer -/

section Answer

variable {planner : RoutePlanner} {held : List Entry} {startName endName : Str}
  {s e : Fin held.length}

/-- Between two names that are held there is an answer, if there are not more positions
than an `int` can count. -/
theorem getRouteCost_returns (hdb : Holds planner.locationDb held) (hn : held.length ≤ 2 ^ 31)
    (hs : FirstAt held startName s) (he : FirstAt held endName e) :
    ∃ cost, planner.getRouteCost startName endName = .ok cost := by
  obtain ⟨routeCosts, hassign, hready, hstart⟩ := assign_start s
  obtain ⟨state, hrun, hready', -⟩ := rounds_return (listed hdb) hn e hready
    (by rw [hstart]; rfl) (Nat.sub_le held.length 1)
  obtain ⟨p, hindex, hderef⟩ := (listed hdb).index_deref s
  have hlt : e.val < state.1.length := hready'.costs.symm ▸ e.isLt
  refine ⟨state.1.getD e 0 + ((listed hdb).object s).cost, ?_⟩
  rw [getRouteCost_eq hdb hs he hassign, hrun]
  simp only [Fault.ok_bind, index_eq_getD hlt 0, hindex, hderef, Fault.pure_eq_ok]

/-- An answer is the sum of the last label of the end and the cost of the start. -/
theorem getRouteCost_eq_ok (hdb : Holds planner.locationDb held) (hs : FirstAt held startName s)
    (he : FirstAt held endName e) {Good : Fin held.length → UInt32 → Prop}
    (hpass : Passes (listed hdb) Good) (hstart : Good s 0) (hrest : ∀ v, Good v intMax.toUInt32)
    {cost : UInt32} (hroute : planner.getRouteCost startName endName = .ok cost) :
    ∃ routeCost, Good e routeCost ∧ cost = routeCost + (held.get s).2 := by
  obtain ⟨routeCosts, hassign, hall⟩ := allGood_start hstart hrest
  rw [getRouteCost_eq hdb hs he hassign] at hroute
  obtain ⟨after, hrun, hroute⟩ := Fault.bind_eq_ok.mp hroute
  obtain ⟨routeCost, hcost, hroute⟩ := Fault.bind_eq_ok.mp hroute
  obtain ⟨p, hindex, hroute⟩ := Fault.bind_eq_ok.mp hroute
  obtain ⟨startLocation, hderef, hreturn⟩ := Fault.bind_eq_ok.mp hroute
  obtain ⟨hlt, rfl⟩ := (listed hdb).of_index_deref hindex hderef
  refine ⟨routeCost, (rounds_keep hpass hall hrun).of_index e hcost, ?_⟩
  have hentry : _ = held.get s := entry_listed hdb s
  rw [← hentry]
  exact (Except.ok.inj hreturn).symm

/-- A label below `INT_MAX` belongs to a position that a walk leads to, and none is
above. -/
def Reached (hdb : Holds planner.locationDb held) (s v : Fin held.length)
    (routeCost : UInt32) : Prop :=
  routeCost.toNat ≤ INT_MAX ∧
    (routeCost.toNat < INT_MAX → ∃ vs, Walk (listed hdb).Adj s vs v)

theorem passes_reached (hdb : Holds planner.locationDb held) (s : Fin held.length) :
    Passes (listed hdb) (Reached hdb s) := by
  intro u v baseCost routeCost hbase hroute hne hadj hlt
  rw [UInt32.lt_iff_toNat_lt] at hlt
  refine ⟨(Nat.le_of_lt hlt).trans hroute.1, fun _ => ?_⟩
  obtain ⟨vs, hwalk⟩ := hbase.2 ((ne_intMax_iff hbase.1).mp hne)
  exact ⟨_, hwalk.concat hadj⟩

theorem reached_start (hdb : Holds planner.locationDb held) (s : Fin held.length) :
    Reached hdb s s 0 :=
  ⟨Nat.zero_le _, fun _ => ⟨[], .nil s⟩⟩

theorem reached_rest (hdb : Holds planner.locationDb held) (s v : Fin held.length) :
    Reached hdb s v intMax.toUInt32 :=
  ⟨toNat_intMax.le, fun hlt => absurd toNat_intMax (Nat.ne_of_lt hlt)⟩

/-- Where no walk leads the label stays `INT_MAX`. -/
theorem reached_eq_intMax {hdb : Holds planner.locationDb held} {v : Fin held.length}
    {routeCost : UInt32} (h : Reached hdb s v routeCost)
    (hwalk : ¬ ∃ vs, Walk (listed hdb).Adj s vs v) : routeCost = intMax.toUInt32 := by
  rw [← UInt32.toNat_inj, toNat_intMax]
  exact Nat.le_antisymm h.1 (Nat.le_of_not_lt fun hlt => hwalk (h.2 hlt))

/-- If no walk leads to the end, an answer is `INT_MAX` and the cost of the start. -/
theorem getRouteCost_of_unreachable (hdb : Holds planner.locationDb held)
    (hs : FirstAt held startName s) (he : FirstAt held endName e)
    (hwalk : ¬ ∃ vs, Walk (listed hdb).Adj s vs e) {cost : UInt32}
    (hroute : planner.getRouteCost startName endName = .ok cost) :
    cost = intMax.toUInt32 + (held.get s).2 := by
  obtain ⟨routeCost, hreached, rfl⟩ := getRouteCost_eq_ok hdb hs he (passes_reached hdb s)
    (reached_start hdb s) (reached_rest hdb s) hroute
  rw [reached_eq_intMax hreached hwalk]

end Answer

end RoutePlanner

end RoutePlanner.Route
