/-
# The route cost is found by label setting

The vectors of `GetRouteCost` are read as labels over the positions of the
location list.  One round of its main loop then settles a vertex, as long as the
position selected fits in the `int` that carries it.
-/

import RoutePlanner.Route.RouteCost
import RoutePlanner.Math.LabelSetting

set_option linter.dupNamespace false

namespace RoutePlanner.Route

open RoutePlanner.Std
open RoutePlanner.Math (Labels Walk IsMinCost)

namespace RoutePlanner

/-! ## Conversions -/

theorem toNat_intMax : intMax.toUInt32.toNat = INT_MAX := by decide

/-- A position below `2 ^ 31` is unharmed by the `int`. -/
theorem intIndex_of_lt {i : Nat} (h : i < 2 ^ 31) : intIndex (Int32.ofNat i) = .ok i := by
  have hint : (Int32.ofNat i).toInt = i := Int32.toInt_ofNat_of_lt h
  have hneg : ¬ Int32.ofNat i < 0 := by
    rw [Int32.lt_iff_toInt_lt, hint]
    simp
  rw [intIndex, if_neg hneg, Int32.toNatClampNeg, hint, Int.toNat_natCast]

/-- The positions that do not fit turn negative, up to `2 ^ 32`. -/
theorem intIndex_of_ge {i : Nat} (hle : 2 ^ 31 ≤ i) (hlt : i < 2 ^ 32) :
    intIndex (Int32.ofNat i) = .error .indexOutOfRange := by
  have hneg : Int32.ofNat i < 0 := by
    rw [Int32.lt_iff_toInt_lt, Int32.toInt_ofNat', Int.bmod_def, Int32.toInt_zero,
      show Int32.size = 2 ^ 32 from rfl]
    split <;> omega
  rw [intIndex, if_pos hneg]

theorem index_eq_getD {α : Type} {items : List α} {i : Nat} (h : i < items.length) (d : α) :
    Fault.index items i = .ok (items.getD i d) := by
  rw [Fault.index_of_lt h, List.getD_eq_getElem?_getD, List.getElem?_eq_getElem h,
    Option.getD_some]

/-! ## The selection -/

/-- Both vectors have one entry for each location, and no cost is above
`INT_MAX`. -/
structure Ready (n : Nat) (routeCosts : List UInt32) (sptSet : List Bool) : Prop where
  costs : routeCosts.length = n
  spt : sptSet.length = n
  le : ∀ i, (routeCosts.getD i 0).toNat ≤ INT_MAX

/-- After some rounds `min` is the least cost of an unprocessed location seen so
far, and `min_index` the `int` of its position. -/
def LeastSoFar (routeCosts : List UInt32) (sptSet : List Bool) (k : Nat)
    (best : Int32 × Option Int32) : Prop :=
  (best = (intMax, none) ∧ ∀ v < k, sptSet.getD v false = true) ∨
    ∃ u < k, best = ((routeCosts.getD u 0).toInt32, some (Int32.ofNat u)) ∧
      sptSet.getD u false = false ∧
      ∀ v < k, sptSet.getD v false = false → routeCosts.getD u 0 ≤ routeCosts.getD v 0

section Selection

variable {n : Nat} {routeCosts : List UInt32} {sptSet : List Bool}

theorem minCostStep_spec (h : Ready n routeCosts sptSet) {k : Nat} (hk : k < n)
    {best : Int32 × Option Int32} (hbest : LeastSoFar routeCosts sptSet k best) :
    ∃ best', minCostStep routeCosts sptSet best k = .ok best' ∧
      LeastSoFar routeCosts sptSet (k + 1) best' := by
  rw [minCostStep, index_eq_getD (h.spt.symm ▸ hk) false, Fault.ok_bind,
    index_eq_getD (h.costs.symm ▸ hk) 0, Fault.ok_bind]
  by_cases htake : sptSet.getD k false = false ∧ routeCosts.getD k 0 ≤ best.1.toUInt32
  · rw [if_pos htake]
    refine ⟨_, rfl, Or.inr ⟨k, Nat.lt_succ_self k, rfl, htake.1, fun v hv hunsettled => ?_⟩⟩
    rcases Nat.lt_succ_iff_lt_or_eq.mp hv with hv | rfl
    · rcases hbest with ⟨-, hall⟩ | ⟨u, -, rfl, -, hleast⟩
      · rw [hall v hv] at hunsettled
        cases hunsettled
      · exact UInt32.le_trans htake.2 (hleast v hv hunsettled)
    · exact UInt32.le_refl _
  · rw [if_neg htake]
    refine ⟨best, rfl, ?_⟩
    rcases hbest with ⟨rfl, hall⟩ | ⟨u, hu, rfl, hunsettled, hleast⟩
    · -- every cost is at most the initial `min`
      refine Or.inl ⟨rfl, fun v hv => ?_⟩
      rcases Nat.lt_succ_iff_lt_or_eq.mp hv with hv | rfl
      · exact hall v hv
      · by_contra hunsettled
        refine htake ⟨by simpa using hunsettled, ?_⟩
        rw [UInt32.le_iff_toNat_le, toNat_intMax]
        exact h.le v
    · refine Or.inr ⟨u, Nat.lt_succ_of_lt hu, rfl, hunsettled, fun v hv hv' => ?_⟩
      rcases Nat.lt_succ_iff_lt_or_eq.mp hv with hv | rfl
      · exact hleast v hv hv'
      · refine (UInt32.le_total _ _).resolve_right fun hle => htake ⟨hv', hle⟩

/-- Where a location is left, one of least cost is selected. -/
theorem getMinCostIndex_spec (h : Ready n routeCosts sptSet)
    (hleft : ∃ v < n, sptSet.getD v false = false) :
    ∃ u < n, getMinCostIndex routeCosts sptSet = .ok (Int32.ofNat u) ∧
      sptSet.getD u false = false ∧
      ∀ v < n, sptSet.getD v false = false → routeCosts.getD u 0 ≤ routeCosts.getD v 0 := by
  obtain ⟨best, hrun, hbest⟩ := @Machine.run_range _ _ (LeastSoFar routeCosts sptSet) n
    (fun k best hk => minCostStep_spec h hk) _
    (Or.inl ⟨rfl, fun v hv => absurd hv (Nat.not_lt_zero v)⟩)
  rcases hbest with ⟨-, hall⟩ | ⟨u, hu, rfl, hunsettled, hleast⟩
  · obtain ⟨v, hv, hunsettled⟩ := hleft
    rw [hall v hv] at hunsettled
    cases hunsettled
  · refine ⟨u, hu, ?_, hunsettled, hleast⟩
    rw [getMinCostIndex, h.costs, hrun]
    rfl

end Selection

/-! ## The relaxation -/

/-- The objects behind a list of pointers. -/
structure Objects (heap : Heap Location) (locations : List Ptr) (n : Nat) where
  object : Fin n → Location
  length_eq : locations.length = n
  cell : ∀ i : Fin n, ∃ p, locations[i.val]? = some p ∧ heap.cell p = some (object i)

namespace Objects

variable {heap : Heap Location} {locations : List Ptr} {n : Nat}

/-- Positions, not names, are the vertices. -/
def Adj (objects : Objects heap locations n) (i j : Fin n) : Prop :=
  (objects.object i).destinationIsValid (objects.object j) = true

theorem index_deref (objects : Objects heap locations n) (i : Fin n) :
    ∃ p, Fault.index locations i.val = .ok p ∧ heap.deref p = .ok (objects.object i) := by
  obtain ⟨p, hp, hcell⟩ := objects.cell i
  exact ⟨p, Fault.index_eq_ok.mpr hp, Heap.deref_eq_ok.mpr hcell⟩

/-- What is read at a position is the object there. -/
theorem of_index_deref (objects : Objects heap locations n) {i : Nat} {p : Ptr} {object : Location}
    (hindex : Fault.index locations i = .ok p) (hderef : heap.deref p = .ok object) :
    ∃ hi : i < n, objects.object ⟨i, hi⟩ = object := by
  have hp := Fault.index_eq_ok.mp hindex
  obtain ⟨hlt, -⟩ := List.getElem?_eq_some_iff.mp hp
  have hi : i < n := objects.length_eq ▸ hlt
  obtain ⟨q, hq, hcell⟩ := objects.cell ⟨i, hi⟩
  obtain rfl : p = q := Option.some.inj (hp.symm.trans hq)
  exact ⟨hi, Option.some.inj (hcell.symm.trans (Heap.deref_eq_ok.mp hderef))⟩

end Objects

/-- Objects with costs that fit in an `int`. -/
structure Row (heap : Heap Location) (locations : List Ptr) (n : Nat) extends
    Objects heap locations n where
  cost_le : ∀ i, (object i).cost.toNat ≤ INT_MAX

/-- The costs as weights of the positions. -/
def Row.cost {heap : Heap Location} {locations : List Ptr} {n : Nat} (row : Row heap locations n)
    (i : Fin n) : Nat := (row.object i).cost.toNat

/-- The cost kept for a position. -/
def costAt (routeCosts : List UInt32) (i : Nat) : Nat := (routeCosts.getD i 0).toNat

theorem getD_set {α : Type} {items : List α} {i : Nat} (h : i < items.length) (a d : α) (j : Nat) :
    (items.set i a).getD j d = if j = i then a else items.getD j d := by
  rw [List.getD_eq_getElem?_getD, List.getD_eq_getElem?_getD, List.getElem?_set]
  by_cases hj : i = j
  · subst hj
    simp [h]
  · rw [if_neg hj, if_neg (Ne.symm hj)]

section Relaxation

variable {heap : Heap Location} {locations : List Ptr} {n : Nat}

/-- At a position inside the vectors the loop body does not fail, and it has one case in
which it changes anything. -/
theorem relaxStep_eq (objects : Objects heap locations n) (u : Fin n) (baseCost : UInt32)
    (endI : Nat) {k : Nat} (hk : k < n) {state : List UInt32 × Bool} {sptSet : List Bool}
    (h : Ready n state.1 sptSet) :
    relaxStep heap locations (objects.object u) baseCost sptSet endI state k =
      .ok (if state.2 = true ∧
          (objects.object u).destinationIsValid (objects.object ⟨k, hk⟩) = true ∧
          sptSet.getD k false = false ∧ baseCost ≠ intMax.toUInt32 ∧
          baseCost + (objects.object ⟨k, hk⟩).cost < state.1.getD k 0 then
        (state.1.set k (baseCost + (objects.object ⟨k, hk⟩).cost), k != endI)
      else state) := by
  obtain ⟨p, hindex, hderef⟩ := objects.index_deref ⟨k, hk⟩
  have hlen : k < state.1.length := h.costs.symm ▸ hk
  rw [relaxStep]
  by_cases hsearch : state.2 = true
  · simp only [hsearch, if_true, hindex, hderef, Fault.ok_bind, true_and]
    by_cases hadj : (objects.object u).destinationIsValid (objects.object ⟨k, hk⟩) = true
    · rw [if_pos hadj, index_eq_getD (h.spt.symm ▸ hk) false, index_eq_getD hlen 0]
      simp only [Fault.ok_bind, hadj, true_and, Fault.assign, if_pos hlen, Fault.pure_eq_ok,
        apply_ite Except.ok]
    · rw [if_neg hadj, if_neg fun hlower => hadj hlower.1]
      rfl
  · rw [if_neg hsearch, if_neg fun hlower => hsearch hlower.1]
    rfl

/-- What holds after the relaxation loop has looked at the first `k` positions.
It goes on searching until it lowers the cost of the target. -/
structure RelaxedSoFar (row : Row heap locations n) (u t : Fin n) (sptSet : List Bool)
    (baseCost : UInt32) (routeCosts : List UInt32) (k : Nat) (state : List UInt32 × Bool) :
    Prop where
  ready : Ready n state.1 sptSet
  le : ∀ v : Fin n, costAt state.1 v ≤ costAt routeCosts v
  eq_or_relaxed : ∀ v : Fin n, costAt state.1 v = costAt routeCosts v ∨
    (sptSet.getD v false = false ∧ row.Adj u v ∧ baseCost.toNat < INT_MAX ∧
      costAt state.1 v = baseCost.toNat + row.cost v)
  searching : state.2 = true → ∀ v : Fin n, v.val < k → sptSet.getD v false = false →
    row.Adj u v → baseCost.toNat < INT_MAX → costAt state.1 v ≤ baseCost.toNat + row.cost v
  stopped : state.2 = false → row.Adj u t ∧ costAt state.1 t ≤ baseCost.toNat + row.cost t

variable {row : Row heap locations n} {u t : Fin n} {sptSet : List Bool} {baseCost : UInt32}
  {routeCosts : List UInt32}

/-- A position that needs no update only moves the loop on. -/
theorem RelaxedSoFar.skip {k : Nat} {state : List UInt32 × Bool}
    (h : RelaxedSoFar row u t sptSet baseCost routeCosts k state)
    (hskip : state.2 = true → ∀ v : Fin n, v.val = k → sptSet.getD v false = false →
      row.Adj u v → baseCost.toNat < INT_MAX →
      costAt state.1 v ≤ baseCost.toNat + row.cost v) :
    RelaxedSoFar row u t sptSet baseCost routeCosts (k + 1) state where
  ready := h.ready
  le := h.le
  eq_or_relaxed := h.eq_or_relaxed
  searching hsearch v hv := (Nat.lt_succ_iff_lt_or_eq.mp hv).elim
    (fun hv => h.searching hsearch v hv) (fun hv => hskip hsearch v hv)
  stopped := h.stopped

/-- The sum of two costs below `INT_MAX` does not wrap. -/
theorem toNat_add_cost {baseCost destCost : UInt32} (hbase : baseCost.toNat ≤ INT_MAX)
    (hdest : destCost.toNat ≤ INT_MAX) :
    (baseCost + destCost).toNat = baseCost.toNat + destCost.toNat := by
  rw [UInt32.toNat_add]
  simp only [INT_MAX] at hbase hdest
  omega

theorem ne_intMax_iff {baseCost : UInt32} (hbase : baseCost.toNat ≤ INT_MAX) :
    baseCost ≠ intMax.toUInt32 ↔ baseCost.toNat < INT_MAX := by
  rw [Ne, ← UInt32.toNat_inj, toNat_intMax]
  omega

/-- An update keeps the invariant; when it is the target's, the loop stops. -/
theorem RelaxedSoFar.lower (hbase : baseCost.toNat < INT_MAX) {k : Nat} (hk : k < n)
    {current : List UInt32}
    (h : RelaxedSoFar row u t sptSet baseCost routeCosts k (current, true))
    (hunsettled : sptSet.getD k false = false) (hadj : row.Adj u ⟨k, hk⟩)
    (hlt : baseCost.toNat + row.cost ⟨k, hk⟩ < costAt current k) :
    RelaxedSoFar row u t sptSet baseCost routeCosts (k + 1)
      (current.set k (baseCost + (row.object ⟨k, hk⟩).cost), k != t) := by
  have hlen : k < current.length := h.ready.costs.symm ▸ hk
  have hset : ∀ v, costAt (current.set k (baseCost + (row.object ⟨k, hk⟩).cost)) v =
      if v = k then baseCost.toNat + row.cost ⟨k, hk⟩ else costAt current v := by
    intro v
    rw [costAt, getD_set hlen]
    split
    · exact toNat_add_cost (Nat.le_of_lt hbase) (row.cost_le ⟨k, hk⟩)
    · rfl
  have hlower : ∀ v, costAt (current.set k (baseCost + (row.object ⟨k, hk⟩).cost)) v ≤
      costAt current v := by
    intro v
    rw [hset]
    split
    · rename_i hv
      rw [hv]
      exact Nat.le_of_lt hlt
    · exact le_refl _
  refine ⟨⟨?_, h.ready.spt, ?_⟩, ?_, ?_, ?_, ?_⟩
  · rw [List.length_set, h.ready.costs]
  · exact fun v => (hlower v).trans (h.ready.le v)
  · exact fun v => (hlower v).trans (h.le v)
  · intro v
    rw [hset]
    split
    · rename_i hv
      obtain rfl : v = ⟨k, hk⟩ := Fin.ext hv
      exact Or.inr ⟨hunsettled, hadj, hbase, rfl⟩
    · exact h.eq_or_relaxed v
  · intro _ v hv hv' hadj' hreached
    rcases Nat.lt_succ_iff_lt_or_eq.mp hv with hv | hv
    · exact (hlower v).trans (h.searching rfl v hv hv' hadj' hreached)
    · obtain rfl : v = ⟨k, hk⟩ := Fin.ext hv
      rw [hset, if_pos rfl]
  · intro hstop
    obtain rfl : ⟨k, hk⟩ = t := Fin.ext (by simpa using hstop)
    exact ⟨hadj, by rw [hset, if_pos rfl]⟩

theorem relaxStep_spec (hbase : baseCost.toNat ≤ INT_MAX) {k : Nat} (hk : k < n)
    {state : List UInt32 × Bool}
    (h : RelaxedSoFar row u t sptSet baseCost routeCosts k state) :
    ∃ state', relaxStep heap locations (row.object u) baseCost sptSet t state k = .ok state' ∧
      RelaxedSoFar row u t sptSet baseCost routeCosts (k + 1) state' := by
  have hsum := toNat_add_cost hbase (row.cost_le ⟨k, hk⟩)
  refine ⟨_, relaxStep_eq row.toObjects u baseCost t hk h.ready, ?_⟩
  split
  · rename_i hlower
    obtain ⟨hsearch, hadj, hunsettled, hreached, hlt⟩ := hlower
    obtain ⟨current, bSearch⟩ := state
    obtain rfl : bSearch = true := hsearch
    rw [ne_intMax_iff hbase] at hreached
    rw [UInt32.lt_iff_toNat_lt] at hlt
    exact h.lower hreached hk hunsettled hadj (hsum ▸ hlt)
  · rename_i hskip
    refine h.skip fun hsearch v hv hunsettled hadj hreached => ?_
    obtain rfl : v = ⟨k, hk⟩ := Fin.ext hv
    refine Nat.le_of_not_lt fun hlt => hskip ⟨hsearch, hadj, hunsettled, ?_, ?_⟩
    · exact (ne_intMax_iff hbase).mpr hreached
    · exact UInt32.lt_iff_toNat_lt.mpr (hsum.trans_lt hlt)

/-- The whole loop, from costs that are ready. -/
theorem relax_spec (row : Row heap locations n) (u t : Fin n) (hbase : baseCost.toNat ≤ INT_MAX)
    (h : Ready n routeCosts sptSet) :
    ∃ state, Machine.run (relaxStep heap locations (row.object u) baseCost sptSet t)
        (routeCosts, true) (List.range locations.length) = .ok state ∧
      RelaxedSoFar row u t sptSet baseCost routeCosts n state := by
  rw [row.length_eq]
  refine @Machine.run_range _ _ (RelaxedSoFar row u t sptSet baseCost routeCosts) n
    (fun k state hk => relaxStep_spec hbase hk) _ ⟨h, ?_, ?_, ?_, ?_⟩
  · exact fun _ => le_refl _
  · exact fun _ => Or.inl rfl
  · exact fun _ v hv => absurd hv (Nat.not_lt_zero _)
  · exact fun hstop => Bool.noConfusion hstop

end Relaxation

/-! ## The main loop -/

/-- The vectors of the search, read as labels. -/
def labels (n : Nat) (routeCosts : List UInt32) (sptSet : List Bool) : Labels (Fin n) where
  label v := costAt routeCosts v
  settled := Finset.univ.filter fun v => sptSet.getD v false = true

section MainLoop

variable {heap : Heap Location} {locations : List Ptr} {n : Nat} {routeCosts : List UInt32}
  {sptSet : List Bool}

theorem notMem_settled {v : Fin n} :
    v ∉ (labels n routeCosts sptSet).settled ↔ sptSet.getD v false = false := by
  simp [labels]

/-- Some location is not processed yet. -/
theorem exists_unsettled (hleft : (labels n routeCosts sptSet).settled.card < n) :
    ∃ v < n, sptSet.getD v false = false := by
  obtain ⟨v, hv⟩ := Finset.exists_mem_notMem_of_card_lt_card
    (show (labels n routeCosts sptSet).settled.card < (Finset.univ : Finset (Fin n)).card by
      simpa using hleft)
  exact ⟨v, v.isLt, notMem_settled.mp hv.2⟩

theorem settled_set (h : Ready n routeCosts sptSet) (routeCosts' : List UInt32) (u : Fin n) :
    (labels n routeCosts' (sptSet.set u true)).settled =
      insert u (labels n routeCosts sptSet).settled := by
  have hlen : u.val < sptSet.length := h.spt.symm ▸ u.isLt
  ext v
  simp only [labels, Finset.mem_filter, Finset.mem_univ, true_and, Finset.mem_insert,
    getD_set hlen]
  by_cases hv : v = u
  · simp [hv]
  · simp [hv, Fin.val_ne_of_ne hv]

/-- What a round starts from: the location it settles, its cost so far, and the set
with this location added. -/
def roundBase (heap : Heap Location) (locations : List Ptr) (state : List UInt32 × List Bool) :
    Except Fault (Location × UInt32 × List Bool) := do
  let minCostI ← getMinCostIndex state.1 state.2
  let i ← intIndex minCostI
  let sptSet ← Fault.assign state.2 i true
  let p ← Fault.index locations i
  let refLocation ← heap.deref p
  let baseCost ← Fault.index state.1 i
  return (refLocation, baseCost, sptSet)

theorem settleStep_eq (heap : Heap Location) (locations : List Ptr) (endI : Nat)
    (state : List UInt32 × List Bool) (count : Nat) :
    settleStep heap locations endI state count = do
      let base ← roundBase heap locations state
      let after ← Machine.run (relaxStep heap locations base.1 base.2.1 base.2.2 endI)
        (state.1, true) (List.range locations.length)
      return (after.1, base.2.2) := by
  simp only [settleStep, roundBase, bind_assoc, Fault.pure_eq_ok, Fault.ok_bind]

/-- It is a location of least cost, if there are not more positions than an `int`
can count. -/
theorem roundBase_spec (objects : Objects heap locations n) (hn : n ≤ 2 ^ 31)
    (h : Ready n routeCosts sptSet) (hleft : (labels n routeCosts sptSet).settled.card < n) :
    ∃ u : Fin n, getMinCostIndex routeCosts sptSet = .ok (Int32.ofNat u) ∧
      roundBase heap locations (routeCosts, sptSet) =
        .ok (objects.object u, routeCosts.getD u 0, sptSet.set u true) ∧
      sptSet.getD u false = false ∧
      (∀ v < n, sptSet.getD v false = false → routeCosts.getD u 0 ≤ routeCosts.getD v 0) ∧
      Ready n routeCosts (sptSet.set u true) := by
  obtain ⟨i, hi, hselect, hu, hleast⟩ := getMinCostIndex_spec h (exists_unsettled hleft)
  have hlen : i < sptSet.length := h.spt.symm ▸ hi
  obtain ⟨p, hindex, hderef⟩ := objects.index_deref ⟨i, hi⟩
  refine ⟨⟨i, hi⟩, hselect, ?_, hu, hleast, h.costs, by rw [List.length_set, h.spt], h.le⟩
  have hindex' : Fault.index locations i = .ok p := hindex
  simp only [roundBase, hselect, intIndex_of_lt (Nat.lt_of_lt_of_le hi hn), Fault.ok_bind,
    Fault.assign, if_pos hlen, hindex', hderef, index_eq_getD (h.costs.symm ▸ hi) 0,
    Fault.pure_eq_ok]

/-- One round settles a vertex, if there are not more positions than an `int`
can count. -/
theorem settleStep_spec (row : Row heap locations n) (hn : n ≤ 2 ^ 31) (t : Fin n)
    (h : Ready n routeCosts sptSet) (hleft : (labels n routeCosts sptSet).settled.card < n)
    (count : Nat) :
    ∃ routeCosts' sptSet' u, settleStep heap locations t (routeCosts, sptSet) count =
        .ok (routeCosts', sptSet') ∧ Ready n routeCosts' sptSet' ∧
      Labels.Settle row.Adj row.cost INT_MAX t (labels n routeCosts sptSet) u
        (labels n routeCosts' sptSet') := by
  obtain ⟨u, -, hbase, hu, hleast, hready⟩ := roundBase_spec row.toObjects hn h hleft
  obtain ⟨⟨routeCosts', bSearch⟩, hrelax, hafter⟩ :=
    @relax_spec _ _ _ _ (routeCosts.getD u 0) _ row u t (h.le u) hready
  refine ⟨routeCosts', sptSet.set u true, u, ?_, hafter.ready, ?_, ?_, ?_, hafter.le, ?_, ?_⟩
  · have hrelax' : Machine.run (relaxStep heap locations (row.toObjects.object u)
        (routeCosts.getD u 0) (sptSet.set u true) t) (routeCosts, true)
        (List.range locations.length) = .ok (routeCosts', bSearch) := hrelax
    simp only [settleStep_eq, hbase, Fault.ok_bind, hrelax', Fault.pure_eq_ok]
  · exact notMem_settled.mpr hu
  · intro v hv
    exact UInt32.le_iff_toNat_le.mp (hleast v v.isLt (notMem_settled.mp hv))
  · exact settled_set h routeCosts' u
  · intro v
    rw [notMem_settled]
    exact hafter.eq_or_relaxed v
  · intro v hv hadj hreached hv'
    rw [notMem_settled] at hv
    cases bSearch with
    | true => exact hafter.searching rfl v v.isLt hv hadj hreached
    | false =>
        obtain ⟨hadjT, hle⟩ := hafter.stopped rfl
        obtain rfl := hv'.resolve_right (not_not.mpr hadjT)
        exact hle

/-- Rounds as long as a vertex is left settle one vertex each. -/
theorem settleStep_run (row : Row heap locations n) (hn : n ≤ 2 ^ 31) (t : Fin n)
    (h : Ready n routeCosts sptSet) (hnone : (labels n routeCosts sptSet).settled = ∅) {k : Nat}
    (hk : k ≤ n) :
    ∃ routeCosts' sptSet', Machine.run (settleStep heap locations t) (routeCosts, sptSet)
        (List.range k) = .ok (routeCosts', sptSet') ∧ Ready n routeCosts' sptSet' ∧
      Labels.Settles row.Adj row.cost INT_MAX t k (labels n routeCosts sptSet)
        (labels n routeCosts' sptSet') := by
  obtain ⟨state, hrun, hready, hsettles⟩ := @Machine.run_range _ _
    (fun k state => Ready n state.1 state.2 ∧ Labels.Settles row.Adj row.cost INT_MAX t k
      (labels n routeCosts sptSet) (labels n state.1 state.2)) k
    (by
      rintro count ⟨current, settled⟩ hcount ⟨hready, hsettles⟩
      have hcard := Labels.card_settled hsettles
      rw [hnone, Finset.card_empty, Nat.zero_add] at hcard
      obtain ⟨current', settled', u, hstep, hready', hsettle⟩ := settleStep_spec row hn t hready
        (by rw [hcard]; exact Nat.lt_of_lt_of_le hcount hk) count
      exact ⟨_, hstep, hready', .succ hsettles hsettle⟩)
    (routeCosts, sptSet) ⟨h, .zero _⟩
  exact ⟨_, _, hrun, hready, hsettles⟩

end MainLoop

/-! ## The answer -/

open FileLocationDatabase (Holds)

section Answer

variable {db : FileLocationDatabase} {held : List Entry}

theorem isSome_cell (hdb : Holds db held) {i : Nat} (hi : i < db.locationList.length) :
    (db.heap.cell db.locationList[i]).isSome = true :=
  hdb.live (List.getElem_mem hi)

/-- The objects of a database that holds entries. -/
def listed (hdb : Holds db held) : Objects db.heap db.locationList held.length where
  object i :=
    have hi : i.val < db.locationList.length := hdb.length_eq.symm ▸ i.isLt
    (db.heap.cell db.locationList[i.val]).get (isSome_cell hdb hi)
  length_eq := hdb.length_eq
  cell i := ⟨_, List.getElem?_eq_getElem _, (Option.some_get _).symm⟩

/-- The objects have the names and costs that are held. -/
theorem entry_listed (hdb : Holds db held) (i : Fin held.length) :
    (((listed hdb).object i).name, ((listed hdb).object i).cost) = held[i] := by
  have hi : i.val < db.locationList.length := hdb.length_eq.symm ▸ i.isLt
  have hentry := hdb.entryAt_getElem i hi i.isLt
  rw [FileLocationDatabase.entryAt, Option.map_eq_some_iff] at hentry
  obtain ⟨object, hcell, hobject⟩ := hentry
  simpa only [listed, hcell, Option.get_some, Fin.getElem_fin] using hobject

/-- The objects of a database that holds entries with costs that fit in an
`int`. -/
def row (hdb : Holds db held) (hcosts : ∀ entry ∈ held, entry.2.toNat ≤ INT_MAX) :
    Row db.heap db.locationList held.length where
  toObjects := listed hdb
  cost_le i := by
    have hentry := congrArg Prod.snd (entry_listed hdb i)
    dsimp only at hentry
    rw [hentry]
    exact hcosts _ (List.getElem_mem i.isLt)

theorem entry_row (hdb : Holds db held) (hcosts : ∀ entry ∈ held, entry.2.toNat ≤ INT_MAX)
    (i : Fin held.length) :
    (((row hdb hcosts).object i).name, ((row hdb hcosts).object i).cost) = held[i] :=
  entry_listed hdb i

/-- The position is the first of an entry with this name. -/
structure FirstAt (entries : List Entry) (name : Str) (i : Fin entries.length) : Prop where
  name_eq : entries[i].1 = name
  le : ∀ k : Fin entries.length, entries[k].1 = name → i ≤ k

/-- A name that is held has a first position. -/
theorem exists_firstAt {entries : List Entry} {name : Str}
    (hname : name ∈ entries.map Prod.fst) : ∃ i, FirstAt entries name i := by
  have hat : ∃ i, ∃ hi : i < entries.length, entries[i].1 = name := by
    obtain ⟨entry, hentry, rfl⟩ := List.mem_map.mp hname
    obtain ⟨i, hi, rfl⟩ := List.mem_iff_getElem.mp hentry
    exact ⟨i, hi, rfl⟩
  classical
  obtain ⟨hi, hfirst⟩ := Nat.find_spec hat
  exact ⟨⟨Nat.find hat, hi⟩, hfirst, fun k hk => Nat.find_min' hat ⟨k.isLt, hk⟩⟩

/-- With distinct names every position is the first of its name. -/
theorem firstAt_of_nodup {entries : List Entry} (hnames : (entries.map Prod.fst).Nodup)
    (i : Fin entries.length) : FirstAt entries entries[i].1 i where
  name_eq := rfl
  le k hk := by
    have hi : i.val < (entries.map Prod.fst).length := by rw [List.length_map]; exact i.isLt
    have hk' : k.val < (entries.map Prod.fst).length := by rw [List.length_map]; exact k.isLt
    have heq : (entries.map Prod.fst)[k.val] = (entries.map Prod.fst)[i.val] := by
      rw [List.getElem_map, List.getElem_map]
      exact hk
    exact Nat.le_of_eq ((List.Nodup.getElem_inj_iff hnames).mp heq).symm

/-- A name is found at the first position that has it. -/
theorem getLocationIndex_of_first {ps : List Ptr} {entries : List Entry}
    (hobjects : ps.map db.entryAt = entries.map some) {name : Str} {i : Fin entries.length}
    (hi : FirstAt entries name i) : getLocationIndex db.heap name ps = .ok i.val := by
  induction ps generalizing entries with
  | nil =>
      obtain rfl : entries = [] := by simpa using hobjects.symm
      exact absurd i.isLt (Nat.not_lt_zero i)
  | cons p ps ih =>
      cases entries with
      | nil => cases hobjects
      | cons entry entries =>
          rw [List.map_cons, List.map_cons, List.cons.injEq] at hobjects
          obtain ⟨object, hcell, rfl⟩ := Option.map_eq_some_iff.mp hobjects.1
          rw [getLocationIndex, Heap.deref_eq_ok.mpr hcell, Fault.ok_bind]
          obtain ⟨i, hlt⟩ := i
          cases i with
          | zero =>
              have hname : object.name = name := hi.name_eq
              rw [if_pos hname]
              rfl
          | succ i =>
              have hne : object.name ≠ name := by
                intro heq
                have hle : i + 1 ≤ 0 := hi.le ⟨0, Nat.succ_pos _⟩ heq
                exact absurd hle (Nat.not_succ_le_zero i)
              have hrest : FirstAt entries name ⟨i, Nat.lt_of_succ_lt_succ hlt⟩ := by
                refine ⟨hi.name_eq, fun k hk => ?_⟩
                have hle := hi.le k.succ hk
                exact Nat.le_of_succ_le_succ hle
              rw [if_neg hne, ih hobjects.2 hrest]
              rfl

/-- The vectors before the main loop: the start is free, nothing is processed. -/
theorem assign_start {n : Nat} (i : Fin n) :
    ∃ routeCosts, Fault.assign (List.replicate n intMax.toUInt32) i 0 = .ok routeCosts ∧
      Ready n routeCosts (List.replicate n false) ∧
      labels n routeCosts (List.replicate n false) = Labels.start INT_MAX i := by
  have hlen : i.val < (List.replicate n intMax.toUInt32).length := by simp
  have hcosts : ∀ v, costAt ((List.replicate n intMax.toUInt32).set i 0) v =
      if v = i.val then 0 else if v < n then INT_MAX else 0 := by
    intro v
    rw [costAt, getD_set hlen]
    by_cases hv : v = i.val
    · rw [if_pos hv, if_pos hv]
      rfl
    · rw [if_neg hv, if_neg hv, List.getD_eq_getElem?_getD, List.getElem?_replicate]
      split
      · exact toNat_intMax
      · rfl
  refine ⟨_, by rw [Fault.assign, if_pos hlen], ⟨by simp, by simp, fun v => ?_⟩, ?_⟩
  · show costAt _ v ≤ _
    rw [hcosts]
    split
    · exact Nat.zero_le _
    · split
      · exact le_refl _
      · exact Nat.zero_le _
  · rw [labels, Labels.start, Labels.mk.injEq]
    refine ⟨funext fun v => ?_, ?_⟩
    · simp only [hcosts, v.isLt, if_true, Fin.ext_iff]
    · simp [List.getD_eq_getElem?_getD]

/-- A name that is held is known to the map. -/
theorem exists_getLocation (hdb : Holds db held) {name : Str} {i : Fin held.length}
    (hi : FirstAt held name i) : ∃ p, db.getLocation name = some p := by
  refine Option.isSome_iff_exists.mp ((hdb.getLocation_isSome _).mpr ?_)
  rw [← hi.name_eq]
  exact List.mem_map_of_mem (List.getElem_mem i.isLt)

/-- The route cost of two held names is that of the search between their first
positions. -/
theorem getRouteCost_eq {planner : RoutePlanner} (hdb : Holds planner.locationDb held)
    {startName endName : Str} {i j : Fin held.length} (hi : FirstAt held startName i)
    (hj : FirstAt held endName j) {routeCosts : List UInt32}
    (hassign : Fault.assign (List.replicate held.length intMax.toUInt32) i 0 = .ok routeCosts) :
    planner.getRouteCost startName endName = do
      let (routeCosts, _) ← Machine.run
        (settleStep planner.locationDb.heap planner.locationDb.locationList j)
        (routeCosts, List.replicate held.length false) (List.range (held.length - 1))
      let routeCost ← Fault.index routeCosts j
      let p ← Fault.index planner.locationDb.locationList i
      let startLocation ← planner.locationDb.heap.deref p
      return routeCost + startLocation.cost := by
  obtain ⟨p, hp⟩ := exists_getLocation hdb hi
  obtain ⟨q, hq⟩ := exists_getLocation hdb hj
  have hstart := getLocationIndex_of_first hdb.objects hi
  have hend := getLocationIndex_of_first hdb.objects hj
  simp only [getRouteCost, hp, hq, FileLocationDatabase.getLocations, hstart, hend,
    hdb.length_eq, hassign, Fault.ok_bind]

/-- For up to `2 ^ 31` locations the route cost is the cost of the start and the
least cost of a walk from it. -/
theorem getRouteCost_spec {planner : RoutePlanner} (hdb : Holds planner.locationDb held)
    (hcosts : ∀ entry ∈ held, entry.2.toNat ≤ INT_MAX) (hn : held.length ≤ 2 ^ 31)
    {startName endName : Str} {i j : Fin held.length} (hi : FirstAt held startName i)
    (hj : FirstAt held endName j) :
    ∃ c, planner.getRouteCost startName endName = .ok c ∧
      ∀ d, IsMinCost (row hdb hcosts).Adj (row hdb hcosts).cost i j d → d < INT_MAX →
        c.toNat = held[i].2.toNat + d := by
  obtain ⟨routeCosts, hassign, hready, hstart⟩ := assign_start i
  obtain ⟨routeCosts', sptSet', hrun, hready', hsettles⟩ := settleStep_run (row hdb hcosts) hn j
    hready (by rw [hstart]; rfl) (Nat.sub_le held.length 1)
  obtain ⟨p, hindex, hderef⟩ := (row hdb hcosts).index_deref i
  have hentry := entry_row hdb hcosts i
  refine ⟨routeCosts'.getD j 0 + ((row hdb hcosts).object i).cost, ?_, fun d hd hcap => ?_⟩
  · rw [getRouteCost_eq hdb hi hj hassign, hrun]
    have hlt : j.val < routeCosts'.length := hready'.costs.symm ▸ j.isLt
    simp only [Fault.ok_bind, index_eq_getD hlt 0, hindex, hderef, Fault.pure_eq_ok]
  · rw [hstart] at hsettles
    have hcard : Fintype.card (Fin held.length) ≤ held.length - 1 + 1 := by
      rw [Fintype.card_fin]
      omega
    have hlabel : costAt routeCosts' j = d := Labels.label_eq_minCost hcard hsettles hd hcap
    rw [toNat_add_cost (hready'.le j) ((row hdb hcosts).cost_le i), Nat.add_comm, ← hentry]
    exact congrArg _ hlabel

/-- Beyond, a location from position `2 ^ 31` on cannot be settled. -/
theorem getRouteCost_fault {planner : RoutePlanner} (hdb : Holds planner.locationDb held)
    {name : Str} {i : Fin held.length} (hi : FirstAt held name i) (hle : 2 ^ 31 ≤ i.val)
    (hlt : i.val < 2 ^ 32) : planner.getRouteCost name name = .error .indexOutOfRange := by
  obtain ⟨routeCosts, hassign, hready, hstart⟩ := assign_start i
  have hlabel : ∀ v : Fin held.length, costAt routeCosts v = if v = i then 0 else INT_MAX :=
    fun v => congrFun (congrArg Labels.label hstart) v
  have hfree : ∀ v < held.length, (List.replicate held.length false).getD v false = false := by
    intro v hv
    simp [List.getD_eq_getElem?_getD, hv]
  obtain ⟨u, hu, hselect, -, hleast⟩ := getMinCostIndex_spec hready ⟨_, i.isLt, hfree _ i.isLt⟩
  -- the start is the only location whose cost is zero
  have hui : u = i.val := by
    have hleastU : costAt routeCosts u ≤ costAt routeCosts i :=
      UInt32.le_iff_toNat_le.mp (hleast _ i.isLt (hfree _ i.isLt))
    rw [hlabel i, if_pos rfl, hlabel ⟨u, hu⟩] at hleastU
    by_contra hne
    rw [if_neg (fun h => hne (congrArg Fin.val h))] at hleastU
    exact absurd hleastU (by decide)
  have hround : ∀ count, settleStep planner.locationDb.heap planner.locationDb.locationList i
      (routeCosts, List.replicate held.length false) count = .error .indexOutOfRange := by
    intro count
    simp only [settleStep, hselect, hui, intIndex_of_ge hle hlt, Fault.ok_bind, Fault.error_bind]
  have hlength := i.isLt
  have hrounds : List.range (held.length - 1) =
      0 :: (List.range (held.length - 2)).map Nat.succ := by
    rw [← List.range_succ_eq_map]
    congr 1
    omega
  have heq := getRouteCost_eq hdb hi hi hassign
  rw [hrounds, Machine.run_cons, hround, Fault.error_bind, Fault.error_bind] at heq
  exact heq

end Answer

end RoutePlanner

end RoutePlanner.Route
