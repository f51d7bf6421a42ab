/-
# Route requests

What a user is told: the cost of the start and the least cost of a walk to the
end, along the roads of the two files.  From the files to the answer everything
fits together, after any requests and for any pair of locations, as long as the
position of a location fits in the `int` that the search keeps it in.
-/

import RoutePlanner.Server.FilePlanner
import Mathlib.Data.Nat.Digits.Lemmas

namespace RoutePlanner.Server

open RoutePlanner.Std
open RoutePlanner.Math (IsMinCost)
open RoutePlanner.Messages
open RoutePlanner.Route

/-- A message of a client, and when it is handled. -/
structure Request where
  now : UInt64
  msg : FactoryMsg

/-- The handler as a step. -/
def serve {π : Type} (ops : PlannerOps π) (planner : π) (request : Request) :
    Except Fault π := do
  let (_, planner) ← ServerMsgHandler.msgHandler ops request.now planner (some request.msg.toMsg)
  return planner

/-- After any requests, a route request is answered by the cost of the start and
the least cost of a walk from there to the end, if there is one below
`INT_MAX`. -/
def AnswersLeastCost (locationFile routeFile : File) (entries : List (Str × Nat)) : Prop :=
  ∀ requests : List Request, ∃ planner,
    Machine.run (serve (fileOps locationFile routeFile)) RoutePlanner.create requests =
      .ok planner ∧
    ∀ (now : UInt64) (request : MsgRouteRequestData) (i j : Fin entries.length) (d : Nat),
      request.startLocation.toNat = i → request.endLocation.toNat = j →
      IsMinCost (Road entries routeFile) (entryCost entries) i j d → d < INT_MAX →
      ∃ planner', ServerMsgHandler.handleRouteRequestMsg (fileOps locationFile routeFile) now
          planner request =
        .ok (some { FactoryMsg.new now .routeResponse with
          body := .routeResponse ⟨UInt64.ofNat (entryCost entries i + d)⟩ }, planner')

section Answers

variable {locationFile routeFile : File} {entries : List (Str × Nat)}

/-- The planner goes on serving, whatever is requested. -/
theorem serve_ok (h : WellFormed locationFile entries) (hn : entries.length ≤ 2 ^ 31)
    (requests : List Request) :
    ∃ planner, Machine.run (serve (fileOps locationFile routeFile)) RoutePlanner.create requests =
        .ok planner ∧ Serving (entries.map toEntry) routeFile planner := by
  let steady := SteadyPlanner.ofFile h.fileEntries_eq routeFile (by rwa [List.length_map])
  have hsize : ∀ name ∈ (entries.map toEntry).map Prod.fst, name.length < 2 ^ 63 := by
    rw [map_fst_toEntry]
    exact List.forall_mem_map.mpr h.sizes
  have hstep : ∀ (planner : RoutePlanner) (request : Request), steady.Steady planner → True →
      ∃ planner', serve (fileOps locationFile routeFile) planner request = .ok planner' ∧
        steady.Steady planner' := by
    intro planner request hplanner _
    obtain ⟨response, planner', hhandle, hplanner'⟩ :=
      @ServerMsgHandler.handle_ok _ _ steady _ request.now hplanner hsize request.msg.toMsg rfl
    refine ⟨planner', ?_, hplanner'⟩
    rw [serve, ServerMsgHandler.msgHandler, Fault.nonNull, Fault.ok_bind]
    change ServerMsgHandler.handle (fileOps locationFile routeFile) _ _ _ = _ at hhandle
    rw [hhandle]
    rfl
  exact Machine.run_invariant hstep steady.steady_initial requests fun _ _ _ _ _ _ _ => trivial

/-- What a route request between two locations comes down to. -/
theorem handleRouteRequestMsg_ofFile {held : List Entry}
    (hfile : fileEntries locationFile = .ok held) {planner : RoutePlanner}
    (hplanner : Serving held routeFile planner) (now : UInt64) {request : MsgRouteRequestData}
    {i j : Fin held.length} (hi : request.startLocation.toNat = i)
    (hj : request.endLocation.toNat = j) :
    ∃ planner', UpToDate held routeFile planner' ∧
      ServerMsgHandler.handleRouteRequestMsg (fileOps locationFile routeFile) now planner request =
        do
          let cost ← planner'.getRouteCost held[i].1 held[j].1
          return (some { FactoryMsg.new now .routeResponse with
            body := .routeResponse ⟨cost.toUInt64⟩ }, planner') := by
  obtain ⟨planner', hnames, hplanner'⟩ := getLocationNames_ofFiles hfile hplanner
  refine ⟨planner', hplanner', ?_⟩
  have hindex : ∀ k : Fin held.length,
      Fault.index (held.map Prod.fst) k.val = .ok held[k].1 := by
    intro k
    rw [Fault.index_of_lt (by rw [List.length_map]; exact k.isLt), List.getElem_map]
    rfl
  have hlt : ∀ k : Fin held.length, k.val < (held.map Prod.fst).length :=
    fun k => by rw [List.length_map]; exact k.isLt
  rw [ServerMsgHandler.handleRouteRequestMsg, fileOps]
  simp only [hnames, Fault.ok_bind, hi, hj, if_pos (And.intro (hlt i) (hlt j)), hindex]

/-- Over a well-formed file it comes down to the names in the file. -/
theorem handleRouteRequestMsg_ofFiles (h : WellFormed locationFile entries)
    {planner : RoutePlanner} (hplanner : Serving (entries.map toEntry) routeFile planner)
    (now : UInt64) {request : MsgRouteRequestData} {i j : Fin entries.length}
    (hi : request.startLocation.toNat = i) (hj : request.endLocation.toNat = j) :
    ∃ planner', UpToDate (entries.map toEntry) routeFile planner' ∧
      ServerMsgHandler.handleRouteRequestMsg (fileOps locationFile routeFile) now planner request =
        do
          let cost ← planner'.getRouteCost entries[i].1 entries[j].1
          return (some { FactoryMsg.new now .routeResponse with
            body := .routeResponse ⟨cost.toUInt64⟩ }, planner') := by
  obtain ⟨planner', hplanner', hhandle⟩ := @handleRouteRequestMsg_ofFile _ routeFile _
    h.fileEntries_eq _ hplanner now request (position i) (position j) hi hj
  have hname : ∀ k : Fin entries.length, (entries.map toEntry)[position k].1 = entries[k].1 := by
    intro k
    simp [position, toEntry]
  rw [hname, hname] at hhandle
  exact ⟨planner', hplanner', hhandle⟩

/-- The very first request for the route from location `2 ^ 31` to itself is not
answered. -/
theorem not_answersLeastCost_of_lt (h : WellFormed locationFile entries) (routeFile : File)
    (hn : 2 ^ 31 < entries.length) : ¬ AnswersLeastCost locationFile routeFile entries := by
  intro hanswers
  let i : Fin entries.length := ⟨2 ^ 31, hn⟩
  obtain ⟨planner, hrun, hroute⟩ := hanswers []
  obtain rfl := Except.ok.inj hrun
  obtain ⟨_, hanswer⟩ := hroute 0 ⟨2 ^ 31, 2 ^ 31⟩ i i 0 rfl rfl (Math.isMinCost_refl i)
    (by decide)
  obtain ⟨planner', hplanner', hhandle⟩ := @handleRouteRequestMsg_ofFiles _ routeFile _ h _
    (Or.inl RoutePlanner.Follows.create) 0 ⟨2 ^ 31, 2 ^ 31⟩ i i rfl rfl
  have hfault := getRouteCost_ofFiles_fault h hplanner' hn
  change planner'.getRouteCost entries[i].1 entries[i].1 = _ at hfault
  rw [hfault, Fault.error_bind, hanswer] at hhandle
  cases hhandle

/-- Over a well-formed locations file and any routes file, route requests are
answered by the least cost exactly when there are at most `2 ^ 31` locations. -/
theorem answersLeastCost_iff (h : WellFormed locationFile entries) (routeFile : File) :
    AnswersLeastCost locationFile routeFile entries ↔ entries.length ≤ 2 ^ 31 := by
  apply Iff.intro
  · intro hanswers
    by_contra hle
    exact not_answersLeastCost_of_lt h routeFile (Nat.lt_of_not_le hle) hanswers
  · intro hn requests
    obtain ⟨planner, hrun, hplanner⟩ := @serve_ok _ routeFile _ h hn requests
    refine ⟨planner, hrun, fun now request i j d hi hj hd hcap => ?_⟩
    obtain ⟨planner', hplanner', hhandle⟩ := handleRouteRequestMsg_ofFiles h hplanner now hi hj
    obtain ⟨cost, hroute, hleast⟩ := getRouteCost_ofFiles h hplanner' hn i j
    refine ⟨planner', ?_⟩
    have hcost : cost.toUInt64 = UInt64.ofNat (entryCost entries i + d) := by
      show _ = UInt64.ofNat (entries[i].2 + d)
      rw [← hleast d hd hcap, UInt64.ofNat_uInt32ToNat]
    rw [hhandle, hroute, Fault.ok_bind, hcost]
    rfl

end Answers

theorem answersLeastCost_iff_twoCities :
    AnswersLeastCost twoCitiesFile (some (str "London, Bath")) twoCities ↔
      twoCities.length ≤ 2 ^ 31 :=
  answersLeastCost_iff wellFormed_twoCities _

/-! ## A file with too many locations -/

/-- The name of a town is its number in decimal, with the lowest digit first. -/
def townName (k : Nat) : Str :=
  (Nat.digits 10 (k + 1)).map fun digit => UInt8.ofNat (48 + digit)

def townLine (k : Nat) : Str := townName k ++ comma :: str "5"

/-- So many towns, all of cost 5. -/
def towns (n : Nat) : List (Str × Nat) := (List.range n).map fun k => (townName k, 5)

def townsFile (n : Nat) : File :=
  some (((List.range n).map townLine).flatMap fun line => line ++ [newline])

theorem toNat_townDigit {digit : Nat} (h : digit < 10) :
    (UInt8.ofNat (48 + digit)).toNat = 48 + digit :=
  UInt8.toNat_ofNat_of_lt' (by change _ < 256; omega)

theorem isDigit_of_mem_townName {k : Nat} {c : Byte} (h : c ∈ townName k) : isDigit c = true := by
  obtain ⟨digit, hdigit, rfl⟩ := List.mem_map.mp h
  have hlt := Nat.digits_lt_base (by decide) hdigit
  simp only [isDigit, Bool.and_eq_true, decide_eq_true_eq, UInt8.le_iff_toNat_le,
    toNat_townDigit hlt]
  simp only [UInt8.reduceToNat]
  omega

theorem not_mem_townName {k : Nat} {c : Byte} (h : isDigit c = false) : c ∉ townName k := by
  intro hmem
  rw [isDigit_of_mem_townName hmem] at h
  cases h

/-- The number is read back from the name. -/
theorem ofDigits_townName (k : Nat) :
    Nat.ofDigits 10 ((townName k).map fun c => c.toNat - 48) = k + 1 := by
  have hdigits : ((townName k).map fun c => c.toNat - 48) = Nat.digits 10 (k + 1) := by
    rw [townName, List.map_map]
    refine (List.map_congr_left fun digit hdigit => ?_).trans (List.map_id _)
    rw [Function.comp_apply, toNat_townDigit (Nat.digits_lt_base (by decide) hdigit)]
    exact Nat.add_sub_cancel_left ..
  rw [hdigits, Nat.ofDigits_digits]

theorem townName_injective : Function.Injective townName := by
  intro k l h
  have hnumber := ofDigits_townName k
  rw [h, ofDigits_townName] at hnumber
  exact (Nat.succ_injective hnumber).symm

theorem isEntryLine_townLine (k : Nat) : IsEntryLine (townLine k) (townName k, 5) := by
  refine ⟨townName k, str "5", rfl, not_mem_townName (by decide), by decide, ?_,
    (by decide : IsDecimal (trimCopy (str "5")) 5)⟩
  exact Text.trim_of_not_isSpace fun c hc => not_isSpace_of_isDigit (isDigit_of_mem_townName hc)

theorem textLines_townsFile (n : Nat) : textLines (townsFile n) = (List.range n).map townLine := by
  have hlines : ∀ line ∈ (List.range n).map townLine, newline ∉ line := by
    intro line hline
    obtain ⟨k, -, rfl⟩ := List.mem_map.mp hline
    rw [townLine, List.mem_append, not_or]
    exact ⟨not_mem_townName (by decide), by decide⟩
  have hnonblank : ∀ line ∈ (List.range n).map townLine, decide (trimCopy line ≠ []) = true := by
    intro line hline
    obtain ⟨k, -, rfl⟩ := List.mem_map.mp hline
    rw [townLine, trimCopy, Text.trim_append_cons (by decide)]
    simp
  rw [townsFile, textLines, Text.lines, Text.tokens_flatMap _ hlines, List.filter_append,
    List.filter_eq_self.mpr hnonblank]
  exact List.append_nil _

theorem forall₂_townsFile (n : Nat) :
    List.Forall₂ IsEntryLine (textLines (townsFile n)) (towns n) := by
  rw [textLines_townsFile, towns, List.forall₂_map_left_iff, List.forall₂_map_right_iff,
    List.forall₂_same]
  exact fun k _ => isEntryLine_townLine k

theorem nodup_towns (n : Nat) : ((towns n).map Prod.fst).Nodup := by
  rw [towns, List.map_map]
  exact List.nodup_range.map townName_injective

theorem length_towns (n : Nat) : (towns n).length = n := by
  rw [towns, List.length_map, List.length_range]

theorem wellFormed_townsFile {n : Nat} (hn : n < 2 ^ 62) : WellFormed (townsFile n) (towns n) where
  lines := forall₂_townsFile n
  names := nodup_towns n
  sizes := by
    intro entry hentry
    obtain ⟨k, hk, rfl⟩ := List.mem_map.mp hentry
    have hlt := List.mem_range.mp hk
    have hlog := Nat.log_le_self 10 (k + 1)
    rw [townName, List.length_map, Nat.length_digits 10 (k + 1) (by decide) (Nat.succ_ne_zero k)]
    omega

/-- With one location more than an `int` can count, the route from the last one to
itself is not answered. -/
theorem not_answersLeastCost_townsFile :
    WellFormed (townsFile (2 ^ 31 + 1)) (towns (2 ^ 31 + 1)) ∧
      ¬ AnswersLeastCost (townsFile (2 ^ 31 + 1)) none (towns (2 ^ 31 + 1)) := by
  have h := @wellFormed_townsFile (2 ^ 31 + 1) (by decide)
  refine ⟨h, not_answersLeastCost_of_lt h none ?_⟩
  rw [length_towns]
  exact Nat.lt_succ_self _

end RoutePlanner.Server
