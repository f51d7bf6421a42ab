/-
# The server's message handler

The handler looks at the id of a request and casts it to the class of that id.
Everything it knows of locations it asks the route planner for, again for every
request; a request that does not fit the answer is answered by null, which ends
the session.

What the handler writes to the log is left out.
-/

import RoutePlanner.Messages.MsgLocations
import RoutePlanner.Route.RouteCost

namespace RoutePlanner.Server

open RoutePlanner.Std
open RoutePlanner.Messages

/-- What the handler uses of a route planner with states `π`. -/
structure PlannerOps (π : Type) where
  getLocationNames : π → Except Fault (List Str × π)
  getRouteCost : π → Str → Str → Except Fault UInt32

/-- The route planner of the program, over files that do not change. -/
def fileOps (locationFile routeFile : Route.File) : PlannerOps Route.RoutePlanner where
  getLocationNames planner := planner.getLocationNames locationFile routeFile
  getRouteCost := Route.RoutePlanner.getRouteCost

namespace ServerMsgHandler

variable {π : Type} (ops : PlannerOps π) (now : UInt64)

/-- `HandleStatusRequestMsg`. -/
def handleStatusRequestMsg : Option FactoryMsg := some (FactoryMsg.new now .statusResponse)

/-- `HandleLocationsRequestMsg`. -/
def handleLocationsRequestMsg (planner : π) (locationsRequest : MsgLocationsRequestData) :
    Except Fault (Option FactoryMsg × π) := do
  let (locations, planner) ← ops.getLocationNames planner
  let startI := locationsRequest.startLocation.toNat
  if startI < locations.length then
    let data ← MsgLocationsResponseData.create.addLocations (locations.drop startI)
    return (some { FactoryMsg.new now .locationsResponse with body := .locationsResponse data },
      planner)
  else return (none, planner)

/-- `HandleRouteRequestMsg`. -/
def handleRouteRequestMsg (planner : π) (routeRequest : MsgRouteRequestData) :
    Except Fault (Option FactoryMsg × π) := do
  let startLocation := routeRequest.startLocation.toNat
  let endLocation := routeRequest.endLocation.toNat
  let (locations, planner) ← ops.getLocationNames planner
  if startLocation < locations.length ∧ endLocation < locations.length then
    let startName ← Fault.index locations startLocation
    let endName ← Fault.index locations endLocation
    let cost ← ops.getRouteCost planner startName endName
    return (some { FactoryMsg.new now .routeResponse with body := .routeResponse ⟨cost.toUInt64⟩ },
      planner)
  else return (none, planner)

/-- The body of `MsgHandler` for a message that is not null.  The casts are not
checked. -/
def handle (planner : π) (msg : Msg) : Except Fault (Option FactoryMsg × π) :=
  if msg.header.id = MSG_STATUS_REQUEST_ID then do
    let () ← Fault.nonNull (msg.getDerivedType .statusRequest)
    return (handleStatusRequestMsg now, planner)
  else if msg.header.id = MSG_LOCATIONS_REQUEST_ID then do
    let data ← Fault.nonNull (msg.getDerivedType .locationsRequest)
    handleLocationsRequestMsg ops now planner data
  else if msg.header.id = MSG_ROUTE_REQUEST_ID then do
    let data ← Fault.nonNull (msg.getDerivedType .routeRequest)
    handleRouteRequestMsg ops now planner data
  else
    return (none, planner)

/-- `MsgHandler`. -/
def msgHandler (planner : π) (msg : Option Msg) : Except Fault (Option Msg × π) := do
  let msg ← Fault.nonNull msg
  let (response, planner) ← handle ops now planner msg
  return (response.map FactoryMsg.toMsg, planner)

/-- A locations request leaves the planner as the call left it that lists the names. -/
theorem names_of_handleLocationsRequestMsg {ops : PlannerOps π} {now : UInt64}
    {planner planner' : π}
    {request : MsgLocationsRequestData} {response : Option FactoryMsg}
    (h : handleLocationsRequestMsg ops now planner request = .ok (response, planner')) :
    ∃ names, ops.getLocationNames planner = .ok (names, planner') := by
  obtain ⟨⟨names, next⟩, hnames, hrest⟩ := Fault.bind_eq_ok.mp h
  dsimp only at hrest
  split at hrest
  · obtain ⟨_, -, hreturn⟩ := Fault.bind_eq_ok.mp hrest
    obtain ⟨-, rfl⟩ := Prod.mk.inj (Except.ok.inj hreturn)
    exact ⟨names, hnames⟩
  · obtain ⟨-, rfl⟩ := Prod.mk.inj (Except.ok.inj hrest)
    exact ⟨names, hnames⟩

/-- So does a route request. -/
theorem names_of_handleRouteRequestMsg {ops : PlannerOps π} {now : UInt64} {planner planner' : π}
    {request : MsgRouteRequestData} {response : Option FactoryMsg}
    (h : handleRouteRequestMsg ops now planner request = .ok (response, planner')) :
    ∃ names, ops.getLocationNames planner = .ok (names, planner') := by
  obtain ⟨⟨names, next⟩, hnames, hrest⟩ := Fault.bind_eq_ok.mp h
  dsimp only at hrest
  split at hrest
  · obtain ⟨_, -, hrest⟩ := Fault.bind_eq_ok.mp hrest
    obtain ⟨_, -, hrest⟩ := Fault.bind_eq_ok.mp hrest
    obtain ⟨_, -, hreturn⟩ := Fault.bind_eq_ok.mp hrest
    obtain ⟨-, rfl⟩ := Prod.mk.inj (Except.ok.inj hreturn)
    exact ⟨names, hnames⟩
  · obtain ⟨-, rfl⟩ := Prod.mk.inj (Except.ok.inj hrest)
    exact ⟨names, hnames⟩

/-- A message with the id of its class is handled by its class, and its casts
succeed. -/
theorem handle_of_id (planner : π) {msg : Msg} (hid : msg.header.id = msg.type.id) :
    handle ops now planner msg =
      match msg.body with
      | .statusRequest => .ok (handleStatusRequestMsg now, planner)
      | .locationsRequest data => handleLocationsRequestMsg ops now planner data
      | .routeRequest data => handleRouteRequestMsg ops now planner data
      | _ => .ok (none, planner) := by
  obtain ⟨header, body⟩ := msg
  rw [handle, hid]
  cases body <;> rfl

/-- So are the messages of the factory. -/
theorem handle_toMsg (planner : π) (msg : FactoryMsg) :
    handle ops now planner msg.toMsg =
      match msg.body with
      | .statusRequest => .ok (handleStatusRequestMsg now, planner)
      | .locationsRequest data => handleLocationsRequestMsg ops now planner data
      | .routeRequest data => handleRouteRequestMsg ops now planner data
      | _ => .ok (none, planner) :=
  handle_of_id ops now planner rfl

end ServerMsgHandler

/-! ## Locations that stay fixed -/

/-- Names that can be listed: no more and no longer than a vector and a string can
hold, and without the separator of the wire. -/
structure LocationNames where
  names : List Str
  ne_nil : names ≠ []
  length_lt : names.length < 2 ^ 64
  size_lt : ∀ name ∈ names, name.length < 2 ^ 63
  no_sep : ∀ name ∈ names, MSG_LOCATIONS_SEP_CHAR ∉ name

/-- A planner that lists the same names at every request. -/
structure Lister (π : Type) (names : List Str) where
  ops : PlannerOps π
  Steady : π → Prop
  getLocationNames_eq : ∀ planner, Steady planner →
    ∃ planner', ops.getLocationNames planner = .ok (names, planner') ∧ Steady planner'

/-- One that also finds the cost of a route between any two of them, from its first
request on. -/
structure SteadyPlanner (π : Type) (names : List Str) extends Lister π names where
  initial : π
  steady_initial : Steady initial
  getRouteCost_eq : ∀ planner, Steady planner → ∀ startName ∈ names, ∀ endName ∈ names,
    ∃ cost, ops.getRouteCost planner startName endName = .ok cost

namespace ServerMsgHandler

section Lister

variable {π : Type} {names : List Str} (lister : Lister π names) {planner : π}

/-- Below the number of locations a locations request is answered by the greedy
page from there on. -/
theorem handleLocationsRequestMsg_spec (now : UInt64) (hplanner : lister.Steady planner)
    (hsize : ∀ name ∈ names, name.length < 2 ^ 63) {request : MsgLocationsRequestData}
    (hstart : request.startLocation.toNat < names.length) :
    ∃ data planner', handleLocationsRequestMsg lister.ops now planner request =
        .ok (some { FactoryMsg.new now .locationsResponse with body := .locationsResponse data },
          planner') ∧ lister.Steady planner' ∧
      data.Lists (page (names.drop request.startLocation.toNat)).1 ∧
      data.isPaginated = if (page (names.drop request.startLocation.toNat)).2 then 1 else 0 := by
  obtain ⟨planner', hnames, hplanner'⟩ := lister.getLocationNames_eq planner hplanner
  obtain ⟨data, hadd, hlists, hpaginated⟩ := MsgLocationsResponseData.addLocations_create
    (names.drop request.startLocation.toNat) fun name hname =>
      hsize name (List.mem_of_mem_drop hname)
  refine ⟨data, planner', ?_, hplanner', hlists, hpaginated⟩
  rw [handleLocationsRequestMsg, hnames, Fault.ok_bind]
  simp only [if_pos hstart, hadd, Fault.ok_bind, Fault.pure_eq_ok]

/-- Any other is answered by null. -/
theorem handleLocationsRequestMsg_of_le (now : UInt64) (hplanner : lister.Steady planner)
    {request : MsgLocationsRequestData} (hstart : names.length ≤ request.startLocation.toNat) :
    ∃ planner', handleLocationsRequestMsg lister.ops now planner request = .ok (none, planner') ∧
      lister.Steady planner' := by
  obtain ⟨planner', hnames, hplanner'⟩ := lister.getLocationNames_eq planner hplanner
  refine ⟨planner', ?_, hplanner'⟩
  rw [handleLocationsRequestMsg, hnames, Fault.ok_bind]
  simp only [if_neg (Nat.not_lt_of_le hstart), Fault.pure_eq_ok]

/-- A route request between two indices is answered by a cost, if it is answered. -/
theorem handleRouteRequestMsg_eq_ok {now : UInt64} (hplanner : lister.Steady planner)
    {request : MsgRouteRequestData} (hstart : request.startLocation.toNat < names.length)
    (hend : request.endLocation.toNat < names.length) {response : Option FactoryMsg} {planner' : π}
    (h : handleRouteRequestMsg lister.ops now planner request = .ok (response, planner')) :
    ∃ cost, response =
      some { FactoryMsg.new now .routeResponse with body := .routeResponse ⟨cost⟩ } := by
  obtain ⟨next, hnames, -⟩ := lister.getLocationNames_eq planner hplanner
  rw [handleRouteRequestMsg, hnames, Fault.ok_bind] at h
  simp only [if_pos (And.intro hstart hend), Fault.index_of_lt hstart, Fault.index_of_lt hend,
    Fault.ok_bind] at h
  obtain ⟨cost, -, hreturn⟩ := Fault.bind_eq_ok.mp h
  exact ⟨cost.toUInt64, (Prod.mk.inj (Except.ok.inj hreturn)).1.symm⟩

/-- No message makes the planner list other names. -/
theorem steady_of_handle (now : UInt64) (hplanner : lister.Steady planner) {msg : Msg}
    {response : Option FactoryMsg} {planner' : π}
    (h : handle lister.ops now planner msg = .ok (response, planner')) :
    lister.Steady planner' := by
  obtain ⟨listed, hnames, hlisted⟩ := lister.getLocationNames_eq planner hplanner
  rw [handle] at h
  split at h
  · obtain ⟨_, -, heq⟩ := Fault.bind_eq_ok.mp h
    obtain ⟨-, rfl⟩ := Prod.mk.inj (Except.ok.inj heq)
    exact hplanner
  · split at h
    · obtain ⟨request, -, hrequest⟩ := Fault.bind_eq_ok.mp h
      rw [handleLocationsRequestMsg, hnames, Fault.ok_bind] at hrequest
      dsimp only at hrequest
      split at hrequest
      · obtain ⟨_, -, heq⟩ := Fault.bind_eq_ok.mp hrequest
        obtain ⟨-, rfl⟩ := Prod.mk.inj (Except.ok.inj heq)
        exact hlisted
      · obtain ⟨-, rfl⟩ := Prod.mk.inj (Except.ok.inj hrequest)
        exact hlisted
    · split at h
      · obtain ⟨request, -, hrequest⟩ := Fault.bind_eq_ok.mp h
        rw [handleRouteRequestMsg, hnames, Fault.ok_bind] at hrequest
        dsimp only at hrequest
        split at hrequest
        · obtain ⟨_, -, hrest⟩ := Fault.bind_eq_ok.mp hrequest
          obtain ⟨_, -, hcost⟩ := Fault.bind_eq_ok.mp hrest
          obtain ⟨_, -, heq⟩ := Fault.bind_eq_ok.mp hcost
          obtain ⟨-, rfl⟩ := Prod.mk.inj (Except.ok.inj heq)
          exact hlisted
        · obtain ⟨-, rfl⟩ := Prod.mk.inj (Except.ok.inj hrequest)
          exact hlisted
      · obtain ⟨-, rfl⟩ := Prod.mk.inj (Except.ok.inj h)
        exact hplanner

end Lister

variable {π : Type} {names : List Str} (steady : SteadyPlanner π names) {planner : π}

/-- A route request between two indices is answered by the cost of the route
between the names there. -/
theorem handleRouteRequestMsg_spec (now : UInt64) (hplanner : steady.Steady planner)
    {request : MsgRouteRequestData} (hstart : request.startLocation.toNat < names.length)
    (hend : request.endLocation.toNat < names.length) :
    ∃ cost planner', handleRouteRequestMsg steady.ops now planner request =
        .ok (some { FactoryMsg.new now .routeResponse with body := .routeResponse ⟨cost⟩ },
          planner') ∧ steady.Steady planner' := by
  obtain ⟨planner', hnames, hplanner'⟩ := steady.getLocationNames_eq planner hplanner
  obtain ⟨cost, hcost⟩ := steady.getRouteCost_eq planner' hplanner' _ (List.getElem_mem hstart) _
    (List.getElem_mem hend)
  refine ⟨cost.toUInt64, planner', ?_, hplanner'⟩
  rw [handleRouteRequestMsg, hnames, Fault.ok_bind]
  simp only [if_pos (And.intro hstart hend), Fault.index_of_lt hstart, Fault.index_of_lt hend,
    hcost, Fault.ok_bind, Fault.pure_eq_ok]

theorem handleRouteRequestMsg_of_not_lt (now : UInt64) (hplanner : steady.Steady planner)
    {request : MsgRouteRequestData} (hindices : ¬ (request.startLocation.toNat < names.length ∧
      request.endLocation.toNat < names.length)) :
    ∃ planner', handleRouteRequestMsg steady.ops now planner request = .ok (none, planner') ∧
      steady.Steady planner' := by
  obtain ⟨planner', hnames, hplanner'⟩ := steady.getLocationNames_eq planner hplanner
  refine ⟨planner', ?_, hplanner'⟩
  rw [handleRouteRequestMsg, hnames, Fault.ok_bind]
  simp only [if_neg hindices, Fault.pure_eq_ok]

/-- Every message with the id of its class is handled without a fault, and the planner
stays steady. -/
theorem handle_ok (now : UInt64) (hplanner : steady.Steady planner)
    (hsize : ∀ name ∈ names, name.length < 2 ^ 63) {msg : Msg}
    (hid : msg.header.id = msg.type.id) :
    ∃ response planner', handle steady.ops now planner msg = .ok (response, planner') ∧
      steady.Steady planner' := by
  rw [handle_of_id _ _ _ hid]
  cases msg.body with
  | locationsRequest data =>
      rcases Nat.lt_or_ge data.startLocation.toNat names.length with hstart | hstart
      · obtain ⟨_, planner', hhandle, hplanner', -⟩ :=
          handleLocationsRequestMsg_spec steady.toLister now hplanner hsize hstart
        exact ⟨_, planner', hhandle, hplanner'⟩
      · obtain ⟨planner', hhandle, hplanner'⟩ :=
          handleLocationsRequestMsg_of_le steady.toLister now hplanner hstart
        exact ⟨_, planner', hhandle, hplanner'⟩
  | routeRequest data =>
      by_cases hindices : data.startLocation.toNat < names.length ∧
          data.endLocation.toNat < names.length
      · obtain ⟨_, planner', hhandle, hplanner'⟩ :=
          handleRouteRequestMsg_spec steady now hplanner hindices.1 hindices.2
        exact ⟨_, planner', hhandle, hplanner'⟩
      · obtain ⟨planner', hhandle, hplanner'⟩ :=
          handleRouteRequestMsg_of_not_lt steady now hplanner hindices
        exact ⟨_, planner', hhandle, hplanner'⟩
  | statusRequest => exact ⟨_, planner, rfl, hplanner⟩
  | _ => exact ⟨none, planner, rfl, hplanner⟩

end ServerMsgHandler

end RoutePlanner.Server
