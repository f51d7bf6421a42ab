/-
# The client's message handler

The client collects location names in its cache until a response says that there
are no more, and then asks the user for two of them.  What the user types at a
menu is a list of numbers.  When it is used up the handler is still asking; that
is an outcome of its own.

What the handler prints and writes to the log is left out.
-/

import RoutePlanner.Messages.MsgLocations

namespace RoutePlanner.Client

open RoutePlanner.Std
open RoutePlanner.Messages

/-- How a call of the handler ends. -/
inductive Reply
  /-- The user has not typed both numbers yet. -/
  | asking
  /-- The message, or null. -/
  | returned (msg : Option FactoryMsg)
  deriving DecidableEq

structure ClientMsgHandler where
  locationsCache : List Str
  deriving DecidableEq

namespace ClientMsgHandler

/-- The constructor. -/
def create : ClientMsgHandler := ⟨[]⟩

/-- A prompt of `GetRouteRequest`: the first number typed that is below the size
of the cache, and what is typed behind it. -/
def askLocation (size : Nat) : List UInt64 → Option (UInt64 × List UInt64)
  | [] => none
  | index :: typed => if size ≤ index.toNat then askLocation size typed else some (index, typed)

variable (now : UInt64) (typed : List Str → List UInt64)

/-- `GetRouteRequest`.  The menu is the cache. -/
def getRouteRequest (client : ClientMsgHandler) : Reply :=
  match askLocation client.locationsCache.length (typed client.locationsCache) with
  | none => .asking
  | some (startLocation, typed) =>
      match askLocation client.locationsCache.length typed with
      | none => .asking
      | some (endLocation, _) =>
          .returned (some { FactoryMsg.new now .routeRequest with
            body := .routeRequest ⟨startLocation, endLocation⟩ })

/-- A request for the locations from an index on. -/
def locationsRequest (index : UInt64) : FactoryMsg :=
  { FactoryMsg.new now .locationsRequest with body := .locationsRequest ⟨index⟩ }

/-- `HandleStatusResponseMsg`. -/
def handleStatusResponseMsg (_client : ClientMsgHandler) : Reply × ClientMsgHandler :=
  (.returned (some (FactoryMsg.new now .locationsRequest)), ⟨[]⟩)

/-- `HandleLocationsResponseMsg`. -/
def handleLocationsResponseMsg (client : ClientMsgHandler)
    (locationsResponse : MsgLocationsResponseData) :
    Except Fault (Reply × ClientMsgHandler) := do
  let locations ← locationsResponse.getLocations
  let client : ClientMsgHandler := ⟨client.locationsCache ++ locations⟩
  if locationsResponse.isPaginated ≠ 0 then
    return (.returned (some (locationsRequest now (UInt64.ofNat client.locationsCache.length))),
      client)
  else
    return (client.getRouteRequest now typed, client)

/-- `HandleRouteResponseMsg`. -/
def handleRouteResponseMsg (_client : ClientMsgHandler) : Reply × ClientMsgHandler :=
  (.returned (some (FactoryMsg.new now .locationsRequest)), ⟨[]⟩)

/-- `MsgHandler`.  The casts are not checked. -/
def msgHandler (client : ClientMsgHandler) (msg : Option Msg) :
    Except Fault (Reply × ClientMsgHandler) := do
  let msg ← Fault.nonNull msg
  if msg.header.id = MSG_STATUS_RESPONSE_ID then
    let () ← Fault.nonNull (msg.getDerivedType .statusResponse)
    return client.handleStatusResponseMsg now
  else if msg.header.id = MSG_LOCATIONS_RESPONSE_ID then
    let data ← Fault.nonNull (msg.getDerivedType .locationsResponse)
    client.handleLocationsResponseMsg now typed data
  else if msg.header.id = MSG_ROUTE_RESPONSE_ID then
    let _ ← Fault.nonNull (msg.getDerivedType .routeResponse)
    return client.handleRouteResponseMsg now
  else
    return (.returned none, client)

/-! ## What the handler replies -/

/-- A message with the id of its class is handled by its class, and its casts
succeed. -/
theorem msgHandler_of_id (client : ClientMsgHandler) {msg : Msg}
    (hid : msg.header.id = msg.type.id) :
    client.msgHandler now typed (some msg) =
      match msg.body with
      | .statusResponse => .ok (client.handleStatusResponseMsg now)
      | .locationsResponse data => client.handleLocationsResponseMsg now typed data
      | .routeResponse _ => .ok (client.handleRouteResponseMsg now)
      | _ => .ok (.returned none, client) := by
  obtain ⟨header, body⟩ := msg
  rw [msgHandler, Fault.nonNull_eq_ok.mpr rfl, Fault.ok_bind, hid]
  cases body <;> rfl

/-- So are the messages of the factory. -/
theorem msgHandler_toMsg (client : ClientMsgHandler) (msg : FactoryMsg) :
    client.msgHandler now typed (some msg.toMsg) =
      match msg.body with
      | .statusResponse => .ok (client.handleStatusResponseMsg now)
      | .locationsResponse data => client.handleLocationsResponseMsg now typed data
      | .routeResponse _ => .ok (client.handleRouteResponseMsg now)
      | _ => .ok (.returned none, client) :=
  msgHandler_of_id now typed client rfl

/-- Whether a number typed is an index of the menu. -/
def below (size : Nat) (index : UInt64) : Bool := index.toNat < size

/-- A prompt ends when an index is typed, and takes just one. -/
theorem askLocation_spec {size : Nat} {typed : List UInt64}
    (h : 0 < (typed.filter (below size)).length) :
    ∃ index rest, askLocation size typed = some (index, rest) ∧ index.toNat < size ∧
      (rest.filter (below size)).length + 1 = (typed.filter (below size)).length := by
  induction typed with
  | nil => exact absurd h (Nat.lt_irrefl 0)
  | cons index typed ih =>
      rw [askLocation]
      by_cases hindex : index.toNat < size
      · rw [if_neg (Nat.not_le_of_lt hindex),
          List.filter_cons_of_pos (by simpa [below] using hindex)]
        exact ⟨index, typed, rfl, hindex, rfl⟩
      · rw [List.filter_cons_of_neg (by simpa [below] using hindex)] at h ⊢
        rw [if_pos (Nat.le_of_not_lt hindex)]
        exact ih h

variable {now typed} {client : ClientMsgHandler}

/-- Once two indices of the menu are typed, the route between them is asked for. -/
theorem getRouteRequest_spec
    (h : 2 ≤ ((typed client.locationsCache).filter
      (below client.locationsCache.length)).length) :
    ∃ data : MsgRouteRequestData, client.getRouteRequest now typed = .returned (some
        { FactoryMsg.new now .routeRequest with body := .routeRequest data }) ∧
      data.startLocation.toNat < client.locationsCache.length ∧
      data.endLocation.toNat < client.locationsCache.length := by
  obtain ⟨startLocation, rest, hstart, hstart_lt, hrest⟩ :=
    askLocation_spec (Nat.lt_of_lt_of_le Nat.two_pos h)
  obtain ⟨endLocation, rest', hend, hend_lt, -⟩ :=
    @askLocation_spec client.locationsCache.length rest (by omega)
  refine ⟨⟨startLocation, endLocation⟩, ?_, hstart_lt, hend_lt⟩
  simp only [getRouteRequest, hstart, hend]

/-- A page is added to the cache, and the next one is asked for if there is
one. -/
theorem handleLocationsResponseMsg_spec {data : MsgLocationsResponseData} {names : List Str}
    (h : data.getLocations = .ok names) :
    client.handleLocationsResponseMsg now typed data = .ok
      (if data.isPaginated ≠ 0 then
        .returned (some (locationsRequest now
          (UInt64.ofNat (client.locationsCache ++ names).length)))
      else getRouteRequest now typed ⟨client.locationsCache ++ names⟩,
      ⟨client.locationsCache ++ names⟩) := by
  rw [handleLocationsResponseMsg, h, Fault.ok_bind]
  dsimp only
  split <;> rfl

end ClientMsgHandler

end RoutePlanner.Client
