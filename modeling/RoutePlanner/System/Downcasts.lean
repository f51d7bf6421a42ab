/-
# The class of a received message

A receiver makes an object of the class of an id it has read, and then reads the id
of the object once more, from the bytes it has by then.  The handlers compare that
second id and cast without a check.  The two ids are the same whatever a peer sends,
because the first bytes of a stream do not change while it grows.
-/

import RoutePlanner.Comms.ForeignStreams
import RoutePlanner.Server.ServerMsgHandler
import RoutePlanner.Client.ClientMsgHandler

namespace RoutePlanner.System

open RoutePlanner.Std
open RoutePlanner.Messages
open RoutePlanner.Comms
open RoutePlanner.Comms.TcpSession (waitForMsg asyncWaitForMsg)
open RoutePlanner.Server
open RoutePlanner.Client (ClientMsgHandler)

/-- One of the ways in which a message comes to a handler, on any stream. -/
inductive Delivered (now : UInt64) (msg : Msg) : Prop
  /-- `GetMsg` behind a call of `ProcessBuffer` that reports a match. -/
  | matched {pieces : List (List Byte)} {log : List (Bool × Option Msg)}
      (hcalls : TcpMsgMatch.calls now (TcpMsgMatch.create now) pieces = .ok log)
      (hmatch : (true, some msg) ∈ log)
  /-- The read of a session that uses the matcher. -/
  | awaited {reads rest : List Read}
      (hreturned : asyncWaitForMsg now reads = .ok (.returned (some msg) rest))
  | waited {reads rest : List Read}
      (hreturned : waitForMsg now reads = .ok (.returned (some msg) rest))

/-- The message is what the class of the id in some bytes makes of them, and these
have a header. -/
def MadeOf (now : UInt64) (msg : Msg) : Prop :=
  ∃ received, MSG_HEADER_SIZE ≤ received.length ∧ readMsg now received = .ok (some msg)

/-- Whatever the pieces, a match shows what was made of all of them. -/
theorem madeOf_of_calls {now : UInt64} {msg : Msg} {pieces : List (List Byte)}
    {matcher : TcpMsgMatch} {received : List Byte} (h : matcher.Received received)
    {log : List (Bool × Option Msg)} (hcalls : TcpMsgMatch.calls now matcher pieces = .ok log)
    (hmatch : (true, some msg) ∈ log) : MadeOf now msg := by
  induction pieces generalizing matcher received log with
  | nil =>
      obtain rfl := Except.ok.inj hcalls
      exact absurd hmatch List.not_mem_nil
  | cons data pieces ih =>
      obtain ⟨matcher', hprocess, h', hread, -⟩ := TcpMsgMatch.processBuffer_spec now h data
      rw [TcpMsgMatch.calls, hprocess, Fault.ok_bind] at hcalls
      cases hready : matchReady (received ++ data) with
      | true =>
          simp only [hready, if_true, Fault.pure_eq_ok, Except.ok.injEq] at hcalls
          rw [← hcalls, List.mem_singleton, Prod.mk.injEq] at hmatch
          exact ⟨_, (matchReady_iff.mp hready).1, hmatch.2 ▸ hread hready⟩
      | false =>
          simp only [hready, Bool.false_eq_true, if_false] at hcalls
          obtain ⟨later, hlater, hreturn⟩ := Fault.bind_eq_ok.mp hcalls
          rw [← Except.ok.inj hreturn, List.mem_cons] at hmatch
          exact ih h' hlater (hmatch.resolve_left fun heq => Bool.noConfusion
            (congrArg Prod.fst heq))

/-- A reader that is ready only behind a header returns what it made of the bytes. -/
theorem madeOf_of_waitFor {now : UInt64} {msg : Msg} {ready : List Byte → Bool}
    (hready : ∀ received, ready received = true → MSG_HEADER_SIZE ≤ received.length)
    {reads rest : List Read} (h : waitFor now ready [] reads = .ok (.returned (some msg) rest)) :
    MadeOf now msg := by
  obtain ⟨bytes, htaken, hread⟩ := waitFor_eq_returned.mp h
  exact ⟨bytes, hready _ (taken_spec htaken).1, hread⟩

theorem Delivered.madeOf {now : UInt64} {msg : Msg} (h : Delivered now msg) : MadeOf now msg := by
  cases h with
  | matched hcalls hmatch => exact madeOf_of_calls (TcpMsgMatch.received_create now) hcalls hmatch
  | awaited hreturned =>
      rw [TcpSession.asyncWaitForMsg_eq] at hreturned
      exact madeOf_of_waitFor (fun _ hready => (matchReady_iff.mp hready).1) hreturned
  | waited hreturned =>
      rw [TcpSession.waitForMsg_eq] at hreturned
      exact madeOf_of_waitFor (fun _ hready => (waitReady_iff.mp hready).1) hreturned

/-- An object is cast to its own class. -/
theorem getDerivedType_type (msg : Msg) : msg.getDerivedType msg.type ≠ none := by
  obtain ⟨header, body⟩ := msg
  cases body <;> exact Option.some_ne_none _

/-- A delivered message is an object of the class that the factory makes for its id.
So the casts of the handlers, each to the class whose id was compared, succeed, and
the handlers go by the class. -/
theorem delivered_casts {now : UInt64} {msg : Msg} (h : Delivered now msg) :
    (∃ created, Messages.create now msg.header.id = some created ∧ created.type = msg.type) ∧
      (∀ type : MsgType, msg.header.id = type.id → msg.getDerivedType type ≠ none) ∧
      (∀ (π : Type) (ops : PlannerOps π) (planner : π),
        ServerMsgHandler.handle ops now planner msg =
          match msg.body with
          | .statusRequest => .ok (ServerMsgHandler.handleStatusRequestMsg now, planner)
          | .locationsRequest data =>
              ServerMsgHandler.handleLocationsRequestMsg ops now planner data
          | .routeRequest data => ServerMsgHandler.handleRouteRequestMsg ops now planner data
          | _ => .ok (none, planner)) ∧
      ∀ (typed : List Str → List UInt64) (client : ClientMsgHandler),
        client.msgHandler now typed (some msg) =
          match msg.body with
          | .statusResponse => .ok (client.handleStatusResponseMsg now)
          | .locationsResponse data => client.handleLocationsResponseMsg now typed data
          | .routeResponse _ => .ok (client.handleRouteResponseMsg now)
          | _ => .ok (.returned none, client) := by
  obtain ⟨received, hheader, hread⟩ := h.madeOf
  have hid := id_of_readMsg hheader hread
  refine ⟨⟨(FactoryMsg.new now msg.type).toMsg, ?_, FactoryMsg.type_new now msg.type⟩,
    fun type htype => ?_, fun π ops planner => ?_, fun typed client => ?_⟩
  · rw [hid, create_id]
  · obtain rfl : type = msg.type := by
      have hof := MsgType.ofId_id type
      rw [← htype, hid, MsgType.ofId_id] at hof
      exact (Option.some.inj hof).symm
    exact getDerivedType_type msg
  · exact ServerMsgHandler.handle_of_id ops now planner hid
  · exact ClientMsgHandler.msgHandler_of_id now typed client hid

/-- The header of a route response whose length field is zero, with a body behind it:
the matcher delivers it as a route response of cost zero. -/
theorem delivered_casts_zero_length :
    ∃ msg : Msg, Delivered 0 msg ∧ msg.header.id = MSG_ROUTE_RESPONSE_ID ∧
      (∃ created, Messages.create 0 msg.header.id = some created ∧ created.type = msg.type) ∧
      ∀ type : MsgType, msg.header.id = type.id → msg.getDerivedType type ≠ none := by
  have hcalls : TcpMsgMatch.calls 0 (TcpMsgMatch.create 0)
      [MsgHeaderData.toBytes ⟨MSG_ROUTE_RESPONSE_ID, 0, 0, 0⟩ ++ List.replicate 8 7] =
        .ok [(true, some ⟨⟨MSG_ROUTE_RESPONSE_ID, 0, 0, 0⟩, .routeResponse ⟨0⟩⟩)] := by
    decide +kernel
  have hdelivered := Delivered.matched hcalls (List.mem_singleton.mpr rfl)
  obtain ⟨hclass, hcasts, -⟩ := delivered_casts hdelivered
  exact ⟨_, hdelivered, rfl, hclass, hcasts⟩

end RoutePlanner.System
