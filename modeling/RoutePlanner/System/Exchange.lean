/-
# Client and server joined

The client sends a status request, and from then on each side waits for a message
of the other, hands it to its handler and sends what the handler returns.  Only
one side moves at a time, so the joint system is a machine whose events choose
what neither program decides: the clock, how the network cuts the bytes of a
message into reads, and what the user types.
-/

import RoutePlanner.Server.ServerMsgHandler
import RoutePlanner.Client.ClientMsgHandler
import RoutePlanner.Comms.Reception

namespace RoutePlanner.System

open RoutePlanner.Std
open RoutePlanner.Messages
open RoutePlanner.Comms
open RoutePlanner.Server
open RoutePlanner.Client

/-- A network that loses nothing and changes no order. -/
structure Network where
  cut : List Byte → List (Chunk Byte)
  join_cut : ∀ bytes, Chunk.join (cut bytes) = bytes

/-- A user who types two indices of every menu sooner or later. -/
structure User where
  typed : List Str → List UInt64
  chooses : ∀ menu, menu ≠ [] →
    2 ≤ ((typed menu).filter (ClientMsgHandler.below menu.length)).length

/-- One hop: a side receives a message, and sends one. -/
structure Hop where
  now : UInt64
  network : Network
  user : User

/-- Who is waiting for a message. -/
inductive Turn
  | server
  | client
  /-- Neither of them waits, or the user does not finish. -/
  | stopped
  deriving DecidableEq

/-- Both programs, and what is on its way between them. -/
structure Exchange (π : Type) where
  planner : π
  /-- The server has received its first message. -/
  accepted : Bool
  client : ClientMsgHandler
  toServer : List Read
  toClient : List Read
  turn : Turn

/-- A handler that was called in a hop, with what it was given and returned. -/
inductive Call
  | nothing
  | server (received response : Option Msg)
  | client (received : Option Msg) (reply : Reply) (cache : List Str)

namespace Exchange

variable {π : Type} (ops : PlannerOps π)

/-- The client's first `Send`. -/
def start (planner : π) (hop : Hop) : Except Fault (Exchange π) := do
  let (_, bytes) ← TcpSession.sendMsg (FactoryMsg.new hop.now .statusRequest).toMsg
  return {
    planner
    accepted := false
    client := .create
    toServer := socket (hop.network.cut bytes)
    toClient := []
    turn := .server }

/-- The session's first message is the one of `AsyncWaitForMsg`. -/
def serverWait (s : Exchange π) (now : UInt64) : Except Fault Wait :=
  if s.accepted then TcpSession.waitForMsg now s.toServer
  else TcpSession.asyncWaitForMsg now s.toServer

/-- A round of `ProcessSession`, from waiting for a message to sending the
response. -/
def serverHop (s : Exchange π) (hop : Hop) : Except Fault (Call × Exchange π) := do
  match ← s.serverWait hop.now with
  | .blocked => return (.nothing, s)
  | .threw => return (.nothing, { s with turn := .stopped })
  | .returned received toServer =>
      let (response, planner) ← ServerMsgHandler.msgHandler ops hop.now s.planner received
      let s := { s with planner, toServer, accepted := true }
      match response with
      | none => return (.server received none, { s with turn := .stopped })
      | some msg =>
          let (bytesSent, bytes) ← TcpSession.sendMsg msg
          if bytesSent = 0 then return (.server received (some msg), { s with turn := .stopped })
          else return (.server received (some msg),
            { s with toClient := s.toClient ++ socket (hop.network.cut bytes), turn := .client })

/-- A round of `Send`, from waiting for the response to sending the next
message. -/
def clientHop (s : Exchange π) (hop : Hop) : Except Fault (Call × Exchange π) := do
  match ← TcpSession.waitForMsg hop.now s.toClient with
  | .blocked => return (.nothing, s)
  | .threw => return (.nothing, { s with turn := .stopped })
  | .returned received toClient =>
      let (reply, client) ← s.client.msgHandler hop.now hop.user.typed received
      let s := { s with client, toClient }
      match reply with
      | .returned (some msg) =>
          let (bytesSent, bytes) ← TcpSession.sendMsg msg.toMsg
          if bytesSent = 0 then
            return (.client received reply client.locationsCache, { s with turn := .stopped })
          else return (.client received reply client.locationsCache,
            { s with toServer := s.toServer ++ socket (hop.network.cut bytes), turn := .server })
      | _ => return (.client received reply client.locationsCache, { s with turn := .stopped })

def hop (s : Exchange π) (hop : Hop) : Except Fault (Call × Exchange π) :=
  match s.turn with
  | .server => s.serverHop ops hop
  | .client => s.clientHop hop
  | .stopped => .ok (.nothing, s)

/-- A hop as a step. -/
def exec (s : Exchange π) (hop : Hop) : Except Fault (Exchange π) := do
  let (_, s) ← s.hop ops hop
  return s

/-- The exchange after a number of hops. -/
def run (planner : π) (first : Hop) (hops : List Hop) : Except Fault (Exchange π) := do
  let s ← start planner first
  Machine.run (exec ops) s hops

/-! ## Transport -/

variable {ops} {s : Exchange π} {hop : Hop}

theorem start_eq (planner : π) (hop : Hop) :
    start planner hop = .ok ⟨planner, false, .create,
      socket (hop.network.cut (FactoryMsg.new hop.now .statusRequest).bytes), [], .server⟩ := by
  rw [start, TcpSession.sendMsg_toMsg, Fault.ok_bind]
  rfl

theorem exec_of_hop {call : Call} {s' : Exchange π} (h : s.hop ops hop = .ok (call, s')) :
    exec ops s hop = .ok s' := by
  rw [exec, h]
  rfl

theorem run_append (planner : π) (first : Hop) (hops more : List Hop) :
    run ops planner first (hops ++ more) =
      run ops planner first hops >>= fun s => Machine.run (exec ops) s more := by
  simp only [run, Machine.run_append, bind_assoc]

theorem run_concat (planner : π) (first : Hop) (hops : List Hop) (hop : Hop) :
    run ops planner first (hops ++ [hop]) =
      run ops planner first hops >>= fun s => exec ops s hop := by
  simp only [run, Machine.run_concat, bind_assoc]

/-- A message of the factory reaches the server's handler. -/
theorem serverWait_of_join {msg : FactoryMsg} {chunks : List (Chunk Byte)}
    (hcut : Chunk.join chunks = msg.bytes) (hreads : s.toServer = socket chunks) (now : UInt64) :
    s.serverWait now = .ok (.returned (some msg.toMsg) []) := by
  have hlater := waitForMsg_bytes now hcut []
  have hfirst := asyncWaitForMsg_bytes now hcut []
  rw [List.append_nil, ← hreads] at hlater hfirst
  rw [serverWait]
  split
  · exact hlater
  · exact hfirst

/-- Its response is on the way to the client. -/
theorem serverHop_of_handle {msg response : FactoryMsg} {chunks : List (Chunk Byte)} {planner : π}
    (hcut : Chunk.join chunks = msg.bytes) (hreads : s.toServer = socket chunks)
    (hhandle : ServerMsgHandler.handle ops hop.now s.planner msg.toMsg =
      .ok (some response, planner)) :
    s.serverHop ops hop = .ok (.server (some msg.toMsg) (some response.toMsg),
      { s with planner, accepted := true, toServer := []
               toClient := s.toClient ++ socket (hop.network.cut response.bytes)
               turn := .client }) := by
  have hwait := serverWait_of_join hcut hreads hop.now
  simp only [serverHop, hwait, Fault.ok_bind, ServerMsgHandler.msgHandler, Fault.nonNull, hhandle,
    Option.map_some, Fault.pure_eq_ok, TcpSession.sendMsg_toMsg, if_neg (MsgType.length_ne_zero _)]

/-- Null instead of a response stops the session. -/
theorem serverHop_of_null {msg : FactoryMsg} {chunks : List (Chunk Byte)} {planner : π}
    (hcut : Chunk.join chunks = msg.bytes) (hreads : s.toServer = socket chunks)
    (hhandle : ServerMsgHandler.handle ops hop.now s.planner msg.toMsg = .ok (none, planner)) :
    s.serverHop ops hop = .ok (.server (some msg.toMsg) none,
      { s with planner, accepted := true, toServer := [], turn := .stopped }) := by
  have hwait := serverWait_of_join hcut hreads hop.now
  simp only [serverHop, hwait, Fault.ok_bind, ServerMsgHandler.msgHandler, Fault.nonNull, hhandle,
    Option.map_none, Fault.pure_eq_ok]

/-- A fault of the handler is one of the server. -/
theorem serverHop_of_fault {msg : FactoryMsg} {chunks : List (Chunk Byte)} {f : Fault}
    (hcut : Chunk.join chunks = msg.bytes) (hreads : s.toServer = socket chunks)
    (hhandle : ServerMsgHandler.handle ops hop.now s.planner msg.toMsg = .error f) :
    s.serverHop ops hop = .error f := by
  have hwait := serverWait_of_join hcut hreads hop.now
  simp only [serverHop, hwait, Fault.ok_bind, ServerMsgHandler.msgHandler, Fault.nonNull, hhandle,
    Fault.error_bind]

/-- A message of the factory reaches the client's handler, and its reply is on
the way to the server. -/
theorem clientHop_of_handle {msg request : FactoryMsg} {chunks : List (Chunk Byte)}
    {client : ClientMsgHandler} (hcut : Chunk.join chunks = msg.bytes)
    (hreads : s.toClient = socket chunks)
    (hhandle : s.client.msgHandler hop.now hop.user.typed (some msg.toMsg) =
      .ok (.returned (some request), client)) :
    s.clientHop hop = .ok (.client (some msg.toMsg) (.returned (some request))
        client.locationsCache,
      { s with client, toClient := []
               toServer := s.toServer ++ socket (hop.network.cut request.bytes)
               turn := .server }) := by
  have hwait := waitForMsg_bytes hop.now hcut []
  rw [List.append_nil, ← hreads] at hwait
  simp only [clientHop, hwait, Fault.ok_bind, hhandle, Fault.pure_eq_ok, TcpSession.sendMsg_toMsg,
    if_neg (MsgType.length_ne_zero _)]
  rfl

/-! ## The planner -/

/-- A round of the server leaves the planner alone, or leaves it as the handler did. -/
theorem planner_of_serverHop {call : Call} {s' : Exchange π}
    (h : s.serverHop ops hop = .ok (call, s')) :
    s'.planner = s.planner ∨ ∃ received response,
      ServerMsgHandler.msgHandler ops hop.now s.planner received = .ok (response, s'.planner) := by
  obtain ⟨wait, -, hwait⟩ := Fault.bind_eq_ok.mp h
  cases wait with
  | blocked =>
      obtain ⟨-, rfl⟩ := Prod.mk.inj (Except.ok.inj hwait)
      exact Or.inl rfl
  | threw =>
      obtain ⟨-, rfl⟩ := Prod.mk.inj (Except.ok.inj hwait)
      exact Or.inl rfl
  | returned received toServer =>
      obtain ⟨⟨response, planner⟩, hhandler, hrest⟩ := Fault.bind_eq_ok.mp hwait
      refine Or.inr ⟨received, response, ?_⟩
      cases response with
      | none =>
          obtain ⟨-, rfl⟩ := Prod.mk.inj (Except.ok.inj hrest)
          exact hhandler
      | some msg =>
          obtain ⟨⟨bytesSent, bytes⟩, -, hsent⟩ := Fault.bind_eq_ok.mp hrest
          dsimp only at hsent
          split at hsent <;> obtain ⟨-, rfl⟩ := Prod.mk.inj (Except.ok.inj hsent) <;>
            exact hhandler

/-- The client knows nothing of the planner. -/
theorem planner_of_clientHop {call : Call} {s' : Exchange π}
    (h : s.clientHop hop = .ok (call, s')) : s'.planner = s.planner := by
  obtain ⟨wait, -, hwait⟩ := Fault.bind_eq_ok.mp h
  cases wait with
  | blocked =>
      obtain ⟨-, rfl⟩ := Prod.mk.inj (Except.ok.inj hwait)
      rfl
  | threw =>
      obtain ⟨-, rfl⟩ := Prod.mk.inj (Except.ok.inj hwait)
      rfl
  | returned received toClient =>
      obtain ⟨⟨reply, client⟩, -, hrest⟩ := Fault.bind_eq_ok.mp hwait
      dsimp only at hrest
      split at hrest
      · obtain ⟨_, -, hsent⟩ := Fault.bind_eq_ok.mp hrest
        split at hsent <;> obtain ⟨-, rfl⟩ := Prod.mk.inj (Except.ok.inj hsent) <;> rfl
      · obtain ⟨-, rfl⟩ := Prod.mk.inj (Except.ok.inj hrest)
        rfl

theorem planner_of_hop {call : Call} {s' : Exchange π} (h : s.hop ops hop = .ok (call, s')) :
    s'.planner = s.planner ∨ ∃ received response,
      ServerMsgHandler.msgHandler ops hop.now s.planner received = .ok (response, s'.planner) := by
  rw [Exchange.hop] at h
  split at h
  · exact planner_of_serverHop h
  · exact Or.inl (planner_of_clientHop h)
  · obtain ⟨-, rfl⟩ := Prod.mk.inj (Except.ok.inj h)
    exact Or.inl rfl

end Exchange

end RoutePlanner.System
