/-
# Any number of clients

The server's loop and any number of clients with their connections, as one machine.
Every client is a process of its own: it sends a status request when it is connected,
and from then on waits for a message, hands it to its handler and sends the reply.
Nothing fixes the order in which connections are accepted, bytes arrive, writes
complete and users type.

The bytes of a message are on their way as soon as it is sent, and arrive in the order
in which they were sent, any number at a time.
-/

import RoutePlanner.System.ServerLoop
import RoutePlanner.System.Paging
import RoutePlanner.Comms.Delivery

namespace RoutePlanner.System

open RoutePlanner.Std
open RoutePlanner.Messages
open RoutePlanner.Comms
open RoutePlanner.Server
open RoutePlanner.Client

/-- The messages whose handlers write their date to the client's log. -/
def responseIds : List UInt32 :=
  [MSG_STATUS_RESPONSE_ID, MSG_LOCATIONS_RESPONSE_ID, MSG_ROUTE_RESPONSE_ID]

/-- The handler that a client is started with, and its log. -/
def loggingReply (ctime : UInt64 → Option Str) (now : UInt64) (typed : List Str → List UInt64)
    (client : ClientMsgHandler) (msg : Option Msg) :
    Except Fault (Reply × ClientMsgHandler) := do
  let pointer ← Fault.nonNull msg
  let _ ← if pointer.header.id ∈ responseIds then pointer.dateString ctime else .ok []
  client.msgHandler now typed msg

/-- The server's handler, with the bytes of the response that it returned last. -/
def sendingHandler {π : Type} (ctime : UInt64 → Option Str) (ops : PlannerOps π) (now : UInt64)
    (state : π × List Byte) (msg : Option Msg) :
    Except Fault (Option FactoryMsg × (π × List Byte)) := do
  let (response, planner) ← loggingHandler ctime ops now state.1 msg
  return (response, planner, (response.map FactoryMsg.bytes).getD [])

/-- A client, and both directions of its connection. -/
structure Peer where
  client : ClientMsgHandler
  /-- `WaitForMsg`, after these reads. -/
  reads : List Read
  /-- The bytes that neither side has read. -/
  toServer : List Byte
  toClient : List Byte
  /-- What the handler was given. -/
  handed : List (Option Msg)
  /-- `Send` has returned, or thrown, or the user does not finish. -/
  stopped : Bool

namespace Peer

/-- `Send`, up to the wait for the answer. -/
def send (peer : Peer) (msg : Msg) : Except Fault Peer := do
  let (bytesSent, bytes) ← TcpSession.sendMsg msg
  return { peer with toServer := peer.toServer ++ bytes, stopped := bytesSent = 0 }

/-- A client that has its connection sends the first message. -/
def connect (now : UInt64) : Except Fault Peer :=
  send ⟨.create, [], [], [], [], false⟩ (FactoryMsg.new now .statusRequest).toMsg

/-- A read of `WaitForMsg` completes, and what comes of it. -/
def onRead (ctime : UInt64 → Option Str) (now : UInt64) (user : User) (peer : Peer)
    (chunk : Chunk Byte) : Except Fault Peer := do
  match ← TcpSession.waitForMsg now (peer.reads ++ [.data chunk]) with
  | .blocked => return { peer with reads := peer.reads ++ [.data chunk] }
  | .threw => return { peer with stopped := true }
  | .returned msgReceived reads =>
      let (reply, client) ← loggingReply ctime now user.typed peer.client msgReceived
      let peer := { peer with client, reads, handed := peer.handed ++ [msgReceived] }
      match reply with
      | .returned (some msgResponse) => peer.send msgResponse.toMsg
      | _ => return { peer with stopped := true }

end Peer

/-- The server and its clients, in the order in which they have connected. -/
structure Clients (π : Type) where
  server : TcpServer (π × List Byte)
  peers : List Peer

/-- What happens next. -/
inductive Happening
  /-- One more client connects. -/
  | connects
  /-- The connection that has waited longest is accepted. -/
  | accepted
  /-- A read of a session completes, with at most so many bytes. -/
  | serverReads (i size : Nat)
  /-- The write of a session completes. -/
  | written (i : Nat)
  /-- A read of a client completes, with at most so many bytes. -/
  | clientReads (i size : Nat) (user : User)

namespace Clients

variable {π : Type} (ctime : UInt64 → Option Str) (ops : PlannerOps π)

def start (planner : π) : Clients π := ⟨.create (planner, []), []⟩

/-- The first bytes of those on their way, if there are any. -/
def arrived (size : Nat) (bytes : List Byte) : Option (Chunk Byte) :=
  if h : bytes.take size ≠ [] then some ⟨bytes.take size, h⟩ else none

/-- What the thread is sending to a session. -/
def sent (server : TcpServer (π × List Byte)) (i : Nat) : List Byte :=
  match server.thread with
  | .sending j _ => if i = j then server.state.2 else []
  | _ => []

/-- Nothing is read where nobody waits for it. -/
def step (s : Clients π) (now : UInt64) : Happening → Except Fault (Clients π)
  | .connects => do
      let peer ← Peer.connect now
      return { s with peers := s.peers ++ [peer] }
  | .accepted =>
      if s.server.sessions.length < s.peers.length then do
        let server ← s.server.step (sendingHandler ctime ops) ⟨now, .accepted true⟩
        return { s with server }
      else .ok s
  | .serverReads i size =>
      match s.peers[i]? with
      | none => .ok s
      | some peer =>
          match s.server.reader i, arrived size peer.toServer with
          | some _, some chunk => do
              let server ← s.server.step (sendingHandler ctime ops) ⟨now, .read i (.data chunk)⟩
              return ⟨server, s.peers.set i { peer with
                toServer := peer.toServer.drop size
                toClient := peer.toClient ++ sent server i }⟩
          | _, _ => .ok s
  | .written i => do
      let server ← s.server.step (sendingHandler ctime ops) ⟨now, .written i true⟩
      return { s with server }
  | .clientReads i size user =>
      match s.peers[i]? with
      | none => .ok s
      | some peer =>
          if peer.stopped then .ok s
          else
            match arrived size peer.toClient with
            | none => .ok s
            | some chunk => do
                let peer ← Peer.onRead ctime now user
                  { peer with toClient := peer.toClient.drop size } chunk
                return { s with peers := s.peers.set i peer }

/-- A step of the machine, with the time on the clock. -/
def exec (s : Clients π) (event : UInt64 × Happening) : Except Fault (Clients π) :=
  s.step ctime ops event.1 event.2

end Clients

/-! ## The two handlers -/

/-- The server dates its responses. -/
theorem timestamp_of_handle {π : Type} {ops : PlannerOps π} {now : UInt64} {planner planner' : π}
    {msg : Msg} {response : FactoryMsg}
    (h : ServerMsgHandler.handle ops now planner msg = .ok (some response, planner')) :
    response.timestamp = now := by
  rw [ServerMsgHandler.handle] at h
  split_ifs at h
  · obtain ⟨_, -, heq⟩ := Fault.bind_eq_ok.mp h
    cases heq
    rfl
  · obtain ⟨data, -, hlocations⟩ := Fault.bind_eq_ok.mp h
    obtain ⟨⟨locations, _⟩, -, hanswer⟩ := Fault.bind_eq_ok.mp hlocations
    dsimp only at hanswer
    split at hanswer
    · obtain ⟨_, -, heq⟩ := Fault.bind_eq_ok.mp hanswer
      cases heq
      rfl
    · cases hanswer
  · obtain ⟨data, -, hroute⟩ := Fault.bind_eq_ok.mp h
    obtain ⟨⟨locations, _⟩, -, hanswer⟩ := Fault.bind_eq_ok.mp hroute
    dsimp only at hanswer
    split at hanswer
    · obtain ⟨_, -, hstart⟩ := Fault.bind_eq_ok.mp hanswer
      obtain ⟨_, -, hend⟩ := Fault.bind_eq_ok.mp hstart
      obtain ⟨_, -, heq⟩ := Fault.bind_eq_ok.mp hend
      cases heq
      rfl
    · cases hanswer
  · cases h

theorem timestamp_of_getRouteRequest {now : UInt64} {typed : List Str → List UInt64}
    {client : ClientMsgHandler} {request : FactoryMsg}
    (h : client.getRouteRequest now typed = .returned (some request)) :
    request.timestamp = now := by
  rw [ClientMsgHandler.getRouteRequest] at h
  split at h
  · cases h
  · split at h
    · cases h
    · cases h
      rfl

/-- The client dates its requests. -/
theorem timestamp_of_msgHandler {now : UInt64} {typed : List Str → List UInt64}
    {client client' : ClientMsgHandler} {msg : Option Msg} {request : FactoryMsg}
    (h : client.msgHandler now typed msg = .ok (.returned (some request), client')) :
    request.timestamp = now := by
  obtain ⟨pointer, -, hmsg⟩ := Fault.bind_eq_ok.mp h
  split_ifs at hmsg
  · obtain ⟨_, -, heq⟩ := Fault.bind_eq_ok.mp hmsg
    cases heq
    rfl
  · obtain ⟨data, -, hlocations⟩ := Fault.bind_eq_ok.mp hmsg
    obtain ⟨locations, -, hreply⟩ := Fault.bind_eq_ok.mp hlocations
    dsimp only at hreply
    split at hreply
    · cases hreply
      rfl
    · obtain ⟨hroute, -⟩ := Prod.mk.inj (Except.ok.inj hreply)
      exact timestamp_of_getRouteRequest hroute
  · obtain ⟨_, -, heq⟩ := Fault.bind_eq_ok.mp hmsg
    cases heq
    rfl
  · cases hmsg

section Handlers

variable {ctime : UInt64 → Option Str} {now : UInt64}

theorem dateString_of_dated {msg : Msg} (h : ctime msg.header.timestamp ≠ none) :
    ∃ date, msg.dateString ctime = .ok date := by
  obtain ⟨date, hdate⟩ := Option.ne_none_iff_exists'.mp h
  rw [Msg.dateString, hdate]
  exact ⟨_, rfl⟩

/-- A dated message of the factory is logged and handled. -/
theorem sendingHandler_of_handle {π : Type} {ops : PlannerOps π} {state : π × List Byte}
    {planner : π} {msg response : FactoryMsg} (hdated : ctime msg.timestamp ≠ none)
    (h : ServerMsgHandler.handle ops now state.1 msg.toMsg = .ok (some response, planner)) :
    sendingHandler ctime ops now state (some msg.toMsg) =
      .ok (some response, planner, response.bytes) := by
  obtain ⟨date, hdate⟩ := (@logDate_eq_ok ctime msg.toMsg).mpr fun _ => hdated
  rw [sendingHandler, loggingHandler, Fault.nonNull, Fault.ok_bind, hdate, Fault.ok_bind, h]
  rfl

theorem loggingReply_of_msgHandler {typed : List Str → List UInt64} {client : ClientMsgHandler}
    {result : Reply × ClientMsgHandler} {msg : FactoryMsg} (hdated : ctime msg.timestamp ≠ none)
    (h : client.msgHandler now typed (some msg.toMsg) = .ok result) :
    loggingReply ctime now typed client (some msg.toMsg) = .ok result := by
  obtain ⟨date, hdate⟩ := @dateString_of_dated _ msg.toMsg hdated
  rw [loggingReply, Fault.nonNull, Fault.ok_bind, hdate]
  split <;> rw [Fault.ok_bind, h]

end Handlers

end RoutePlanner.System
