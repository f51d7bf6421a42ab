/-
# The client of the joint system

The joint system takes the client one hop at a time, and between two hops the server
sends and the network cuts.  What the client's handler is called with in all that is
what the loop of `Send` calls it with when it reads the same stream by itself.  The
files may change at every hop; the client does not know of them.
-/

import RoutePlanner.Comms.OwnReads
import RoutePlanner.System.AnyServer
import RoutePlanner.System.Exchange

namespace RoutePlanner.System

open RoutePlanner.Std
open RoutePlanner.Messages
open RoutePlanner.Comms
open RoutePlanner.Comms.TcpSession (waitForMsg)
open RoutePlanner.Server
open RoutePlanner.Client

/-- Waiting for a message takes no more when more is to come. -/
theorem waitForMsg_append {now : UInt64} {reads rest : List Read} {msg : Option Msg}
    (h : waitForMsg now reads = .ok (.returned msg rest)) (more : List Read) :
    waitForMsg now (reads ++ more) = .ok (.returned msg (rest ++ more)) := by
  rw [TcpSession.waitForMsg_eq, waitFor_eq_returned] at h ⊢
  obtain ⟨bytes, htaken, hread⟩ := h
  exact ⟨bytes, taken_append htaken more, hread⟩

namespace Exchange

variable {π : Type}

/-- The hops of a run with their calls, up to the first hop that fails.  At every hop
the planner may work on other files. -/
def trace (s : Exchange π) : List (PlannerOps π × Hop) → List (Hop × Call)
  | [] => []
  | (ops, hop) :: later =>
      match s.hop ops hop with
      | .ok (call, s') => (hop, call) :: s'.trace later
      | .error _ => []

/-- A round of the client. -/
def clientRound : Hop × Call → Option TcpClient.Round
  | (hop, .client ..) => some ⟨hop.now, hop.user.typed⟩
  | _ => none

/-- The call of the client's handler in it. -/
def clientHandled : Hop × Call → Option TcpClient.Handled
  | (_, .client received reply cache) => some ⟨received, reply, ⟨cache⟩⟩
  | _ => none

/-- What the server sends in a hop, as the network cuts it. -/
def sentToClient : Hop × Call → List Read
  | (hop, .server _ (some msg)) =>
      match TcpSession.sendMsg msg with
      | .ok (bytesSent, bytes) =>
          if bytesSent = 0 then [] else socket (hop.network.cut bytes)
      | .error _ => []
  | _ => []

/-- The client's part in a trace, on a stream that goes on with what the trace sends. -/
def SendsAlong (client : ClientMsgHandler) (toClient : List Read) (trace : List (Hop × Call)) :
    Prop :=
  (TcpClient.send (trace.filterMap clientRound) client
      (toClient ++ trace.flatMap sentToClient)).1 = trace.filterMap clientHandled

section Trace

variable {ops : PlannerOps π} {s s' : Exchange π} {hop : Hop} {call : Call}
  {client : ClientMsgHandler} {toClient rest : List Read} {trace : List (Hop × Call)}

theorem sendsAlong_nil (client : ClientMsgHandler) (toClient : List Read) :
    SendsAlong client toClient [] := rfl

theorem sendsAlong_nothing (h : SendsAlong client toClient trace) :
    SendsAlong client toClient ((hop, .nothing) :: trace) := h

/-- The server's hop only adds to the stream. -/
theorem sendsAlong_server {received response : Option Msg}
    (h : SendsAlong client (toClient ++ sentToClient (hop, .server received response)) trace) :
    SendsAlong client toClient ((hop, .server received response) :: trace) := by
  rw [SendsAlong, List.append_assoc] at h
  exact h

/-- A round of the client that sends a message. -/
theorem sendsAlong_client {received : Option Msg} {request : FactoryMsg}
    {client' : ClientMsgHandler}
    (hwait : waitForMsg hop.now toClient = .ok (.returned received rest))
    (hhandler : client.msgHandler hop.now hop.user.typed received =
      .ok (.returned (some request), client'))
    (h : SendsAlong client' rest trace) :
    SendsAlong client toClient
      ((hop, .client received (.returned (some request)) client'.locationsCache) :: trace) := by
  have hwait' := waitForMsg_append hwait (trace.flatMap sentToClient)
  rw [SendsAlong] at h ⊢
  simp only [List.filterMap_cons, List.flatMap_cons, clientRound, clientHandled, sentToClient,
    List.nil_append, TcpClient.send, hwait', hhandler, h]

/-- The last round. -/
theorem sendsAlong_last {received : Option Msg} {reply : Reply} {client' : ClientMsgHandler}
    (hwait : waitForMsg hop.now toClient = .ok (.returned received rest))
    (hhandler : client.msgHandler hop.now hop.user.typed received = .ok (reply, client'))
    (hlast : ∀ request, reply ≠ .returned (some request))
    (hnothing : ∀ pair ∈ trace, pair.2 = .nothing) :
    SendsAlong client toClient ((hop, .client received reply client'.locationsCache) :: trace) := by
  have hwait' := waitForMsg_append hwait (trace.flatMap sentToClient)
  have hover : trace.filterMap clientHandled = [] := by
    refine List.filterMap_eq_nil_iff.mpr fun pair hpair => ?_
    obtain ⟨hop', call'⟩ := pair
    obtain rfl : call' = .nothing := hnothing _ hpair
    rfl
  rw [SendsAlong]
  simp only [List.filterMap_cons, List.flatMap_cons, clientRound, clientHandled, sentToClient,
    List.nil_append, TcpClient.send, hwait', hhandler, hover]

/-- Once nobody waits, nothing is called. -/
theorem nothing_of_stopped (hturn : s.turn = .stopped) (hops : List (PlannerOps π × Hop)) :
    ∀ pair ∈ s.trace hops, pair.2 = .nothing := by
  induction hops with
  | nil => exact fun _ => nofun
  | cons first later ih =>
      rw [Exchange.trace, Exchange.hop, hturn]
      exact List.forall_mem_cons.mpr ⟨rfl, ih⟩

theorem sendsAlong_of_serverHop (h : s.serverHop ops hop = .ok (call, s'))
    (hrest : SendsAlong s'.client s'.toClient trace) :
    SendsAlong s.client s.toClient ((hop, call) :: trace) := by
  obtain ⟨wait, -, hwait⟩ := Fault.bind_eq_ok.mp h
  cases wait with
  | blocked =>
      obtain ⟨rfl, rfl⟩ := Prod.mk.inj (Except.ok.inj hwait)
      exact sendsAlong_nothing hrest
  | threw =>
      obtain ⟨rfl, rfl⟩ := Prod.mk.inj (Except.ok.inj hwait)
      exact sendsAlong_nothing hrest
  | returned received toServer =>
      obtain ⟨⟨response, planner⟩, -, hanswer⟩ := Fault.bind_eq_ok.mp hwait
      cases response with
      | none =>
          obtain ⟨rfl, rfl⟩ := Prod.mk.inj (Except.ok.inj hanswer)
          have hnothing : sentToClient (hop, .server received none) = [] := rfl
          refine sendsAlong_server ?_
          rwa [hnothing, List.append_nil]
      | some msg =>
          obtain ⟨⟨bytesSent, bytes⟩, hsend, hsent⟩ := Fault.bind_eq_ok.mp hanswer
          dsimp only at hsent
          split at hsent
          · rename_i hzero
            obtain ⟨rfl, rfl⟩ := Prod.mk.inj (Except.ok.inj hsent)
            refine sendsAlong_server ?_
            simpa only [sentToClient, hsend, if_pos hzero, List.append_nil] using hrest
          · rename_i hmore
            obtain ⟨rfl, rfl⟩ := Prod.mk.inj (Except.ok.inj hsent)
            refine sendsAlong_server ?_
            simpa only [sentToClient, hsend, if_neg hmore] using hrest

theorem sendsAlong_of_clientHop {later : List (PlannerOps π × Hop)}
    (h : s.clientHop hop = .ok (call, s'))
    (hrest : SendsAlong s'.client s'.toClient (s'.trace later)) :
    SendsAlong s.client s.toClient ((hop, call) :: s'.trace later) := by
  obtain ⟨wait, hwait, hreturn⟩ := Fault.bind_eq_ok.mp h
  cases wait with
  | blocked =>
      obtain ⟨rfl, rfl⟩ := Prod.mk.inj (Except.ok.inj hreturn)
      exact sendsAlong_nothing hrest
  | threw =>
      obtain ⟨rfl, rfl⟩ := Prod.mk.inj (Except.ok.inj hreturn)
      exact sendsAlong_nothing hrest
  | returned received toClient =>
      obtain ⟨⟨reply, client⟩, hhandler, hreply⟩ := Fault.bind_eq_ok.mp hreturn
      dsimp only at hreply
      split at hreply
      · rename_i request
        rw [TcpSession.sendMsg_toMsg, Fault.ok_bind] at hreply
        simp only [if_neg (MsgType.length_ne_zero _)] at hreply
        obtain ⟨rfl, rfl⟩ := Prod.mk.inj (Except.ok.inj hreply)
        exact sendsAlong_client hwait hhandler hrest
      · rename_i hlast
        obtain ⟨rfl, rfl⟩ := Prod.mk.inj (Except.ok.inj hreply)
        exact sendsAlong_last hwait hhandler hlast (nothing_of_stopped rfl later)

/-- From any state on, whatever the server does. -/
theorem sendsAlong_trace (s : Exchange π) (hops : List (PlannerOps π × Hop)) :
    SendsAlong s.client s.toClient (s.trace hops) := by
  induction hops generalizing s with
  | nil => exact sendsAlong_nil _ _
  | cons first later ih =>
      obtain ⟨ops, hop⟩ := first
      rw [Exchange.trace]
      cases hhop : s.hop ops hop with
      | error _ => exact sendsAlong_nil _ _
      | ok result =>
          obtain ⟨call, s'⟩ := result
          have hrest := ih s'
          rw [Exchange.hop] at hhop
          split at hhop
          · exact sendsAlong_of_serverHop hhop hrest
          · exact sendsAlong_of_clientHop hhop hrest
          · obtain ⟨rfl, rfl⟩ := Prod.mk.inj (Except.ok.inj hhop)
            exact sendsAlong_nothing hrest

end Trace

/-- In every run of the joint system, with any planner and files that change at every hop,
the calls of the client's handler, with what they return and leave in the cache, are those
of the loop of `Send` on the stream of everything that the server sends in the run. -/
theorem send_of_trace (planner : π) (first : Hop) (hops : List (PlannerOps π × Hop)) :
    ∃ s, start planner first = .ok s ∧
      (TcpClient.send ((s.trace hops).filterMap clientRound) .create
        ((s.trace hops).flatMap sentToClient)).1 = (s.trace hops).filterMap clientHandled :=
  ⟨_, start_eq planner first, sendsAlong_trace _ hops⟩

end Exchange

end RoutePlanner.System
