/-
# A client and whatever answers it

`Send` hands every message of the other side to the handler and sends what comes back.
Nothing is known of the other side here: any bytes may arrive, in any pieces.  Still the
cache is what was listed since the last response that clears it, every request for
locations asks from behind the cache, and both indices of every route request are
indices of it, so the handler reads the names of the route inside its list.
-/

import RoutePlanner.Client.Prompts
import RoutePlanner.System.Conversation
import RoutePlanner.System.Downcasts

namespace RoutePlanner.System

open RoutePlanner.Std
open RoutePlanner.Messages
open RoutePlanner.Comms
open RoutePlanner.Comms.TcpSession (waitForMsg)
open RoutePlanner.Client

namespace TcpClient

/-- What a round of `Send` does not decide itself. -/
structure Round where
  now : UInt64
  typed : List Str → List UInt64

/-- A call of the handler that returned. -/
structure Handled where
  received : Option Msg
  reply : Reply
  client : ClientMsgHandler

/-- `Send` from the first `WaitForMsg` on, for so many rounds at most, on a socket that
takes everything: the calls of the handler, and the fault that ended them, if one did. -/
def send : List Round → ClientMsgHandler → List Read → List Handled × Option Fault
  | [], _, _ => ([], none)
  | round :: rounds, client, reads =>
      match waitForMsg round.now reads with
      | .error f => ([], some f)
      | .ok (.returned received rest) =>
          match client.msgHandler round.now round.typed received with
          | .error f => ([], some f)
          | .ok (.returned (some msgResponse), client) =>
              let later := send rounds client rest
              (⟨received, .returned (some msgResponse), client⟩ :: later.1, later.2)
          | .ok (reply, client) => ([⟨received, reply, client⟩], none)
      | .ok _ => ([], none)

/-! ## Two accounts of the loop -/

section Hands

variable {now : UInt64} {typed : List Str → List UInt64}

/-- Whatever the client's handler asks for is sent. -/
theorem sends_toMsg (request : FactoryMsg) : Sends request.toMsg :=
  ⟨_, _, TcpSession.sendMsg_toMsg request, MsgType.length_ne_zero _⟩

/-- The calls that return are calls of the conversation. -/
theorem hands_of_mem_send {fuel : Nat} {client : ClientMsgHandler} {first : Msg}
    {reads : List Read} (hfirst : Sends first) {handled : Handled}
    (hmem : handled ∈ (send (List.replicate fuel ⟨now, typed⟩) client reads).1) :
    Send (clientHandler now typed) now client first reads (.hands handled.received) := by
  induction fuel generalizing client first reads with
  | zero => exact absurd hmem List.not_mem_nil
  | succ fuel ih =>
      rw [List.replicate_succ, send] at hmem
      split at hmem
      · exact absurd hmem List.not_mem_nil
      · rename_i received rest hwait
        split at hmem
        · exact absurd hmem List.not_mem_nil
        · rename_i msgResponse client' hhandler
          rcases List.mem_cons.mp hmem with rfl | hlater
          · exact .hands hfirst hwait
          · refine .later hfirst hwait ?_ (ih (sends_toMsg msgResponse) hlater)
            rw [clientHandler, hhandler]
            rfl
        · rw [List.mem_singleton] at hmem
          exact hmem ▸ .hands hfirst hwait
      · exact absurd hmem List.not_mem_nil

/-- Without a fault there are no others, and a round for each read is enough. -/
theorem mem_send_of_hands {fuel : Nat} {client : ClientMsgHandler} {first : Msg}
    {reads : List Read} (hfuel : reads.length ≤ fuel)
    (hfault : (send (List.replicate fuel ⟨now, typed⟩) client reads).2 = none)
    {msg : Option Msg} (h : Send (clientHandler now typed) now client first reads (.hands msg)) :
    msg ∈ (send (List.replicate fuel ⟨now, typed⟩) client reads).1.map Handled.received := by
  generalize haction : Action.hands msg = action at h
  induction h generalizing fuel with
  | waits _ => cases haction
  | @hands client first received reads rest _ hwait =>
      obtain rfl := Action.hands.inj haction
      have hlt := length_lt_of_waitForMsg hwait
      obtain ⟨fuel, rfl⟩ := Nat.exists_eq_succ_of_ne_zero (show fuel ≠ 0 by omega)
      rw [List.replicate_succ, send] at hfault ⊢
      simp only [hwait] at hfault ⊢
      split at hfault
      · cases hfault
      · exact List.mem_cons_self
      · exact List.mem_cons_self
  | @later client client' first msgResponse received reads rest _ _ hwait hhandler _ ih =>
      have hlt := length_lt_of_waitForMsg hwait
      obtain ⟨fuel, rfl⟩ := Nat.exists_eq_succ_of_ne_zero (show fuel ≠ 0 by omega)
      obtain ⟨⟨reply, client''⟩, hreply, hreturn⟩ := Fault.bind_eq_ok.mp hhandler
      rw [List.replicate_succ, send] at hfault ⊢
      simp only [hwait, hreply] at hfault ⊢
      cases reply with
      | asking => cases hreturn
      | returned response =>
          cases response with
          | none => cases hreturn
          | some request =>
              obtain ⟨-, rfl⟩ := Prod.mk.inj (Except.ok.inj hreturn)
              exact List.mem_cons_of_mem _ (ih (by omega) hfault haction)

/-- When the function meets no fault, the handler was given what the relation says. -/
theorem send_hands_iff {fuel : Nat} {client : ClientMsgHandler} {first : Msg}
    {reads : List Read} (hfirst : Sends first) (hfuel : reads.length ≤ fuel)
    (hfault : (send (List.replicate fuel ⟨now, typed⟩) client reads).2 = none)
    (msg : Option Msg) :
    Send (clientHandler now typed) now client first reads (.hands msg) ↔
      msg ∈ (send (List.replicate fuel ⟨now, typed⟩) client reads).1.map Handled.received := by
  refine ⟨mem_send_of_hands hfuel hfault, fun hmem => ?_⟩
  obtain ⟨handled, hhandled, rfl⟩ := List.mem_map.mp hmem
  exact hands_of_mem_send hfirst hhandled

end Hands

/-! ## Any answers -/

/-- The names that a response lists: what a separator ends, in the characters counted. -/
def listed (data : MsgLocationsResponseData) : List Str :=
  Text.terminated MSG_LOCATIONS_SEP_CHAR (data.locations.chars.take data.charCount.toNat)

/-- The cache after a message: responses other than pages clear it. -/
def nextCache (cache : List Str) (received : Option Msg) : List Str :=
  match received.map Msg.body with
  | some .statusResponse | some (.routeResponse _) => []
  | some (.locationsResponse data) => cache ++ listed data
  | _ => cache

/-- The reply asks for nothing that is not behind or inside the cache. -/
def InRange (cache : List Str) : Reply → Prop
  | .returned (some request) =>
      match request.body with
      | .locationsRequest data => data.startLocation = UInt64.ofNat cache.length
      | .routeRequest data =>
          data.startLocation.toNat < cache.length ∧ data.endLocation.toNat < cache.length
      | _ => False
  | _ => True

/-- One call of the handler on a message of whatever content. -/
theorem msgHandler_inRange {now : UInt64} {typed : List Str → List UInt64}
    {client client' : ClientMsgHandler} {msg : Msg} (hid : msg.header.id = msg.type.id)
    {reply : Reply} (h : client.msgHandler now typed (some msg) = .ok (reply, client')) :
    client'.locationsCache = nextCache client.locationsCache (some msg) ∧
      InRange client'.locationsCache reply := by
  rw [ClientMsgHandler.msgHandler_of_id now typed client hid] at h
  rw [nextCache, Option.map_some]
  cases hbody : msg.body with
  | statusResponse =>
      rw [hbody] at h
      obtain ⟨rfl, rfl⟩ := Prod.mk.inj (Except.ok.inj h)
      exact ⟨rfl, rfl⟩
  | routeResponse data =>
      rw [hbody] at h
      obtain ⟨rfl, rfl⟩ := Prod.mk.inj (Except.ok.inj h)
      exact ⟨rfl, rfl⟩
  | locationsResponse data =>
      rw [hbody] at h
      obtain ⟨locations, hread, hreturn⟩ := Fault.bind_eq_ok.mp h
      have hlisted : locations = listed data := by
        rw [MsgLocationsResponseData.getLocations] at hread
        split at hread
        · exact (Except.ok.inj hread).symm
        · cases hread
      subst hlisted
      dsimp only at hreturn
      split at hreturn
      · obtain ⟨rfl, rfl⟩ := Prod.mk.inj (Except.ok.inj hreturn)
        exact ⟨rfl, rfl⟩
      · obtain ⟨hreply, rfl⟩ := Prod.mk.inj (Except.ok.inj hreturn)
        refine ⟨rfl, ?_⟩
        cases reply with
        | asking => exact trivial
        | returned response =>
            cases response with
            | none => exact trivial
            | some request =>
                obtain ⟨indices, hrequest, hlt⟩ :=
                  ClientMsgHandler.indices_of_getRouteRequest hreply
                rw [InRange, hrequest]
                exact hlt
  | _ =>
      rw [hbody] at h
      obtain ⟨rfl, rfl⟩ := Prod.mk.inj (Except.ok.inj h)
      exact ⟨rfl, trivial⟩

/-- What the handler of a client is given has the id of its class, or is null. -/
theorem inRange_of_waitForMsg {round : Round} {reads rest : List Read} {received : Option Msg}
    (hwait : waitForMsg round.now reads = .ok (.returned received rest))
    {client client' : ClientMsgHandler} {reply : Reply}
    (h : client.msgHandler round.now round.typed received = .ok (reply, client')) :
    client'.locationsCache = nextCache client.locationsCache received ∧
      InRange client'.locationsCache reply := by
  cases received with
  | none => cases h
  | some msg =>
      obtain ⟨bytes, hheader, hread⟩ := (Delivered.waited hwait).madeOf
      exact msgHandler_inRange (id_of_readMsg hheader hread) h

/-- Whatever the bytes that arrive, in whatever pieces, and whatever is typed: after every
call of the handler the cache is what the messages so far make of it, and the reply is in
its range. -/
theorem send_inRange (rounds : List Round) (client : ClientMsgHandler) (reads : List Read) :
    ∀ pre handled post, (send rounds client reads).1 = pre ++ handled :: post →
      handled.client.locationsCache =
          ((pre ++ [handled]).map Handled.received).foldl nextCache client.locationsCache ∧
        InRange handled.client.locationsCache handled.reply := by
  have hnone : ∀ {P : List Handled → Handled → Prop} (pre : List Handled) (handled : Handled)
      (post : List Handled), [] = pre ++ handled :: post → P pre handled :=
    fun pre handled post heq => absurd heq.symm
      (List.append_ne_nil_of_right_ne_nil _ (List.cons_ne_nil _ _))
  induction rounds generalizing client reads with
  | nil => exact hnone
  | cons round rounds ih =>
      rw [send]
      split
      · exact hnone
      · rename_i received rest hwait
        split
        · exact hnone
        · rename_i msgResponse client' hhandler
          obtain ⟨hcache, hrange⟩ := inRange_of_waitForMsg hwait hhandler
          refine Machine.forall_split_cons.mpr ⟨⟨hcache, hrange⟩, fun pre handled post heq => ?_⟩
          obtain ⟨hlater, hinRange⟩ := ih client' rest pre handled post heq
          rw [hcache] at hlater
          exact ⟨hlater, hinRange⟩
        · rename_i reply client' hlast hhandler
          obtain ⟨hcache, hrange⟩ := inRange_of_waitForMsg hwait hhandler
          exact Machine.forall_split_cons.mpr ⟨⟨hcache, hrange⟩, hnone⟩
      · exact hnone

/-- The bytes of a page that is marked and lists three names, two of them empty. -/
def markedPage : Chunk Byte :=
  ⟨[104, 0, 0, 0, 0, 0, 0, 0, 136, 0, 0, 0, 0, 0, 0, 0] ++ List.replicate 8 0 ++
    [4, 0, 0, 0, 0, 0, 0, 0, 65, 59, 59, 59] ++ List.replicate 96 0 ++ [1, 0, 0, 0], by decide⟩

theorem send_inRange_markedPage :
    ∃ handled, (send [⟨0, fun _ => []⟩] .create [.data markedPage]).1 = [handled] ∧
      handled.client.locationsCache = [handled.received].foldl nextCache [] ∧
      InRange handled.client.locationsCache handled.reply := by
  have hlength : (send [⟨0, fun _ => []⟩] .create [.data markedPage]).1.length = 1 := by
    decide +kernel
  obtain ⟨handled, hlog⟩ := List.length_eq_one_iff.mp hlength
  exact ⟨handled, hlog, send_inRange _ .create _ [] handled [] hlog⟩

end TcpClient

end RoutePlanner.System
