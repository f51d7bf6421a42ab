/-
# Clients in their phases

Whatever the order in which things happen, every client goes through the phases of an
exchange of its own, and its connection carries the one message that its phase allows.
So the server is never left, no session ends, and no client stops.
-/

import RoutePlanner.System.Clients

namespace RoutePlanner.System

open RoutePlanner.Std
open RoutePlanner.Messages
open RoutePlanner.Comms
open RoutePlanner.Server
open RoutePlanner.Client

/-! ## Where a client stands -/

/-- The sides take turns. -/
theorem Phase.turn_after (names : List Str) (k : Nat) :
    (Phase.after names k).turn = if k % 2 = 0 then .server else .client := by
  induction k with
  | zero => rfl
  | succ k ih =>
      rw [Phase.after_succ]
      rcases Nat.mod_two_eq_zero_or_one k with heven | hodd
      · rw [heven, if_pos rfl] at ih
        rw [(@Phase.next_of_server names _ ih).1, if_neg (by omega)]
      · rw [hodd, if_neg Nat.one_ne_zero] at ih
        rw [@Phase.next_of_client names _ ih, if_pos (by omega)]

/-- The bytes of the message that somebody waits for: what was read of them, and what
is on its way.  Nothing else is. -/
def Peer.Awaits {σ : Type} (peer : Peer) (server : TcpServer σ) (i : Nat) (bytes : List Byte) :
    Turn → Prop
  | .server => bytesOf (server.readsOf i) ++ peer.toServer = bytes ∧ peer.reads = [] ∧
      peer.toClient = []
  | .client => bytesOf peer.reads ++ peer.toClient = bytes ∧ server.readsOf i = [] ∧
      peer.toServer = []
  | .stopped => False

/-- The client is in its phase after so many messages, and the session with it. -/
structure Peer.Follows {σ : Type} (ctime : UInt64 → Option Str) (names : List Str)
    (server : TcpServer σ) (i k : Nat) (peer : Peer) : Prop where
  running : peer.stopped = false
  handed : peer.handed.length = k / 2
  notNull : none ∉ peer.handed
  cache : peer.client.locationsCache = (Phase.after names k).cache
  possible : (Phase.after names k).Possible names
  pending : Pending waitReady [] peer.reads
  served : server.Served i ↔ k ≠ 0
  message : ∃ msg : FactoryMsg, (Phase.after names k).Carries names msg.body ∧
    ctime msg.timestamp ≠ none ∧ peer.Awaits server i msg.bytes (Phase.after names k).turn

/-- The server is unbroken, and all clients are in their phases. -/
structure Clients.Orderly {π : Type} {names : List Str} (ctime : UInt64 → Option Str)
    (steady : SteadyPlanner π names) (s : Clients π) : Prop where
  server : s.server.Unbroken
  accepted : s.server.sessions.length ≤ s.peers.length
  planner : steady.Steady s.server.state.1
  peers : ∀ (i : Nat) (peer : Peer), s.peers[i]? = some peer →
    ∃ k, peer.Follows ctime names s.server i k

section Steps

variable {σ : Type} {ctime : UInt64 → Option Str} {names : List Str} {server after : TcpServer σ}
  {i k : Nat} {peer : Peer}

/-- The server's side of a connection is all that a client has of the server. -/
theorem Peer.Follows.congr (h : peer.Follows ctime names server i k)
    (hreads : after.readsOf i = server.readsOf i) (hserved : after.Served i ↔ server.Served i) :
    peer.Follows ctime names after i k := by
  refine { h with served := hserved.trans h.served, message := ?_ }
  obtain ⟨msg, hcarries, hdated, hawaits⟩ := h.message
  refine ⟨msg, hcarries, hdated, ?_⟩
  cases hturn : (Phase.after names k).turn <;> rw [hturn] at hawaits
  · rwa [Peer.Awaits, hreads]
  · rwa [Peer.Awaits, hreads]
  · exact hawaits

/-- A client that has connected has sent its first message. -/
theorem Peer.follows_connect {now : UInt64} (hdated : ctime now ≠ none)
    (hsession : server.sessions[i]? = none) :
    ∃ peer : Peer, Peer.connect now = .ok peer ∧ peer.Follows ctime names server i 0 := by
  refine ⟨_, by rw [connect, send, TcpSession.sendMsg_toMsg]; rfl, ?_⟩
  refine ⟨rfl, rfl, List.not_mem_nil, rfl, trivial, trivial, ?_, ?_⟩
  · simp [TcpServer.Served, hsession]
  · refine ⟨FactoryMsg.new now .statusRequest, rfl, hdated, ?_, rfl, rfl⟩
    rw [TcpServer.readsOf, hsession]
    rfl

theorem arrived_eq_some {size : Nat} {bytes : List Byte} {chunk : Chunk Byte}
    (h : Clients.arrived size bytes = some chunk) : chunk.val ++ bytes.drop size = bytes := by
  rw [Clients.arrived] at h
  split at h
  · cases h
    exact List.take_append_drop size bytes
  · cases h

/-- Bytes come for the client in its turn only. -/
theorem Peer.Follows.odd (h : peer.Follows ctime names server i k) {size : Nat}
    {chunk : Chunk Byte} (hchunk : Clients.arrived size peer.toClient = some chunk) :
    k % 2 = 1 := by
  obtain ⟨msg, -, -, hawaits⟩ := h.message
  refine Nat.mod_two_ne_zero.mp fun heven => chunk.property ?_
  rw [Phase.turn_after, if_pos heven] at hawaits
  have harrived := arrived_eq_some hchunk
  rw [hawaits.2.2] at harrived
  exact (List.append_eq_nil_iff.mp harrived).1

/-- Bytes come for the server in its turn only. -/
theorem Peer.Follows.even (h : peer.Follows ctime names server i k) {size : Nat}
    {chunk : Chunk Byte} (hchunk : Clients.arrived size peer.toServer = some chunk) :
    k % 2 = 0 := by
  obtain ⟨msg, -, -, hawaits⟩ := h.message
  by_contra hodd
  rw [Phase.turn_after, if_neg hodd] at hawaits
  have harrived := arrived_eq_some hchunk
  rw [hawaits.2.2] at harrived
  exact chunk.property (List.append_eq_nil_iff.mp harrived).1

end Steps

section Steps

variable {σ : Type} {ctime : UInt64 → Option Str} {locations : LocationNames}
  {server after : TcpServer σ} {i k : Nat} {peer : Peer}

/-- A client reads: its message is still not complete, or its reply is on the way. -/
theorem Peer.onRead_spec (h : peer.Follows ctime locations.names server i k) {now : UInt64}
    (hnow : ctime now ≠ none) (user : User) {size : Nat} {chunk : Chunk Byte}
    (hchunk : Clients.arrived size peer.toClient = some chunk) :
    ∃ peer' : Peer,
      Peer.onRead ctime now user { peer with toClient := peer.toClient.drop size } chunk =
        .ok peer' ∧
      peer'.Follows ctime locations.names server i
        (if peer.toClient.drop size = [] then k + 1 else k) := by
  have hodd := h.odd hchunk
  obtain ⟨msg, hcarries, hdated, hawaits⟩ := h.message
  have hturn : (Phase.after locations.names k).turn = .client := by
    rw [Phase.turn_after, if_neg (by omega)]
  rw [hturn] at hawaits
  obtain ⟨hbytes, hreads, htoServer⟩ := hawaits
  rw [← arrived_eq_some hchunk] at hbytes
  rw [Peer.onRead]
  rcases waitForMsg_of_bytes now h.pending hbytes with
    ⟨hrest, hwait⟩ | ⟨hrest, hwait, hpending⟩
  · have hpossible := Phase.possible_next locations.ne_nil h.possible
    obtain ⟨request, client, hreply, hcache, hrequest, -, -⟩ :=
      msgHandler_spec now user h.cache hturn hpossible hcarries
    simp only [hwait, Fault.ok_bind, loggingReply_of_msgHandler hdated hreply, Peer.send,
      TcpSession.sendMsg_toMsg, Fault.pure_eq_ok, htoServer, List.nil_append, hrest, if_true]
    refine ⟨_, rfl, decide_eq_false (MsgType.length_ne_zero _), ?_, ?_, ?_, ?_, trivial, ?_,
      request, ?_, ?_, ?_⟩
    · rw [List.length_append, h.handed, List.length_singleton]
      omega
    · simpa using h.notNull
    · rw [hcache, Phase.after_succ]
    · rw [Phase.after_succ]
      exact hpossible
    · exact iff_of_true (h.served.mpr (by omega)) (Nat.succ_ne_zero k)
    · rw [Phase.after_succ]
      exact hrequest
    · rw [timestamp_of_msgHandler hreply]
      exact hnow
    · rw [Phase.turn_after, if_pos (by omega)]
      exact ⟨by rw [hreads]; rfl, rfl, rfl⟩
  · simp only [hwait, Fault.ok_bind, Fault.pure_eq_ok, if_neg hrest]
    refine ⟨_, rfl, h.running, h.handed, h.notNull, h.cache, h.possible, hpending, h.served,
      msg, hcarries, hdated, ?_⟩
    rw [hturn]
    exact ⟨by rw [bytesOf_concat, List.append_assoc, hbytes], hreads, htoServer⟩

/-- The server has read more of the client's message. -/
theorem Peer.Follows.more (h : peer.Follows ctime locations.names server i k) {size : Nat}
    {chunk : Chunk Byte} (hchunk : Clients.arrived size peer.toServer = some chunk)
    (hreads : after.readsOf i = server.readsOf i ++ [.data chunk])
    (hserved : after.Served i ↔ server.Served i) :
    Peer.Follows ctime locations.names after i k
      { peer with toServer := peer.toServer.drop size } := by
  obtain ⟨msg, hcarries, hdated, hawaits⟩ := h.message
  refine ⟨h.running, h.handed, h.notNull, h.cache, h.possible, h.pending, hserved.trans h.served,
    msg, hcarries, hdated, ?_⟩
  rw [Phase.turn_after, if_pos (h.even hchunk)] at hawaits ⊢
  refine ⟨?_, hawaits.2⟩
  rw [hreads, bytesOf_concat, List.append_assoc, arrived_eq_some hchunk]
  exact hawaits.1

/-- The server has answered it. -/
theorem Peer.Follows.answered (h : peer.Follows ctime locations.names server i k)
    (heven : k % 2 = 0) {response : FactoryMsg}
    (hresponse : ((Phase.after locations.names k).next locations.names).Carries locations.names
      response.body)
    (hdated : ctime response.timestamp ≠ none) (hreads : after.readsOf i = [])
    (hserved : after.Served i) :
    Peer.Follows ctime locations.names after i (k + 1)
      { peer with toServer := [], toClient := peer.toClient ++ response.bytes } := by
  have hturn : (Phase.after locations.names k).turn = .server := by
    rw [Phase.turn_after, if_pos heven]
  obtain ⟨msg, -, -, hawaits⟩ := h.message
  rw [hturn] at hawaits
  obtain ⟨-, hnothing, htoClient⟩ := hawaits
  refine ⟨h.running, ?_, h.notNull, ?_, ?_, h.pending, iff_of_true hserved (Nat.succ_ne_zero k),
    response, ?_, hdated, ?_⟩
  · rw [h.handed]
    omega
  · rw [h.cache, Phase.after_succ, (@Phase.next_of_server locations.names _ hturn).2.1]
  · rw [Phase.after_succ]
    exact Phase.possible_next locations.ne_nil h.possible
  · rw [Phase.after_succ]
    exact hresponse
  · rw [Phase.turn_after, if_neg (by omega), htoClient, List.nil_append]
    exact ⟨by rw [hnothing]; rfl, hreads, rfl⟩

end Steps

/-! ## One step -/

namespace Clients.Orderly

section Step

variable {π : Type} {ctime : UInt64 → Option Str} {locations : LocationNames}
  {steady : SteadyPlanner π locations.names} {s : Clients π} {now : UInt64}

/-- The server takes a step of which only the handler's state is new to the clients. -/
theorem of_frame (h : Orderly ctime steady s) {after : TcpServer (π × List Byte)}
    (hafter : after.Unbroken) (hlength : after.sessions.length ≤ s.peers.length)
    (hstate : after.state = s.server.state)
    (hframe : ∀ j, after.readsOf j = s.server.readsOf j ∧ (after.Served j ↔ s.server.Served j)) :
    Orderly ctime steady { s with server := after } := by
  refine ⟨hafter, hlength, ?_, fun j peer hpeer => ?_⟩
  · show steady.Steady after.state.1
    rw [hstate]
    exact h.planner
  · obtain ⟨k, hk⟩ := h.peers j peer hpeer
    exact ⟨k, hk.congr (hframe j).1 (hframe j).2⟩

/-- One client is replaced, and the others find the server as it was. -/
theorem set_peer (h : Orderly ctime steady s) {after : TcpServer (π × List Byte)}
    (hafter : after.Unbroken) (hlength : after.sessions.length = s.server.sessions.length)
    (hplanner : steady.Steady after.state.1) {i k : Nat} {peer : Peer}
    (hown : peer.Follows ctime locations.names after i k)
    (hothers : ∀ j, i ≠ j → after.readsOf j = s.server.readsOf j ∧
      (after.Served j ↔ s.server.Served j)) :
    Orderly ctime steady ⟨after, s.peers.set i peer⟩ := by
  refine ⟨hafter, ?_, hplanner, fun j other hother => ?_⟩
  · rw [List.length_set]
    exact hlength.trans_le h.accepted
  · rw [List.getElem?_set] at hother
    split_ifs at hother with hij hi
    · subst hij
      exact ⟨k, Option.some.inj hother ▸ hown⟩
    · obtain ⟨k', hk'⟩ := h.peers j other hother
      exact ⟨k', hk'.congr (hothers j hij).1 (hothers j hij).2⟩

/-- A step that the server survives. -/
theorem exists_moves (h : Orderly ctime steady s) (event : Event)
    (hharmless : s.server.Harmless
      (TcpServer.Handles (sendingHandler ctime steady.ops)) event) :
    ∃ after, s.server.step (sendingHandler ctime steady.ops) event = .ok after ∧
      after.Serving ∧ TcpServer.Moves (sendingHandler ctime steady.ops) s.server event after := by
  rcases TcpServer.step_cases h.server.owned.sound h.server.serving event with
    ⟨-, after, hstep, hserves, -⟩ | ⟨hharmful, -⟩
  · exact ⟨after, hstep, hserves.serving, TcpServer.moves_of_step h.server.owned.sound hstep⟩
  · exact absurd hharmless hharmful

theorem accepted_step (h : Orderly ctime steady s)
    (hwaiting : s.server.sessions.length < s.peers.length) :
    ∃ after, s.server.step (sendingHandler ctime steady.ops) ⟨now, .accepted true⟩ = .ok after ∧
      Orderly ctime steady { s with server := after } := by
  obtain ⟨after, hstep, hserving, hmoves⟩ :=
    h.exists_moves ⟨now, .accepted true⟩ fun _ => rfl
  have hnone : s.server.completed ⟨now, .accepted true⟩ = none :=
    TcpServer.completed_of_accepted rfl
  refine ⟨after, hstep, h.of_frame (h.server.of_moves hmoves hserving ?_) ?_
    (TcpServer.state_of_moves hmoves hnone) fun j =>
      h.server.owned.frame_of_moves hmoves hserving.running nofun⟩
  · intro i bytes msg state hcompleted
    rw [hnone] at hcompleted
    cases hcompleted
  · rcases TcpServer.length_sessions_of_moves hmoves with hsame | ⟨-, hone⟩
    · exact hsame ▸ h.accepted
    · exact hone ▸ hwaiting

theorem written_step (h : Orderly ctime steady s) (i : Nat) :
    ∃ after, s.server.step (sendingHandler ctime steady.ops) ⟨now, .written i true⟩ = .ok after ∧
      Orderly ctime steady { s with server := after } := by
  obtain ⟨after, hstep, hserving, hmoves⟩ :=
    h.exists_moves ⟨now, .written i true⟩ fun _ _ => rfl
  have hnone : s.server.completed ⟨now, .written i true⟩ = none :=
    TcpServer.completed_of_written rfl
  refine ⟨after, hstep, h.of_frame (h.server.of_moves hmoves hserving ?_) ?_
    (TcpServer.state_of_moves hmoves hnone) fun j => ?_⟩
  · intro i bytes msg state hcompleted
    rw [hnone] at hcompleted
    cases hcompleted
  · rcases TcpServer.length_sessions_of_moves hmoves with hsame | ⟨⟨_, hevent⟩, -⟩
    · exact hsame ▸ h.accepted
    · cases hevent
  · by_cases hij : i = j
    · subst hij
      exact h.server.frame_of_written hmoves hserving.running rfl
    · exact h.server.owned.frame_of_moves hmoves hserving.running fun heq =>
        hij (Option.some.inj heq)

/-- What the bytes of a phase make of a read of the server. -/
theorem completed_of_follows (h : Orderly ctime steady s) {i k size : Nat} {peer : Peer}
    (hk : peer.Follows ctime locations.names s.server i k) {chunk : Chunk Byte}
    (hchunk : Clients.arrived size peer.toServer = some chunk)
    {ready : List Byte → Bool} {reads : List Read}
    (hreader : s.server.reader i = some (ready, reads)) :
    ∃ (msg response : FactoryMsg) (planner : π),
      taken ready [] (reads ++ [.data chunk]) =
        (if peer.toServer.drop size = [] then some (msg.bytes, []) else none) ∧
      readMsg now msg.bytes = .ok (some msg.toMsg) ∧
      sendingHandler ctime steady.ops now s.server.state (some msg.toMsg) =
        .ok (some response, (planner, response.bytes)) ∧
      steady.Steady planner ∧ response.timestamp = now ∧
      ((Phase.after locations.names k).next locations.names).Carries locations.names
        response.body := by
  have hturn : (Phase.after locations.names k).turn = .server := by
    rw [Phase.turn_after, if_pos (hk.even hchunk)]
  obtain ⟨msg, hcarries, hdated, hawaits⟩ := hk.message
  rw [hturn] at hawaits
  have hbytes := hawaits.1
  rw [TcpServer.readsOf_of_reader h.server.owned hreader, ← arrived_eq_some hchunk] at hbytes
  obtain ⟨response, planner, hhandle, hsteady, hresponse, -⟩ :=
    handle_spec steady now h.planner hturn hk.possible hcarries
  have hread := readMsg_bytes now msg []
  rw [List.append_nil] at hread
  exact ⟨msg, response, planner,
    taken_of_bytes (TcpServer.waitsForAll_of_reader hreader)
      (h.server.owned.pending_of_reader hreader) hbytes,
    hread, sendingHandler_of_handle hdated hhandle, hsteady, timestamp_of_handle hhandle,
    hresponse⟩

/-- The request is complete, and its answer is sent. -/
theorem follows_of_completed (h : Orderly ctime steady s) {i k size : Nat} {peer : Peer}
    (hk : peer.Follows ctime locations.names s.server i k) {chunk : Chunk Byte}
    (hchunk : Clients.arrived size peer.toServer = some chunk)
    (hall : peer.toServer.drop size = []) {after : TcpServer (π × List Byte)} {event : Event}
    (hmoves : TcpServer.Moves (sendingHandler ctime steady.ops) s.server event after)
    {msg response : FactoryMsg} {planner : π}
    (hcompleted : s.server.completed event = some (i, msg.bytes))
    (hread : readMsg event.now msg.bytes = .ok (some msg.toMsg))
    (hhandler : sendingHandler ctime steady.ops event.now s.server.state (some msg.toMsg) =
      .ok (some response, (planner, response.bytes)))
    (hresponse : ((Phase.after locations.names k).next locations.names).Carries locations.names
      response.body)
    (hdated : ctime response.timestamp ≠ none) :
    after.state.1 = planner ∧ Peer.Follows ctime locations.names after i (k + 1) { peer with
      toServer := peer.toServer.drop size
      toClient := peer.toClient ++ Clients.sent after i } := by
  have heq := TcpServer.eq_of_answered hmoves hcompleted hread hhandler
  have hserved : after.Served i := by
    rw [heq, TcpServer.Served,
      TcpServer.getElem?_set_session (h.server.owned.lt_length hcompleted), if_pos rfl]
  have hreads : after.readsOf i = [] := by
    rw [TcpServer.readsOf, hserved, heq]
    rfl
  have hsent : Clients.sent after i = response.bytes := by
    rw [heq, Clients.sent]
    exact if_pos rfl
  refine ⟨by rw [heq], ?_⟩
  rw [hall, hsent]
  exact hk.answered (hk.even hchunk) hresponse hdated hreads hserved

/-- The request is still not complete. -/
theorem follows_of_not_completed (h : Orderly ctime steady s) {i k size : Nat} {peer : Peer}
    (hk : peer.Follows ctime locations.names s.server i k) {chunk : Chunk Byte}
    (hchunk : Clients.arrived size peer.toServer = some chunk)
    {after : TcpServer (π × List Byte)} {event : Event}
    (hmoves : TcpServer.Moves (sendingHandler ctime steady.ops) s.server event after)
    (hserving : after.Serving) (hevent : event.completion = .read i (.data chunk))
    {reader : (List Byte → Bool) × List Read} (hreader : s.server.reader i = some reader)
    (hnone : s.server.completed event = none) :
    after.state = s.server.state ∧ Peer.Follows ctime locations.names after i k { peer with
      toServer := peer.toServer.drop size
      toClient := peer.toClient ++ Clients.sent after i } := by
  obtain ⟨hreads, hserved, hnotSending⟩ :=
    h.server.owned.reads_of_moves hmoves hserving.running hevent hreader hnone
  have hsent : Clients.sent after i = [] := by
    rw [Clients.sent]
    split
    · exact absurd ‹_› (hnotSending _ _)
    · rfl
  rw [hsent, List.append_nil]
  exact ⟨TcpServer.state_of_moves hmoves hnone, hk.more hchunk hreads hserved⟩

/-- A read of the server: the request is still not complete, or it is answered. -/
theorem serverReads_step (h : Orderly ctime steady s) (hnow : ctime now ≠ none) {i k size : Nat}
    {peer : Peer} (hk : peer.Follows ctime locations.names s.server i k)
    {reader : (List Byte → Bool) × List Read} (hreader : s.server.reader i = some reader)
    {chunk : Chunk Byte} (hchunk : Clients.arrived size peer.toServer = some chunk) :
    ∃ after, s.server.step (sendingHandler ctime steady.ops) ⟨now, .read i (.data chunk)⟩ =
        .ok after ∧
      Orderly ctime steady ⟨after, s.peers.set i { peer with
        toServer := peer.toServer.drop size
        toClient := peer.toClient ++ Clients.sent after i }⟩ ∧
      Peer.Follows ctime locations.names after i
        (if peer.toServer.drop size = [] then k + 1 else k) { peer with
          toServer := peer.toServer.drop size
          toClient := peer.toClient ++ Clients.sent after i } := by
  obtain ⟨ready, reads⟩ := reader
  obtain ⟨msg, response, planner, htaken, hread, hhandler, hsteady, hdate, hresponse⟩ :=
    @completed_of_follows _ _ _ _ _ now h _ _ _ _ hk _ hchunk _ _ hreader
  have hcompleted : s.server.completed ⟨now, .read i (.data chunk)⟩ =
      if peer.toServer.drop size = [] then some (i, msg.bytes) else none := by
    rw [TcpServer.completed_of_reader rfl hreader, htaken]
    split <;> rfl
  obtain ⟨after, hstep, hserving, hmoves⟩ :=
    h.exists_moves ⟨now, .read i (.data chunk)⟩ (by
      intro ready' reads' hreader'
      rw [hreader] at hreader'
      cases hreader'
      refine ⟨chunk, rfl, fun bytes later htaken' => ?_⟩
      rw [htaken] at htaken'
      split at htaken'
      · cases htaken'
        exact ⟨_, _, hread, hhandler⟩
      · cases htaken')
  have hafter : after.Unbroken := by
    refine h.server.of_moves hmoves hserving fun j bytes msg' state' hcompleted' hread' => ?_
    rw [hcompleted] at hcompleted'
    split at hcompleted'
    · cases hcompleted'
      obtain rfl := Except.ok.inj (hread'.symm.trans hread)
      rw [hhandler]
      nofun
    · cases hcompleted'
  -- what is left is the planner, and the client of the session
  have hown : steady.Steady after.state.1 ∧ Peer.Follows ctime locations.names after i
      (if peer.toServer.drop size = [] then k + 1 else k) { peer with
        toServer := peer.toServer.drop size
        toClient := peer.toClient ++ Clients.sent after i } := by
    by_cases hall : peer.toServer.drop size = []
    · rw [if_pos hall] at hcompleted ⊢
      obtain ⟨hplanner, hfollows⟩ := h.follows_of_completed hk hchunk hall hmoves hcompleted hread
        hhandler hresponse (hdate ▸ hnow)
      exact ⟨hplanner ▸ hsteady, hfollows⟩
    · rw [if_neg hall] at hcompleted ⊢
      obtain ⟨hstate, hfollows⟩ :=
        h.follows_of_not_completed hk hchunk hmoves hserving rfl hreader hcompleted
      exact ⟨hstate ▸ h.planner, hfollows⟩
  have hlength : after.sessions.length = s.server.sessions.length := by
    rcases TcpServer.length_sessions_of_moves hmoves with hsame | ⟨⟨_, hevent⟩, -⟩
    · exact hsame
    · cases hevent
  exact ⟨after, hstep, h.set_peer hafter hlength hown.1 hown.2 fun j hij =>
    h.server.owned.frame_of_moves hmoves hserving.running fun heq => hij (Option.some.inj heq),
    hown.2⟩

/-- One step, whatever happens. -/
theorem step (h : Orderly ctime steady s) (hnow : ctime now ≠ none) (happening : Happening) :
    ∃ s', s.step ctime steady.ops now happening = .ok s' ∧ Orderly ctime steady s' := by
  cases happening with
  | connects =>
      have hnone : s.server.sessions[s.peers.length]? = none :=
        List.getElem?_eq_none h.accepted
      obtain ⟨peer, hconnect, hpeer⟩ := Peer.follows_connect hnow hnone
      refine ⟨{ s with peers := s.peers ++ [peer] }, by rw [Clients.step, hconnect]; rfl,
        h.server, ?_, h.planner, fun i other hother => ?_⟩
      · rw [List.length_append]
        exact Nat.le_add_right_of_le h.accepted
      · rw [List.getElem?_append] at hother
        split_ifs at hother with hi
        · exact h.peers i other hother
        · obtain ⟨hlast, heq⟩ := List.getElem?_eq_some_iff.mp hother
          rw [List.getElem_singleton] at heq
          rw [List.length_singleton] at hlast
          obtain rfl : i = s.peers.length := by omega
          exact ⟨0, heq ▸ hpeer⟩
  | accepted =>
      rw [Clients.step]
      split
      · rename_i hwaiting
        obtain ⟨after, hstep, hafter⟩ := @accepted_step _ _ _ _ _ now h hwaiting
        exact ⟨_, by rw [hstep]; rfl, hafter⟩
      · exact ⟨s, rfl, h⟩
  | serverReads i size =>
      rw [Clients.step]
      split
      · exact ⟨s, rfl, h⟩
      · rename_i peer hpeer
        split
        · rename_i reader chunk hreader hchunk
          obtain ⟨k, hk⟩ := h.peers i peer hpeer
          obtain ⟨after, hstep, hafter, -⟩ := h.serverReads_step hnow hk hreader hchunk
          exact ⟨_, by rw [hstep]; rfl, hafter⟩
        · exact ⟨s, rfl, h⟩
  | written i =>
      obtain ⟨after, hstep, hafter⟩ := @written_step _ _ _ _ _ now h i
      exact ⟨_, by rw [Clients.step, hstep]; rfl, hafter⟩
  | clientReads i size user =>
      rw [Clients.step]
      split
      · exact ⟨s, rfl, h⟩
      · rename_i peer hpeer
        split
        · exact ⟨s, rfl, h⟩
        · split
          · exact ⟨s, rfl, h⟩
          · rename_i chunk hchunk
            obtain ⟨k, hk⟩ := h.peers i peer hpeer
            obtain ⟨peer', hread, hk'⟩ := Peer.onRead_spec hk hnow user hchunk
            exact ⟨{ s with peers := s.peers.set i peer' }, by rw [hread]; rfl,
              h.set_peer h.server rfl h.planner hk' fun _ _ => ⟨rfl, Iff.rfl⟩⟩

end Step

theorem start {π : Type} {names : List Str} (ctime : UInt64 → Option Str)
    (steady : SteadyPlanner π names) : Orderly ctime steady (.start steady.initial) where
  server := TcpServer.unbroken_create _
  accepted := Nat.le_refl _
  planner := steady.steady_initial
  peers := nofun

/-- Whole runs. -/
theorem run {π : Type} {locations : LocationNames} (ctime : UInt64 → Option Str)
    (steady : SteadyPlanner π locations.names) {events : List (UInt64 × Happening)}
    (hdated : ∀ event ∈ events, ctime event.1 ≠ none) :
    ∃ s, Machine.run (Clients.exec ctime steady.ops) (.start steady.initial) events = .ok s ∧
      Orderly ctime steady s := by
  refine @Machine.run_invariant _ _ (Clients.exec ctime steady.ops) (Orderly ctime steady)
    (fun _ event => ctime event.1 ≠ none) (fun s event h hnow => h.step hnow event.2) _
    (start ctime steady) events fun pre event post before heq _ _ => ?_
  exact hdated event (heq ▸ List.mem_append_right _ List.mem_cons_self)

/-- Over files that do not change, if the locations file loads, no name has a separator
in it and an `int` can count the locations. -/
theorem run_ofFile {locationFile : Route.File} {entries : List Route.Entry}
    (ctime : UInt64 → Option Str) (h : Loads locationFile entries)
    (hsep : ∀ entry ∈ entries, MSG_LOCATIONS_SEP_CHAR ∉ entry.1) (hn : entries.length ≤ 2 ^ 31)
    (routeFile : Route.File) {events : List (UInt64 × Happening)}
    (hdated : ∀ event ∈ events, ctime event.1 ≠ none) :
    ∃ s, Machine.run (Clients.exec ctime (fileOps locationFile routeFile))
        (.start Route.RoutePlanner.create) events = .ok s ∧
      @Orderly _ (LocationNames.ofFile h hsep).names ctime (.ofFile h.parses routeFile hn) s :=
  @run _ (.ofFile h hsep) ctime (.ofFile h.parses routeFile hn) events hdated

end Clients.Orderly

/-- Whatever the order in which any number of clients connect, bytes arrive, writes
complete and users type, as long as the clock shows dates: over a locations file that
loads, nothing fails, the server serves on and ends no session, and every client is in a
phase of an exchange of its own, with the message of that phase on its way to the side
whose turn it is. -/
theorem clients_in_phases {locationFile : Route.File} {entries : List Route.Entry}
    (ctime : UInt64 → Option Str) (h : Loads locationFile entries)
    (hsep : ∀ entry ∈ entries, MSG_LOCATIONS_SEP_CHAR ∉ entry.1) (hn : entries.length ≤ 2 ^ 31)
    (routeFile : Route.File) (events : List (UInt64 × Happening))
    (hdated : ∀ event ∈ events, ctime event.1 ≠ none) :
    ∃ s, Machine.run (Clients.exec ctime (fileOps locationFile routeFile))
        (.start Route.RoutePlanner.create) events = .ok s ∧
      s.server.Serving ∧ (∀ i : Nat, s.server.sessions[i]? ≠ some .ended) ∧
      ∀ (i : Nat) (peer : Peer), s.peers[i]? = some peer →
        ∃ k, peer.Follows ctime (entries.map Prod.fst) s.server i k := by
  obtain ⟨s, hrun, horderly⟩ := Clients.Orderly.run_ofFile ctime h hsep hn routeFile hdated
  exact ⟨s, hrun, horderly.server.serving, horderly.server.noneEnded, horderly.peers⟩

/-- A client whose request arrives in two parts. -/
def inTwoParts : List (UInt64 × Happening) :=
  [(0, .connects), (0, .accepted), (1, .serverReads 0 10), (1, .connects),
    (2, .serverReads 0 100), (3, .clientReads 0 100 .first)]

theorem clients_in_phases_inTwoParts :
    ∃ s, Machine.run (Clients.exec (fun _ => some []) (fileOps Route.twoCitiesFile none))
        (.start Route.RoutePlanner.create) inTwoParts = .ok s ∧
      s.server.Serving ∧ (∀ i : Nat, s.server.sessions[i]? ≠ some .ended) ∧
      ∀ (i : Nat) (peer : Peer), s.peers[i]? = some peer →
        ∃ k, peer.Follows (fun _ => some []) [str "London", str "Bath"] s.server i k :=
  clients_in_phases (fun _ => some []) loads_twoCities (by decide) (by decide) none inTwoParts
    fun _ _ => nofun

end RoutePlanner.System
