/-
# The phases of an exchange

While the locations stay fixed the exchange of messages is determined by their
names: which side waits, what the message on its way says, and what the client
has in its cache.  A phase says this much, and the joint system follows the
phases whatever the network and the user do, as far as it gets: what may stop it is
the planner, when it is asked for the cost of a route.
-/

import RoutePlanner.System.Exchange

namespace RoutePlanner.System

open RoutePlanner.Std
open RoutePlanner.Math
open RoutePlanner.Messages
open RoutePlanner.Comms
open RoutePlanner.Server
open RoutePlanner.Client

inductive Phase
  | statusSent
  | statusAnswered
  | asked (cache : List Str)
  | paged (cache : List Str)
  | routeAsked (cache : List Str)
  | routeAnswered (cache : List Str)

/-- The class of message that answers a request. -/
def answer : MsgType → Option MsgType
  | .statusRequest => some .statusResponse
  | .locationsRequest => some .locationsResponse
  | .routeRequest => some .routeResponse
  | _ => none

namespace Phase

def turn : Phase → Turn
  | statusSent | asked _ | routeAsked _ => .server
  | statusAnswered | paged _ | routeAnswered _ => .client

/-- What the client has received of the list. -/
def cache : Phase → List Str
  | statusSent | statusAnswered => []
  | asked cache | paged cache | routeAsked cache | routeAnswered cache => cache

/-- The page that follows the names received. -/
def nextPage (names cache : List Str) : List Str × Bool := page (names.drop cache.length)

/-- The phase after a hop. -/
def next (names : List Str) : Phase → Phase
  | statusSent => statusAnswered
  | statusAnswered => asked []
  | asked cache => paged cache
  | paged cache =>
      if (nextPage names cache).2 then asked (cache ++ (nextPage names cache).1)
      else routeAsked (cache ++ (nextPage names cache).1)
  | routeAsked cache => routeAnswered cache
  | routeAnswered _ => asked []

/-- The body of the message on its way. -/
def Carries (names : List Str) : Phase → MsgBody → Prop
  | statusSent, body => body = .statusRequest
  | statusAnswered, body => body = .statusResponse
  | asked cache, body => body = .locationsRequest ⟨UInt64.ofNat cache.length⟩
  | paged cache, body => ∃ data, body = .locationsResponse data ∧
      data.Lists (nextPage names cache).1 ∧
      data.isPaginated = if (nextPage names cache).2 then 1 else 0
  | routeAsked _, body => ∃ data, body = .routeRequest data ∧
      data.startLocation.toNat < names.length ∧ data.endLocation.toNat < names.length
  | routeAnswered _, body => ∃ data, body = .routeResponse data

/-- A page is asked for only while there are names left, and a route only when
the client has as many as there are. -/
def Possible (names : List Str) : Phase → Prop
  | asked cache | paged cache => cache.length < names.length
  | routeAsked cache => cache.length = names.length
  | _ => True

/-- After the server's hop the client waits, with what it had. -/
theorem next_of_server {names : List Str} {phase : Phase} (h : phase.turn = .server) :
    (phase.next names).turn = .client ∧ (phase.next names).cache = phase.cache ∧
      ∀ cache, phase.next names ≠ .routeAsked cache := by
  cases phase with
  | statusSent => exact ⟨rfl, rfl, fun _ => Phase.noConfusion⟩
  | asked cache => exact ⟨rfl, rfl, fun _ => Phase.noConfusion⟩
  | routeAsked cache => exact ⟨rfl, rfl, fun _ => Phase.noConfusion⟩
  | statusAnswered => cases h
  | paged cache => cases h
  | routeAnswered cache => cases h

/-- After the client's hop the server waits. -/
theorem next_of_client {names : List Str} {phase : Phase} (h : phase.turn = .client) :
    (phase.next names).turn = .server := by
  cases phase with
  | statusAnswered => rfl
  | paged cache =>
      rw [next]
      split <;> rfl
  | routeAnswered cache => rfl
  | statusSent => cases h
  | asked cache => cases h
  | routeAsked cache => cases h

theorem possible_next {names : List Str} (hne : names ≠ []) {phase : Phase}
    (h : phase.Possible names) : (phase.next names).Possible names := by
  have hpos := List.length_pos_iff.mpr hne
  cases phase with
  | statusSent => exact trivial
  | statusAnswered => exact hpos
  | asked cache => exact h
  | paged cache =>
      change cache.length < names.length at h
      rw [next]
      split
      · rename_i hmore
        have hlt : (nextPage names cache).1.length < (names.drop cache.length).length :=
          GreedyPages.length_fill_lt hmore
        rw [List.length_drop] at hlt
        show (cache ++ (nextPage names cache).1).length < names.length
        rw [List.length_append]
        omega
      · rename_i hlast
        have hall : (nextPage names cache).1 = names.drop cache.length :=
          GreedyPages.fill_of_not_more (Bool.eq_false_iff.mpr hlast)
        show (cache ++ (nextPage names cache).1).length = names.length
        rw [hall, List.length_append, List.length_drop]
        omega
  | routeAsked cache => exact trivial
  | routeAnswered cache => exact hpos

end Phase

/-! ## The two handlers -/

section Handlers

variable {π : Type} {locations : LocationNames}

section Server

variable {lister : Lister π locations.names} {now : UInt64} {planner : π} {phase : Phase}
  {msg : FactoryMsg}

/-- The server's handler returns on the message of any phase in which it waits, but
that of a route request, where it depends on the planner. -/
theorem handle_returns (now : UInt64) (hplanner : lister.Steady planner)
    (hturn : phase.turn = .server) (hpossible : phase.Possible locations.names)
    (hmsg : phase.Carries locations.names msg.body) (hroute : ∀ cache, phase ≠ .routeAsked cache) :
    ∃ result, ServerMsgHandler.handle lister.ops now planner msg.toMsg = .ok result := by
  rw [ServerMsgHandler.handle_toMsg]
  cases phase with
  | statusSent =>
      have hbody : msg.body = .statusRequest := hmsg
      rw [hbody]
      exact ⟨_, rfl⟩
  | asked cache =>
      have hbody : msg.body = .locationsRequest ⟨UInt64.ofNat cache.length⟩ := hmsg
      have hcache : cache.length < locations.names.length := hpossible
      obtain ⟨_, _, hhandle, -⟩ := @ServerMsgHandler.handleLocationsRequestMsg_spec _ _ lister _ now
        hplanner locations.size_lt ⟨UInt64.ofNat cache.length⟩
        ((UInt64.toNat_ofNat_of_lt' (hcache.trans locations.length_lt)).symm ▸ hcache)
      rw [hbody]
      exact ⟨_, hhandle⟩
  | routeAsked cache => exact absurd rfl (hroute cache)
  | statusAnswered => cases hturn
  | paged cache => cases hturn
  | routeAnswered cache => cases hturn

/-- What it returns is the answer that the next phase carries. -/
theorem handle_refines (hplanner : lister.Steady planner) (hturn : phase.turn = .server)
    (hpossible : phase.Possible locations.names) (hmsg : phase.Carries locations.names msg.body)
    {response : Option FactoryMsg} {planner' : π}
    (hhandle : ServerMsgHandler.handle lister.ops now planner msg.toMsg =
      .ok (response, planner')) :
    lister.Steady planner' ∧ ∃ reply, response = some reply ∧
      (phase.next locations.names).Carries locations.names reply.body ∧
      answer msg.type = some reply.type := by
  refine ⟨ServerMsgHandler.steady_of_handle lister now hplanner hhandle, ?_⟩
  rw [ServerMsgHandler.handle_toMsg] at hhandle
  rw [FactoryMsg.type]
  cases phase with
  | statusSent =>
      have hbody : msg.body = .statusRequest := hmsg
      rw [hbody] at hhandle ⊢
      obtain ⟨rfl, -⟩ := Prod.mk.inj (Except.ok.inj hhandle)
      exact ⟨_, rfl, rfl, rfl⟩
  | asked cache =>
      have hbody : msg.body = .locationsRequest ⟨UInt64.ofNat cache.length⟩ := hmsg
      have hcache : cache.length < locations.names.length := hpossible
      have hindex : (UInt64.ofNat cache.length).toNat = cache.length :=
        UInt64.toNat_ofNat_of_lt' (hcache.trans locations.length_lt)
      obtain ⟨data, _, hpage, -, hlists, hpaginated⟩ :=
        @ServerMsgHandler.handleLocationsRequestMsg_spec _ _ lister _ now hplanner
          locations.size_lt ⟨UInt64.ofNat cache.length⟩ (hindex.symm ▸ hcache)
      rw [hindex] at hlists hpaginated
      rw [hbody] at hhandle ⊢
      obtain ⟨rfl, -⟩ := Prod.mk.inj (Except.ok.inj (hpage.symm.trans hhandle))
      exact ⟨_, rfl, ⟨data, rfl, hlists, hpaginated⟩, rfl⟩
  | routeAsked cache =>
      obtain ⟨data, hbody, hstart, hend⟩ := hmsg
      rw [hbody] at hhandle ⊢
      obtain ⟨cost, rfl⟩ :=
        ServerMsgHandler.handleRouteRequestMsg_eq_ok lister hplanner hstart hend hhandle
      exact ⟨_, rfl, ⟨_, rfl⟩, rfl⟩
  | statusAnswered => cases hturn
  | paged cache => cases hturn
  | routeAnswered cache => cases hturn

end Server

/-- A steady planner answers the message of any phase in which the server waits. -/
theorem handle_spec (steady : SteadyPlanner π locations.names) (now : UInt64) {planner : π}
    (hplanner : steady.Steady planner) {phase : Phase} (hturn : phase.turn = .server)
    (hpossible : phase.Possible locations.names) {msg : FactoryMsg}
    (hmsg : phase.Carries locations.names msg.body) :
    ∃ response planner', ServerMsgHandler.handle steady.ops now planner msg.toMsg =
        .ok (some response, planner') ∧ steady.Steady planner' ∧
      (phase.next locations.names).Carries locations.names response.body ∧
      answer msg.type = some response.type := by
  obtain ⟨response, planner', hhandle, -⟩ :=
    @ServerMsgHandler.handle_ok _ _ steady _ now hplanner locations.size_lt msg.toMsg rfl
  obtain ⟨hplanner', reply, rfl, hreply, hanswer⟩ :=
    @handle_refines _ _ steady.toLister _ _ _ _ hplanner hturn hpossible hmsg _ _ hhandle
  exact ⟨reply, planner', hhandle, hplanner', hreply, hanswer⟩

/-- The client replies to a page by asking for the next one, or for a route. -/
theorem handleLocationsResponseMsg_paged (now : UInt64) (user : User) {client : ClientMsgHandler}
    (hnext : ((Phase.paged client.locationsCache).next locations.names).Possible locations.names)
    {data : MsgLocationsResponseData}
    (hlists : data.Lists (Phase.nextPage locations.names client.locationsCache).1)
    (hpaginated : data.isPaginated =
      if (Phase.nextPage locations.names client.locationsCache).2 then 1 else 0) :
    ∃ request client', client.handleLocationsResponseMsg now user.typed data =
        .ok (.returned (some request), client') ∧
      client'.locationsCache = ((Phase.paged client.locationsCache).next locations.names).cache ∧
      ((Phase.paged client.locationsCache).next locations.names).Carries locations.names
        request.body ∧
      ∀ cache, (Phase.paged client.locationsCache).next locations.names = .routeAsked cache ↔
        request.type = .routeRequest ∧ client'.locationsCache = cache := by
  have hsep : ∀ name ∈ (Phase.nextPage locations.names client.locationsCache).1,
      MSG_LOCATIONS_SEP_CHAR ∉ name := fun name hname => locations.no_sep name
    (List.mem_of_mem_drop ((GreedyPages.fill_sublist _ _).subset hname))
  rw [ClientMsgHandler.handleLocationsResponseMsg_spec
    (MsgLocationsResponseData.getLocations_of_lists hlists hsep), hpaginated]
  rw [Phase.next] at hnext ⊢
  generalize hcache : client.locationsCache ++
    (Phase.nextPage locations.names client.locationsCache).1 = cache at hnext ⊢
  cases hmore : (Phase.nextPage locations.names client.locationsCache).2 with
  | true =>
      refine ⟨_, _, rfl, rfl, rfl, fun cache' => ?_⟩
      simp [ClientMsgHandler.locationsRequest, FactoryMsg.type, MsgBody.type]
  | false =>
      rw [hmore, if_neg Bool.false_ne_true] at hnext
      have hlen : cache.length = locations.names.length := hnext
      have hmenu : cache ≠ [] := by
        rw [← List.length_pos_iff, hlen]
        exact List.length_pos_iff.mpr locations.ne_nil
      obtain ⟨route, hroute, hstart, hend⟩ :=
        @ClientMsgHandler.getRouteRequest_spec now user.typed ⟨cache⟩ (user.chooses _ hmenu)
      refine ⟨_, _, by rw [← hroute]; rfl, rfl, ⟨route, rfl, ?_, ?_⟩, fun cache' => ?_⟩
      · rwa [hlen] at hstart
      · rwa [hlen] at hend
      · simp [FactoryMsg.type, MsgBody.type]

/-- The client replies to the message of any phase in which it waits. -/
theorem msgHandler_spec (now : UInt64) (user : User) {client : ClientMsgHandler} {phase : Phase}
    (hcache : client.locationsCache = phase.cache) (hturn : phase.turn = .client)
    (hnext : (phase.next locations.names).Possible locations.names) {msg : FactoryMsg}
    (hmsg : phase.Carries locations.names msg.body) :
    ∃ request client', client.msgHandler now user.typed (some msg.toMsg) =
        .ok (.returned (some request), client') ∧
      client'.locationsCache = (phase.next locations.names).cache ∧
      (phase.next locations.names).Carries locations.names request.body ∧
      (∃ type, answer type = some msg.type) ∧
      ∀ cache, phase.next locations.names = .routeAsked cache ↔
        request.type = .routeRequest ∧ client'.locationsCache = cache := by
  rw [ClientMsgHandler.msgHandler_toMsg, FactoryMsg.type]
  cases phase with
  | statusAnswered =>
      have hbody : msg.body = .statusResponse := hmsg
      rw [hbody]
      refine ⟨_, _, rfl, rfl, rfl, ⟨.statusRequest, rfl⟩, fun cache => ?_⟩
      simp [Phase.next, FactoryMsg.type, FactoryMsg.new, MsgBody.initial, MsgBody.type]
  | paged cache =>
      obtain ⟨data, hbody, hlists, hpaginated⟩ := hmsg
      obtain rfl : client.locationsCache = cache := hcache
      obtain ⟨request, client', hreply, hcache', hrequest, hroute⟩ :=
        handleLocationsResponseMsg_paged now user hnext hlists hpaginated
      rw [hbody]
      exact ⟨request, client', hreply, hcache', hrequest, ⟨.locationsRequest, rfl⟩, hroute⟩
  | routeAnswered cache =>
      obtain ⟨data, hbody⟩ := hmsg
      rw [hbody]
      refine ⟨_, _, rfl, rfl, rfl, ⟨.routeRequest, rfl⟩, fun cache => ?_⟩
      simp [Phase.next, FactoryMsg.type, FactoryMsg.new, MsgBody.initial, MsgBody.type]
  | statusSent => cases hturn
  | asked cache => cases hturn
  | routeAsked cache => cases hturn

end Handlers

/-! ## The joint system -/

/-- The reads on their way, to the server and to the client. -/
def underWay (turn : Turn) (chunks : List (Chunk Byte)) : List Read × List Read :=
  match turn with
  | .server => (socket chunks, [])
  | .client => ([], socket chunks)
  | .stopped => ([], [])

/-- The system is in the phase: a message that the phase allows is on its way, cut
somehow, and nothing else. -/
structure Follows {π : Type} {locations : LocationNames} (lister : Lister π locations.names)
    (s : Exchange π) (phase : Phase) : Prop where
  planner : lister.Steady s.planner
  cache : s.client.locationsCache = phase.cache
  turn : s.turn = phase.turn
  possible : phase.Possible locations.names
  message : ∃ (msg : FactoryMsg) (chunks : List (Chunk Byte)),
    phase.Carries locations.names msg.body ∧ Chunk.join chunks = msg.bytes ∧
      (s.toServer, s.toClient) = underWay phase.turn chunks

namespace Call

/-- The handler was given a message and returned one: the server the answer to a
request, the client a request after an answer.  A route is asked for only with
the whole list in the cache. -/
def Answered (names : List Str) : Call → Prop
  | nothing => False
  | server received response => ∃ request reply : FactoryMsg,
      received = some request.toMsg ∧ response = some reply.toMsg ∧
        answer request.type = some reply.type
  | client received reply cache => ∃ response request : FactoryMsg,
      received = some response.toMsg ∧ reply = .returned (some request) ∧
        (∃ type, answer type = some response.type) ∧
        (request.type = .routeRequest → cache.length = names.length)

/-- The client sends a route request, with this cache. -/
def AsksRoute (cache : List Str) (call : Call) : Prop :=
  ∃ received request, call = .client received (.returned (some request)) cache ∧
    request.type = .routeRequest

end Call

section Run

variable {π : Type} {locations : LocationNames}

section Lister

variable {lister : Lister π locations.names} {s : Exchange π} {phase : Phase}

/-- Every run goes on from a status request. -/
theorem start_follows {planner : π} (hplanner : lister.Steady planner) (first : Hop) :
    ∃ s, (∀ hops, Exchange.run lister.ops planner first hops =
        Machine.run (Exchange.exec lister.ops) s hops) ∧ Follows lister s .statusSent := by
  have hstart := Exchange.start_eq planner first
  refine ⟨_, fun hops => by rw [Exchange.run, hstart, Fault.ok_bind], hplanner, rfl, rfl, trivial,
    FactoryMsg.new first.now .statusRequest, _, rfl, first.network.join_cut _, rfl⟩

/-- A hop returns if the server's handler does, where it is the server's. -/
theorem hop_returns (h : Follows lister s phase) (hop : Hop)
    (hserver : ∀ msg : FactoryMsg, phase.turn = .server → phase.Carries locations.names msg.body →
      ∃ result, ServerMsgHandler.handle lister.ops hop.now s.planner msg.toMsg = .ok result) :
    ∃ call s', s.hop lister.ops hop = .ok (call, s') := by
  obtain ⟨hplanner, hcache, hturn, hpossible, msg, chunks, hmsg, hcut, hreads⟩ := h
  rw [Exchange.hop, hturn]
  cases hside : phase.turn with
  | server =>
      rw [hside, underWay, Prod.mk.injEq] at hreads
      obtain ⟨⟨response, planner'⟩, hhandle⟩ := hserver msg hside hmsg
      cases response with
      | none => exact ⟨_, _, Exchange.serverHop_of_null hcut hreads.1 hhandle⟩
      | some response => exact ⟨_, _, Exchange.serverHop_of_handle hcut hreads.1 hhandle⟩
  | client =>
      rw [hside, underWay, Prod.mk.injEq] at hreads
      obtain ⟨request, client', hhandle, -⟩ := msgHandler_spec hop.now hop.user hcache hside
        (Phase.possible_next locations.ne_nil hpossible) hmsg
      exact ⟨_, _, Exchange.clientHop_of_handle hcut hreads.2 hhandle⟩
  | stopped => cases phase <;> cases hside

/-- So no hop but that of a route request fails. -/
theorem hop_returns_of_ne (h : Follows lister s phase) (hop : Hop)
    (hroute : ∀ cache, phase ≠ .routeAsked cache) :
    ∃ call s', s.hop lister.ops hop = .ok (call, s') :=
  hop_returns h hop fun _ hturn hmsg =>
    handle_returns hop.now h.planner hturn h.possible hmsg hroute

/-- A hop that returns is one phase, its call is answered, and the client asks for a
route exactly where the phases do. -/
theorem refines_of_hop (h : Follows lister s phase) {hop : Hop} {call : Call} {s' : Exchange π}
    (hhop : s.hop lister.ops hop = .ok (call, s')) :
    Follows lister s' (phase.next locations.names) ∧ call.Answered locations.names ∧
      ∀ cache, call.AsksRoute cache ↔ phase.next locations.names = .routeAsked cache := by
  obtain ⟨hplanner, hcache, hturn, hpossible, msg, chunks, hmsg, hcut, hreads⟩ := h
  have hnext := Phase.possible_next locations.ne_nil hpossible
  rw [Exchange.hop, hturn] at hhop
  cases hside : phase.turn with
  | server =>
      rw [hside, underWay, Prod.mk.injEq] at hreads
      rw [hside] at hhop
      obtain ⟨hto, hfrom⟩ := hreads
      cases hhandle : ServerMsgHandler.handle lister.ops hop.now s.planner msg.toMsg with
      | error f =>
          dsimp only at hhop
          rw [Exchange.serverHop_of_fault hcut hto hhandle] at hhop
          cases hhop
      | ok result =>
          obtain ⟨response, planner'⟩ := result
          obtain ⟨hplanner', reply, rfl, hreply, hanswer⟩ :=
            handle_refines hplanner hside hpossible hmsg hhandle
          obtain ⟨hturn', hcache', hnoRoute⟩ := @Phase.next_of_server locations.names _ hside
          obtain ⟨rfl, rfl⟩ := Prod.mk.inj (Except.ok.inj
            ((Exchange.serverHop_of_handle hcut hto hhandle).symm.trans hhop))
          refine ⟨⟨hplanner', ?_, hturn'.symm, hnext, reply, _, hreply, hop.network.join_cut _, ?_⟩,
            ⟨msg, reply, rfl, rfl, hanswer⟩, fun cache => ?_⟩
          · rw [hcache, hcache']
          · rw [hturn', hfrom, List.nil_append]
            rfl
          · refine iff_of_false ?_ (hnoRoute cache)
            rintro ⟨_, _, hcall, -⟩
            cases hcall
  | client =>
      rw [hside, underWay, Prod.mk.injEq] at hreads
      rw [hside] at hhop
      obtain ⟨hfrom, hto⟩ := hreads
      obtain ⟨request, client', hhandle, hcache', hrequest, hanswer, hroute⟩ :=
        msgHandler_spec hop.now hop.user hcache hside hnext hmsg
      have hturn' := @Phase.next_of_client locations.names _ hside
      obtain ⟨rfl, rfl⟩ := Prod.mk.inj (Except.ok.inj
        ((Exchange.clientHop_of_handle hcut hto hhandle).symm.trans hhop))
      refine ⟨⟨hplanner, hcache', hturn'.symm, hnext, request, _, hrequest,
        hop.network.join_cut _, ?_⟩, ⟨msg, request, rfl, rfl, hanswer, fun htype => ?_⟩,
        fun cache => ?_⟩
      · rw [hturn', hfrom, List.nil_append]
        rfl
      · rw [(hroute client'.locationsCache).mpr ⟨htype, rfl⟩] at hnext
        exact hnext
      · rw [hroute]
        apply Iff.intro
        · rintro ⟨_, _, hcall, htype⟩
          injection hcall with _ hreply hsame
          injection hreply with hreply
          obtain rfl := Option.some.inj hreply
          exact ⟨htype, hsame⟩
        · rintro ⟨htype, rfl⟩
          exact ⟨_, _, rfl, htype⟩
  | stopped => cases phase <;> cases hside

/-- The hops of a run that returns are phases. -/
theorem refines_of_run {planner : π} (hplanner : lister.Steady planner) {first : Hop}
    {hops : List Hop} (hrun : Exchange.run lister.ops planner first hops = .ok s) :
    Follows lister s (hops.foldl (fun phase _ => phase.next locations.names) .statusSent) := by
  obtain ⟨s₀, hstart, h₀⟩ := start_follows hplanner first
  rw [hstart] at hrun
  refine Machine.run_follows (fun s phase hop s' h hexec => ?_) h₀ hrun
  obtain ⟨⟨call, s''⟩, hhop, heq⟩ := Fault.bind_eq_ok.mp hexec
  obtain rfl := Except.ok.inj heq
  exact (refines_of_hop h hhop).1

end Lister

section Steady

variable {steady : SteadyPlanner π locations.names}

/-- With a steady planner every hop returns. -/
theorem hop_refines {s : Exchange π} {phase : Phase} (h : Follows steady.toLister s phase)
    (hop : Hop) :
    ∃ call s', s.hop steady.ops hop = .ok (call, s') ∧
      Follows steady.toLister s' (phase.next locations.names) ∧ call.Answered locations.names ∧
      ∀ cache, call.AsksRoute cache ↔ phase.next locations.names = .routeAsked cache := by
  obtain ⟨call, s', hhop⟩ := hop_returns h hop fun msg hturn hmsg => by
    obtain ⟨_, _, hhandle, -⟩ := handle_spec steady hop.now h.planner hturn h.possible hmsg
    exact ⟨_, hhandle⟩
  exact ⟨call, s', hhop, refines_of_hop h hhop⟩

/-- The system follows the phases along every run. -/
theorem run_refines (first : Hop) (hops : List Hop) :
    ∃ s, Exchange.run steady.ops steady.initial first hops = .ok s ∧
      Follows steady.toLister s
        (hops.foldl (fun phase _ => phase.next locations.names) .statusSent) := by
  obtain ⟨s₀, hstart, h₀⟩ := start_follows steady.steady_initial first
  obtain ⟨s, hrun, h⟩ := @Machine.run_simulation _ _ _ (Exchange.exec steady.ops)
    (Follows steady.toLister) (fun _ _ => True) (fun phase _ => phase.next locations.names)
    (fun s phase hop h _ => by
      obtain ⟨call, s', hhop, h', -⟩ := hop_refines h hop
      exact ⟨s', Exchange.exec_of_hop hhop, h'⟩)
    _ _ h₀ hops fun _ _ _ _ _ _ _ => trivial
  exact ⟨s, (hstart hops).trans hrun, h⟩

end Steady

end Run

end RoutePlanner.System
