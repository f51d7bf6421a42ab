/-
# What the user is told

The exchange exists for the line that the client prints at the end of a round: the
cost of the route that was picked at the menu.  If the last name fits on a page, that
line comes again and again, at most so many hops apart; if it does not, paging never
ends and the line never comes.  And what it says is the cost along the roads of the
files between the two locations that the picked indices stand for on the server, which
are those of the menu exactly as far as the menu is the server's list.
-/

import RoutePlanner.Client.Prompts
import RoutePlanner.System.AnsweredRequests

namespace RoutePlanner.System

open RoutePlanner.Std
open RoutePlanner.Math
open RoutePlanner.Math.GreedyPages (InOrder)
open RoutePlanner.Messages
open RoutePlanner.Comms
open RoutePlanner.Server
open RoutePlanner.Client

namespace Phase

variable {names : List Str}

theorem carries_routeResponse_iff {phase : Phase} {body : MsgBody} (h : phase.Carries names body) :
    (∃ data, body = .routeResponse data) ↔ ∃ cache, phase = routeAnswered cache := by
  cases phase with
  | statusSent => simp [show body = .statusRequest from h]
  | statusAnswered => simp [show body = .statusResponse from h]
  | asked cache => simp [show body = .locationsRequest ⟨UInt64.ofNat cache.length⟩ from h]
  | paged cache =>
      obtain ⟨data, rfl, -⟩ := h
      simp
  | routeAsked cache =>
      obtain ⟨data, rfl, -⟩ := h
      simp
  | routeAnswered cache => exact iff_of_true h ⟨cache, rfl⟩

end Phase

/-! ## When a cost is told -/

/-- The client is given a route response with this cost, which it prints. -/
def Call.Tells (cost : UInt64) (call : Call) : Prop :=
  ∃ (response : FactoryMsg) (reply : Reply) (cache : List Str),
    call = .client (some response.toMsg) reply cache ∧ response.body = .routeResponse ⟨cost⟩

/-- In a run there comes a hop that tells a cost. -/
def TellsIn {π : Type} (ops : PlannerOps π) (planner : π) (first : Hop) (hops hops' : List Hop) :
    Prop :=
  ∃ pre hop post s call s' cost, hops' = pre ++ hop :: post ∧
    Exchange.run ops planner first (hops ++ pre) = .ok s ∧
    s.hop ops hop = .ok (call, s') ∧ call.Tells cost

section Tells

variable {π : Type} {locations : LocationNames}

/-- A cost is told by the hop after a route was answered, and by no other. -/
theorem tells_iff {lister : Lister π locations.names} {s s' : Exchange π} {phase : Phase}
    (h : Follows lister s phase) {hop : Hop} {call : Call}
    (hhop : s.hop lister.ops hop = .ok (call, s')) :
    (∃ cost, call.Tells cost) ↔ ∃ cache, phase = .routeAnswered cache := by
  obtain ⟨hplanner, hcache, hturn, hpossible, msg, chunks, hmsg, hcut, hreads⟩ := h
  cases hside : phase.turn with
  | server =>
      refine iff_of_false ?_ ?_
      · rintro ⟨_, _, _, _, rfl, -⟩
        have hclient := (Exchange.clientHop_of_hop hhop).1
        rw [hturn, hside] at hclient
        cases hclient
      · rintro ⟨cache, rfl⟩
        cases hside
  | client =>
      rw [hside, underWay, Prod.mk.injEq] at hreads
      obtain ⟨request, client', hhandle, -⟩ := msgHandler_spec hop.now hop.user hcache hside
        (Phase.possible_next locations.ne_nil hpossible) hmsg
      rw [Exchange.hop, hturn, hside] at hhop
      obtain ⟨rfl, -⟩ := Prod.mk.inj (Except.ok.inj
        ((Exchange.clientHop_of_handle hcut hreads.2 hhandle).symm.trans hhop))
      refine Iff.trans ?_ (Phase.carries_routeResponse_iff hmsg)
      apply Iff.intro
      · rintro ⟨cost, response, _, _, hcall, hbody⟩
        injection hcall with hreceived
        have hsame : msg.body = response.body :=
          congrArg Msg.body (Option.some.inj hreceived)
        exact ⟨⟨cost⟩, hsame.trans hbody⟩
      · rintro ⟨data, hbody⟩
        exact ⟨data.cost, msg, _, _, rfl, hbody⟩
  | stopped => cases phase <;> cases hside

/-- The last name fits: from every state of every run it is not far to such a hop, if all
costs are found. -/
theorem tellsIn_of_lastFits (steady : SteadyPlanner π locations.names)
    (hlast : LastFits locations.names) (first : Hop) (hops hops' : List Hop)
    (hlength : 2 * locations.names.length + 4 ≤ hops'.length) :
    TellsIn steady.ops steady.initial first hops hops' := by
  obtain ⟨s₀, hrun, h₀⟩ := @run_refines _ _ steady first hops
  obtain ⟨pre, hop, post, s, phase, rfl, hrest, hs, cache, rfl⟩ :=
    @Machine.run_reaches _ _ _ (Exchange.exec steady.ops) (Follows steady.toLister)
      (fun phase => ∃ cache, phase = .routeAnswered cache) (Phase.rank locations.names)
      (fun s phase hop hs hphase => by
        obtain ⟨call, s', hhop, hs', -⟩ := hop_refines hs hop
        exact ⟨s', _, Exchange.exec_of_hop hhop, hs', Phase.rank_next_lt hlast hs.possible
          fun cache heq => hphase ⟨cache, heq⟩⟩)
      _ _ h₀ _ (Nat.lt_of_le_of_lt (Phase.rank_le _) hlength)
  obtain ⟨call, s', hhop, -⟩ := hop_refines hs hop
  obtain ⟨cost, hcost⟩ := (tells_iff hs hhop).mpr ⟨cache, rfl⟩
  refine ⟨pre, hop, post, s, call, s', cost, rfl, ?_, hhop, hcost⟩
  rw [Exchange.run_append, hrun, Fault.ok_bind, hrest]

/-- The last name does not fit: no run ever comes to such a hop. -/
theorem lastFits_of_tells {lister : Lister π locations.names} {planner : π}
    (hplanner : lister.Steady planner) {first : Hop} {hops : List Hop} {s s' : Exchange π}
    {hop : Hop} {call : Call} {cost : UInt64}
    (hrun : Exchange.run lister.ops planner first hops = .ok s)
    (hhop : s.hop lister.ops hop = .ok (call, s')) (hcall : call.Tells cost) :
    LastFits locations.names := by
  by_contra hlast
  obtain ⟨s₁, phase, hrun₁, hs, hpaging⟩ := paging_of_run hplanner hlast first hops
  obtain rfl := Except.ok.inj (hrun.symm.trans hrun₁)
  obtain ⟨cache, rfl⟩ := (tells_iff hs hhop).mp ⟨cost, hcall⟩
  exact hpaging

end Tells

/-- Over a locations file that loads, with no separator in a name and at most `2 ^ 31`
locations: if the last name has at most 99 characters, then among any `2 n + 4`
consecutive hops of any run over `n` locations there is one that tells the user a cost.
If it has more, none of any run does. -/
theorem tellsIn_iff_lastFits {locationFile : Route.File} {entries : List Route.Entry}
    (h : Loads locationFile entries) (hsep : ∀ entry ∈ entries, MSG_LOCATIONS_SEP_CHAR ∉ entry.1)
    (hn : entries.length ≤ 2 ^ 31) (routeFile : Route.File) :
    ((∀ first hops hops', 2 * entries.length + 4 ≤ hops'.length →
        TellsIn (fileOps locationFile routeFile) Route.RoutePlanner.create first hops hops') ↔
      LastFits (entries.map Prod.fst)) ∧
    ((∃ first hops hops',
        TellsIn (fileOps locationFile routeFile) Route.RoutePlanner.create first hops hops') ↔
      LastFits (entries.map Prod.fst)) := by
  let locations := LocationNames.ofFile h hsep
  let steady : SteadyPlanner Route.RoutePlanner locations.names := .ofFile h.parses routeFile hn
  have hsome : ∀ first hops hops', TellsIn steady.ops steady.initial first hops hops' →
      LastFits locations.names := by
    rintro first hops hops' ⟨pre, hop, post, s, call, s', cost, -, hrun, hhop, hcall⟩
    exact lastFits_of_tells steady.steady_initial hrun hhop hcall
  have hall : LastFits locations.names → ∀ first hops hops',
      2 * entries.length + 4 ≤ hops'.length →
        TellsIn steady.ops steady.initial first hops hops' := by
    intro hlast first hops hops' hlength
    exact tellsIn_of_lastFits steady hlast first hops hops'
      (by rwa [show locations.names.length = entries.length from List.length_map _])
  refine ⟨⟨fun hevery => ?_, hall⟩, ⟨?_, fun hlast => ?_⟩⟩
  · exact hsome Hop.plain [] _ (hevery Hop.plain [] (List.replicate _ Hop.plain)
      (List.length_replicate ..).ge)
  · rintro ⟨first, hops, hops', htells⟩
    exact hsome first hops hops' htells
  · exact ⟨Hop.plain, [], List.replicate _ Hop.plain, hall hlast _ _ _
      (List.length_replicate ..).ge⟩

/-- A cost is told again and again over two pages. -/
theorem tellsIn_iff_lastFits_twoPages :
    ((∀ first hops hops', 2 * twoPages.length + 4 ≤ hops'.length →
        TellsIn (fileOps twoPagesFile none) Route.RoutePlanner.create first hops hops') ↔
      LastFits (twoPages.map Prod.fst)) ∧
    LastFits (twoPages.map Prod.fst) :=
  ⟨(tellsIn_iff_lastFits loads_twoPagesFile (by decide) (by decide) none).1,
    lastFits_of_short (by decide)⟩

/-! ## What is told -/

section Files

variable {locationFile routeFile : Route.File} {entries : List (Str × Nat)}

/-- Two hops later, whatever they are, the client has told the cost of the start and the
least cost of a walk along the roads to the end. -/
def ToldNext (locationFile routeFile : Route.File) (i j : Fin entries.length)
    (s : Exchange Route.RoutePlanner) : Prop :=
  ∀ hop₁ hop₂, ∃ call₁ s₁ call₂ s₂ cost,
    s.hop (fileOps locationFile routeFile) hop₁ = .ok (call₁, s₁) ∧
    s₁.hop (fileOps locationFile routeFile) hop₂ = .ok (call₂, s₂) ∧ call₂.Tells cost ∧
    ∀ d, IsMinCost (Road entries routeFile) (entryCost entries) i j d → d < INT_MAX →
      cost.toNat = entryCost entries i + d

/-- A route request that is on its way is answered, and the answer is told. -/
theorem told_of_asked (h : Route.WellFormed locationFile entries) (hn : entries.length ≤ 2 ^ 31)
    {s : Exchange Route.RoutePlanner} (hturn : s.turn = .server)
    (hplanner : Serving (entries.map Route.toEntry) routeFile s.planner) {request : FactoryMsg}
    {chunks : List (Chunk Byte)} (hcut : Chunk.join chunks = request.bytes)
    (htoServer : s.toServer = socket chunks) (htoClient : s.toClient = [])
    {data : MsgRouteRequestData} (hrequest : request.body = .routeRequest data)
    {i j : Fin entries.length} (hi : data.startLocation.toNat = i)
    (hj : data.endLocation.toNat = j) : ToldNext locationFile routeFile i j s := by
  intro hop₁ hop₂
  obtain ⟨planner, hplanner', hhandle⟩ := handleRouteRequestMsg_ofFiles h hplanner hop₁.now hi hj
  obtain ⟨cost, hcost, hleast⟩ := getRouteCost_ofFiles h hplanner' hn i j
  change planner.getRouteCost entries[i].1 entries[j].1 = _ at hcost
  rw [hcost, Fault.ok_bind] at hhandle
  obtain ⟨response, hresponse, hbody⟩ : ∃ response : FactoryMsg,
      ServerMsgHandler.handleRouteRequestMsg (fileOps locationFile routeFile) hop₁.now s.planner
        data = .ok (some response, planner) ∧ response.body = .routeResponse ⟨cost.toUInt64⟩ :=
    ⟨_, hhandle, rfl⟩
  have hserver := @Exchange.serverHop_of_handle _ (fileOps locationFile routeFile) s hop₁ request
    response chunks planner hcut htoServer
    (by rw [ServerMsgHandler.handle_toMsg, hrequest]; exact hresponse)
  rw [htoClient, List.nil_append] at hserver
  have hclient : Exchange.hop (fileOps locationFile routeFile)
      { s with planner, accepted := true, toServer := []
               toClient := socket (hop₁.network.cut response.bytes), turn := .client } hop₂ =
        .ok (_, _) :=
    @Exchange.clientHop_of_handle _ _ hop₂ response (FactoryMsg.new hop₂.now .locationsRequest) _
      ⟨[]⟩ (hop₁.network.join_cut _) rfl
      (by rw [ClientMsgHandler.msgHandler_toMsg, hbody]; rfl)
  have hside : s.hop (fileOps locationFile routeFile) hop₁ =
      s.serverHop (fileOps locationFile routeFile) hop₁ := by
    rw [Exchange.hop, hturn]
  refine ⟨_, _, _, _, cost.toUInt64, hside.trans hserver, hclient,
    ⟨response, _, _, rfl, hbody⟩, fun d hd hcap => ?_⟩
  rw [UInt32.toNat_toUInt64]
  exact hleast d hd hcap

/-- In every run over well-formed files: whenever the client asks for a route, with two
indices of its menu that the user typed, the next hop of the server answers it, and the
hop of the client after that tells the cost of the start and the least cost of a walk
along the roads to the end, between the locations of the server at these indices.  They
are the entries of the menu if no page takes a name behind one it passed over. -/
theorem route_told (h : Route.WellFormed locationFile entries) (hne : entries ≠ [])
    (hn : entries.length ≤ 2 ^ 31) (hsep : ∀ entry ∈ entries, MSG_LOCATIONS_SEP_CHAR ∉ entry.1)
    {first : Hop} {hops : List Hop} {hop : Hop} {s s₁ : Exchange Route.RoutePlanner}
    {received : Option Msg} {request : FactoryMsg} {cache : List Str}
    {data : MsgRouteRequestData}
    (hrun : Exchange.run (fileOps locationFile routeFile) Route.RoutePlanner.create first hops =
      .ok s)
    (hhop : s.hop (fileOps locationFile routeFile) hop =
      .ok (.client received (.returned (some request)) cache, s₁))
    (hrequest : request.body = .routeRequest data) :
    ∃ i j : Fin entries.length, data.startLocation.toNat = i ∧ data.endLocation.toNat = j ∧
      ClientMsgHandler.getRouteRequest hop.now hop.user.typed ⟨cache⟩ =
        .returned (some request) ∧
      (InOrder nameSize MSG_LOCATIONS_MAX_CHARS (entries.map Prod.fst) →
        cache[i.val]? = some (entryName entries i) ∧
          cache[j.val]? = some (entryName entries j)) ∧
      ToldNext locationFile routeFile i j s₁ := by
  let locations := LocationNames.ofFile
    (loads_of_wellFormed h hne (Nat.lt_of_le_of_lt hn (by decide)))
    (List.forall_mem_map.mpr hsep)
  let lister : Lister Route.RoutePlanner locations.names := .ofFile h.fileEntries_eq routeFile
  have hplanner : lister.Steady Route.RoutePlanner.create := Or.inl .create
  have hnames : locations.names = entries.map Prod.fst := Route.map_fst_toEntry _
  have htype : request.type = .routeRequest := by rw [FactoryMsg.type, hrequest]; rfl
  have hs : Follows lister s _ := refines_of_run hplanner hrun
  obtain ⟨hs₁, htoServer, htoClient, hmenu⟩ := asked_of_hop hs hhop htype
  have hlength : cache.length = entries.length := by
    rw [show cache.length = locations.names.length from hs₁.possible, hnames, List.length_map]
  have hsame : InOrder nameSize MSG_LOCATIONS_MAX_CHARS (entries.map Prod.fst) →
      cache = entries.map Prod.fst := by
    rw [← hnames]
    exact (GreedyPages.eq_iff_inOrder (pages_of_asksRoute hplanner hrun hhop
      ⟨received, request, rfl, htype⟩) List.nil_prefix).mpr
  obtain ⟨data', hdata, hstart, hend⟩ := ClientMsgHandler.indices_of_getRouteRequest hmenu
  obtain rfl := MsgBody.routeRequest.inj (hrequest.symm.trans hdata)
  obtain ⟨i, hi⟩ : ∃ i : Fin entries.length, data.startLocation.toNat = i :=
    ⟨⟨_, Nat.lt_of_lt_of_eq hstart hlength⟩, rfl⟩
  obtain ⟨j, hj⟩ : ∃ j : Fin entries.length, data.endLocation.toNat = j :=
    ⟨⟨_, Nat.lt_of_lt_of_eq hend hlength⟩, rfl⟩
  refine ⟨i, j, hi, hj, hmenu, fun hinOrder => ?_, ?_⟩
  · rw [hsame hinOrder, List.getElem?_map, List.getElem?_map, List.getElem?_eq_getElem i.isLt,
      List.getElem?_eq_getElem j.isLt]
    exact ⟨rfl, rfl⟩
  · exact told_of_asked h hn hs₁.turn hs₁.planner (hop.network.join_cut _) htoServer htoClient
      hrequest hi hj

end Files

/-- Some run over two cities comes to its menu. -/
theorem route_told_twoCities :
    ∃ hops s s₁ received request cache data,
      Exchange.run (fileOps Route.twoCitiesFile none) Route.RoutePlanner.create Hop.plain hops =
        .ok s ∧
      s.hop (fileOps Route.twoCitiesFile none) Hop.plain =
        .ok (.client received (.returned (some request)) cache, s₁) ∧
      request.body = .routeRequest data ∧
      ∃ i j : Fin Route.twoCities.length, data.startLocation.toNat = i ∧
        data.endLocation.toNat = j ∧
        ClientMsgHandler.getRouteRequest Hop.plain.now Hop.plain.user.typed ⟨cache⟩ =
          .returned (some request) ∧
        (InOrder nameSize MSG_LOCATIONS_MAX_CHARS (Route.twoCities.map Prod.fst) →
          cache[i.val]? = some (entryName Route.twoCities i) ∧
            cache[j.val]? = some (entryName Route.twoCities j)) ∧
        ToldNext Route.twoCitiesFile none i j s₁ := by
  let locations := LocationNames.ofFile loads_twoCities (by decide)
  let lister : Lister Route.RoutePlanner locations.names := .ofFile loads_twoCities.parses none
  obtain ⟨hops, s, _, call, s₁, cache, hrun, -, hhop, received, request, rfl, htype⟩ :=
    @exists_asksRoute _ locations lister _ (Or.inl .create) (lastFits_of_short (by decide))
      Hop.plain
  obtain ⟨data, hdata⟩ : ∃ data, request.body = .routeRequest data := by
    rw [FactoryMsg.type] at htype
    cases hbody : request.body with
    | routeRequest data => exact ⟨data, rfl⟩
    | _ =>
        rw [hbody] at htype
        cases htype
  exact ⟨hops, s, s₁, received, request, cache, data, hrun, hhop, hdata,
    route_told Route.wellFormed_twoCities (by decide) (by decide) (by decide) hrun hhop hdata⟩

end RoutePlanner.System
