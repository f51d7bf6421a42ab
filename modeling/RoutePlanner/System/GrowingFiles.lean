/-
# Files that grow while they are served

A client collects the list of locations in pages, and the locations file may be edited
between any two of them.  As long as lines are only added behind the others, nothing
goes wrong: every request asks from within the list as it is when the request is
handled, whatever becomes of the routes file meanwhile.

If the pages keep the order of the list, what the client has is a beginning of it at
any time, so an index of its menu is an index of the same location at the server.
-/

import RoutePlanner.Server.EditedFiles
import RoutePlanner.System.Paging

namespace RoutePlanner.System

open RoutePlanner.Std
open RoutePlanner.Math
open RoutePlanner.Messages
open RoutePlanner.Comms
open RoutePlanner.Server
open RoutePlanner.Client
open RoutePlanner.Route (Edit Entry Plan)

/-- A hop, with the files as they are when it takes place.  The locations file is
readable and lists a location, and no name has a separator in it. -/
structure EditedHop where
  hop : Hop
  files : Edit
  entries : List Entry
  readable : Readable files.locationFile entries
  ne_nil : entries ≠ []
  no_sep : ∀ entry ∈ entries, MSG_LOCATIONS_SEP_CHAR ∉ entry.1

namespace EditedHop

def names (e : EditedHop) : List Str := e.entries.map Prod.fst

def ops (e : EditedHop) : PlannerOps Route.RoutePlanner :=
  fileOps e.files.locationFile e.files.routeFile

def exec (s : Exchange Route.RoutePlanner) (e : EditedHop) :
    Except Fault (Exchange Route.RoutePlanner) :=
  Exchange.exec e.ops s e.hop

/-- The exchange after a number of hops. -/
def run (first : Hop) (hops : List EditedHop) : Except Fault (Exchange Route.RoutePlanner) := do
  let s ← Exchange.start Route.RoutePlanner.create first
  Machine.run exec s hops

/-- Lines are only added to the locations file, and only behind the others. -/
def Grow (hops : List EditedHop) : Prop :=
  hops.Pairwise fun earlier later => earlier.entries <+: later.entries

/-- Wherever a page begins, it takes a beginning of what is left of the list. -/
def PagesInOrder (names : List Str) : Prop :=
  ∀ i < names.length, (page (names.drop i)).1 <+: names.drop i

/-- The server's answer to a request, for a client with this menu: a page that follows
the menu, or the cost of the route between two locations of the file, whose indices are
indices of the menu. -/
inductive Answers (e : EditedHop) (menu : List Str) (planner : Route.RoutePlanner) :
    MsgBody → MsgBody → Prop
  | status : Answers e menu planner .statusRequest .statusResponse
  | page {data : MsgLocationsResponseData} :
      menu.length < e.names.length → data.Lists (page (e.names.drop menu.length)).1 →
      data.isPaginated = (if (page (e.names.drop menu.length)).2 then 1 else 0) →
      Answers e menu planner (.locationsRequest ⟨UInt64.ofNat menu.length⟩)
        (.locationsResponse data)
  | route {request : MsgRouteRequestData} {plan : Plan} {startName endName : Str}
      {answer : UInt32} :
      request.startLocation.toNat < menu.length → request.endLocation.toNat < menu.length →
      e.names[request.startLocation.toNat]? = some startName →
      e.names[request.endLocation.toNat]? = some endName →
      Route.RoutePlanner.Follows planner plan → plan.held = e.entries →
      plan.Answers startName endName answer →
      Answers e menu planner (.routeRequest request) (.routeResponse ⟨answer.toUInt64⟩)

/-- The hop hands a message on and gets one back, and the server's is the answer to the
request. -/
def Answered (e : EditedHop) (menu : List Str) (planner : Route.RoutePlanner) : Call → Prop
  | .nothing => False
  | .server received response => ∃ request reply : FactoryMsg,
      received = some request.toMsg ∧ response = some reply.toMsg ∧
        e.Answers menu planner request.body reply.body
  | .client received reply _ => ∃ response request : FactoryMsg,
      received = some response.toMsg ∧ reply = .returned (some request)

end EditedHop

/-! ## What is held -/

/-- A list that continues what is held is taken over, or is held already. -/
theorem refresh_of_prefix {held entries : List Entry} (h : held <+: entries) :
    (Route.refresh held entries).2 = entries := by
  rw [Route.refresh]
  split
  · rename_i hkept
    rcases hkept with hnone | hsame
    · obtain rfl := List.eq_nil_of_length_eq_zero hnone
      exact List.prefix_nil.mp h
    · refine h.eq_of_length_le ?_
      calc
        entries.length = (held.map Prod.fst).dedup.length := hsame
        _ ≤ (held.map Prod.fst).length := (List.dedup_sublist _).length_le
        _ = held.length := List.length_map _
  · rfl

theorem held_next_of_prefix {plan : Plan} (e : EditedHop) (h : plan.held <+: e.entries) :
    (plan.next e.files).held = e.entries := by
  rw [Plan.next, e.readable.parses]
  exact refresh_of_prefix h

/-! ## What is on its way -/

/-- A page behind a cache, when the list has these names or continues with more. -/
structure Continues (names : List Str) (inOrder : Prop) (cache taken : List Str) (more : Bool) :
    Prop where
  no_sep : ∀ name ∈ taken, MSG_LOCATIONS_SEP_CHAR ∉ name
  length_le : (cache ++ taken).length ≤ names.length
  length_lt : more = true → (cache ++ taken).length < names.length
  ne_nil : more = false → cache ++ taken ≠ []
  isPrefix : inOrder → cache ++ taken <+: names

/-- The body of the message that a side waits for. -/
inductive OnItsWay (names : List Str) (inOrder : Prop) (cache : List Str) :
    Turn → MsgBody → Prop
  | statusRequest : OnItsWay names inOrder cache .server .statusRequest
  | statusResponse : OnItsWay names inOrder cache .client .statusResponse
  | locationsRequest : cache.length < names.length →
      OnItsWay names inOrder cache .server (.locationsRequest ⟨UInt64.ofNat cache.length⟩)
  | locationsResponse {data : MsgLocationsResponseData} {taken : List Str} {more : Bool} :
      data.Lists taken → data.isPaginated = (if more then 1 else 0) →
      Continues names inOrder cache taken more →
      OnItsWay names inOrder cache .client (.locationsResponse data)
  | routeRequest {data : MsgRouteRequestData} :
      data.startLocation.toNat < cache.length → data.endLocation.toNat < cache.length →
      cache.length ≤ names.length → OnItsWay names inOrder cache .server (.routeRequest data)
  | routeResponse {data : MsgRouteResponseData} :
      OnItsWay names inOrder cache .client (.routeResponse data)

section OnItsWay

variable {names names' cache taken : List Str} {inOrder : Prop} {more : Bool}

theorem Continues.of_prefix (h : Continues names inOrder cache taken more)
    (hgrown : names <+: names') : Continues names' inOrder cache taken more where
  no_sep := h.no_sep
  length_le := h.length_le.trans hgrown.length_le
  length_lt hmore := Nat.lt_of_lt_of_le (h.length_lt hmore) hgrown.length_le
  ne_nil := h.ne_nil
  isPrefix hinOrder := (h.isPrefix hinOrder).trans hgrown

/-- Whatever is on its way stays in range when names are added. -/
theorem OnItsWay.of_prefix {turn : Turn} {body : MsgBody}
    (h : OnItsWay names inOrder cache turn body) (hgrown : names <+: names') :
    OnItsWay names' inOrder cache turn body := by
  cases h with
  | statusRequest => exact .statusRequest
  | statusResponse => exact .statusResponse
  | locationsRequest hcache =>
      exact .locationsRequest (Nat.lt_of_lt_of_le hcache hgrown.length_le)
  | locationsResponse hlists hpaginated hpage =>
      exact .locationsResponse hlists hpaginated (hpage.of_prefix hgrown)
  | routeRequest hstart hend hcache =>
      exact .routeRequest hstart hend (hcache.trans hgrown.length_le)
  | routeResponse => exact .routeResponse

/-- The next page of a list continues a cache that is shorter. -/
theorem continues_page (hcache : cache.length < names.length)
    (hsep : ∀ name ∈ names, MSG_LOCATIONS_SEP_CHAR ∉ name)
    (hpages : inOrder → EditedHop.PagesInOrder names) (hmenu : inOrder → cache <+: names) :
    Continues names inOrder cache (page (names.drop cache.length)).1
      (page (names.drop cache.length)).2 := by
  have hsublist : (page (names.drop cache.length)).1.Sublist (names.drop cache.length) :=
    GreedyPages.fill_sublist _ _
  have hrest : (names.drop cache.length).length = names.length - cache.length := List.length_drop
  refine ⟨fun name hname => hsep name (List.mem_of_mem_drop (hsublist.subset hname)), ?_,
    fun hmore => ?_, fun hlast => ?_, fun hinOrder => ?_⟩
  · have hle := hsublist.length_le
    rw [List.length_append]
    omega
  · have hlt : (page (names.drop cache.length)).1.length < (names.drop cache.length).length :=
      GreedyPages.length_fill_lt hmore
    rw [List.length_append]
    omega
  · have hall : (page (names.drop cache.length)).1 = names.drop cache.length :=
      GreedyPages.fill_of_not_more hlast
    rw [hall, ← List.length_pos_iff, List.length_append]
    omega
  · have hnames : cache ++ names.drop cache.length = names :=
      List.prefix_iff_eq_append.mp (hmenu hinOrder)
    have hpage := (List.prefix_append_right_inj cache).mpr (hpages hinOrder cache.length hcache)
    rwa [hnames] at hpage

end OnItsWay

/-! ## The two handlers -/

section Handlers

variable {e : EditedHop} {cache : List Str} {inOrder : Prop}

theorem length_names (e : EditedHop) : e.names.length = e.entries.length := List.length_map _

theorem no_sep_names (e : EditedHop) : ∀ name ∈ e.names, MSG_LOCATIONS_SEP_CHAR ∉ name :=
  List.forall_mem_map.mpr e.no_sep

/-- The client asks for the names behind those it has, or for a route between two of
them. -/
theorem exists_request {client : ClientMsgHandler} {msg : FactoryMsg}
    (hmsg : OnItsWay e.names inOrder client.locationsCache .client msg.body) (now : UInt64)
    (user : User) :
    ∃ request client', client.msgHandler now user.typed (some msg.toMsg) =
        .ok (.returned (some request), client') ∧
      (inOrder → client'.locationsCache <+: e.names) ∧
      OnItsWay e.names inOrder client'.locationsCache .server request.body := by
  have hpos : 0 < e.names.length :=
    Nat.lt_of_lt_of_eq (List.length_pos_iff.mpr e.ne_nil) (length_names e).symm
  rw [ClientMsgHandler.msgHandler_toMsg]
  generalize msg.body = body at hmsg
  cases hmsg with
  | statusResponse => exact ⟨_, ⟨[]⟩, rfl, fun _ => List.nil_prefix, .locationsRequest hpos⟩
  | routeResponse => exact ⟨_, ⟨[]⟩, rfl, fun _ => List.nil_prefix, .locationsRequest hpos⟩
  | @locationsResponse data taken more hlists hpaginated hpage =>
      dsimp only
      rw [ClientMsgHandler.handleLocationsResponseMsg_spec
        (MsgLocationsResponseData.getLocations_of_lists hlists hpage.no_sep), hpaginated]
      cases more with
      | true => exact ⟨_, _, rfl, hpage.isPrefix, .locationsRequest (hpage.length_lt rfl)⟩
      | false =>
          obtain ⟨route, hroute, hstart, hend⟩ :=
            @ClientMsgHandler.getRouteRequest_spec now user.typed
              ⟨client.locationsCache ++ taken⟩ (user.chooses _ (hpage.ne_nil rfl))
          exact ⟨_, _, by rw [← hroute]; rfl, hpage.isPrefix,
            .routeRequest hstart hend hpage.length_le⟩

/-- The server, on the files of the hop, answers. -/
theorem exists_reply {plan : Plan} {request : EditedRequest} {planner : Route.RoutePlanner}
    {response : Option FactoryMsg} (hfiles : request.files = e.files)
    (hheld : plan.held <+: e.entries)
    (hmsg : OnItsWay e.names inOrder cache .server request.msg.body)
    (hmenu : inOrder → cache <+: e.names) (hpages : inOrder → EditedHop.PagesInOrder e.names)
    (hplan : Route.RoutePlanner.Follows planner (EditedRequest.next plan request))
    (hanswered : EditedRequest.Answered (EditedRequest.next plan request) request response) :
    ∃ reply, response = some reply ∧ e.Answers cache planner request.msg.body reply.body ∧
      OnItsWay e.names inOrder cache .client reply.body ∧
      (EditedRequest.next plan request).held <+: e.entries := by
  have hnext := held_next_of_prefix e hheld
  rw [← hfiles] at hnext
  have hnames : (plan.next request.files).held.map Prod.fst = e.names := congrArg _ hnext
  unfold EditedRequest.Answered EditedRequest.next at hanswered
  unfold EditedRequest.next at hplan ⊢
  generalize request.msg.body = body at hmsg hanswered hplan ⊢
  cases hmsg with
  | statusRequest => exact ⟨_, hanswered, .status, .statusResponse, hheld⟩
  | locationsRequest hcache =>
      have hindex : (UInt64.ofNat cache.length).toNat = cache.length := by
        have hlength := e.readable.length_le
        rw [← length_names] at hlength
        exact UInt64.toNat_ofNat_of_lt'
          (Nat.lt_of_lt_of_le (hcache.trans_le hlength) (by decide))
      dsimp only at hanswered ⊢
      rw [hindex, hnames, EditedRequest.ListsFrom, if_pos hcache] at hanswered
      obtain ⟨data, hlists, hpaginated, rfl⟩ := hanswered
      exact ⟨_, rfl, .page hcache hlists hpaginated, .locationsResponse hlists hpaginated
        (continues_page hcache (no_sep_names e) hpages hmenu), hnext ▸ List.prefix_rfl⟩
  | @routeRequest data hstart hend hcache =>
      dsimp only at hanswered hplan ⊢
      rw [EditedRequest.CostsRoute, hnames, hnext, ← length_names,
        if_pos ⟨hstart.trans_le hcache, hend.trans_le hcache⟩] at hanswered
      obtain ⟨startName, endName, answer, hstartName, hendName, hanswer, rfl⟩ := hanswered
      exact ⟨_, rfl, .route hstart hend hstartName hendName hplan hnext hanswer, .routeResponse,
        hnext ▸ List.prefix_rfl⟩

end Handlers

/-! ## The joint system -/

/-- After a hop over a file with these entries: the planner holds a beginning of them,
and one message is on its way, cut somehow. -/
structure Underway (inOrder : Prop) (s : Exchange Route.RoutePlanner) (entries : List Entry) :
    Prop where
  plan : ∃ plan, Route.RoutePlanner.Follows s.planner plan ∧ Small plan ∧ plan.held <+: entries
  menu : inOrder → s.client.locationsCache <+: entries.map Prod.fst
  message : ∃ (msg : FactoryMsg) (chunks : List (Chunk Byte)),
    OnItsWay (entries.map Prod.fst) inOrder s.client.locationsCache s.turn msg.body ∧
      Chunk.join chunks = msg.bytes ∧ (s.toServer, s.toClient) = underWay s.turn chunks

namespace EditedHop

variable {inOrder : Prop}

theorem start_underway (first : Hop) :
    ∃ s, Exchange.start Route.RoutePlanner.create first = .ok s ∧ Underway inOrder s [] :=
  ⟨_, Exchange.start_eq _ _, ⟨_, .create, small_empty, List.prefix_rfl⟩,
    fun _ => List.prefix_rfl, FactoryMsg.new first.now .statusRequest, _, .statusRequest,
    first.network.join_cut _, rfl⟩

/-- One hop over a file that continues the one before is answered. -/
theorem hop_underway {s : Exchange Route.RoutePlanner} {entries : List Entry}
    (h : Underway inOrder s entries) {e : EditedHop} (hgrown : entries <+: e.entries)
    (hpages : inOrder → PagesInOrder e.names) :
    ∃ call s', s.hop e.ops e.hop = .ok (call, s') ∧
      e.Answered s.client.locationsCache s'.planner call ∧ Underway inOrder s' e.entries := by
  obtain ⟨⟨plan, hplan, hsmall, hheld⟩, hmenu, msg, chunks, hmsg, hcut, hreads⟩ := h
  have hnames : entries.map Prod.fst <+: e.names := hgrown.map _
  have hmenu' : inOrder → s.client.locationsCache <+: e.names :=
    fun hinOrder => (hmenu hinOrder).trans hnames
  have hmsg' := hmsg.of_prefix hnames
  rw [Exchange.hop]
  cases hside : s.turn with
  | server =>
      rw [hside] at hmsg' hreads
      obtain ⟨hto, hfrom⟩ := Prod.mk.inj hreads
      let request : EditedRequest := ⟨e.hop.now, e.files, msg.toMsg, rfl⟩
      obtain ⟨response, planner', hhandle, hplan', hsmall', hanswered⟩ :=
        EditedRequest.handle_refines hplan hsmall request e.readable
      obtain ⟨reply, rfl, hanswers, hreply, hheld'⟩ :=
        exists_reply rfl (hheld.trans hgrown) hmsg' hmenu' hpages hplan' hanswered
      refine ⟨_, _, Exchange.serverHop_of_handle hcut hto hhandle, ⟨msg, reply, rfl, rfl, hanswers⟩,
        ⟨_, hplan', hsmall', hheld'⟩, hmenu', reply, _, hreply, e.hop.network.join_cut _, ?_⟩
      rw [hfrom, List.nil_append]
      rfl
  | client =>
      rw [hside] at hmsg' hreads
      obtain ⟨hto, hfrom⟩ := Prod.mk.inj hreads
      obtain ⟨request, client', hhandle, hmenu'', hrequest⟩ :=
        exists_request hmsg' e.hop.now e.hop.user
      refine ⟨_, _, Exchange.clientHop_of_handle hcut hfrom hhandle, ⟨msg, request, rfl, rfl⟩,
        ⟨plan, hplan, hsmall, hheld.trans hgrown⟩, hmenu'', request, _, hrequest,
        e.hop.network.join_cut _, ?_⟩
      rw [hto, List.nil_append]
      rfl
  | stopped =>
      rw [hside] at hmsg'
      cases hmsg'

theorem Grow.of_append {hops : List EditedHop} {e : EditedHop} (h : Grow (hops ++ [e])) :
    Grow hops ∧ ∀ earlier ∈ hops, earlier.entries <+: e.entries := by
  obtain ⟨hbefore, -, hlast⟩ := List.pairwise_append.mp h
  exact ⟨hbefore, fun earlier hearlier => hlast earlier hearlier e (List.mem_singleton_self e)⟩

/-- A run over a file that grows comes to a hop with the file as it was last. -/
theorem run_underway (first : Hop) {hops : List EditedHop} (hgrow : Grow hops)
    (hpages : inOrder → ∀ e ∈ hops, PagesInOrder e.names) :
    ∃ s entries, run first hops = .ok s ∧ Underway inOrder s entries ∧
      ∀ e, Grow (hops ++ [e]) → entries <+: e.entries := by
  induction hops using List.reverseRecOn with
  | nil =>
      obtain ⟨s, hstart, h⟩ := @start_underway inOrder first
      exact ⟨s, [], by rw [run, hstart]; rfl, h, fun _ _ => List.nil_prefix⟩
  | append_singleton hops e ih =>
      obtain ⟨s, entries, hrun, h, hlast⟩ := ih hgrow.of_append.1 fun hinOrder earlier hearlier =>
        hpages hinOrder earlier (List.mem_append_left _ hearlier)
      obtain ⟨call, s', hhop, -, h'⟩ := hop_underway h (hlast e hgrow) fun hinOrder =>
        hpages hinOrder e (List.mem_append_right _ (List.mem_singleton_self e))
      refine ⟨s', e.entries, ?_, h', fun later hlater =>
        hlater.of_append.2 e (List.mem_append_right _ (List.mem_singleton_self e))⟩
      obtain ⟨s₀, hstart, hrest⟩ := Fault.bind_eq_ok.mp hrun
      rw [run, hstart, Fault.ok_bind, Machine.run_concat, hrest, Fault.ok_bind]
      exact Exchange.exec_of_hop hhop

/-- Every hop of such a run is answered. -/
theorem hop_of_split (first : Hop) {hops pre post : List EditedHop} {e : EditedHop}
    (hgrow : Grow hops) (hpages : inOrder → ∀ e ∈ hops, PagesInOrder e.names)
    (heq : hops = pre ++ e :: post) :
    ∃ s call s', run first pre = .ok s ∧ s.hop e.ops e.hop = .ok (call, s') ∧
      e.Answered s.client.locationsCache s'.planner call ∧
      (inOrder → s.client.locationsCache <+: e.names) ∧
      (inOrder → s'.client.locationsCache <+: e.names) := by
  subst heq
  have hgrown : Grow (pre ++ [e]) :=
    hgrow.sublist ((List.singleton_sublist.mpr List.mem_cons_self).append_left pre)
  obtain ⟨s, entries, hrun, h, hlast⟩ := @run_underway inOrder first pre hgrown.of_append.1
    fun hinOrder earlier hearlier => hpages hinOrder earlier (List.mem_append_left _ hearlier)
  obtain ⟨call, s', hhop, hanswered, h'⟩ := hop_underway h (hlast e hgrown) fun hinOrder =>
    hpages hinOrder e (List.mem_append_right _ List.mem_cons_self)
  exact ⟨s, call, s', hrun, hhop, hanswered,
    fun hinOrder => (h.menu hinOrder).trans ((hlast e hgrown).map _), h'.menu⟩

/-- While lines are only added to the locations file, behind the others, and whatever
becomes of the routes file, every hop of every run hands a message on and gets one back:
the server never rejects a request, pages follow what the client has, and a route is
asked for and answered between locations of the file as it is then. -/
theorem answered_while_growing (first : Hop) (hops : List EditedHop) (hgrow : Grow hops) :
    ∀ pre e post, hops = pre ++ e :: post →
      ∃ s call s', run first pre = .ok s ∧ s.hop e.ops e.hop = .ok (call, s') ∧
        e.Answered s.client.locationsCache s'.planner call := by
  intro pre e post heq
  obtain ⟨s, call, s', hrun, hhop, hanswered, -, -⟩ :=
    @hop_of_split False first _ _ _ _ hgrow (fun h => h.elim) heq
  exact ⟨s, call, s', hrun, hhop, hanswered⟩

/-- Two cities, and a third one behind them with a road to it. -/
def twoListed : EditedHop :=
  ⟨.plain, ⟨some (str "London, 5\nBath, 6"), some (str "London, Bath")⟩,
    [(str "London", 5), (str "Bath", 6)], ⟨by decide, by decide, by decide, by decide⟩,
    by decide, by decide⟩

def threeListed : EditedHop :=
  ⟨.plain, ⟨some (str "London, 5\nBath, 6\nLeeds, 2"), some (str "London, Bath\nBath, Leeds")⟩,
    [(str "London", 5), (str "Bath", 6), (str "Leeds", 2)],
    ⟨by decide, by decide, by decide, by decide⟩, by decide, by decide⟩

theorem grow_threeListed : Grow [twoListed, twoListed, twoListed, twoListed, threeListed] := by
  unfold Grow
  decide

theorem answered_while_growing_leeds :
    ∃ s call s', run .plain [twoListed, twoListed, twoListed, twoListed] = .ok s ∧
      s.hop threeListed.ops threeListed.hop = .ok (call, s') ∧
      threeListed.Answered s.client.locationsCache s'.planner call :=
  answered_while_growing .plain _ grow_threeListed
    [twoListed, twoListed, twoListed, twoListed] threeListed [] rfl

/-- A route request is answered by what the plan says of the two names in the menu. -/
def PricesMenu (e : EditedHop) (menu : List Str) (planner : Route.RoutePlanner) (call : Call) :
    Prop :=
  ∀ (request : FactoryMsg) (data : MsgRouteRequestData) (response : Option Msg),
    call = .server (some request.toMsg) response → request.body = .routeRequest data →
    ∃ plan startName endName answer, ∃ reply : FactoryMsg,
      menu[data.startLocation.toNat]? = some startName ∧
      menu[data.endLocation.toNat]? = some endName ∧
      Route.RoutePlanner.Follows planner plan ∧ plan.held = e.entries ∧
      plan.Answers startName endName answer ∧
      response = some reply.toMsg ∧ reply.body = .routeResponse ⟨answer.toUInt64⟩

theorem pricesMenu_of_answered {e : EditedHop} {menu : List Str} {planner : Route.RoutePlanner}
    {call : Call} (h : e.Answered menu planner call) (hmenu : menu <+: e.names) :
    e.PricesMenu menu planner call := by
  rintro request data _ rfl hbody
  obtain ⟨request', reply, hsame, rfl, hanswers⟩ := h
  have hbody' : request'.body = .routeRequest data :=
    Eq.trans (congrArg Msg.body (Option.some.inj hsame)).symm hbody
  have hindex : ∀ {i : Nat} {name : Str}, i < menu.length → e.names[i]? = some name →
      menu[i]? = some name := by
    intro i name hi hname
    obtain ⟨rest, hrest⟩ := hmenu
    rwa [← hrest, List.getElem?_append_left hi] at hname
  rw [hbody'] at hanswers
  generalize hreply : reply.body = body at hanswers
  cases hanswers with
  | @route _ plan startName endName answer hstart hend hstartName hendName hplan hheld hanswer =>
      exact ⟨plan, startName, endName, answer, reply, hindex hstart hstartName,
        hindex hend hendName, hplan, hheld, hanswer, rfl, hreply⟩

/-- If the pages keep the order of the list, the client has a beginning of the list at
any time, and the cost that it gets is that between the two locations it sees. -/
theorem menu_while_growing (first : Hop) (hops : List EditedHop) (hgrow : Grow hops)
    (hpages : ∀ e ∈ hops, PagesInOrder e.names) :
    ∀ pre e post, hops = pre ++ e :: post →
      ∃ s call s', run first pre = .ok s ∧ s.hop e.ops e.hop = .ok (call, s') ∧
        s'.client.locationsCache <+: e.names ∧
        e.PricesMenu s.client.locationsCache s'.planner call := by
  intro pre e post heq
  obtain ⟨s, call, s', hrun, hhop, hanswered, hmenu, hmenu'⟩ :=
    @hop_of_split True first _ _ _ _ hgrow (fun _ => hpages) heq
  exact ⟨s, call, s', hrun, hhop, hmenu' trivial,
    pricesMenu_of_answered hanswered (hmenu trivial)⟩

theorem menu_while_growing_leeds :
    ∃ s call s', run .plain [twoListed, twoListed, twoListed, twoListed] = .ok s ∧
      s.hop threeListed.ops threeListed.hop = .ok (call, s') ∧
      s'.client.locationsCache <+: threeListed.names ∧
      threeListed.PricesMenu s.client.locationsCache s'.planner call :=
  menu_while_growing .plain _ grow_threeListed
    (by
      simp only [List.mem_cons, List.not_mem_nil, or_false]
      rintro e (rfl | rfl | rfl | rfl | rfl) <;> unfold PagesInOrder <;> decide)
    [twoListed, twoListed, twoListed, twoListed] threeListed [] rfl

end EditedHop

end RoutePlanner.System
