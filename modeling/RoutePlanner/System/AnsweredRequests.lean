/-
# Whether every request is answered

As long as the names that the server lists stay the same and have no separator in them,
no request of the client asks for anything the server does not have, and every one is
answered with the message that belongs to it, whatever the network and the user do.
One thing is left that can go wrong: the search for a route keeps positions in an
`int`.  With more locations than that can count the user may ask for one that the
search never finds.  The client comes to ask if the last name fits on a page.
-/

import RoutePlanner.System.Paging
import RoutePlanner.Server.RouteRequests

namespace RoutePlanner.System

open RoutePlanner.Std
open RoutePlanner.Messages
open RoutePlanner.Comms
open RoutePlanner.Server
open RoutePlanner.Client
open RoutePlanner.Route.RoutePlanner (FirstAt)

/-- Whatever has happened, the next hop hands a message on and gets one back: the
server's is the response that belongs to the request, and the client asks for a route
only with as many entries in its cache as there are names. -/
def ExchangeAnswered {π : Type} (ops : PlannerOps π) (planner : π) (names : List Str) : Prop :=
  ∀ first hops hop, ∃ s call s', Exchange.run ops planner first hops = .ok s ∧
    s.hop ops hop = .ok (call, s') ∧ call.Answered names

section Answered

variable {π : Type} {locations : LocationNames}

/-- A planner that finds every cost answers every request. -/
theorem exchangeAnswered_of_steady (steady : SteadyPlanner π locations.names) :
    ExchangeAnswered steady.ops steady.initial locations.names := by
  intro first hops hop
  obtain ⟨s, hrun, h⟩ := @run_refines _ _ steady first hops
  obtain ⟨call, s', hhop, -, hanswered, -⟩ := hop_refines h hop
  exact ⟨s, call, s', hrun, hhop, hanswered⟩

/-- So does any, if the last name fits on no page: it is never asked for a cost. -/
theorem exchangeAnswered_of_not_lastFits {lister : Lister π locations.names} {planner : π}
    (hplanner : lister.Steady planner) (hlast : ¬ LastFits locations.names) :
    ExchangeAnswered lister.ops planner locations.names := by
  intro first hops hop
  obtain ⟨s, phase, hrun, h, hpaging⟩ := paging_of_run hplanner hlast first hops
  obtain ⟨call, s', hhop⟩ := hop_returns_of_ne h hop hpaging.ne_routeAsked
  exact ⟨s, call, s', hrun, hhop, (refines_of_hop h hhop).2.1⟩

end Answered

/-! ## What the client asks for -/

/-- A route request of the client is what the prompts make of its cache. -/
theorem getRouteRequest_of_msgHandler {now : UInt64} {typed : List Str → List UInt64}
    {client client' : ClientMsgHandler} {received : Option Msg} {request : FactoryMsg}
    (h : client.msgHandler now typed received = .ok (.returned (some request), client'))
    (htype : request.type = .routeRequest) :
    client'.getRouteRequest now typed = .returned (some request) := by
  obtain ⟨msg, -, hrest⟩ := Fault.bind_eq_ok.mp h
  split at hrest
  · obtain ⟨_, -, hreturn⟩ := Fault.bind_eq_ok.mp hrest
    obtain ⟨hreply, -⟩ := Prod.mk.inj (Except.ok.inj hreturn)
    obtain rfl := Option.some.inj (Reply.returned.inj hreply)
    cases htype
  · split at hrest
    · obtain ⟨data, -, hhandle⟩ := Fault.bind_eq_ok.mp hrest
      obtain ⟨locations, -, hreturn⟩ := Fault.bind_eq_ok.mp hhandle
      dsimp only at hreturn
      split at hreturn
      · obtain ⟨hreply, -⟩ := Prod.mk.inj (Except.ok.inj hreturn)
        obtain rfl := Option.some.inj (Reply.returned.inj hreply)
        cases htype
      · obtain ⟨hreply, rfl⟩ := Prod.mk.inj (Except.ok.inj hreturn)
        exact hreply
    · split at hrest
      · obtain ⟨_, -, hreturn⟩ := Fault.bind_eq_ok.mp hrest
        obtain ⟨hreply, -⟩ := Prod.mk.inj (Except.ok.inj hreturn)
        obtain rfl := Option.some.inj (Reply.returned.inj hreply)
        cases htype
      · obtain ⟨hreply, -⟩ := Prod.mk.inj (Except.ok.inj hrest)
        cases Reply.returned.inj hreply

namespace Exchange

variable {π : Type} {ops : PlannerOps π}

/-- What the client sends is on its way behind what was. -/
theorem clientHop_eq_ok {s s' : Exchange π} {hop : Hop} {received : Option Msg}
    {request : FactoryMsg} {cache : List Str}
    (h : s.clientHop hop = .ok (.client received (.returned (some request)) cache, s')) :
    s'.client.locationsCache = cache ∧
      s'.toServer = s.toServer ++ socket (hop.network.cut request.bytes) ∧
      s.client.msgHandler hop.now hop.user.typed received =
        .ok (.returned (some request), s'.client) := by
  obtain ⟨wait, -, hwait⟩ := Fault.bind_eq_ok.mp h
  cases wait with
  | blocked => cases hwait
  | threw => cases hwait
  | returned msgReceived toClient =>
      obtain ⟨⟨reply, client⟩, hhandler, hrest⟩ := Fault.bind_eq_ok.mp hwait
      dsimp only at hrest
      split at hrest
      · rename_i msg
        rw [TcpSession.sendMsg_toMsg, Fault.ok_bind] at hrest
        simp only [if_neg (MsgType.length_ne_zero _)] at hrest
        obtain ⟨hcall, rfl⟩ := Prod.mk.inj (Except.ok.inj hrest)
        injection hcall with hreceived hreply hcache
        injection hreply with hreply
        obtain rfl := Option.some.inj hreply
        subst hreceived
        exact ⟨hcache, rfl, hhandler⟩
      · rename_i hother
        obtain ⟨hcall, -⟩ := Prod.mk.inj (Except.ok.inj hrest)
        injection hcall with _ hreply
        exact absurd hreply (hother request)

theorem clientHop_of_hop {s s' : Exchange π} {hop : Hop} {received : Option Msg} {reply : Reply}
    {cache : List Str} (h : s.hop ops hop = .ok (.client received reply cache, s')) :
    s.turn = .client ∧ s.clientHop hop = .ok (.client received reply cache, s') := by
  rw [Exchange.hop] at h
  split at h
  · obtain ⟨wait, -, hwait⟩ := Fault.bind_eq_ok.mp h
    cases wait with
    | blocked => cases hwait
    | threw => cases hwait
    | returned msgReceived toServer =>
        obtain ⟨⟨response, planner⟩, -, hrest⟩ := Fault.bind_eq_ok.mp hwait
        cases response with
        | none => cases hrest
        | some msg =>
            obtain ⟨⟨bytesSent, bytes⟩, -, hsent⟩ := Fault.bind_eq_ok.mp hrest
            dsimp only at hsent
            split at hsent <;> cases hsent
  · rename_i hturn
    exact ⟨hturn, h⟩
  · cases h

end Exchange

/-- When the client asks for a route, its request is all that is on its way, and its menu
is as long as the server's list. -/
theorem asked_of_hop {π : Type} {locations : LocationNames} {lister : Lister π locations.names}
    {s s₁ : Exchange π} {phase : Phase} (hs : Follows lister s phase) {hop : Hop}
    {received : Option Msg} {request : FactoryMsg} {cache : List Str}
    (hhop : s.hop lister.ops hop = .ok (.client received (.returned (some request)) cache, s₁))
    (htype : request.type = .routeRequest) :
    Follows lister s₁ (.routeAsked cache) ∧
      s₁.toServer = socket (hop.network.cut request.bytes) ∧ s₁.toClient = [] ∧
      ClientMsgHandler.getRouteRequest hop.now hop.user.typed ⟨cache⟩ =
        .returned (some request) := by
  obtain ⟨hs₁, -, hroute⟩ := refines_of_hop hs hhop
  rw [(hroute cache).mp ⟨received, request, rfl, htype⟩] at hs₁
  obtain ⟨hturn, hclient⟩ := Exchange.clientHop_of_hop hhop
  obtain ⟨hcache, htoServer, hhandler⟩ := Exchange.clientHop_eq_ok hclient
  have hnothing : s.toServer = [] := by
    obtain ⟨-, chunks, -, -, hreads⟩ := hs.message
    rw [← hs.turn, hturn] at hreads
    exact (Prod.mk.inj hreads).1
  refine ⟨hs₁, by rw [htoServer, hnothing, List.nil_append], ?_, ?_⟩
  · obtain ⟨-, chunks, -, -, hreads⟩ := hs₁.message
    exact (Prod.mk.inj hreads).2
  · exact congrArg ClientMsgHandler.mk hcache ▸ getRouteRequest_of_msgHandler hhandler htype

/-- A user who takes the location at this position twice, if the menu is that long. -/
def User.picking (i : Nat) : User where
  typed menu := if i < menu.length then [UInt64.ofNat i, UInt64.ofNat i] else [0, 0]
  chooses menu hmenu := by
    have hpos := List.length_pos_iff.mpr hmenu
    split
    · rename_i hi
      have hlt : (UInt64.ofNat i).toNat < menu.length := by
        rw [UInt64.toNat_ofNat']
        exact Nat.lt_of_le_of_lt (Nat.mod_le ..) hi
      have hbelow : ClientMsgHandler.below menu.length (UInt64.ofNat i) = true :=
        decide_eq_true hlt
      rw [List.filter_cons_of_pos hbelow, List.filter_cons_of_pos hbelow]
      exact Nat.le_refl 2
    · simp [ClientMsgHandler.below, hpos]

/-- The request of this user. -/
theorem getRouteRequest_picking {now : UInt64} {i : Nat} {cache : List Str}
    (hi : i < cache.length) (hlt : i < 2 ^ 64) :
    ClientMsgHandler.getRouteRequest now (User.picking i).typed ⟨cache⟩ =
      .returned (some { FactoryMsg.new now .routeRequest with
        body := .routeRequest ⟨UInt64.ofNat i, UInt64.ofNat i⟩ }) := by
  have hindex : (UInt64.ofNat i).toNat = i := UInt64.toNat_ofNat_of_lt' hlt
  simp only [ClientMsgHandler.getRouteRequest, User.picking, if_pos hi,
    ClientMsgHandler.askLocation, hindex, if_neg (Nat.not_le_of_lt hi)]

/-! ## Positions that do not fit -/

section File

variable {locationFile routeFile : Route.File} {entries : List Route.Entry}

/-- If there are more locations than an `int` can count, one that it cannot count stands
in the first line of its name. -/
def NewBeyond (entries : List Route.Entry) : Prop :=
  2 ^ 31 < entries.length →
    ∃ name i, FirstAt entries name i ∧ 2 ^ 31 ≤ i.val ∧ i.val < 2 ^ 32

theorem newBeyond_of_nodup (hnames : (entries.map Prod.fst).Nodup) : NewBeyond entries :=
  fun hn => ⟨_, ⟨2 ^ 31, hn⟩, Route.RoutePlanner.firstAt_of_nodup hnames _, Nat.le_refl _,
    Nat.pow_lt_pow_right Nat.one_lt_two (by decide)⟩

/-- The route request for such a location fails. -/
theorem handle_fault (hfile : Route.fileEntries locationFile = .ok entries)
    {planner : Route.RoutePlanner} (hplanner : Serving entries routeFile planner) (now : UInt64)
    {name : Str} {i : Fin entries.length} (hi : FirstAt entries name i) (hle : 2 ^ 31 ≤ i.val)
    (hlt : i.val < 2 ^ 32) {msg : FactoryMsg}
    (hbody : msg.body = .routeRequest ⟨UInt64.ofNat i, UInt64.ofNat i⟩) :
    ServerMsgHandler.handle (fileOps locationFile routeFile) now planner msg.toMsg =
      .error .indexOutOfRange := by
  have hindex : (UInt64.ofNat i).toNat = i :=
    UInt64.toNat_ofNat_of_lt' (hlt.trans (by decide))
  obtain ⟨planner', hplanner', hhandle⟩ := @handleRouteRequestMsg_ofFile _ routeFile _ hfile _
    hplanner now ⟨UInt64.ofNat i, UInt64.ofNat i⟩ i i hindex hindex
  rw [hi.name_eq, Route.RoutePlanner.getRouteCost_fault hplanner'.holds hi hle hlt] at hhandle
  rw [ServerMsgHandler.handle_toMsg, hbody]
  exact hhandle

/-- If the last name fits, a user who picks it gets no answer. -/
theorem not_exchangeAnswered_of_first (h : Loads locationFile entries)
    (hsep : ∀ entry ∈ entries, MSG_LOCATIONS_SEP_CHAR ∉ entry.1) (routeFile : Route.File)
    (hlast : LastFits (entries.map Prod.fst)) {name : Str} {i : Fin entries.length}
    (hi : FirstAt entries name i) (hle : 2 ^ 31 ≤ i.val) (hlt : i.val < 2 ^ 32) :
    ¬ ExchangeAnswered (fileOps locationFile routeFile) Route.RoutePlanner.create
      (entries.map Prod.fst) := by
  intro hanswered
  let locations := LocationNames.ofFile h hsep
  let lister : Lister Route.RoutePlanner locations.names := .ofFile h.parses routeFile
  let hop : Hop := ⟨0, .whole, .picking i⟩
  obtain ⟨hops, s, phase, call, s₁, cache, hrun, hs, hhop, received, request, rfl, htype⟩ :=
    @exists_asksRoute _ locations lister _ (Or.inl .create) hlast hop
  obtain ⟨hs₁, htoServer, htoClient, hmenu⟩ := asked_of_hop hs hhop htype
  have hlength : cache.length = entries.length :=
    Eq.trans (show cache.length = locations.names.length from hs₁.possible) (List.length_map _)
  rw [getRouteRequest_picking (hlength.symm ▸ i.isLt) (by omega)] at hmenu
  obtain rfl := Option.some.inj (Reply.returned.inj hmenu)
  -- the next hop is the server's, and its handler fails
  have hfault : s₁.hop (fileOps locationFile routeFile) hop = .error .indexOutOfRange := by
    rw [Exchange.hop, hs₁.turn]
    exact Exchange.serverHop_of_fault (hop.network.join_cut _) htoServer
      (handle_fault h.parses hs₁.planner _ hi hle hlt rfl)
  obtain ⟨s₁', call', s₂, hrun₁, hhop₁, -⟩ := hanswered hop (hops ++ [hop]) hop
  change Exchange.run (fileOps locationFile routeFile) _ _ _ = _ at hrun
  rw [Exchange.run_concat, hrun, Fault.ok_bind] at hrun₁
  obtain rfl := Except.ok.inj ((Exchange.exec_of_hop hhop).symm.trans hrun₁)
  rw [hfault] at hhop₁
  cases hhop₁

/-- Over a locations file that loads, with no separator in a name, and any routes file:
every request of every run is answered if there are at most `2 ^ 31` locations, or the
last name fits on no page; and otherwise not, if a location behind them stands in the
first line of its name. -/
theorem exchangeAnswered_iff (h : Loads locationFile entries)
    (hsep : ∀ entry ∈ entries, MSG_LOCATIONS_SEP_CHAR ∉ entry.1) (routeFile : Route.File) :
    (entries.length ≤ 2 ^ 31 ∨ ¬ LastFits (entries.map Prod.fst) →
        ExchangeAnswered (fileOps locationFile routeFile) Route.RoutePlanner.create
          (entries.map Prod.fst)) ∧
      (NewBeyond entries →
        (ExchangeAnswered (fileOps locationFile routeFile) Route.RoutePlanner.create
            (entries.map Prod.fst) ↔
          entries.length ≤ 2 ^ 31 ∨ ¬ LastFits (entries.map Prod.fst))) := by
  have hanswered : entries.length ≤ 2 ^ 31 ∨ ¬ LastFits (entries.map Prod.fst) →
      ExchangeAnswered (fileOps locationFile routeFile) Route.RoutePlanner.create
        (entries.map Prod.fst) := by
    rintro (hn | hlast)
    · exact @exchangeAnswered_of_steady _ (.ofFile h hsep) (.ofFile h.parses routeFile hn)
    · exact @exchangeAnswered_of_not_lastFits _ (.ofFile h hsep) (.ofFile h.parses routeFile) _
        (Or.inl .create) hlast
  refine ⟨hanswered, fun hnew => ⟨fun hall => ?_, hanswered⟩⟩
  by_contra hneither
  obtain ⟨hmany, hlast⟩ := not_or.mp hneither
  obtain ⟨name, i, hi, hle, hlt⟩ := hnew (Nat.lt_of_not_le hmany)
  exact not_exchangeAnswered_of_first h hsep routeFile (not_not.mp hlast) hi hle hlt hall

end File

theorem exchangeAnswered_iff_twoPages :
    ExchangeAnswered (fileOps twoPagesFile none) Route.RoutePlanner.create
      (twoPages.map Prod.fst) :=
  ((exchangeAnswered_iff loads_twoPagesFile (by decide) none).2
    (newBeyond_of_nodup (by decide))).mpr (Or.inl (by decide))

/-! ## One location too many -/

theorem length_townName_le {k : Nat} (hk : k < 2 ^ 62) : (townName k).length ≤ 99 := by
  have hlog : Nat.log 10 (k + 1) < 99 :=
    Nat.log_lt_of_lt_pow (Nat.succ_ne_zero k) (Nat.lt_of_le_of_lt hk (by decide))
  rw [townName, List.length_map, Nat.length_digits 10 (k + 1) (by decide) (Nat.succ_ne_zero k)]
  exact hlog

theorem name_of_mem_towns {n : Nat} {entry : Route.Entry} (h : entry ∈ (towns n).map Route.toEntry) :
    ∃ k < n, entry.1 = townName k := by
  obtain ⟨_, hmem, rfl⟩ := List.mem_map.mp h
  obtain ⟨k, hk, rfl⟩ := List.mem_map.mp hmem
  exact ⟨k, List.mem_range.mp hk, rfl⟩

theorem loads_townsFile {n : Nat} (hpos : 0 < n) (hn : n < 2 ^ 62) :
    Loads (townsFile n) ((towns n).map Route.toEntry) := by
  refine loads_of_wellFormed (wellFormed_townsFile hn) (List.ne_nil_of_length_pos ?_) ?_
  · rwa [length_towns]
  · rw [length_towns]
    exact hn.trans (by decide)

/-- The user takes the last of one town more than an `int` can count. -/
theorem not_exchangeAnswered_townsFile :
    Loads (townsFile (2 ^ 31 + 1)) ((towns (2 ^ 31 + 1)).map Route.toEntry) ∧
      (∀ entry ∈ (towns (2 ^ 31 + 1)).map Route.toEntry, MSG_LOCATIONS_SEP_CHAR ∉ entry.1) ∧
      ¬ ExchangeAnswered (fileOps (townsFile (2 ^ 31 + 1)) none) Route.RoutePlanner.create
        (((towns (2 ^ 31 + 1)).map Route.toEntry).map Prod.fst) := by
  have h := @loads_townsFile (2 ^ 31 + 1) (Nat.succ_pos _) (by decide)
  have hsep : ∀ entry ∈ (towns (2 ^ 31 + 1)).map Route.toEntry,
      MSG_LOCATIONS_SEP_CHAR ∉ entry.1 := by
    intro entry hentry
    obtain ⟨k, -, hname⟩ := name_of_mem_towns hentry
    exact hname ▸ not_mem_townName (by decide)
  have hlast : LastFits (((towns (2 ^ 31 + 1)).map Route.toEntry).map Prod.fst) := by
    refine lastFits_of_short fun entry hentry => ?_
    obtain ⟨k, hk, hname⟩ := name_of_mem_towns hentry
    exact hname ▸ length_townName_le (hk.trans (by decide))
  have hlength : 2 ^ 31 < ((towns (2 ^ 31 + 1)).map Route.toEntry).length := by
    rw [List.length_map, length_towns]
    exact Nat.lt_succ_self _
  refine ⟨h, hsep, ?_⟩
  obtain ⟨name, i, hi, hle, hlt⟩ := newBeyond_of_nodup
    (@wellFormed_townsFile (2 ^ 31 + 1) (by decide)).names_toEntry hlength
  exact not_exchangeAnswered_of_first h hsep none hlast hi hle hlt

end RoutePlanner.System
