/-
# Whether paging ends

The client asks for one page after the other until a response is not marked.  What
makes it go on is a name that did not fit; what makes it stop is that every page
brings it further.  A name too long for any page never gets through, and a
separator inside a name makes the client count one location too many, so that it
asks from behind the list.
-/

import RoutePlanner.System.Paging

namespace RoutePlanner.System

open RoutePlanner.Std
open RoutePlanner.Math
open RoutePlanner.Math.GreedyPages (Asked EndsWithin)
open RoutePlanner.Messages
open RoutePlanner.Messages.MsgLocationsResponseData (countRead)
open RoutePlanner.Comms
open RoutePlanner.Server
open RoutePlanner.Client

namespace Exchange

variable {π : Type} (ops : PlannerOps π)

/-- The server is waiting, and what is on its way to it is a request for the
locations that follow those in the client's cache. -/
structure AsksFor (s : Exchange π) (i : Nat) : Prop where
  turn : s.turn = .server
  cache : s.client.locationsCache.length = i
  request : ∃ now chunks, s.toServer = socket chunks ∧
    Chunk.join chunks = (ClientMsgHandler.locationsRequest now (UInt64.ofNat i)).bytes
  nothing : s.toClient = []

/-- After at most so many requests the client receives a response that is not
marked.  Every one that is marked brings it a location, and its next request starts
behind the one before. -/
def PagesWithin : Nat → Exchange π → Prop
  | 0, _ => False
  | n + 1, s => ∀ hop, ∃ request response start data s₁,
      s.hop ops hop = .ok (.server (some request) (some response), s₁) ∧
      request.getDerivedType .locationsRequest = some start ∧
      response.getDerivedType .locationsResponse = some data ∧
      (data.isPaginated ≠ 0 → ∃ locations, data.getLocations = .ok locations ∧
        locations ≠ [] ∧
        ∀ hop, ∃ (following : MsgLocationsRequestData), ∃ next cache s₂,
          s₁.hop ops hop = .ok (.client (some response) (.returned (some next)) cache, s₂) ∧
          next.body = .locationsRequest following ∧
          start.startLocation < following.startLocation ∧ PagesWithin n s₂)

/-- In every run, whenever the client has asked for the first page, paging ends after
at most so many requests. -/
def PagingEnds (planner : π) (n : Nat) : Prop :=
  ∀ first hops s, run ops planner first hops = .ok s → s.AsksFor 0 → s.PagesWithin ops n

end Exchange

section Lister

variable {π : Type} {names : List Str} {lister : Lister π names}

theorem steady_of_hop {s s' : Exchange π} {hop : Hop} {call : Call}
    (hplanner : lister.Steady s.planner) (h : s.hop lister.ops hop = .ok (call, s')) :
    lister.Steady s'.planner := by
  rcases Exchange.planner_of_hop h with hsame | ⟨received, response, hhandler⟩
  · rwa [hsame]
  · obtain ⟨msg, -, hrest⟩ := Fault.bind_eq_ok.mp hhandler
    obtain ⟨⟨reply, planner⟩, hhandle, heq⟩ := Fault.bind_eq_ok.mp hrest
    obtain ⟨-, rfl⟩ := Prod.mk.inj (Except.ok.inj heq)
    exact ServerMsgHandler.steady_of_handle lister _ hplanner hhandle

/-- The planner of a run lists the same names throughout. -/
theorem steady_of_run {planner : π} (hplanner : lister.Steady planner) {first : Hop}
    {hops : List Hop} {s : Exchange π} (h : Exchange.run lister.ops planner first hops = .ok s) :
    lister.Steady s.planner := by
  rw [Exchange.run, Exchange.start_eq, Fault.ok_bind] at h
  refine @Machine.run_keeps _ _ _ (fun s => lister.Steady s.planner) ?_ _ _ hplanner _ h
  intro s hop s' hs hexec
  obtain ⟨⟨call, s''⟩, hhop, heq⟩ := Fault.bind_eq_ok.mp hexec
  obtain rfl := Except.ok.inj heq
  exact steady_of_hop hs hhop

/-- A request for a position of the list is answered by the page from there on; if
the page is marked, the client takes it and asks from behind what it counts. -/
theorem round_of_asksFor (hsize : ∀ name ∈ names, name.length < 2 ^ 63)
    (hlength : names.length < 2 ^ 63) {s : Exchange π} {i : Nat} (h : s.AsksFor i)
    (hplanner : lister.Steady s.planner) (hi : i < names.length) (hop : Hop) :
    ∃ now data s₁, s.hop lister.ops hop = .ok
        (.server (some (ClientMsgHandler.locationsRequest now (UInt64.ofNat i)).toMsg)
          (some (FactoryMsg.toMsg
            { FactoryMsg.new hop.now .locationsResponse with body := .locationsResponse data })),
          s₁) ∧
      data.Lists (page (names.drop i)).1 ∧
      data.isPaginated = (if (page (names.drop i)).2 then 1 else 0) ∧
      ∀ hop', (page (names.drop i)).2 = true → ∃ cache s₂,
        s₁.hop lister.ops hop' = .ok (.client
          (some (FactoryMsg.toMsg
            { FactoryMsg.new hop.now .locationsResponse with body := .locationsResponse data }))
          (.returned (some (ClientMsgHandler.locationsRequest hop'.now
            (UInt64.ofNat (i + countRead (page (names.drop i)).1))))) cache, s₂) ∧
        s₂.AsksFor (i + countRead (page (names.drop i)).1) ∧ lister.Steady s₂.planner := by
  obtain ⟨hturn, hcache, ⟨now, chunks, hreads, hcut⟩, hnothing⟩ := h
  have hindex : (UInt64.ofNat i).toNat = i :=
    UInt64.toNat_ofNat_of_lt' (Nat.lt_trans hi (Nat.lt_trans hlength (by decide)))
  obtain ⟨data, planner, hhandle, hplanner', hlists, hmark⟩ :=
    @ServerMsgHandler.handleLocationsRequestMsg_spec _ _ lister _ hop.now hplanner hsize
      ⟨UInt64.ofNat i⟩ (hindex.symm ▸ hi)
  rw [hindex] at hlists hmark
  have hserver := @Exchange.serverHop_of_handle _ lister.ops s hop
    (ClientMsgHandler.locationsRequest now (UInt64.ofNat i)) _ chunks planner hcut hreads
    (by rw [ServerMsgHandler.handle_toMsg]; exact hhandle)
  refine ⟨now, data, _, by rw [Exchange.hop, hturn]; exact hserver, hlists, hmark, ?_⟩
  intro hop' hmore
  obtain ⟨locations, hread, hcount, -⟩ :=
    MsgLocationsResponseData.getLocations_countRead hlists
  have hreply := @ClientMsgHandler.handleLocationsResponseMsg_spec hop'.now hop'.user.typed
    s.client data locations hread
  rw [hmark, hmore, if_pos (by decide), List.length_append, hcache, hcount] at hreply
  have hclient := @Exchange.clientHop_of_handle _
    { s with planner, accepted := true, toServer := []
             toClient := socket (hop.network.cut (FactoryMsg.bytes
                { FactoryMsg.new hop.now .locationsResponse with
                  body := .locationsResponse data }))
             turn := .client } hop' _ _ _ _ (hop.network.join_cut _) rfl
    (by rw [ClientMsgHandler.msgHandler_toMsg]; exact hreply)
  rw [Exchange.hop, hnothing]
  refine ⟨_, _, hclient, ⟨rfl, ?_, ⟨hop'.now, hop'.network.cut _, rfl, hop'.network.join_cut _⟩,
    rfl⟩, hplanner'⟩
  show (s.client.locationsCache ++ locations).length = _
  rw [List.length_append, hcache, hcount]

/-- A request for a position behind the list ends the session. -/
theorem hop_of_asksFor_of_le {s : Exchange π} {i : Nat} (h : s.AsksFor i)
    (hplanner : lister.Steady s.planner) (hi : names.length ≤ i) (hi' : i < 2 ^ 64) (hop : Hop) :
    ∃ received s₁, s.hop lister.ops hop = .ok (.server received none, s₁) := by
  obtain ⟨hturn, -, ⟨now, chunks, hreads, hcut⟩, -⟩ := h
  obtain ⟨planner, hhandle, -⟩ := @ServerMsgHandler.handleLocationsRequestMsg_of_le _ _ lister _
    hop.now hplanner ⟨UInt64.ofNat i⟩ ((UInt64.toNat_ofNat_of_lt' hi').symm ▸ hi)
  rw [Exchange.hop, hturn]
  exact ⟨_, _, Exchange.serverHop_of_null hcut hreads
    (by rw [ServerMsgHandler.handle_toMsg]; exact hhandle)⟩

/-- So paging that ends asks for positions of the list only. -/
theorem lt_of_pagesWithin {n : Nat} {s : Exchange π} {i : Nat} (h : s.AsksFor i)
    (hplanner : lister.Steady s.planner) (hi : i < 2 ^ 64)
    (hpages : s.PagesWithin lister.ops n) : i < names.length := by
  cases n with
  | zero => exact hpages.elim
  | succ n =>
      by_contra hle
      obtain ⟨_, _, _, _, _, hanswered, -⟩ := hpages Hop.plain
      obtain ⟨_, _, hhop⟩ :=
        hop_of_asksFor_of_le h hplanner (Nat.le_of_not_lt hle) hi Hop.plain
      rw [hhop] at hanswered
      cases hanswered

/-- A start index that fits into its field is strictly below the next one. -/
theorem startIndex_lt {i count : Nat} (hpos : count ≠ 0) (hfits : i + count < 2 ^ 64) :
    UInt64.ofNat i < UInt64.ofNat (i + count) := by
  rw [UInt64.lt_iff_toNat_lt, UInt64.toNat_ofNat_of_lt' hfits,
    UInt64.toNat_ofNat_of_lt' (Nat.lt_of_le_of_lt (Nat.le_add_right _ _) hfits)]
  exact Nat.lt_add_of_pos_right (Nat.pos_of_ne_zero hpos)

/-- The requests follow the positions that the receiver's count leads to. -/
theorem pagesWithin_iff (hsize : ∀ name ∈ names, name.length < 2 ^ 63)
    (hlength : names.length < 2 ^ 63) (n : Nat) {s : Exchange π} {i : Nat} (h : s.AsksFor i)
    (hplanner : lister.Steady s.planner) (hi : i ≤ names.length + MSG_LOCATIONS_MAX_CHARS) :
    s.PagesWithin lister.ops n ↔
      EndsWithin nameSize MSG_LOCATIONS_MAX_CHARS countRead names n i := by
  induction n generalizing s i with
  | zero => exact Iff.rfl
  | succ n ih =>
      apply Iff.intro
      · intro hpages
        have hlt : i < names.length := by
          refine lt_of_pagesWithin h hplanner ?_ hpages
          simp only [MSG_LOCATIONS_MAX_CHARS] at hi
          omega
        refine ⟨hlt, fun hmore => ?_⟩
        obtain ⟨_, _, _, _, _, hhop', _, hresponse, hmarked⟩ := hpages Hop.plain
        obtain ⟨now, data, s₁, hhop, hlists, hmark, hnext⟩ :=
          round_of_asksFor hsize hlength h hplanner hlt Hop.plain
        rw [hhop] at hhop'
        cases hhop'
        obtain rfl := Option.some.inj hresponse
        have hmore' : (page (names.drop i)).2 = true := hmore
        obtain ⟨locations, hread, hne, hclient⟩ := hmarked (by rw [hmark, hmore']; decide)
        obtain ⟨_, _, _, _, hhop', _, _, hrest⟩ := hclient Hop.plain
        obtain ⟨cache, s₂, hhop₂, hasks, hplanner₂⟩ := hnext Hop.plain hmore'
        rw [hhop₂] at hhop'
        cases hhop'
        obtain ⟨_, hread', hcount, hmax⟩ := MsgLocationsResponseData.getLocations_countRead hlists
        obtain rfl := Except.ok.inj (hread.symm.trans hread')
        refine ⟨?_, (ih hasks hplanner₂ (by omega)).mp hrest⟩
        show countRead (page (names.drop i)).1 ≠ 0
        rw [← hcount]
        exact (List.length_pos_iff.mpr hne).ne'
      · rintro ⟨hlt, hends⟩ hop
        obtain ⟨now, data, s₁, hhop, hlists, hmark, hnext⟩ :=
          round_of_asksFor hsize hlength h hplanner hlt hop
        refine ⟨_, _, ⟨UInt64.ofNat i⟩, data, s₁, hhop, rfl, rfl, fun hmark' => ?_⟩
        have hmore : (page (names.drop i)).2 = true := by
          by_contra hlast
          rw [hmark, if_neg hlast] at hmark'
          exact hmark' rfl
        obtain ⟨hpos, hrest⟩ := hends hmore
        change countRead (page (names.drop i)).1 ≠ 0 at hpos
        obtain ⟨locations, hread, hcount, hmax⟩ :=
          MsgLocationsResponseData.getLocations_countRead hlists
        refine ⟨locations, hread, ?_, fun hop' => ?_⟩
        · rintro rfl
          exact hpos hcount.symm
        · obtain ⟨cache, s₂, hhop₂, hasks, hplanner₂⟩ := hnext hop' hmore
          refine ⟨⟨UInt64.ofNat (i + countRead (page (names.drop i)).1)⟩, _, cache, s₂, hhop₂, rfl,
            ?_, (ih hasks hplanner₂ (by omega)).mpr hrest⟩
          simp only [MSG_LOCATIONS_MAX_CHARS] at hmax
          exact startIndex_lt hpos (by omega)

end Lister

/-- Some run comes to the request for the first page. -/
theorem exists_asksFor {π : Type} (ops : PlannerOps π) (planner : π) :
    ∃ hops s, Exchange.run ops planner Hop.plain hops = .ok s ∧ s.AsksFor 0 := by
  have hserver : Exchange.hop ops ⟨planner, false, .create,
      socket (Network.whole.cut (FactoryMsg.new 0 .statusRequest).bytes), [], .server⟩ Hop.plain =
        .ok (_, _) :=
    @Exchange.serverHop_of_handle _ ops _ Hop.plain (FactoryMsg.new 0 .statusRequest)
      (FactoryMsg.new 0 .statusResponse) _ planner (Network.whole.join_cut _) rfl rfl
  have hclient : Exchange.hop ops ⟨planner, true, .create, [],
      [] ++ socket (Network.whole.cut (FactoryMsg.new 0 .statusResponse).bytes), .client⟩
        Hop.plain = .ok (_, _) :=
    @Exchange.clientHop_of_handle _ _ Hop.plain (FactoryMsg.new 0 .statusResponse)
      (FactoryMsg.new 0 .locationsRequest) _ ⟨[]⟩ (Network.whole.join_cut _) rfl rfl
  refine ⟨[Hop.plain, Hop.plain],
    ⟨planner, true, ⟨[]⟩, socket (Network.whole.cut (FactoryMsg.new 0 .locationsRequest).bytes),
      [], .server⟩, ?_, rfl, rfl, ⟨0, _, rfl, Network.whole.join_cut _⟩, rfl⟩
  rw [Exchange.run, Exchange.start_eq, Fault.ok_bind]
  refine Fault.bind_eq_ok.mpr ⟨_, Exchange.exec_of_hop hserver, ?_⟩
  exact Fault.bind_eq_ok.mpr ⟨_, Exchange.exec_of_hop hclient, rfl⟩

section Ends

variable {π : Type} {names : List Str}

/-- In every run paging ends as it ends on the list. -/
theorem pagingEnds_iff_endsWithin (lister : Lister π names)
    (hsize : ∀ name ∈ names, name.length < 2 ^ 63) (hlength : names.length < 2 ^ 63)
    {planner : π} (hplanner : lister.Steady planner) :
    Exchange.PagingEnds lister.ops planner names.length ↔
      EndsWithin nameSize MSG_LOCATIONS_MAX_CHARS countRead names names.length 0 := by
  apply Iff.intro
  · intro hends
    obtain ⟨hops, s, hrun, hasks⟩ := exists_asksFor lister.ops planner
    exact (pagesWithin_iff hsize hlength names.length hasks (steady_of_run hplanner hrun)
      (Nat.zero_le _)).mp (hends _ _ _ hrun hasks)
  · intro hends first hops s hrun hasks
    exact (pagesWithin_iff hsize hlength names.length hasks (steady_of_run hplanner hrun)
      (Nat.zero_le _)).mpr hends

/-- No page is asked for from behind the list, by a client that counts separators. -/
def NoneBehind (names : List Str) : Prop :=
  ∀ i, Asked nameSize MSG_LOCATIONS_MAX_CHARS countRead names i → i < names.length

/-- Without a separator in the names nothing is counted that is not there. -/
theorem noneBehind_of_no_sep (hne : names ≠ [])
    (hsep : ∀ name ∈ names, MSG_LOCATIONS_SEP_CHAR ∉ name) : NoneBehind names := by
  intro i
  refine GreedyPages.lt_of_asked_of_exact (fun page hpage => ?_) hne
  exact MsgLocationsResponseData.countRead_eq_length fun name hname =>
    hsep name (hpage.subset hname)

theorem endsWithin_iff_lastFits :
    EndsWithin nameSize MSG_LOCATIONS_MAX_CHARS countRead names names.length 0 ↔
      LastFits names ∧ NoneBehind names := by
  rw [GreedyPages.endsWithin_iff MsgLocationsResponseData.length_le_countRead]
  refine and_congr_left fun _ => forall₂_congr fun name _ => ?_
  exact Nat.succ_le_succ_iff

end Ends

/-- A name with a separator in it and one that does not fit beside it: the client
takes the first for two. -/
example : ¬ NoneBehind [str "A;B", List.replicate 99 97] := fun h =>
  absurd (h 2 (.next .first (by decide))) (by decide)

section File

variable {locationFile : Route.File} {entries : List Route.Entry}

/-- Over any locations file that loads, paging ends, in every run and after at most
as many requests as there are locations, exactly when the last name has at most 99
characters and no page is asked for from behind the list. -/
theorem pagingEnds_iff (h : Loads locationFile entries) (routeFile : Route.File) :
    Exchange.PagingEnds (fileOps locationFile routeFile) Route.RoutePlanner.create
        (entries.map Prod.fst).length ↔
      LastFits (entries.map Prod.fst) ∧ NoneBehind (entries.map Prod.fst) := by
  rw [← endsWithin_iff_lastFits]
  exact pagingEnds_iff_endsWithin (.ofFile h.parses routeFile) h.size_names_lt h.length_names_lt
    (Or.inl .create)

end File

theorem pagingEnds_iff_twoPages :
    Exchange.PagingEnds (fileOps twoPagesFile none) Route.RoutePlanner.create 2 ↔
      LastFits (twoPages.map Prod.fst) ∧ NoneBehind (twoPages.map Prod.fst) :=
  pagingEnds_iff loads_twoPagesFile none

/-! ## A name that fits on no page -/

def longName : List Route.Entry := [(List.replicate 100 97, 1)]

def longNameFile : Route.File := some (List.replicate 100 97 ++ str ", 1")

theorem loads_longNameFile : Loads longNameFile longName where
  parses := by decide +kernel
  ne_nil := by decide
  length_lt := by decide
  size_lt := by decide

/-- The only response is empty and marked, and the client asks for the same page
again. -/
theorem not_pagingEnds_longNameFile :
    Loads longNameFile longName ∧
      ¬ Exchange.PagingEnds (fileOps longNameFile none) Route.RoutePlanner.create
        longName.length := by
  refine ⟨loads_longNameFile, fun hends => ?_⟩
  have hlist := (pagingEnds_iff_endsWithin (.ofFile loads_longNameFile.parses none)
    loads_longNameFile.size_names_lt loads_longNameFile.length_names_lt (Or.inl .create)).mp hends
  exact absurd (GreedyPages.size_getLast_le_of_endsWithin hlist (List.replicate 100 97) rfl)
    (by decide)

end RoutePlanner.System
