/-
# Requests while the files are edited

Both files may change between any two requests.  The server then answers by the
plan that its planner follows, which every request for locations or a route first
refreshes: the locations are those held then, and a route cost is the plan's.  The
plan is all that is left of the past, and it is a function of the files alone, so
no address, no order of insertion and no earlier session enters an answer.
-/

import RoutePlanner.Route.RouteAnswers
import RoutePlanner.Server.FilePlanner

namespace RoutePlanner.Server

open RoutePlanner.Std
open RoutePlanner.Messages
open RoutePlanner.Route
open RoutePlanner.Route.RoutePlanner (Follows)

/-- A message with the id of its class, the files as they are when it is handled, and
the time. -/
structure EditedRequest where
  now : UInt64
  files : Edit
  msg : Msg
  id_eq : msg.header.id = msg.type.id

namespace EditedRequest

/-- What is answered, and the planner afterwards. -/
def handle (planner : RoutePlanner) (request : EditedRequest) :
    Except Fault (Option FactoryMsg × RoutePlanner) :=
  ServerMsgHandler.handle (fileOps request.files.locationFile request.files.routeFile) request.now
    planner request.msg

/-- The handler as a step. -/
def exec (planner : RoutePlanner) (request : EditedRequest) : Except Fault RoutePlanner := do
  let (_, planner) ← request.handle planner
  return planner

/-- The plan after a request: it is refreshed by those that ask the planner. -/
def next (plan : Plan) (request : EditedRequest) : Plan :=
  match request.msg.body with
  | .locationsRequest _ | .routeRequest _ => plan.next request.files
  | _ => plan

/-- The greedy page of the names from the start on, or null behind the last one. -/
def ListsFrom (names : List Str) (now : UInt64) (start : Nat) (response : Option FactoryMsg) :
    Prop :=
  if start < names.length then
    ∃ data : MsgLocationsResponseData, data.Lists (page (names.drop start)).1 ∧
      data.isPaginated = (if (page (names.drop start)).2 then 1 else 0) ∧
      response = some { FactoryMsg.new now .locationsResponse with body := .locationsResponse data }
  else response = none

/-- The plan's route cost for the names at two positions, or null if there is no such
position. -/
def CostsRoute (plan : Plan) (now : UInt64) (start stop : Nat) (response : Option FactoryMsg) :
    Prop :=
  if start < plan.held.length ∧ stop < plan.held.length then
    ∃ startName endName answer, (plan.held.map Prod.fst)[start]? = some startName ∧
      (plan.held.map Prod.fst)[stop]? = some endName ∧ plan.Answers startName endName answer ∧
      response = some { FactoryMsg.new now .routeResponse with
        body := .routeResponse ⟨answer.toUInt64⟩ }
  else response = none

/-- What a plan, refreshed by the request, says that the response is. -/
def Answered (plan : Plan) (request : EditedRequest) (response : Option FactoryMsg) : Prop :=
  match request.msg.body with
  | .statusRequest => response = some (FactoryMsg.new request.now .statusResponse)
  | .locationsRequest data =>
      ListsFrom (plan.held.map Prod.fst) request.now data.startLocation.toNat response
  | .routeRequest data =>
      CostsRoute plan request.now data.startLocation.toNat data.endLocation.toNat response
  | _ => response = none

end EditedRequest

/-- The lines of a locations file all parse, and neither their number nor a cost nor a
name is too large. -/
structure Readable (file : File) (entries : List Entry) : Prop where
  parses : fileEntries file = .ok entries
  length_le : entries.length ≤ 2 ^ 31
  cost_le : ∀ entry ∈ entries, entry.2.toNat ≤ INT_MAX
  size_lt : ∀ entry ∈ entries, entry.1.length < 2 ^ 63

/-- The same of what a plan holds. -/
structure Small (plan : Plan) : Prop where
  fits : plan.Fits
  size_lt : ∀ entry ∈ plan.held, entry.1.length < 2 ^ 63

theorem small_empty : Small Plan.empty :=
  ⟨⟨Nat.zero_le _, nofun⟩, nofun⟩

/-- A plan holds what it held or what the file says. -/
theorem Small.refresh {plan : Plan} (h : Small plan) {file : File} {entries : List Entry}
    (hfile : Readable file entries) (routeFile : File) :
    Small (plan.refresh entries routeFile) := by
  have hheld : (plan.refresh entries routeFile).held = plan.held ∨
      (plan.refresh entries routeFile).held = entries := by
    show (Route.refresh plan.held entries).2 = _ ∨ (Route.refresh plan.held entries).2 = _
    rw [Route.refresh]
    split
    · exact Or.inl rfl
    · exact Or.inr rfl
  rcases hheld with heq | heq
  · exact ⟨h.fits.of_held heq, heq ▸ h.size_lt⟩
  · refine ⟨⟨?_, ?_⟩, ?_⟩
    · rw [heq]
      exact hfile.length_le
    · rw [heq]
      exact hfile.cost_le
    · rw [heq]
      exact hfile.size_lt

namespace EditedRequest

variable {planner : RoutePlanner} {plan : Plan}

/-- A locations request over a planner that lists names. -/
theorem handleLocationsRequestMsg_of_names {ops : PlannerOps RoutePlanner}
    {planner' : RoutePlanner} {names : List Str}
    (hnames : ops.getLocationNames planner = .ok (names, planner'))
    (hsize : ∀ name ∈ names, name.length < 2 ^ 63) (now : UInt64)
    (request : MsgLocationsRequestData) :
    ∃ response, ServerMsgHandler.handleLocationsRequestMsg ops now planner request =
        .ok (response, planner') ∧ ListsFrom names now request.startLocation.toNat response := by
  rw [ServerMsgHandler.handleLocationsRequestMsg, hnames, Fault.ok_bind]
  by_cases hstart : request.startLocation.toNat < names.length
  · obtain ⟨data, hadd, hlists, hpaginated⟩ := MsgLocationsResponseData.addLocations_create
      (names.drop request.startLocation.toNat) fun name hname =>
        hsize name (List.mem_of_mem_drop hname)
    refine ⟨some { FactoryMsg.new now .locationsResponse with body := .locationsResponse data },
      ?_, ?_⟩
    · simp only [if_pos hstart, hadd, Fault.ok_bind, Fault.pure_eq_ok]
    · rw [ListsFrom, if_pos hstart]
      exact ⟨data, hlists, hpaginated, rfl⟩
  · refine ⟨none, ?_, ?_⟩
    · simp only [if_neg hstart, Fault.pure_eq_ok]
    · rw [ListsFrom, if_neg hstart]

/-- A route request over a planner that lists the names of a plan and then follows it. -/
theorem handleRouteRequestMsg_of_names {ops : PlannerOps RoutePlanner} {planner' : RoutePlanner}
    (hcost : ops.getRouteCost = RoutePlanner.getRouteCost)
    (hnames : ops.getLocationNames planner = .ok (plan.held.map Prod.fst, planner'))
    (hplan : Follows planner' plan) (hfits : plan.Fits) (now : UInt64)
    (request : MsgRouteRequestData) :
    ∃ response, ServerMsgHandler.handleRouteRequestMsg ops now planner request =
        .ok (response, planner') ∧
      CostsRoute plan now request.startLocation.toNat request.endLocation.toNat response := by
  have hlength : (plan.held.map Prod.fst).length = plan.held.length := List.length_map _
  rw [ServerMsgHandler.handleRouteRequestMsg, hnames, Fault.ok_bind]
  by_cases hindices : request.startLocation.toNat < plan.held.length ∧
      request.endLocation.toNat < plan.held.length
  · have hstart := hlength.symm ▸ hindices.1
    have hend := hlength.symm ▸ hindices.2
    obtain ⟨answer, hroute, hanswers⟩ := hplan.answers hfits
      (plan.held.map Prod.fst)[request.startLocation.toNat]
      (plan.held.map Prod.fst)[request.endLocation.toNat]
    refine ⟨some { FactoryMsg.new now .routeResponse with
      body := .routeResponse ⟨answer.toUInt64⟩ }, ?_, ?_⟩
    · simp only [if_pos (And.intro hstart hend), Fault.index_of_lt hstart, Fault.index_of_lt hend,
        hcost, hroute, Fault.ok_bind, Fault.pure_eq_ok]
    · rw [CostsRoute, if_pos hindices]
      exact ⟨_, _, answer, List.getElem?_eq_getElem hstart, List.getElem?_eq_getElem hend,
        hanswers, rfl⟩
  · refine ⟨none, ?_, ?_⟩
    · simp only [hlength, if_neg hindices, Fault.pure_eq_ok]
    · rw [CostsRoute, if_neg hindices]

/-- One request is answered by the plan it refreshes, and the planner follows that. -/
theorem handle_refines (hplan : Follows planner plan) (hsmall : Small plan)
    (request : EditedRequest) {entries : List Entry}
    (hfile : Readable request.files.locationFile entries) :
    ∃ response planner', request.handle planner = .ok (response, planner') ∧
      Follows planner' (next plan request) ∧ Small (next plan request) ∧
      Answered (next plan request) request response := by
  have hnext : plan.next request.files = plan.refresh entries request.files.routeFile := by
    rw [Plan.next, hfile.parses]
  obtain ⟨planner', hnames, hplan'⟩ := RoutePlanner.getLocationNames_refines hplan hfile.parses
    request.files.routeFile
  have hsmall' := hsmall.refresh hfile request.files.routeFile
  rw [handle, ServerMsgHandler.handle_of_id _ _ _ request.id_eq]
  unfold next Answered
  cases request.msg.body with
  | statusRequest => exact ⟨_, planner, rfl, hplan, hsmall, rfl⟩
  | locationsRequest data =>
      have hsize : ∀ name ∈ (plan.refresh entries request.files.routeFile).held.map Prod.fst,
          name.length < 2 ^ 63 :=
        List.forall_mem_map.mpr hsmall'.size_lt
      obtain ⟨response, hhandle, hlists⟩ := @handleLocationsRequestMsg_of_names planner
        (fileOps request.files.locationFile request.files.routeFile) _ _ hnames hsize request.now
        data
      dsimp only
      rw [hnext]
      exact ⟨response, planner', hhandle, hplan', hsmall', hlists⟩
  | routeRequest data =>
      obtain ⟨response, hhandle, hcosts⟩ := @handleRouteRequestMsg_of_names planner _
        (fileOps request.files.locationFile request.files.routeFile) _ rfl hnames hplan'
        hsmall'.fits request.now data
      dsimp only
      rw [hnext]
      exact ⟨response, planner', hhandle, hplan', hsmall', hcosts⟩
  | header => exact ⟨none, planner, rfl, hplan, hsmall, rfl⟩
  | statusResponse => exact ⟨none, planner, rfl, hplan, hsmall, rfl⟩
  | locationsResponse _ => exact ⟨none, planner, rfl, hplan, hsmall, rfl⟩
  | routeResponse _ => exact ⟨none, planner, rfl, hplan, hsmall, rfl⟩

theorem exec_refines (hplan : Follows planner plan) (hsmall : Small plan)
    (request : EditedRequest) (hfile : ∃ entries, Readable request.files.locationFile entries) :
    ∃ planner', request.exec planner = .ok planner' ∧ Follows planner' (next plan request) ∧
      Small (next plan request) := by
  obtain ⟨entries, hfile⟩ := hfile
  obtain ⟨response, planner', hhandle, hplan', hsmall', -⟩ :=
    handle_refines hplan hsmall request hfile
  exact ⟨planner', by rw [exec, hhandle]; rfl, hplan', hsmall'⟩

/-- Along every history of requests between which both files are edited in any way,
as long as the locations files are readable, no request fails, and each is answered by
the plan that the files up to then give. -/
theorem answered_while_edited (requests : List EditedRequest)
    (hfiles : ∀ request ∈ requests, ∃ entries, Readable request.files.locationFile entries) :
    ∀ pre request post, requests = pre ++ request :: post →
      ∃ planner response planner', Machine.run (fun p r => exec p r) RoutePlanner.create pre =
          .ok planner ∧
        request.handle planner = .ok (response, planner') ∧
        Answered (next (pre.foldl next Plan.empty) request) request response := by
  rintro pre request post rfl
  obtain ⟨planner, hrun, hplan, hsmall⟩ := @Machine.run_simulation _ _ _ (fun p r => exec p r)
    (fun planner plan => Follows planner plan ∧ Small plan)
    (fun _ request => ∃ entries, Readable request.files.locationFile entries) next
    (fun _ _ request h => exec_refines h.1 h.2 request) _ _
    ⟨Follows.create, small_empty⟩ pre
    (fun earlier later rest _ heq _ _ => hfiles later (by simp [heq]))
  obtain ⟨entries, hfile⟩ := hfiles request (by simp)
  obtain ⟨response, planner', hhandle, -, -, hanswered⟩ :=
    handle_refines hplan hsmall request hfile
  exact ⟨planner, response, planner', hrun, hhandle, hanswered⟩

/-- The locations are asked for, then a line is added to both files, then the route to
the new location is asked for. -/
def beforeEdit : EditedRequest :=
  ⟨0, ⟨some (str "London, 5\nBath, 6"), some (str "London, Bath")⟩,
    (FactoryMsg.new 0 .locationsRequest).toMsg, rfl⟩

def afterEdit : EditedRequest :=
  ⟨0, ⟨some (str "London, 5\nBath, 6\nLeeds, 2"), some (str "London, Bath\nBath, Leeds")⟩,
    FactoryMsg.toMsg { FactoryMsg.new 0 .routeRequest with body := .routeRequest ⟨0, 2⟩ }, rfl⟩

theorem answered_while_edited_leeds :
    ∃ planner response planner', Machine.run (fun p r => exec p r) RoutePlanner.create
        [beforeEdit] = .ok planner ∧
      afterEdit.handle planner = .ok (response, planner') ∧
      Answered (next ([beforeEdit].foldl next Plan.empty) afterEdit) afterEdit response :=
  answered_while_edited [beforeEdit, afterEdit]
    (by
      simp only [List.mem_cons, List.not_mem_nil, or_false]
      rintro request (rfl | rfl)
      · exact ⟨[(str "London", 5), (str "Bath", 6)], by decide, by decide, by decide, by decide⟩
      · exact ⟨[(str "London", 5), (str "Bath", 6), (str "Leeds", 2)], by decide, by decide,
          by decide, by decide⟩)
    [beforeEdit] afterEdit [] rfl

end EditedRequest

/-! ## The order of the lines -/

/-- Two locations files with the same lines in different order, and two routes files
that have the same roads between these locations, whatever their lines: every route
cost is the same. -/
theorem getRouteCost_of_perm {locationFile locationFile' routeFile routeFile' : File}
    {entries entries' : List Entry} (hfile : Readable locationFile entries)
    (hfile' : Readable locationFile' entries') (hperm : entries.Perm entries')
    (hnames : (entries.map Prod.fst).Nodup)
    (hroads : ∀ start ∈ entries.map Prod.fst, ∀ destination ∈ entries.map Prod.fst,
      (destination ∈ fileRoutes routeFile start ↔ destination ∈ fileRoutes routeFile' start)) :
    ∃ planner planner', RoutePlanner.run [⟨locationFile, routeFile⟩] = .ok planner ∧
      RoutePlanner.run [⟨locationFile', routeFile'⟩] = .ok planner' ∧
      ∀ startName endName, ∃ cost, planner.getRouteCost startName endName = .ok cost ∧
        planner'.getRouteCost startName endName = .ok cost := by
  obtain ⟨planner, hrun, hplan, -⟩ := RoutePlanner.run_singleton hfile.parses routeFile
  obtain ⟨planner', hrun', hplan', -⟩ := RoutePlanner.run_singleton hfile'.parses routeFile'
  have hsame : (Plan.ofFiles entries routeFile).SameUpToOrder
      (Plan.ofFiles entries' routeFile') := by
    refine ⟨?_, ?_, ?_⟩
    · rwa [Plan.held_ofFiles, Plan.held_ofFiles]
    · rwa [Plan.held_ofFiles]
    · rw [Plan.held_ofFiles]
      intro start hstart destination hdestination
      rw [Plan.edges_ofFiles, Plan.edges_ofFiles, hroads start hstart destination hdestination,
        (hperm.map Prod.fst).mem_iff]
  refine ⟨planner, planner', hrun, hrun', fun startName endName => ?_⟩
  obtain ⟨cost, hcost, hanswer⟩ := hplan.answers
    (small_empty.refresh hfile routeFile).fits startName endName
  obtain ⟨cost', hcost', hanswer'⟩ := hplan'.answers
    (small_empty.refresh hfile' routeFile').fits startName endName
  exact ⟨cost, hcost, hsame.answers_eq hanswer hanswer' ▸ hcost'⟩

/-- Three locations in two orders, and one road written in two ways. -/
theorem getRouteCost_of_perm_leeds :
    ∃ planner planner',
      RoutePlanner.run [⟨some (str "London, 5\nBath, 6\nLeeds, 2"),
        some (str "London, Leeds, Bath\nLeeds, Bath")⟩] = .ok planner ∧
      RoutePlanner.run [⟨some (str "Leeds, 2\nLondon, 5\nBath, 6"),
        some (str "Leeds, Bath\nLondon, Bath\nLondon, Leeds")⟩] = .ok planner' ∧
      ∀ startName endName, ∃ cost, planner.getRouteCost startName endName = .ok cost ∧
        planner'.getRouteCost startName endName = .ok cost :=
  @getRouteCost_of_perm _ _ _ _ [(str "London", 5), (str "Bath", 6), (str "Leeds", 2)]
    [(str "Leeds", 2), (str "London", 5), (str "Bath", 6)]
    ⟨by decide, by decide, by decide, by decide⟩ ⟨by decide, by decide, by decide, by decide⟩
    (by decide) (by decide) (by decide)

end RoutePlanner.Server
