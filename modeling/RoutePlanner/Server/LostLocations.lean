/-
# What the server loses

Every request for locations or a route reads the locations file anew.  If the file is
as it was, nothing is taken over and the objects just made are lost.  So a server that
runs long enough over a file that nobody edits grows without bound, by the length of
the file for each such request, and the destructor of the planner does not help.  A
file that repeats a name is the exception: it is taken over every time.
-/

import RoutePlanner.Route.Leaks
import RoutePlanner.Server.EditedFiles

namespace RoutePlanner.Server

open RoutePlanner.Std
open RoutePlanner.Messages
open RoutePlanner.Route
open RoutePlanner.Route.RoutePlanner (Follows)

namespace EditedRequest

/-- The request asks the planner for its names. -/
def asksNames (request : EditedRequest) : Bool :=
  match request.msg.body with
  | .locationsRequest _ | .routeRequest _ => true
  | _ => false

variable {planner planner' : RoutePlanner}

/-- Such a request calls the planner once, and the others leave it alone. -/
theorem names_of_exec {request : EditedRequest} (h : exec planner request = .ok planner') :
    if request.asksNames then
      ∃ names, planner.getLocationNames request.files.locationFile request.files.routeFile =
        .ok (names, planner')
    else planner' = planner := by
  obtain ⟨⟨response, next⟩, hhandle, heq⟩ := Fault.bind_eq_ok.mp h
  obtain rfl := Except.ok.inj heq
  rw [handle, ServerMsgHandler.handle_of_id _ _ _ request.id_eq] at hhandle
  unfold asksNames
  cases hbody : request.msg.body with
  | locationsRequest data =>
      rw [hbody] at hhandle
      exact ServerMsgHandler.names_of_handleLocationsRequestMsg hhandle
  | routeRequest data =>
      rw [hbody] at hhandle
      exact ServerMsgHandler.names_of_handleRouteRequestMsg hhandle
  | _ =>
      rw [hbody] at hhandle
      exact (Prod.mk.inj (Except.ok.inj hhandle)).2.symm

theorem next_eq (plan : Plan) (request : EditedRequest) :
    next plan request = if request.asksNames then plan.next request.files else plan := by
  unfold next asksNames
  cases request.msg.body <;> rfl

/-- The objects a planner loses that has read these entries so many times. -/
def lostAfter (entries : List Entry) (reads : Nat) : Nat :=
  if (entries.map Prod.fst).Nodup then (reads - 1) * entries.length else 0

/-- A planner that has read these entries so many times and nothing else. -/
structure HasRead (entries : List Entry) (reads : Nat) (planner : RoutePlanner) (plan : Plan) :
    Prop where
  follows : Follows planner plan
  small : Small plan
  held : plan.held = if reads = 0 then [] else entries
  count : planner.locationDb.heap.count = plan.held.length + lostAfter entries reads

variable {entries : List Entry} {reads : Nat} {plan : Plan}

theorem HasRead.create : HasRead entries 0 RoutePlanner.create Plan.empty := by
  refine ⟨Follows.create, small_empty, rfl, ?_⟩
  rw [lostAfter, Nat.zero_sub, Nat.zero_mul, ite_self]
  rfl

/-- Reading once more adds to what is lost, unless it was the first time. -/
theorem lostAfter_succ (entries : List Entry) (reads : Nat) :
    lostAfter entries (reads + 1) = lostAfter entries reads +
      FileLocationDatabase.unowned (if reads = 0 then [] else entries) entries := by
  cases reads with
  | zero => simp [lostAfter, FileLocationDatabase.unowned_nil]
  | succ reads =>
      rw [if_neg (Nat.succ_ne_zero reads), FileLocationDatabase.unowned_self, lostAfter, lostAfter]
      split
      · rw [Nat.add_sub_cancel, Nat.add_sub_cancel, Nat.succ_mul]
      · rfl

theorem HasRead.exec (hplanner : HasRead entries reads planner plan) {request : EditedRequest}
    (hfile : Readable request.files.locationFile entries) :
    ∃ planner', request.exec planner = .ok planner' ∧
      HasRead entries (reads + if request.asksNames then 1 else 0) planner'
        (next plan request) := by
  obtain ⟨planner', hexec, hplan', hsmall'⟩ := exec_refines hplanner.follows hplanner.small request
    ⟨entries, hfile⟩
  refine ⟨planner', hexec, ?_⟩
  have hnames := names_of_exec hexec
  have hnext := next_eq plan request
  by_cases hasks : request.asksNames = true
  · rw [if_pos hasks] at hnames hnext ⊢
    rw [Plan.next, hfile.parses] at hnext
    have hheld : (plan.refresh entries request.files.routeFile).held = entries := by
      refine Plan.held_refresh ?_
      rw [hplanner.held]
      split
      · exact Or.inl rfl
      · exact Or.inr rfl
    obtain ⟨names, hnames⟩ := hnames
    obtain ⟨⟨locations, planner₁⟩, hsetup, hrest⟩ := Fault.bind_eq_ok.mp hnames
    obtain ⟨_, -, hreturn⟩ := Fault.bind_eq_ok.mp hrest
    obtain ⟨-, rfl⟩ := Prod.mk.inj (Except.ok.inj hreturn)
    have hcount := RoutePlanner.count_of_setupRoutes hplanner.follows.locations hfile.parses hsetup
    have hbefore := hplanner.count
    have hlost := lostAfter_succ entries reads
    rw [← hplanner.held] at hlost
    refine ⟨hplan', hsmall', by rw [hnext, hheld, if_neg (Nat.succ_ne_zero reads)], ?_⟩
    rw [hnext, hlost]
    have hafter : (plan.refresh entries request.files.routeFile).held =
        (Route.refresh plan.held entries).2 := rfl
    rw [hafter]
    omega
  · rw [if_neg hasks] at hnames hnext ⊢
    obtain rfl := hnames
    rw [hnext]
    exact hplanner

/-- Along every history of requests over a locations file that stays as it is, while the
routes file may be edited: the server holds an object for each line, and where no name
is repeated it has lost as many again for every request for locations or a route after
the first.  Destroying the planner leaves exactly the lost ones. -/
theorem live_after_requests {file : File} {entries : List Entry} (hfile : Readable file entries)
    (requests : List EditedRequest)
    (hsame : ∀ request ∈ requests, request.files.locationFile = file) :
    ∃ planner, Machine.run (fun p r => exec p r) RoutePlanner.create requests = .ok planner ∧
      planner.locationDb.heap.count =
        (if requests.countP asksNames = 0 then 0 else entries.length) +
          lostAfter entries (requests.countP asksNames) ∧
      ∃ db, planner.locationDb.destroy = .ok db ∧
        db.heap.count = lostAfter entries (requests.countP asksNames) := by
  have hread : ∃ planner plan, Machine.run (fun p r => exec p r) RoutePlanner.create requests =
      .ok planner ∧ HasRead entries (requests.countP asksNames) planner plan := by
    induction requests using List.reverseRecOn with
    | nil => exact ⟨RoutePlanner.create, Plan.empty, rfl, HasRead.create⟩
    | append_singleton requests request ih =>
        obtain ⟨planner, plan, hrun, hplanner⟩ := ih fun earlier hmem =>
          hsame earlier (List.mem_append_left _ hmem)
        have hrequest : Readable request.files.locationFile entries :=
          hsame request (List.mem_append_right _ (List.mem_singleton_self request)) ▸ hfile
        obtain ⟨planner', hexec, hplanner'⟩ := hplanner.exec hrequest
        refine ⟨planner', next plan request, ?_, ?_⟩
        · rw [Machine.run_concat, hrun]
          exact hexec
        · rwa [List.countP_append, List.countP_singleton]
  obtain ⟨planner, plan, hrun, hplanner⟩ := hread
  have hheld : plan.held.length =
      if requests.countP asksNames = 0 then 0 else entries.length := by
    rw [hplanner.held]
    split <;> rfl
  have hcount := hplanner.count
  rw [hheld] at hcount
  obtain ⟨db, hdestroy⟩ := FileLocationDatabase.destroy_of_holds hplanner.follows.locations
  have hdeleted := FileLocationDatabase.count_of_destroy hdestroy
  rw [hplanner.follows.locations.length_eq, hheld] at hdeleted
  exact ⟨planner, hrun, hcount, db, hdestroy, by omega⟩

/-- A page of two locations is asked for three times: four objects are lost. -/
theorem live_after_requests_thrice :
    ∃ planner, Machine.run (fun p r => exec p r) RoutePlanner.create
        [beforeEdit, beforeEdit, beforeEdit] = .ok planner ∧
      planner.locationDb.heap.count = 2 + 4 ∧
      ∃ db, planner.locationDb.destroy = .ok db ∧ db.heap.count = 4 :=
  @live_after_requests (some (str "London, 5\nBath, 6")) [(str "London", 5), (str "Bath", 6)]
    ⟨by decide, by decide, by decide, by decide⟩ [beforeEdit, beforeEdit, beforeEdit]
    (by
      simp only [List.mem_cons, List.not_mem_nil, or_false, or_self]
      rintro request rfl
      rfl)

end EditedRequest

end RoutePlanner.Server
