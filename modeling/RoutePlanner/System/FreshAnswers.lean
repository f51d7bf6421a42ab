/-
# A server without memory

The planner is made once and lives as long as the server; every request reloads both
files into it.  Over files that do not change this leaves no trace: whatever was
asked before, by whichever session, and however the events of the sessions were
mixed, every message is answered as by a server that was just started.  Nothing is
asked of the files.  They may repeat names, have costs that wrap, stop the loader
half way or throw; then all servers stop or throw alike.
-/

import RoutePlanner.Route.LocationStates
import RoutePlanner.Route.Representation
import RoutePlanner.System.ServerLoop

set_option linter.dupNamespace false

namespace RoutePlanner.Route

open RoutePlanner.Std

namespace RoutePlanner

/-- What a planner that holds nothing reads from a locations file: a bad cost makes it
give up with nothing, and other bad lines end the call. -/
def firstEntries (file : File) : Except Fault (List Entry) :=
  match fileEntries file with
  | .ok entries => .ok entries
  | .error .invalidArgument => .ok []
  | .error (.fault f) => .error f

/-- A planner to which nothing has happened but calls on these files. -/
def Seen (locationFile routeFile : File) (planner : RoutePlanner) : Prop :=
  Follows planner Plan.empty ∨
    ∃ entries, firstEntries locationFile = .ok entries ∧
      Follows planner (Plan.ofFiles entries routeFile)

/-- A call that gives up with nothing held refreshes the routes only. -/
theorem setupRoutes_of_giveUp {planner : RoutePlanner} {plan : Plan} (hplan : Follows planner plan)
    (hheld : plan.held = []) {locationFile : File}
    (hfile : fileEntries locationFile = .error .invalidArgument) (routeFile : File) :
    ∃ planner', planner.setupRoutes locationFile routeFile =
        .ok (planner'.locationDb.getLocations, planner') ∧
      Follows planner' (plan.refresh [] routeFile) := by
  have hdb := hplan.locations
  rw [hheld] at hdb
  obtain ⟨locationDb, hload, hlocations, hlist, -⟩ :=
    FileLocationDatabase.load_giveUp_of_nil hdb hfile
  obtain ⟨routeDb, hloadRoutes, hroutes⟩ := FileRouteDatabase.load_refines hplan.routes routeFile
  have hnil : locationDb.locationList = [] := List.length_eq_zero_iff.mp hlocations.length_eq
  have hheld' : (plan.refresh [] routeFile).held = [] := Plan.held_refresh (Or.inl hheld)
  refine ⟨⟨locationDb, routeDb⟩, ?_, ?_, hroutes, ?_⟩
  · simp only [setupRoutes, hload, hloadRoutes, Fault.ok_bind, FileLocationDatabase.getLocations,
      hnil, List.foldlM_nil, Fault.pure_eq_ok, ite_self]
  · rw [hheld']
    exact hlocations
  · intro p hp
    rw [FileLocationDatabase.getLocations, hnil] at hp
    exact absurd hp List.not_mem_nil

/-- Reading the names behind the pointers of a plan. -/
theorem getLocationNames_of_setupRoutes {planner planner' : RoutePlanner} {plan : Plan}
    {locationFile routeFile : File}
    (hsetup : planner.setupRoutes locationFile routeFile =
      .ok (planner'.locationDb.getLocations, planner'))
    (hplan : Follows planner' plan) :
    planner.getLocationNames locationFile routeFile = .ok (plan.held.map Prod.fst, planner') := by
  have hread := hplan.locations.mapM_deref Location.name Prod.fst fun _ => rfl
  rw [getLocationNames, hsetup, Fault.ok_bind]
  dsimp only
  rw [FileLocationDatabase.getLocations, hread]
  rfl

/-- A line that throws does so for every planner. -/
theorem getLocationNames_of_fault {locationFile : File} {f : Fault}
    (hfile : firstEntries locationFile = .error f) (planner : RoutePlanner) (routeFile : File) :
    planner.getLocationNames locationFile routeFile = .error f := by
  have hload : planner.locationDb.load locationFile = .error f := by
    refine FileLocationDatabase.load_of_fault ?_
    rw [firstEntries] at hfile
    split at hfile
    · cases hfile
    · cases hfile
    · rename_i hentries
      rw [hentries, Except.error.inj hfile]
  rw [getLocationNames, setupRoutes, hload]
  rfl

/-- Otherwise a call makes one plan of every planner that has seen these files only. -/
theorem getLocationNames_of_seen {locationFile : File} {entries : List Entry}
    (hfile : firstEntries locationFile = .ok entries) {routeFile : File} {planner : RoutePlanner}
    (hplanner : Seen locationFile routeFile planner) :
    ∃ planner', planner.getLocationNames locationFile routeFile =
        .ok (entries.map Prod.fst, planner') ∧
      Follows planner' (Plan.ofFiles entries routeFile) := by
  obtain ⟨plan, hplan, hrefresh, hheld⟩ : ∃ plan, Follows planner plan ∧
      plan.refresh entries routeFile = Plan.ofFiles entries routeFile ∧
      (plan.held = [] ∨ plan.held = entries) := by
    rcases hplanner with hplan | ⟨entries', hfile', hplan⟩
    · exact ⟨_, hplan, rfl, Or.inl rfl⟩
    · obtain rfl := Except.ok.inj (hfile.symm.trans hfile')
      exact ⟨_, hplan, Plan.refresh_ofFiles, Or.inr Plan.held_ofFiles⟩
  obtain ⟨planner', hsetup, hplan'⟩ : ∃ planner', planner.setupRoutes locationFile routeFile =
        .ok (planner'.locationDb.getLocations, planner') ∧
      Follows planner' (plan.refresh entries routeFile) := by
    rw [firstEntries] at hfile
    split at hfile
    · rename_i hentries
      obtain rfl := Except.ok.inj hfile
      exact setupRoutes_refines hplan hentries routeFile
    · rename_i hentries
      obtain rfl := Except.ok.inj hfile
      exact setupRoutes_of_giveUp hplan (hheld.elim id id) hentries routeFile
    · cases hfile
  rw [hrefresh] at hplan'
  refine ⟨planner', ?_, hplan'⟩
  rw [getLocationNames_of_setupRoutes hsetup hplan', Plan.held_ofFiles]

end RoutePlanner

end RoutePlanner.Route

namespace RoutePlanner.Server

open RoutePlanner.Std
open RoutePlanner.Messages

/-- Two planners that a request cannot tell apart: the call that lists the names fails
alike, or it lists the same names and leaves planners with the same route costs. -/
def ListsAlike {π : Type} (ops : PlannerOps π) (planner planner' : π) : Prop :=
  (∃ f, ops.getLocationNames planner = .error f ∧ ops.getLocationNames planner' = .error f) ∨
    ∃ names next next', ops.getLocationNames planner = .ok (names, next) ∧
      ops.getLocationNames planner' = .ok (names, next') ∧
      ∀ startName endName, ops.getRouteCost next startName endName =
        ops.getRouteCost next' startName endName

namespace ServerMsgHandler

variable {π : Type} {ops : PlannerOps π} {planner planner' : π}

/-- What is answered, or how the handler fails. -/
def answer (ops : PlannerOps π) (now : UInt64) (planner : π) (msg : Msg) :
    Except Fault (Option FactoryMsg) :=
  (handle ops now planner msg).map Prod.fst

theorem handleLocationsRequestMsg_congr (h : ListsAlike ops planner planner') (now : UInt64)
    (request : MsgLocationsRequestData) :
    (handleLocationsRequestMsg ops now planner request).map Prod.fst =
      (handleLocationsRequestMsg ops now planner' request).map Prod.fst := by
  rw [handleLocationsRequestMsg, handleLocationsRequestMsg]
  rcases h with ⟨f, hnames, hnames'⟩ | ⟨names, next, next', hnames, hnames', -⟩
  · rw [hnames, hnames']
  · simp only [hnames, hnames', Fault.ok_bind]
    split
    · cases MsgLocationsResponseData.create.addLocations
        (names.drop request.startLocation.toNat) <;> rfl
    · rfl

theorem handleRouteRequestMsg_congr (h : ListsAlike ops planner planner') (now : UInt64)
    (request : MsgRouteRequestData) :
    (handleRouteRequestMsg ops now planner request).map Prod.fst =
      (handleRouteRequestMsg ops now planner' request).map Prod.fst := by
  rw [handleRouteRequestMsg, handleRouteRequestMsg]
  rcases h with ⟨f, hnames, hnames'⟩ | ⟨names, next, next', hnames, hnames', hcosts⟩
  · rw [hnames, hnames']
  · simp only [hnames, hnames', Fault.ok_bind]
    split
    · cases Fault.index names request.startLocation.toNat with
      | error f => rfl
      | ok startName =>
          cases Fault.index names request.endLocation.toNat with
          | error f => rfl
          | ok endName =>
              simp only [Fault.ok_bind, hcosts startName endName]
              cases ops.getRouteCost next' startName endName <;> rfl
    · rfl

/-- Every message is answered alike. -/
theorem answer_congr (h : ListsAlike ops planner planner') (now : UInt64) (msg : Msg) :
    answer ops now planner msg = answer ops now planner' msg := by
  rw [answer, answer, handle, handle]
  split
  · cases Fault.nonNull (msg.getDerivedType .statusRequest) <;> rfl
  · split
    · cases Fault.nonNull (msg.getDerivedType .locationsRequest) with
      | error f => rfl
      | ok request => exact handleLocationsRequestMsg_congr h now request
    · split
      · cases Fault.nonNull (msg.getDerivedType .routeRequest) with
        | error f => rfl
        | ok request => exact handleRouteRequestMsg_congr h now request
      · rfl

/-- A message leaves the planner as it was, or as the call left it that lists the
names. -/
theorem planner_of_handle {now : UInt64} {msg : Msg} {response : Option FactoryMsg}
    (h : handle ops now planner msg = .ok (response, planner')) :
    planner' = planner ∨ ∃ names, ops.getLocationNames planner = .ok (names, planner') := by
  rw [handle] at h
  split at h
  · obtain ⟨_, -, hreturn⟩ := Fault.bind_eq_ok.mp h
    exact Or.inl (Prod.mk.inj (Except.ok.inj hreturn)).2.symm
  · split at h
    · obtain ⟨request, -, hrequest⟩ := Fault.bind_eq_ok.mp h
      exact Or.inr (names_of_handleLocationsRequestMsg hrequest)
    · split at h
      · obtain ⟨request, -, hrequest⟩ := Fault.bind_eq_ok.mp h
        exact Or.inr (names_of_handleRouteRequestMsg hrequest)
      · exact Or.inl (Prod.mk.inj (Except.ok.inj h)).2.symm

end ServerMsgHandler

end RoutePlanner.Server

namespace RoutePlanner.System

open RoutePlanner.Std
open RoutePlanner.Messages
open RoutePlanner.Comms
open RoutePlanner.Server
open RoutePlanner.Route (File)
open RoutePlanner.Route.RoutePlanner (Seen Follows firstEntries getLocationNames_of_seen
  getLocationNames_of_fault getRouteCost_congr)

variable {locationFile routeFile : File}

/-- Two planners that have seen these files only cannot be told apart. -/
theorem listsAlike_of_seen {planner planner' : Route.RoutePlanner}
    (h : Seen locationFile routeFile planner) (h' : Seen locationFile routeFile planner') :
    ListsAlike (fileOps locationFile routeFile) planner planner' := by
  cases hfile : firstEntries locationFile with
  | error f =>
      exact Or.inl ⟨f, getLocationNames_of_fault hfile planner routeFile,
        getLocationNames_of_fault hfile planner' routeFile⟩
  | ok entries =>
      obtain ⟨next, hnames, hnext⟩ := getLocationNames_of_seen hfile h
      obtain ⟨next', hnames', hnext'⟩ := getLocationNames_of_seen hfile h'
      exact Or.inr ⟨_, next, next', hnames, hnames', getRouteCost_congr hnext hnext'⟩

/-- And no message shows the planner anything else. -/
theorem seen_of_handler (ctime : UInt64 → Option Str) (now : UInt64)
    (planner : Route.RoutePlanner) (msg : Option Msg)
    (result : Option FactoryMsg × Route.RoutePlanner) (h : Seen locationFile routeFile planner)
    (hhandler : loggingHandler ctime (fileOps locationFile routeFile) now planner msg =
      .ok result) : Seen locationFile routeFile result.2 := by
  obtain ⟨msg, -, hrest⟩ := Fault.bind_eq_ok.mp hhandler
  obtain ⟨date, -, hhandle⟩ := Fault.bind_eq_ok.mp hrest
  obtain ⟨response, planner'⟩ := result
  rcases ServerMsgHandler.planner_of_handle hhandle with rfl | ⟨names, hnames⟩
  · exact h
  · change planner.getLocationNames locationFile routeFile = _ at hnames
    cases hfile : firstEntries locationFile with
    | error f =>
        rw [getLocationNames_of_fault hfile] at hnames
        cases hnames
    | ok entries =>
        obtain ⟨next, hnames', hnext⟩ := getLocationNames_of_seen hfile h
        obtain ⟨-, rfl⟩ := Prod.mk.inj (Except.ok.inj (hnames'.symm.trans hnames))
        exact Or.inr ⟨entries, hfile, hnext⟩

/-- In every run of the loop over files that do not change, of whatever sessions and
with whatever events, every message is answered as by a server that was just started,
or fails as there. -/
theorem answered_as_fresh (ctime : UInt64 → Option Str) (locationFile routeFile : File)
    (events : List Event) {server : TcpServer Route.RoutePlanner}
    (hrun : Machine.run (TcpServer.step (loggingHandler ctime (fileOps locationFile routeFile)))
      (TcpServer.create Route.RoutePlanner.create) events = .ok server)
    (now : UInt64) (msg : Option Msg) :
    (loggingHandler ctime (fileOps locationFile routeFile) now server.state msg).map Prod.fst =
      (loggingHandler ctime (fileOps locationFile routeFile) now Route.RoutePlanner.create
        msg).map Prod.fst := by
  have hfresh : Seen locationFile routeFile Route.RoutePlanner.create := Or.inl Follows.create
  have hseen : Seen locationFile routeFile server.state :=
    TcpServer.state_of_run (seen_of_handler ctime) hfresh hrun
  cases msg with
  | none => rfl
  | some msg =>
      have hanswer := ServerMsgHandler.answer_congr (listsAlike_of_seen hseen hfresh) now msg
      simp only [loggingHandler, Fault.nonNull, Fault.ok_bind]
      cases logDate ctime msg with
      | error f => rfl
      | ok date => exact hanswer

/-- The bytes of a request for the locations from the first one on. -/
def locationsRequestBytes : Chunk Byte :=
  ⟨[103, 0, 0, 0, 0, 0, 0, 0, 32, 0, 0, 0, 0, 0, 0, 0] ++ List.replicate 16 0, by decide⟩

/-- One session has asked for the locations, and another one is there. -/
def askedOnce : List Event :=
  [⟨0, .accepted true⟩, ⟨0, .read 0 (.data locationsRequestBytes)⟩, ⟨0, .accepted true⟩]

/-- A file that repeats a name, and so is taken over again by every request. -/
def repeatingFile : File := some (str "London, 5\nLondon, 6\nBath, 7")

def epoch : UInt64 → Option Str := fun _ => some (str "Thu Jan  1 00:00:00 1970\n")

def repeatingOps : PlannerOps Route.RoutePlanner :=
  fileOps repeatingFile (some (str "London, Bath"))

theorem answered_as_fresh_askedOnce :
    ∃ server, Machine.run (TcpServer.step (loggingHandler epoch repeatingOps))
        (TcpServer.create Route.RoutePlanner.create) askedOnce = .ok server ∧
      ∀ now msg, (loggingHandler epoch repeatingOps now server.state msg).map Prod.fst =
        (loggingHandler epoch repeatingOps now Route.RoutePlanner.create msg).map Prod.fst := by
  have hreturns : (Machine.run (TcpServer.step (loggingHandler epoch repeatingOps))
      (TcpServer.create Route.RoutePlanner.create) askedOnce).isOk = true := by
    decide +kernel
  cases hrun : Machine.run (TcpServer.step (loggingHandler epoch repeatingOps))
      (TcpServer.create Route.RoutePlanner.create) askedOnce with
  | ok server => exact ⟨server, rfl, fun now msg => answered_as_fresh _ _ _ _ hrun now msg⟩
  | error f =>
      rw [hrun] at hreturns
      cases hreturns

end RoutePlanner.System
