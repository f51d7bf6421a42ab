/-
# One client and the server

The loop of the server ends with the first exception that leaves a completion
handler, and nothing in a session catches one: a peer that closes its connection, or
sends what cannot be made a message, ends the server for everybody.  So do requests
whose timestamp is no date, because the handlers write it to the log.
-/

import RoutePlanner.Comms.TcpServer
import RoutePlanner.Comms.ForeignStreams
import RoutePlanner.Server.FilePlanner

namespace RoutePlanner.System

open RoutePlanner.Std
open RoutePlanner.Messages
open RoutePlanner.Comms
open RoutePlanner.Server

variable {π : Type} (ctime : UInt64 → Option Str) (ops : PlannerOps π)

/-- The messages whose handlers write their date to the log. -/
def datedIds : List UInt32 :=
  [MSG_STATUS_REQUEST_ID, MSG_LOCATIONS_REQUEST_ID, MSG_ROUTE_REQUEST_ID]

/-- What is written to the log before a message is handled. -/
def logDate (msg : Msg) : Except Fault Str :=
  if msg.header.id ∈ datedIds then msg.dateString ctime else .ok []

/-- The handler that the server is started with, and its log. -/
def loggingHandler (now : UInt64) (planner : π) (msg : Option Msg) :
    Except Fault (Option FactoryMsg × π) := do
  let msg ← Fault.nonNull msg
  let _ ← logDate ctime msg
  ServerMsgHandler.handle ops now planner msg

/-- The timestamp of a request is a date. -/
def Dated (bytes : List Byte) : Prop :=
  (headerOf bytes).id ∈ datedIds → ctime (headerOf bytes).timestamp ≠ none

/-- The bytes of a message that the server gets over: a message can be made of them, its
date can be written to the log, and it can be handled. -/
structure Answerable (now : UInt64) (planner : π) (bytes : List Byte) : Prop where
  receivable : Receivable bytes
  dated : Dated ctime bytes
  handled : ∀ msg, readMsg now bytes = .ok (some msg) →
    ∃ result, ServerMsgHandler.handle ops now planner msg = .ok result

variable {ctime ops}

theorem logDate_eq_ok {msg : Msg} : (∃ date, logDate ctime msg = .ok date) ↔
    (msg.header.id ∈ datedIds → ctime msg.header.timestamp ≠ none) := by
  rw [logDate]
  by_cases hdated : msg.header.id ∈ datedIds
  · rw [if_pos hdated, Msg.dateString]
    cases ctime msg.header.timestamp with
    | none => simp [Fault.nonNull, hdated]
    | some date => simp [Fault.nonNull]
  · rw [if_neg hdated]
    exact iff_of_true ⟨[], rfl⟩ fun hdated' => absurd hdated' hdated

/-- The handler returns on exactly these bytes. -/
theorem handles_iff_answerable (now : UInt64) (planner : π) {bytes : List Byte}
    (hheader : MSG_HEADER_SIZE ≤ bytes.length) :
    TcpServer.Handles (loggingHandler ctime ops) now planner bytes ↔
      Answerable ctime ops now planner bytes := by
  apply Iff.intro
  · rintro ⟨pointer, result, hread, hhandler⟩
    obtain ⟨msg, hpointer, hrest⟩ := Fault.bind_eq_ok.mp hhandler
    obtain rfl := Fault.nonNull_eq_ok.mp hpointer
    obtain ⟨date, hdate, hhandle⟩ := Fault.bind_eq_ok.mp hrest
    obtain ⟨_, -, hsame, -⟩ := readMsg_eq_some hheader hread
    refine ⟨(exists_readMsg_iff now hheader).mp ⟨msg, hread⟩, ?_, fun msg' hread' => ?_⟩
    · rw [Dated, ← hsame]
      exact logDate_eq_ok.mp ⟨date, hdate⟩
    · obtain rfl := Option.some.inj (Except.ok.inj (hread.symm.trans hread'))
      exact ⟨result, hhandle⟩
  · rintro ⟨hknown, hdated, hhandled⟩
    obtain ⟨msg, hread⟩ := (exists_readMsg_iff now hheader).mpr hknown
    obtain ⟨_, -, hsame, -⟩ := readMsg_eq_some hheader hread
    rw [Dated, ← hsame] at hdated
    obtain ⟨date, hdate⟩ := logDate_eq_ok.mpr hdated
    obtain ⟨result, hhandle⟩ := hhandled msg hread
    refine ⟨some msg, result, hread, ?_⟩
    rw [loggingHandler, Fault.nonNull, Fault.ok_bind, hdate, Fault.ok_bind, hhandle]

/-- The server survives a run, that is, its loop is never left, an accept is always
pending and no event changes another session than its own, exactly when in every step:
the peer is there when its connection is accepted, no read or write that the thread
waits for fails, and the bytes of a message that is complete are answerable. -/
theorem survives_iff (ctime : UInt64 → Option Str) (ops : PlannerOps π) (planner : π)
    (events : List Event) :
    TcpServer.Survives (loggingHandler ctime ops) planner events ↔
      TcpServer.AllHarmless (loggingHandler ctime ops) (Answerable ctime ops) planner events := by
  rw [TcpServer.survives_iff_handles]
  refine TcpServer.allHarmless_congr fun _ before _ now _ hheader => ?_
  exact handles_iff_answerable now before.state hheader

/-- Over a planner that lists the same names at every request, what makes bytes
answerable is the peer's alone. -/
theorem survives_iff_of_steady {names : List Str} (ctime : UInt64 → Option Str)
    (steady : SteadyPlanner π names) (hsize : ∀ name ∈ names, name.length < 2 ^ 63)
    (events : List Event) :
    TcpServer.Survives (loggingHandler ctime steady.ops) steady.initial events ↔
      TcpServer.AllHarmless (loggingHandler ctime steady.ops)
        (fun _ _ bytes => Receivable bytes ∧ Dated ctime bytes) steady.initial events := by
  rw [TcpServer.survives_iff_handles]
  refine TcpServer.allHarmless_congr fun _ before hrun now bytes hheader => ?_
  have hbefore : steady.Steady before.state := by
    refine TcpServer.state_of_run (fun now planner msg result hplanner hhandler => ?_)
      steady.steady_initial hrun
    obtain ⟨msg, -, hrest⟩ := Fault.bind_eq_ok.mp hhandler
    obtain ⟨date, -, hhandle⟩ := Fault.bind_eq_ok.mp hrest
    exact ServerMsgHandler.steady_of_handle steady.toLister now hplanner hhandle
  rw [handles_iff_answerable now before.state hheader]
  apply Iff.intro
  · exact fun h => ⟨h.receivable, h.dated⟩
  · rintro ⟨hreceivable, hdated⟩
    refine ⟨hreceivable, hdated, fun msg hread => ?_⟩
    obtain ⟨response, planner', hhandle, -⟩ :=
      ServerMsgHandler.handle_ok steady now hbefore hsize (id_of_readMsg hheader hread)
    exact ⟨_, hhandle⟩

/-- So it is over files that do not change, if the locations file loads and an `int` can
count its locations. -/
theorem survives_iff_ofFile {locationFile : Route.File} {entries : List Route.Entry}
    (ctime : UInt64 → Option Str) (h : Loads locationFile entries)
    (hn : entries.length ≤ 2 ^ 31) (routeFile : Route.File) (events : List Event) :
    TcpServer.Survives (loggingHandler ctime (fileOps locationFile routeFile))
        Route.RoutePlanner.create events ↔
      TcpServer.AllHarmless (loggingHandler ctime (fileOps locationFile routeFile))
        (fun _ _ bytes => Receivable bytes ∧ Dated ctime bytes) Route.RoutePlanner.create events :=
  survives_iff_of_steady ctime (.ofFile h.parses routeFile hn) h.size_names_lt events

/-- Two connections, of which the second is closed again. -/
def closedConnection : List Event :=
  [⟨0, .accepted true⟩, ⟨0, .accepted true⟩, ⟨0, .read 1 .error⟩]

/-- With it the loop is left and the other session has ended. -/
theorem not_survives_closedConnection :
    ¬ TcpServer.Survives (loggingHandler (fun _ => some (str "Thu Jan  1 00:00:00 1970\n"))
      (fileOps Route.twoCitiesFile none)) Route.RoutePlanner.create closedConnection := by
  intro h
  obtain ⟨before, after, hrun, hstep, hserves⟩ :=
    h [⟨0, .accepted true⟩, ⟨0, .accepted true⟩] ⟨0, .read 1 .error⟩ [] rfl
  obtain rfl := Except.ok.inj hrun
  obtain rfl := Except.ok.inj hstep
  exact hserves.serving.running rfl

end RoutePlanner.System
