/-
# The server's loop

One thread runs the completion handlers of all sessions and of the accept.  A
session's first message comes in asynchronously; from then on the session keeps the
thread, in blocking writes and reads, until its handler returns null.  An exception
that nobody catches leaves the loop, and with it goes everything the loop owned.

An event is what the program sees: an operation that it waits for completes.  Where
the thread is busy elsewhere, the event is still to be seen, and nothing happens.
-/

import RoutePlanner.Comms.TcpSession
import RoutePlanner.Std.Machine

namespace RoutePlanner.Comms

open RoutePlanner.Std
open RoutePlanner.Messages

/-- A session as the loop sees it. -/
inductive Session
  /-- `AsyncWaitForMsg`, after these reads. -/
  | matching (reads : List Read)
  /-- The thread is in its `ProcessSession`. -/
  | processing
  | ended

/-- Where the thread is. -/
inductive Thread
  /-- In `io_context::run`, between two completion handlers. -/
  | polling
  /-- In `SendMsg` of a session, which will return this number. -/
  | sending (i bytesSent : Nat)
  /-- In `WaitForMsg` of a session, after these reads. -/
  | waiting (i : Nat) (reads : List Read)
  /-- Out of `run`, by an exception. -/
  | left

/-- The server, with what its message handler keeps. -/
structure TcpServer (σ : Type) where
  state : σ
  thread : Thread
  acceptPending : Bool
  sessions : List Session

inductive Completion
  /-- A connection is accepted, and the peer is still there or not. -/
  | accepted (connected : Bool)
  | read (i : Nat) (result : Read)
  | written (i : Nat) (success : Bool)

/-- What completes, and when. -/
structure Event where
  now : UInt64
  completion : Completion

/-- The session that an event is about. -/
def Event.session (event : Event) : Option Nat :=
  match event.completion with
  | .accepted _ => none
  | .read i _ | .written i _ => some i

namespace TcpServer

variable {σ : Type} (msgHandler : UInt64 → σ → Option Msg → Except Fault (Option FactoryMsg × σ))

/-- The first call of `Start`, when it enters the loop. -/
def create (state : σ) : TcpServer σ where
  state := state
  thread := .polling
  acceptPending := true
  sessions := []

/-- `Start` once more: the next accept is begun. -/
def start (server : TcpServer σ) : TcpServer σ := { server with acceptPending := true }

/-- An exception leaves `run`, `Start` and the `try` block with the server in it. -/
def leave (server : TcpServer σ) : TcpServer σ :=
  { server with
    thread := .left
    acceptPending := false
    sessions := server.sessions.map fun _ => .ended }

/-- The handler of `async_accept`.  The endpoint of the peer is written to the log, and
asking for it throws when the peer is gone. -/
def onAccept (server : TcpServer σ) (connected : Bool) : TcpServer σ :=
  let server := { server with acceptPending := false }
  if connected then start { server with sessions := server.sessions ++ [.matching []] }
  else server.leave

/-- `ProcessSession` up to the write of the response, or to its end. -/
def processSession (server : TcpServer σ) (now : UInt64) (i : Nat) (receivedMsg : Option Msg) :
    Except Fault (TcpServer σ) := do
  let (responseMsg, state) ← msgHandler now server.state receivedMsg
  match responseMsg with
  | none =>
      return { server with state, thread := .polling, sessions := server.sessions.set i .ended }
  | some responseMsg =>
      let (bytesSent, _) ← TcpSession.sendMsg responseMsg.toMsg
      return { server with
        state
        thread := .sending i bytesSent
        sessions := server.sessions.set i .processing }

/-- What comes of a read, given where the session is if it goes on waiting. -/
def onWait (server : TcpServer σ) (now : UInt64) (i : Nat) (still : TcpServer σ) :
    Wait → Except Fault (TcpServer σ)
  | .blocked => .ok still
  | .threw => .ok server.leave
  | .returned receivedMsg _ => server.processSession msgHandler now i receivedMsg

/-- A read of a session completes. -/
def onRead (server : TcpServer σ) (now : UInt64) (i : Nat) (result : Read) :
    Except Fault (TcpServer σ) :=
  match server.thread with
  | .polling =>
      match server.sessions[i]? with
      | some (.matching reads) => do
          let wait ← TcpSession.asyncWaitForMsg now (reads ++ [result])
          server.onWait msgHandler now i
            { server with sessions := server.sessions.set i (.matching (reads ++ [result])) } wait
      | _ => .ok server
  | .waiting j reads =>
      if i = j then do
        let wait ← TcpSession.waitForMsg now (reads ++ [result])
        server.onWait msgHandler now i
          { server with thread := .waiting i (reads ++ [result]) } wait
      else .ok server
  | _ => .ok server

/-- A write of a session completes.  `SendMsg` throws, or returns the length of the
message. -/
def onWritten (server : TcpServer σ) (i : Nat) (success : Bool) : TcpServer σ :=
  match server.thread with
  | .sending j bytesSent =>
      if i = j then
        if success then
          if bytesSent ≠ 0 then { server with thread := .waiting i [] }
          else { server with thread := .polling, sessions := server.sessions.set i .ended }
        else server.leave
      else server
  | _ => server

def step (server : TcpServer σ) (event : Event) : Except Fault (TcpServer σ) :=
  match event.completion with
  | .accepted connected =>
      match server.thread with
      | .polling => .ok (if server.acceptPending then server.onAccept connected else server)
      | _ => .ok server
  | .read i result => server.onRead msgHandler event.now i result
  | .written i success => .ok (server.onWritten i success)

/-! ## Serving -/

/-- The loop is not left, and an accept is pending. -/
structure Serving (server : TcpServer σ) : Prop where
  running : server.thread ≠ .left
  accepting : server.acceptPending = true

/-- The sessions that an event is not about are as they were. -/
def Contained (event : Event) (before after : TcpServer σ) : Prop :=
  ∀ j session, before.sessions[j]? = some session → event.session ≠ some j →
    after.sessions[j]? = some session

/-- What the next read of a session is waited for with, if the thread waits for it, and
the reads before. -/
def reader (server : TcpServer σ) (i : Nat) : Option ((List Byte → Bool) × List Read) :=
  match server.thread with
  | .polling =>
      match server.sessions[i]? with
      | some (.matching reads) => some (matchReady, reads)
      | _ => none
  | .waiting j reads => if i = j then some (waitReady, reads) else none
  | _ => none

/-- The handler returns when it is given what is made of the bytes. -/
def Handles (now : UInt64) (state : σ) (bytes : List Byte) : Prop :=
  ∃ msg result, readMsg now bytes = .ok msg ∧ msgHandler now state msg = .ok result

/-- A read succeeds, and the bytes that it completes are fine. -/
def ReadHarmless (fine : List Byte → Prop) (ready : List Byte → Bool) (reads : List Read)
    (result : Read) : Prop :=
  ∃ chunk, result = .data chunk ∧ ∀ bytes rest,
    taken ready [] (reads ++ [result]) = some (bytes, rest) → fine bytes

/-- The event is nothing that the server does not survive: the peer is there when its
connection is accepted, what the thread waits for does not fail, and the bytes of a
message that is complete are fine. -/
def Harmless (fine : UInt64 → σ → List Byte → Prop) (server : TcpServer σ) (event : Event) :
    Prop :=
  match event.completion with
  | .accepted connected => server.thread = .polling → connected = true
  | .read i result => ∀ ready reads, server.reader i = some (ready, reads) →
      ReadHarmless (fine event.now server.state) ready reads result
  | .written i success => ∀ bytesSent, server.thread = .sending i bytesSent → success = true

/-- Nothing that a session waits for has come already. -/
structure Sound (server : TcpServer σ) : Prop where
  matching : ∀ (i : Nat) (reads : List Read), server.sessions[i]? = some (.matching reads) →
    Pending matchReady [] reads
  waiting : ∀ i reads, server.thread = .waiting i reads → Pending waitReady [] reads

/-- After the event the server serves on, and no other session has changed. -/
structure ServesOn (event : Event) (before after : TcpServer σ) : Prop where
  serving : after.Serving
  contained : Contained event before after

/-- The server survives an event under this condition, and under no other. -/
def SurvivesIff (server : TcpServer σ) (event : Event) (condition : Prop)
    (outcome : Except Fault (TcpServer σ)) : Prop :=
  (condition ∧ ∃ after, outcome = .ok after ∧ ServesOn event server after ∧ after.Sound) ∨
    (¬ condition ∧ ∀ after, outcome = .ok after → ¬ after.Serving)

/-! ## One step -/

section Step

variable {msgHandler} {server : TcpServer σ}

theorem not_serving_leave : ¬ server.leave.Serving := fun h => h.running rfl

theorem survivesIff_leave {event : Event} {condition : Prop} (hcondition : ¬ condition) :
    SurvivesIff server event condition (.ok server.leave) :=
  Or.inr ⟨hcondition, fun _ hafter => Except.ok.inj hafter ▸ not_serving_leave⟩

/-- An event that the thread does not wait for is survived. -/
theorem survivesIff_of_unseen (h : server.Sound) (hserving : server.Serving) (event : Event)
    {condition : Prop} (hcondition : condition) :
    SurvivesIff server event condition (.ok server) :=
  Or.inl ⟨hcondition, server, rfl, ⟨hserving, fun _ _ hj _ => hj⟩, h⟩

/-- The event sets its own session, and the thread neither leaves nor waits for it. -/
theorem servesOn_of_set (h : server.Sound) (hserving : server.Serving) {event : Event} {i : Nat}
    (hevent : event.session = some i) {session : Session} {after : TcpServer σ}
    (hsessions : after.sessions = server.sessions.set i session)
    (hsession : ∀ reads, session = .matching reads → Pending matchReady [] reads)
    (haccepting : after.acceptPending = server.acceptPending) (hrunning : after.thread ≠ .left)
    (hwaiting : ∀ j reads, after.thread ≠ .waiting j reads) :
    ServesOn event server after ∧ after.Sound := by
  refine ⟨⟨⟨hrunning, haccepting.trans hserving.accepting⟩, fun j other hj hne => ?_⟩,
    fun j reads hj => ?_, fun j reads hwait => absurd hwait (hwaiting j reads)⟩
  · have hij : i ≠ j := fun heq => hne (heq ▸ hevent)
    rw [hsessions, List.getElem?_set_ne hij, hj]
  · rw [hsessions, List.getElem?_set] at hj
    split at hj
    · split at hj
      · exact hsession reads (Option.some.inj hj)
      · cases hj
    · exact h.matching j reads hj

/-- The thread comes to wait for a session, or goes on waiting for it. -/
theorem servesOn_waiting (h : server.Sound) (hserving : server.Serving) (event : Event) (i : Nat)
    {reads : List Read} (hpending : Pending waitReady [] reads) :
    ServesOn event server { server with thread := .waiting i reads } ∧
      Sound { server with thread := .waiting i reads } := by
  refine ⟨⟨⟨nofun, hserving.accepting⟩, fun _ _ hj _ => hj⟩, h.matching, fun _ _ hwait => ?_⟩
  cases hwait
  exact hpending

/-- A session whose handler returns goes on to send, or ends. -/
theorem processSession_of_handled (h : server.Sound) (hserving : server.Serving) {event : Event}
    {i : Nat} (hevent : event.session = some i) {msg : Option Msg}
    {result : Option FactoryMsg × σ}
    (hhandler : msgHandler event.now server.state msg = .ok result) :
    ∃ after, server.processSession msgHandler event.now i msg = .ok after ∧
      ServesOn event server after ∧ after.Sound := by
  obtain ⟨responseMsg, state⟩ := result
  cases responseMsg with
  | none =>
      have hprocess : server.processSession msgHandler event.now i msg = .ok { server with
          state, thread := .polling, sessions := server.sessions.set i .ended } := by
        rw [processSession, hhandler]
        rfl
      exact ⟨_, hprocess, servesOn_of_set h hserving hevent rfl nofun rfl nofun nofun⟩
  | some responseMsg =>
      have hprocess : server.processSession msgHandler event.now i msg = .ok { server with
          state
          thread := .sending i responseMsg.type.length
          sessions := server.sessions.set i .processing } := by
        rw [processSession, hhandler]
        simp only [Fault.ok_bind, TcpSession.sendMsg_toMsg, Fault.pure_eq_ok]
      exact ⟨_, hprocess, servesOn_of_set h hserving hevent rfl nofun rfl nofun nofun⟩

/-- A read that is awaited: if it is harmless the server serves on, else it does not. -/
theorem onWait_cases (h : server.Sound) (hserving : server.Serving) {event : Event} {i : Nat}
    (hevent : event.session = some i) {ready : List Byte → Bool} {reads : List Read}
    (hpending : Pending ready [] reads) (result : Read) {still : TcpServer σ}
    (hstill : Pending ready [] (reads ++ [result]) → ServesOn event server still ∧ still.Sound) :
    SurvivesIff server event
      (ReadHarmless (Handles msgHandler event.now server.state) ready reads result)
      (waitFor event.now ready [] (reads ++ [result]) >>=
        server.onWait msgHandler event.now i still) := by
  cases result with
  | error =>
      refine Or.inr ⟨fun ⟨_, hdata, _⟩ => Read.noConfusion hdata, fun after hafter => ?_⟩
      rw [waitFor_error _ hpending, Fault.ok_bind] at hafter
      exact Except.ok.inj hafter ▸ not_serving_leave
  | data chunk =>
      rcases waitFor_data event.now hpending chunk with
        ⟨hnone, hblocked, hpending'⟩ | ⟨bytes, htaken, hwait⟩
      · refine Or.inl ⟨⟨chunk, rfl, fun _ _ hsome => ?_⟩, still, ?_, hstill hpending'⟩
        · rw [hnone] at hsome
          cases hsome
        · rw [hblocked]
          rfl
      · rw [hwait]
        by_cases hhandles : Handles msgHandler event.now server.state bytes
        · obtain ⟨msg, result, hread, hhandler⟩ := hhandles
          obtain ⟨after, hprocess, hafter⟩ := processSession_of_handled h hserving hevent hhandler
          refine Or.inl ⟨⟨chunk, rfl, fun _ _ hsome => ?_⟩, after, ?_, hafter⟩
          · rw [htaken] at hsome
            cases hsome
            exact ⟨msg, result, hread, hhandler⟩
          · rw [hread]
            exact hprocess
        · refine Or.inr ⟨fun ⟨_, _, hall⟩ => hhandles (hall _ _ htaken), fun after hafter => ?_⟩
          obtain ⟨_, hreturn, hprocess⟩ := Fault.bind_eq_ok.mp hafter
          obtain ⟨msg, hread, heq⟩ := Fault.bind_eq_ok.mp hreturn
          obtain rfl := Except.ok.inj heq
          obtain ⟨result, hhandler, -⟩ := Fault.bind_eq_ok.mp hprocess
          exact absurd ⟨msg, result, hread, hhandler⟩ hhandles

theorem onAccept_cases (h : server.Sound) (hserving : server.Serving) (now : UInt64)
    (connected : Bool) :
    SurvivesIff server ⟨now, .accepted connected⟩ (connected = true)
      (.ok (server.onAccept connected)) := by
  cases connected with
  | false => exact survivesIff_leave Bool.false_ne_true
  | true =>
      have hafter : server.onAccept true = { server with
          acceptPending := true, sessions := server.sessions ++ [.matching []] } := rfl
      refine Or.inl ⟨rfl, _, rfl, ⟨⟨?_, rfl⟩, fun j session hj _ => ?_⟩, ⟨fun j reads hj => ?_, ?_⟩⟩
      · exact hserving.running
      · rw [hafter, List.getElem?_append_left (List.getElem?_eq_some_iff.mp hj).1, hj]
      · rw [hafter, List.getElem?_append] at hj
        split at hj
        · exact h.matching j reads hj
        · obtain ⟨_, hlast⟩ := List.getElem?_eq_some_iff.mp hj
          rw [List.getElem_singleton] at hlast
          cases hlast
          exact trivial
      · exact h.waiting

/-- What the condition on a read says where the read is awaited. -/
theorem forall_reader_iff {fine : List Byte → Prop} {i : Nat} {ready : List Byte → Bool}
    {reads : List Read}
    (hreader : server.reader i = some (ready, reads)) (result : Read) :
    (∀ ready' reads', server.reader i = some (ready', reads') →
        ReadHarmless fine ready' reads' result) ↔
      ReadHarmless fine ready reads result := by
  apply Iff.intro
  · intro hall
    exact hall ready reads hreader
  · intro hharmless ready' reads' hreader'
    rw [hreader] at hreader'
    cases hreader'
    exact hharmless

theorem onRead_of_no_reader {i : Nat} (hreader : server.reader i = none) (now : UInt64)
    (result : Read) : server.onRead msgHandler now i result = .ok server := by
  rw [reader] at hreader
  rw [onRead]
  split
  · rename_i hthread
    rw [hthread] at hreader
    dsimp only at hreader
    split
    · rename_i hsession
      rw [hsession] at hreader
      cases hreader
    · rfl
  · rename_i j reads hthread
    rw [hthread] at hreader
    dsimp only at hreader
    split
    · rename_i heq
      rw [if_pos heq] at hreader
      cases hreader
    · rfl
  · rfl

theorem onRead_cases (h : server.Sound) (hserving : server.Serving) (now : UInt64) (i : Nat)
    (result : Read) :
    SurvivesIff server ⟨now, .read i result⟩
      (∀ ready reads, server.reader i = some (ready, reads) →
        ReadHarmless (Handles msgHandler now server.state) ready reads result)
      (server.onRead msgHandler now i result) := by
  cases hreader : server.reader i with
  | none =>
      rw [onRead_of_no_reader hreader]
      exact survivesIff_of_unseen h hserving _ nofun
  | some reader =>
      obtain ⟨ready, reads⟩ := reader
      rw [← hreader, forall_reader_iff hreader]
      rw [TcpServer.reader] at hreader
      cases hthread : server.thread with
      | polling =>
          rw [hthread] at hreader
          dsimp only at hreader
          split at hreader
          · rename_i hsession
            cases hreader
            rw [onRead, hthread]
            simp only [hsession, TcpSession.asyncWaitForMsg_eq]
            refine onWait_cases h hserving rfl (h.matching i reads hsession) result fun hpending =>
              servesOn_of_set h hserving rfl rfl (fun reads' heq => ?_) rfl nofun nofun
            cases heq
            exact hpending
          · cases hreader
      | waiting j reads' =>
          rw [hthread] at hreader
          dsimp only at hreader
          split at hreader
          · rename_i heq
            cases hreader
            rw [onRead, hthread]
            simp only [if_pos heq, TcpSession.waitForMsg_eq]
            exact onWait_cases h hserving rfl (h.waiting j reads hthread) result
              (servesOn_waiting h hserving _ i)
          · cases hreader
      | sending _ _ =>
          rw [hthread] at hreader
          cases hreader
      | left => exact absurd hthread hserving.running

theorem onWritten_cases (h : server.Sound) (hserving : server.Serving) (now : UInt64) (i : Nat)
    (success : Bool) :
    SurvivesIff server ⟨now, .written i success⟩
      (∀ bytesSent, server.thread = .sending i bytesSent → success = true)
      (.ok (server.onWritten i success)) := by
  rw [onWritten]
  cases hthread : server.thread with
  | polling => exact survivesIff_of_unseen h hserving _ nofun
  | waiting _ _ => exact survivesIff_of_unseen h hserving _ nofun
  | left => exact absurd hthread hserving.running
  | sending j bytesSent =>
      by_cases heq : i = j
      · subst heq
        simp only [if_true]
        cases success with
        | false => exact survivesIff_leave fun hall => Bool.false_ne_true (hall bytesSent rfl)
        | true =>
            simp only [if_true]
            by_cases hsent : bytesSent ≠ 0
            · rw [if_pos hsent]
              exact Or.inl ⟨fun _ _ => trivial, _, rfl, servesOn_waiting h hserving _ i trivial⟩
            · rw [if_neg hsent]
              exact Or.inl ⟨fun _ _ => trivial, _, rfl,
                servesOn_of_set h hserving rfl rfl nofun rfl nofun nofun⟩
      · simp only [if_neg heq]
        refine survivesIff_of_unseen h hserving _ fun _ hsending => ?_
        cases hsending
        exact absurd rfl heq

/-- One step: a harmless event is survived, and no other. -/
theorem step_cases (h : server.Sound) (hserving : server.Serving) (event : Event) :
    SurvivesIff server event (Harmless (Handles msgHandler) server event)
      (server.step msgHandler event) := by
  obtain ⟨now, completion⟩ := event
  cases completion with
  | read i result => exact onRead_cases h hserving now i result
  | written i success => exact onWritten_cases h hserving now i success
  | accepted connected =>
      rw [step, Harmless]
      cases hthread : server.thread with
      | polling =>
          simp only [hserving.accepting, if_true, forall_const]
          exact onAccept_cases h hserving now connected
      | left => exact absurd hthread hserving.running
      | sending _ _ => exact survivesIff_of_unseen h hserving _ nofun
      | waiting _ _ => exact survivesIff_of_unseen h hserving _ nofun

end Step

/-! ## Whole runs -/

/-- After every event the loop is not left, an accept is pending, and no session but the
one that the event is about has changed. -/
def Survives (state : σ) (events : List Event) : Prop :=
  ∀ pre event post, events = pre ++ event :: post → ∃ before after,
    Machine.run (step msgHandler) (create state) pre = .ok before ∧
      before.step msgHandler event = .ok after ∧ ServesOn event before after

/-- All events of the run are harmless where they happen. -/
def AllHarmless (fine : UInt64 → σ → List Byte → Prop) (state : σ) (events : List Event) : Prop :=
  ∀ pre event post before, events = pre ++ event :: post →
    Machine.run (step msgHandler) (create state) pre = .ok before → before.Harmless fine event

variable {msgHandler}

theorem sound_create (state : σ) : (create state).Sound where
  matching i reads hi := by cases hi
  waiting i reads hi := by cases hi

/-- The server survives exactly the runs of harmless events. -/
theorem survives_iff_handles (state : σ) (events : List Event) :
    Survives msgHandler state events ↔
      AllHarmless msgHandler (Handles msgHandler) state events := by
  refine @Machine.run_forall_iff _ _ (step msgHandler) (fun server => server.Sound ∧ server.Serving)
    (fun before event after => ServesOn event before after) _ ?_ ?_ _
    ⟨sound_create state, nofun, rfl⟩ events
  · rintro server event ⟨hsound, hserving⟩
    rcases step_cases hsound hserving event with
      ⟨hharmless, after, hstep, hserves, -⟩ | ⟨hharmful, hnone⟩
    · exact iff_of_true ⟨after, hstep, hserves⟩ hharmless
    · refine iff_of_false ?_ hharmful
      rintro ⟨after, hstep, hserves⟩
      exact hnone after hstep hserves.serving
  · rintro server event after ⟨hsound, hserving⟩ hstep hserves
    rcases step_cases hsound hserving event with
      ⟨-, after', hstep', -, hsound'⟩ | ⟨-, hnone⟩
    · obtain rfl := Except.ok.inj (hstep.symm.trans hstep')
      exact ⟨hsound', hserves.serving⟩
    · exact absurd hserves.serving (hnone after hstep)

/-- Where the bytes are looked at there is a whole header. -/
theorem header_of_reader {server : TcpServer σ} {i : Nat} {ready : List Byte → Bool}
    {reads rest : List Read} {bytes : List Byte} {result : Read}
    (hreader : server.reader i = some (ready, reads))
    (htaken : taken ready [] (reads ++ [result]) = some (bytes, rest)) :
    MSG_HEADER_SIZE ≤ bytes.length := by
  have hready := (taken_spec htaken).1
  rw [reader] at hreader
  split at hreader
  · split at hreader
    · cases hreader
      exact (matchReady_iff.mp hready).1
    · cases hreader
  · split at hreader
    · cases hreader
      exact (waitReady_iff.mp hready).1
    · cases hreader
  · cases hreader

/-- Bytes are looked at behind a header only. -/
theorem harmless_congr {fine fine' : UInt64 → σ → List Byte → Prop} {server : TcpServer σ}
    (h : ∀ now bytes, MSG_HEADER_SIZE ≤ bytes.length →
      (fine now server.state bytes ↔ fine' now server.state bytes)) (event : Event) :
    server.Harmless fine event ↔ server.Harmless fine' event := by
  obtain ⟨now, completion⟩ := event
  cases completion with
  | accepted connected => exact Iff.rfl
  | written i success => exact Iff.rfl
  | read i result =>
      refine forall₂_congr fun ready reads => forall_congr' fun hreader => ?_
      refine exists_congr fun chunk => and_congr_right fun _ => ?_
      refine forall₂_congr fun bytes rest => forall_congr' fun htaken => ?_
      exact h now bytes (header_of_reader hreader htaken)

/-- Two conditions that agree behind a header in every state of a run make the same
runs harmless. -/
theorem allHarmless_congr {fine fine' : UInt64 → σ → List Byte → Prop} {state : σ}
    {events : List Event}
    (h : ∀ pre before, Machine.run (step msgHandler) (create state) pre = .ok before →
      ∀ now bytes, MSG_HEADER_SIZE ≤ bytes.length →
        (fine now before.state bytes ↔ fine' now before.state bytes)) :
    AllHarmless msgHandler fine state events ↔ AllHarmless msgHandler fine' state events := by
  refine forall₂_congr fun pre event => forall₂_congr fun post before => ?_
  refine forall₂_congr fun _ hrun => ?_
  exact harmless_congr (h pre before hrun) event

/-! ## The state of the handler -/

section State

variable {Inv : σ → Prop} {before after : TcpServer σ}

theorem state_of_processSession
    (hInv : ∀ now state msg result, Inv state → msgHandler now state msg = .ok result →
      Inv result.2)
    (hbefore : Inv before.state) {now : UInt64} {i : Nat} {msg : Option Msg}
    (h : before.processSession msgHandler now i msg = .ok after) : Inv after.state := by
  obtain ⟨⟨responseMsg, state⟩, hhandler, hrest⟩ := Fault.bind_eq_ok.mp h
  have hstate := hInv _ _ _ _ hbefore hhandler
  cases responseMsg with
  | none => exact Except.ok.inj hrest ▸ hstate
  | some responseMsg =>
      obtain ⟨_, -, heq⟩ := Fault.bind_eq_ok.mp hrest
      exact Except.ok.inj heq ▸ hstate

theorem state_of_onWait
    (hInv : ∀ now state msg result, Inv state → msgHandler now state msg = .ok result →
      Inv result.2)
    (hbefore : Inv before.state) {now : UInt64} {i : Nat} {still : TcpServer σ} {wait : Wait}
    (hstill : Inv still.state) (h : before.onWait msgHandler now i still wait = .ok after) :
    Inv after.state := by
  cases wait with
  | blocked => exact Except.ok.inj h ▸ hstill
  | threw => exact Except.ok.inj h ▸ hbefore
  | returned msg rest => exact state_of_processSession hInv hbefore h

theorem state_onAccept (server : TcpServer σ) (connected : Bool) :
    (server.onAccept connected).state = server.state := by
  cases connected <;> rfl

theorem state_onWritten (server : TcpServer σ) (i : Nat) (success : Bool) :
    (server.onWritten i success).state = server.state := by
  rw [onWritten]
  split
  · split_ifs <;> rfl
  · rfl

/-- What the handler keeps of its state, the server keeps. -/
theorem state_of_step
    (hInv : ∀ now state msg result, Inv state → msgHandler now state msg = .ok result →
      Inv result.2)
    {event : Event} (hbefore : Inv before.state) (h : before.step msgHandler event = .ok after) :
    Inv after.state := by
  rw [step] at h
  split at h
  · split at h
    · obtain rfl := Except.ok.inj h
      split
      · rwa [state_onAccept]
      · exact hbefore
    · exact Except.ok.inj h ▸ hbefore
  · rw [onRead] at h
    split at h
    · split at h
      · obtain ⟨wait, -, hwait⟩ := Fault.bind_eq_ok.mp h
        exact state_of_onWait hInv hbefore (by exact hbefore) hwait
      · exact Except.ok.inj h ▸ hbefore
    · split at h
      · obtain ⟨wait, -, hwait⟩ := Fault.bind_eq_ok.mp h
        exact state_of_onWait hInv hbefore (by exact hbefore) hwait
      · exact Except.ok.inj h ▸ hbefore
    · exact Except.ok.inj h ▸ hbefore
  · obtain rfl := Except.ok.inj h
    rwa [state_onWritten]

theorem state_of_run
    (hInv : ∀ now state msg result, Inv state → msgHandler now state msg = .ok result →
      Inv result.2)
    {state : σ} (hstate : Inv state) {events : List Event}
    (h : Machine.run (step msgHandler) (create state) events = .ok after) : Inv after.state := by
  refine @Machine.run_keeps _ _ _ (fun server => Inv server.state) ?_ _ _ hstate _ h
  intro server event next hserver hstep
  exact state_of_step hInv hserver hstep

end State

end TcpServer

end RoutePlanner.Comms
