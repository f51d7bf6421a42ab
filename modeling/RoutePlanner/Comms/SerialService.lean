/-
# One session at a time

Nothing in the server's loop says that sessions are served one after the other; it
follows from blocking reads and writes on the only thread.  A session whose first
message is complete keeps the thread until its handler returns null.  Until then no
other session makes progress, however complete its messages are, and what a session
is handed depends on its own reads alone.
-/

import RoutePlanner.Comms.TcpServer

namespace RoutePlanner.Comms

open RoutePlanner.Std
open RoutePlanner.Messages

/-- The session that keeps the thread. -/
def Thread.session : Thread → Option Nat
  | .sending i _ | .waiting i _ => some i
  | .polling | .left => none

theorem Thread.session_ne_of_polling {thread : Thread} (h : thread = .polling) (i : Nat) :
    thread.session ≠ some i := by
  subst h
  exact fun heq => by cases heq

theorem Thread.session_ne {thread : Thread} {i j : Nat} (h : thread.session = some j)
    (hne : i ≠ j) : thread.session ≠ some i :=
  fun heq => hne (Option.some.inj (heq.symm.trans h))

/-- A reader that is still waiting has taken nothing. -/
theorem taken_of_pending {ready : List Byte → Bool} {received : List Byte} {reads : List Read}
    (h : Pending ready received reads) : taken ready received reads = none := by
  induction reads generalizing received with
  | nil => rfl
  | cons read reads ih =>
      cases read with
      | error => exact absurd h id
      | data chunk =>
          rw [taken, h.1]
          exact ih h.2

/-- Neither has one whose next read fails. -/
theorem taken_concat_error {ready : List Byte → Bool} {received : List Byte} {reads : List Read}
    (h : Pending ready received reads) : taken ready received (reads ++ [.error]) = none := by
  induction reads generalizing received with
  | nil => rfl
  | cons read reads ih =>
      cases read with
      | error => exact absurd h id
      | data chunk =>
          rw [List.cons_append, taken, h.1]
          exact ih h.2

namespace TcpServer

variable {σ : Type} {msgHandler : UInt64 → σ → Option Msg → Except Fault (Option FactoryMsg × σ)}

/-- The session whose message an event completes, and the bytes of the message. -/
def completed (server : TcpServer σ) (event : Event) : Option (Nat × List Byte) :=
  match event.completion with
  | .read i result =>
      match server.reader i with
      | some (ready, reads) =>
          (taken ready [] (reads ++ [result])).map fun message => (i, message.1)
      | none => none
  | _ => none

/-- Nobody waits for what the event brings. -/
def Unseen (server : TcpServer σ) (event : Event) : Prop :=
  ∀ i result, event.completion = .read i result → server.reader i = none

/-- What an event can do to the server. -/
inductive Moves (msgHandler : UInt64 → σ → Option Msg → Except Fault (Option FactoryMsg × σ))
    (server : TcpServer σ) (event : Event) : TcpServer σ → Prop
  | unseen : server.Unseen event → Moves msgHandler server event server
  | accepted : event.completion = .accepted true → server.thread = .polling →
      Moves msgHandler server event
        { server with acceptPending := true, sessions := server.sessions ++ [.matching []] }
  | left : server.completed event = none → Moves msgHandler server event server.leave
  | matching {i : Nat} {reads : List Read} {chunk : Chunk Byte} :
      event.completion = .read i (.data chunk) → server.thread = .polling →
      server.sessions[i]? = some (.matching reads) →
      Pending matchReady [] (reads ++ [.data chunk]) → Moves msgHandler server event
        { server with sessions := server.sessions.set i (.matching (reads ++ [.data chunk])) }
  | waiting {i : Nat} {reads : List Read} {chunk : Chunk Byte} :
      event.completion = .read i (.data chunk) → server.thread = .waiting i reads →
      Pending waitReady [] (reads ++ [.data chunk]) →
      Moves msgHandler server event { server with thread := .waiting i (reads ++ [.data chunk]) }
  | refused {i : Nat} {bytes : List Byte} {msg : Option Msg} {state : σ} :
      server.completed event = some (i, bytes) → readMsg event.now bytes = .ok msg →
      msgHandler event.now server.state msg = .ok (none, state) → Moves msgHandler server event
        { server with state, thread := .polling, sessions := server.sessions.set i .ended }
  | answered {i : Nat} {bytes : List Byte} {msg : Option Msg} {response : FactoryMsg} {state : σ} :
      server.completed event = some (i, bytes) → readMsg event.now bytes = .ok msg →
      msgHandler event.now server.state msg = .ok (some response, state) →
      Moves msgHandler server event { server with
        state
        thread := .sending i response.type.length
        sessions := server.sessions.set i .processing }
  | written {i bytesSent : Nat} : event.completion = .written i true →
      server.thread = .sending i bytesSent → bytesSent ≠ 0 →
      Moves msgHandler server event { server with thread := .waiting i [] }
  | closed {i : Nat} : event.completion = .written i true → server.thread = .sending i 0 →
      Moves msgHandler server event
        { server with thread := .polling, sessions := server.sessions.set i .ended }

/-! ## One step -/

section Step

variable {server after : TcpServer σ} {event : Event}

theorem completed_of_reader {i : Nat} {result : Read} {ready : List Byte → Bool}
    {reads : List Read} (hevent : event.completion = .read i result)
    (hreader : server.reader i = some (ready, reads)) :
    server.completed event = (taken ready [] (reads ++ [result])).map fun message =>
      (i, message.1) := by
  rw [completed, hevent]
  simp only [hreader]

theorem reader_of_matching {i : Nat} {reads : List Read} (hthread : server.thread = .polling)
    (hsession : server.sessions[i]? = some (.matching reads)) :
    server.reader i = some (matchReady, reads) := by
  simp only [reader, hthread, hsession]

theorem reader_of_waiting {i : Nat} {reads : List Read}
    (hthread : server.thread = .waiting i reads) :
    server.reader i = some (waitReady, reads) := by
  simp only [reader, hthread, if_true]

/-- What comes of a read that the thread waits for. -/
theorem moves_of_onWait {i : Nat} {result : Read} {ready : List Byte → Bool} {reads : List Read}
    (hevent : event.completion = .read i result)
    (hreader : server.reader i = some (ready, reads)) (hpending : Pending ready [] reads)
    {still : TcpServer σ}
    (hstill : ∀ chunk, result = .data chunk → Pending ready [] (reads ++ [.data chunk]) →
      Moves msgHandler server event still)
    (hstep : (waitFor event.now ready [] (reads ++ [result]) >>=
      server.onWait msgHandler event.now i still) = .ok after) :
    Moves msgHandler server event after := by
  have hcompleted := completed_of_reader hevent hreader
  cases result with
  | error =>
      rw [waitFor_error event.now hpending, Fault.ok_bind] at hstep
      obtain rfl := Except.ok.inj hstep
      exact .left (by rw [hcompleted, taken_concat_error hpending]; rfl)
  | data chunk =>
      rcases waitFor_data event.now hpending chunk with
        ⟨-, hblocked, hpending'⟩ | ⟨bytes, htaken, hwait⟩
      · rw [hblocked, Fault.ok_bind] at hstep
        obtain rfl := Except.ok.inj hstep
        exact hstill chunk rfl hpending'
      · rw [htaken] at hcompleted
        rw [hwait] at hstep
        obtain ⟨wait, hreturn, hprocess⟩ := Fault.bind_eq_ok.mp hstep
        obtain ⟨msg, hread, heq⟩ := Fault.bind_eq_ok.mp hreturn
        obtain rfl := Except.ok.inj heq
        obtain ⟨⟨response, state⟩, hhandler, hrest⟩ := Fault.bind_eq_ok.mp hprocess
        cases response with
        | none =>
            obtain rfl := Except.ok.inj hrest
            exact .refused hcompleted hread hhandler
        | some response =>
            simp only [TcpSession.sendMsg_toMsg, Fault.ok_bind, Fault.pure_eq_ok] at hrest
            obtain rfl := Except.ok.inj hrest
            exact .answered hcompleted hread hhandler

theorem moves_of_accepted {now : UInt64} {connected : Bool}
    (hstep : server.step msgHandler ⟨now, .accepted connected⟩ = .ok after) :
    Moves msgHandler server ⟨now, .accepted connected⟩ after := by
  have hunseen : server.Unseen ⟨now, .accepted connected⟩ := fun _ _ heq => by cases heq
  rw [step] at hstep
  cases hthread : server.thread with
  | polling =>
      simp only [hthread, Except.ok.injEq] at hstep
      subst hstep
      split
      · cases connected with
        | true => exact .accepted rfl hthread
        | false => exact .left rfl
      · exact .unseen hunseen
  | _ =>
      simp only [hthread, Except.ok.injEq] at hstep
      exact hstep ▸ .unseen hunseen

theorem moves_of_written {now : UInt64} {i : Nat} {success : Bool}
    (hstep : server.step msgHandler ⟨now, .written i success⟩ = .ok after) :
    Moves msgHandler server ⟨now, .written i success⟩ after := by
  have hunseen : server.Unseen ⟨now, .written i success⟩ := fun _ _ heq => by cases heq
  rw [step] at hstep
  obtain rfl := Except.ok.inj hstep
  rw [onWritten]
  cases hthread : server.thread with
  | sending j bytesSent =>
      by_cases hij : i = j
      · subst hij
        simp only [if_true]
        cases success with
        | false => exact .left rfl
        | true =>
            simp only [if_true]
            by_cases hsent : bytesSent ≠ 0
            · rw [if_pos hsent]
              exact .written rfl hthread hsent
            · rw [if_neg hsent]
              rw [not_not.mp hsent] at hthread
              exact .closed rfl hthread
      · simp only [if_neg hij]
        exact .unseen hunseen
  | _ => exact .unseen hunseen

theorem moves_of_read (h : server.Sound) {now : UInt64} {i : Nat} {result : Read}
    (hstep : server.step msgHandler ⟨now, .read i result⟩ = .ok after) :
    Moves msgHandler server ⟨now, .read i result⟩ after := by
  change server.onRead msgHandler now i result = .ok after at hstep
  cases hreader : server.reader i with
  | none =>
      rw [onRead_of_no_reader hreader] at hstep
      obtain rfl := Except.ok.inj hstep
      refine .unseen fun j result' heq => ?_
      cases heq
      exact hreader
  | some reader =>
      obtain ⟨ready, reads⟩ := reader
      have hreader' := hreader
      rw [TcpServer.reader] at hreader'
      rw [onRead] at hstep
      cases hthread : server.thread with
      | polling =>
          simp only [hthread] at hreader' hstep
          split at hreader'
          · rename_i hsession
            cases hreader'
            simp only [hsession, TcpSession.asyncWaitForMsg_eq] at hstep
            refine moves_of_onWait rfl hreader (h.matching i reads hsession)
              (fun chunk heq hpending => ?_) hstep
            subst heq
            have hmoves := @Moves.matching _ msgHandler server
              ⟨now, .read i (.data chunk)⟩ i reads chunk rfl hthread hsession hpending
            rwa [hthread] at hmoves
          · cases hreader'
      | waiting j reads' =>
          simp only [hthread] at hreader' hstep
          by_cases hij : i = j
          · subst hij
            rw [if_pos rfl] at hreader' hstep
            cases hreader'
            rw [TcpSession.waitForMsg_eq] at hstep
            refine moves_of_onWait rfl hreader (h.waiting i reads hthread)
              (fun chunk heq hpending => ?_) hstep
            subst heq
            exact .waiting rfl hthread hpending
          · rw [if_neg hij] at hreader'
            cases hreader'
      | sending _ _ =>
          simp only [hthread] at hreader'
          cases hreader'
      | left =>
          simp only [hthread] at hreader'
          cases hreader'

/-- One lemma for the loop: what a step does, for every kind of event. -/
theorem moves_of_step (h : server.Sound) (hstep : server.step msgHandler event = .ok after) :
    Moves msgHandler server event after := by
  obtain ⟨now, completion⟩ := event
  cases completion with
  | accepted connected => exact moves_of_accepted hstep
  | written i success => exact moves_of_written hstep
  | read i result => exact moves_of_read h hstep

end Step

/-! ## Who keeps the thread -/

/-- Sessions that wait have not got a message yet, and the thread is kept by the one
session that is being processed, if there is one. -/
structure Owned (server : TcpServer σ) : Prop where
  sound : server.Sound
  owner : ∀ i, server.sessions[i]? = some .processing ↔ server.thread.session = some i

theorem owned_create (state : σ) : (create state).Owned where
  sound := sound_create state
  owner i := by simp [create, Thread.session]

section Ownership

variable {server after : TcpServer σ} {event : Event} {i : Nat} {bytes : List Byte}

/-- The reads before a message that is not complete are those of one that waits. -/
theorem Owned.pending_of_reader (h : server.Owned) {ready : List Byte → Bool} {reads : List Read}
    (hreader : server.reader i = some (ready, reads)) : Pending ready [] reads := by
  rw [reader] at hreader
  split at hreader
  · split at hreader
    · rename_i hsession
      cases hreader
      exact h.sound.matching i _ hsession
    · cases hreader
  · rename_i hthread
    split at hreader
    · cases hreader
      exact h.sound.waiting _ _ hthread
    · cases hreader
  · cases hreader

/-- A message is complete in the session that keeps the thread, or while nobody does. -/
theorem completed_cases (h : server.completed event = some (i, bytes)) :
    (server.thread = .polling ∧ ∃ reads, server.sessions[i]? = some (.matching reads)) ∨
      ∃ reads, server.thread = .waiting i reads := by
  rw [completed] at h
  split at h
  · rename_i j result hevent
    split at h
    · rename_i ready reads hreader
      obtain ⟨message, -, heq⟩ := Option.map_eq_some_iff.mp h
      obtain rfl := (Prod.mk.inj heq).1
      rw [reader] at hreader
      split at hreader
      · rename_i hthread
        split at hreader
        · rename_i hsession
          exact Or.inl ⟨hthread, _, hsession⟩
        · cases hreader
      · rename_i hthread
        split at hreader
        · rename_i heq
          exact Or.inr ⟨_, heq ▸ hthread⟩
        · cases hreader
      · cases hreader
    · cases h
  · cases h

theorem completed_of_unseen (h : server.Unseen event) : server.completed event = none := by
  rw [completed]
  split
  · rename_i j result hevent
    rw [h j result hevent]
  · rfl

theorem completed_of_written {success : Bool} (h : event.completion = .written i success) :
    server.completed event = none := by
  rw [completed, h]

theorem completed_of_accepted {connected : Bool} (h : event.completion = .accepted connected) :
    server.completed event = none := by
  rw [completed, h]

/-- The session of a complete message is there. -/
theorem Owned.lt_length (h : server.Owned) (hcompleted : server.completed event = some (i, bytes)) :
    i < server.sessions.length := by
  rcases completed_cases hcompleted with ⟨-, reads, hsession⟩ | ⟨reads, hthread⟩
  · exact (List.getElem?_eq_some_iff.mp hsession).1
  · have hprocessing := (h.owner i).mpr (by rw [hthread]; rfl)
    exact (List.getElem?_eq_some_iff.mp hprocessing).1

/-- No session that keeps the thread is another one. -/
theorem session_of_completed
    (hcompleted : server.completed event = some (i, bytes)) {j : Nat}
    (hj : server.thread.session = some j) : i = j := by
  rcases completed_cases hcompleted with ⟨hthread, -⟩ | ⟨reads, hthread⟩
  · rw [hthread] at hj
    cases hj
  · rw [hthread] at hj
    exact Option.some.inj hj

/-- A session that has ended gets no message. -/
theorem Owned.not_ended_of_completed (h : server.Owned)
    (hcompleted : server.completed event = some (i, bytes)) :
    server.sessions[i]? ≠ some .ended := by
  intro hended
  rcases completed_cases hcompleted with ⟨-, reads, hsession⟩ | ⟨reads, hthread⟩
  · rw [hsession] at hended
    cases hended
  · have hprocessing := (h.owner i).mpr (by rw [hthread]; rfl)
    rw [hprocessing] at hended
    cases hended

theorem sessions_leave (server : TcpServer σ) (j : Nat) :
    server.leave.sessions[j]? = server.sessions[j]?.map fun _ => Session.ended := by
  rw [leave, List.getElem?_map]

/-- Setting a session changes no other, and the session itself if it is there. -/
theorem getElem?_set_session {sessions : List Session} (hi : i < sessions.length)
    (session : Session) (j : Nat) :
    (sessions.set i session)[j]? = if j = i then some session else sessions[j]? := by
  rw [List.getElem?_set]
  by_cases hij : i = j
  · subst hij
    rw [if_pos rfl, if_pos hi, if_pos rfl]
  · rw [if_neg hij, if_neg (Ne.symm hij)]

/-- A session changes, and with it what the thread does, if no other session had it. -/
theorem Owned.set (h : server.Owned) (state : σ) {thread : Thread} {session : Session}
    (hi : i < server.sessions.length)
    (hmatching : ∀ reads, session = .matching reads → Pending matchReady [] reads)
    (hwaiting : ∀ j reads, thread = .waiting j reads → Pending waitReady [] reads)
    (hself : session = .processing ↔ thread.session = some i)
    (hothers : ∀ j, j ≠ i → server.thread.session ≠ some j ∧ thread.session ≠ some j) :
    Owned { server with state, thread, sessions := server.sessions.set i session } := by
  refine ⟨⟨fun j reads hj => ?_, hwaiting⟩, fun j => ?_⟩
  · rw [getElem?_set_session hi] at hj
    split at hj
    · exact hmatching reads (Option.some.inj hj)
    · exact h.sound.matching j reads hj
  · rw [getElem?_set_session hi]
    split
    · rename_i heq
      rw [heq, Option.some.injEq]
      exact hself
    · rename_i hne
      rw [h.owner j]
      exact iff_of_false (hothers j hne).1 (hothers j hne).2

/-- The thread goes on with the session that keeps it. -/
theorem Owned.goOn (h : server.Owned) {thread : Thread}
    (hwaiting : ∀ j reads, thread = .waiting j reads → Pending waitReady [] reads)
    (hsession : thread.session = server.thread.session) : Owned { server with thread } :=
  ⟨⟨h.sound.matching, hwaiting⟩, fun j => by rw [h.owner j, hsession]⟩

/-- Every step keeps the ownership. -/
theorem Owned.moves (h : server.Owned) (hmoves : Moves msgHandler server event after) :
    after.Owned := by
  cases hmoves with
  | unseen _ => exact h
  | left _ =>
      refine ⟨⟨fun j reads hj => ?_, fun j reads hwait => by cases hwait⟩, fun j => ?_⟩
      · rw [sessions_leave, Option.map_eq_some_iff] at hj
        obtain ⟨_, -, heq⟩ := hj
        cases heq
      · rw [sessions_leave]
        cases server.sessions[j]? <;> simp [leave, Thread.session]
  | accepted _ hthread =>
      have hnew : ∀ (j : Nat) (session : Session),
          (server.sessions ++ [Session.matching []])[j]? = some session →
          server.sessions[j]? = some session ∨ session = Session.matching [] := by
        intro j session hj
        rw [List.getElem?_append] at hj
        split at hj
        · exact Or.inl hj
        · obtain ⟨_, hlast⟩ := List.getElem?_eq_some_iff.mp hj
          rw [List.getElem_singleton] at hlast
          exact Or.inr hlast.symm
      refine ⟨⟨fun j reads hj => ?_, h.sound.waiting⟩, fun j => ⟨fun hj => ?_, fun hj => ?_⟩⟩
      · rcases hnew j _ hj with hj | heq
        · exact h.sound.matching j reads hj
        · cases heq
          exact trivial
      · rcases hnew j _ hj with hj | heq
        · exact (h.owner j).mp hj
        · cases heq
      · rw [hthread] at hj
        cases hj
  | @matching i reads chunk _ hthread hsession hpending =>
      have hpolling := Thread.session_ne_of_polling hthread
      refine h.set server.state (List.getElem?_eq_some_iff.mp hsession).1 (fun reads' heq => ?_)
        h.sound.waiting (iff_of_false nofun (hpolling i)) fun j _ => ⟨hpolling j, hpolling j⟩
      cases heq
      exact hpending
  | @waiting i reads chunk _ hthread hpending =>
      refine h.goOn (fun j reads' hwait => ?_) (by rw [hthread]; rfl)
      cases hwait
      exact hpending
  | @refused i bytes msg state hcompleted _ _ =>
      exact h.set state (h.lt_length hcompleted) nofun nofun (iff_of_false nofun nofun)
        fun j hne => ⟨fun hj => hne (session_of_completed hcompleted hj).symm, nofun⟩
  | @answered i bytes msg response state hcompleted _ _ =>
      exact h.set state (h.lt_length hcompleted) nofun nofun (iff_of_true rfl rfl)
        fun j hne => ⟨fun hj => hne (session_of_completed hcompleted hj).symm,
          Thread.session_ne rfl hne⟩
  | @written i bytesSent _ hthread _ =>
      refine h.goOn (fun j reads' hwait => ?_) (by rw [hthread]; rfl)
      cases hwait
      exact trivial
  | @closed i _ hthread =>
      have hheld : server.thread.session = some i := by rw [hthread]; rfl
      have hi := (List.getElem?_eq_some_iff.mp ((h.owner i).mpr hheld)).1
      exact h.set server.state hi nofun nofun (iff_of_false nofun nofun)
        fun j hne => ⟨Thread.session_ne hheld hne, nofun⟩

/-- An ended session stays so. -/
theorem Owned.ended_of_moves (h : server.Owned) (hmoves : Moves msgHandler server event after)
    (hended : server.sessions[i]? = some .ended) : after.sessions[i]? = some .ended := by
  have hne : ∀ {j bytes}, server.completed event = some (j, bytes) → i ≠ j :=
    fun hcompleted heq => h.not_ended_of_completed hcompleted (heq ▸ hended)
  have hother : ∀ {j} (session : Session), i ≠ j →
      (server.sessions.set j session)[i]? = some .ended := by
    intro j session hij
    rw [List.getElem?_set_ne hij.symm]
    exact hended
  cases hmoves with
  | unseen _ => exact hended
  | left _ =>
      rw [sessions_leave, hended]
      rfl
  | accepted _ _ =>
      rw [List.getElem?_append_left (List.getElem?_eq_some_iff.mp hended).1, hended]
  | matching _ _ hsession _ =>
      refine hother _ fun heq => ?_
      subst heq
      rw [hsession] at hended
      cases hended
  | waiting _ _ _ => exact hended
  | refused hcompleted _ _ => exact hother _ (hne hcompleted)
  | answered hcompleted _ _ => exact hother _ (hne hcompleted)
  | written _ _ _ => exact hended
  | closed _ hthread =>
      refine hother _ fun heq => ?_
      subst heq
      rw [(h.owner i).mpr (by rw [hthread]; rfl)] at hended
      cases hended

/-- The session that keeps the thread keeps it, or it ends. -/
theorem Owned.held_of_moves (h : server.Owned) (hmoves : Moves msgHandler server event after)
    (hheld : server.thread.session = some i) :
    after.thread.session = some i ∨ after.sessions[i]? = some .ended := by
  have hprocessing := (h.owner i).mpr hheld
  have hi : i < server.sessions.length := (List.getElem?_eq_some_iff.mp hprocessing).1
  cases hmoves with
  | unseen _ => exact Or.inl hheld
  | left _ =>
      rw [sessions_leave, hprocessing]
      exact Or.inr rfl
  | accepted _ hthread =>
      rw [hthread] at hheld
      cases hheld
  | matching _ hthread _ _ =>
      rw [hthread] at hheld
      cases hheld
  | waiting _ hthread _ =>
      rw [hthread] at hheld
      exact Or.inl hheld
  | refused hcompleted _ _ =>
      rw [session_of_completed hcompleted hheld, getElem?_set_session hi, if_pos rfl]
      exact Or.inr rfl
  | answered hcompleted _ _ => exact Or.inl (congrArg _ (session_of_completed hcompleted hheld))
  | written _ hthread _ =>
      rw [hthread] at hheld
      exact Or.inl hheld
  | closed _ hthread =>
      rw [hthread] at hheld
      rw [Option.some.inj hheld, getElem?_set_session hi, if_pos rfl]
      exact Or.inr rfl

/-- What a message that is complete comes to is up to the handler. -/
theorem eq_of_completed (hmoves : Moves msgHandler server event after)
    (hcompleted : server.completed event = some (i, bytes)) :
    ∃ msg response state, readMsg event.now bytes = .ok msg ∧
      msgHandler event.now server.state msg = .ok (response, state) ∧
      after = match response with
        | none =>
            { server with state, thread := .polling, sessions := server.sessions.set i .ended }
        | some response => { server with
            state
            thread := .sending i response.type.length
            sessions := server.sessions.set i .processing } := by
  cases hmoves with
  | unseen hunseen =>
      rw [completed_of_unseen hunseen] at hcompleted
      cases hcompleted
  | left hnone =>
      rw [hnone] at hcompleted
      cases hcompleted
  | accepted hevent _ =>
      rw [completed_of_accepted hevent] at hcompleted
      cases hcompleted
  | matching hevent hthread hsession hpending =>
      rw [completed_of_reader hevent (reader_of_matching hthread hsession),
        taken_of_pending hpending] at hcompleted
      cases hcompleted
  | waiting hevent hthread hpending =>
      rw [completed_of_reader hevent (reader_of_waiting hthread),
        taken_of_pending hpending] at hcompleted
      cases hcompleted
  | refused hcompleted' hread hhandler =>
      rw [hcompleted] at hcompleted'
      cases hcompleted'
      exact ⟨_, none, _, hread, hhandler, rfl⟩
  | answered hcompleted' hread hhandler =>
      rw [hcompleted] at hcompleted'
      cases hcompleted'
      exact ⟨_, some _, _, hread, hhandler, rfl⟩
  | written hevent _ _ =>
      rw [completed_of_written hevent] at hcompleted
      cases hcompleted
  | closed hevent _ =>
      rw [completed_of_written hevent] at hcompleted
      cases hcompleted

/-- The session of a complete message keeps the thread from then on, or it ends. -/
theorem Owned.completed_of_moves (h : server.Owned) (hmoves : Moves msgHandler server event after)
    (hcompleted : server.completed event = some (i, bytes)) :
    after.thread.session = some i ∨ after.sessions[i]? = some .ended := by
  obtain ⟨msg, response, state, -, -, rfl⟩ := eq_of_completed hmoves hcompleted
  cases response with
  | none =>
      rw [getElem?_set_session (h.lt_length hcompleted), if_pos rfl]
      exact Or.inr rfl
  | some response => exact Or.inl rfl

end Ownership

/-! ## Whole runs -/

/-- The sessions whose messages complete in a run, and the bytes of these messages. -/
def completions (msgHandler : UInt64 → σ → Option Msg → Except Fault (Option FactoryMsg × σ))
    (server : TcpServer σ) : List Event → List (Nat × List Byte)
  | [] => []
  | event :: events =>
      (server.completed event).toList ++
        match server.step msgHandler event with
        | .ok after => completions msgHandler after events
        | .error _ => []

/-- Between two messages of a session there is none of another. -/
def InBlocks (sessions : List Nat) : Prop :=
  ∀ pre i mid post, sessions = pre ++ i :: (mid ++ i :: post) → ∀ j ∈ mid, j = i

section Runs

variable {server : TcpServer σ} {i : Nat}

/-- The first event, and the rest of the run if there is one. -/
theorem completions_cons (h : server.Owned) (event : Event) (events : List Event) :
    ∃ rest, completions msgHandler server (event :: events) =
        (server.completed event).toList ++ rest ∧
      (rest = [] ∨ ∃ after, Moves msgHandler server event after ∧ after.Owned ∧
        rest = completions msgHandler after events) := by
  refine ⟨_, rfl, ?_⟩
  split
  · rename_i after hstep
    have hmoves := moves_of_step h.sound hstep
    exact Or.inr ⟨after, hmoves, h.moves hmoves, rfl⟩
  · exact Or.inl rfl

/-- An ended session gets no more messages. -/
theorem Owned.notMem_of_ended
    (msgHandler : UInt64 → σ → Option Msg → Except Fault (Option FactoryMsg × σ))
    (h : server.Owned) (hended : server.sessions[i]? = some .ended) (events : List Event) :
    i ∉ (completions msgHandler server events).map Prod.fst := by
  induction events generalizing server with
  | nil => exact List.not_mem_nil
  | cons event events ih =>
      obtain ⟨rest, heq, hrest⟩ := completions_cons h event events
      rw [heq, List.map_append, List.mem_append, not_or]
      apply And.intro
      · intro hmem
        obtain ⟨⟨j, bytes⟩, hcompleted, rfl⟩ := List.mem_map.mp hmem
        exact h.not_ended_of_completed (Option.mem_toList.mp hcompleted) hended
      · rcases hrest with rfl | ⟨after, hmoves, hafter, rfl⟩
        · exact List.not_mem_nil
        · exact ih hafter (h.ended_of_moves hmoves hended)

/-- While a session keeps the thread, no message of another completes before its own
ones. -/
theorem Owned.eq_of_held (h : server.Owned) (hheld : server.thread.session = some i)
    (events : List Event) {mid post : List Nat}
    (hsplit : (completions msgHandler server events).map Prod.fst = mid ++ i :: post) :
    ∀ j ∈ mid, j = i := by
  induction events generalizing server mid with
  | nil => simp [completions] at hsplit
  | cons event events ih =>
      obtain ⟨rest, heq, hrest⟩ := completions_cons h event events
      rw [heq, List.map_append] at hsplit
      -- what is left of the run after this event
      have hlater : ∀ {mid' : List Nat}, rest.map Prod.fst = mid' ++ i :: post →
          ∀ j ∈ mid', j = i := by
        intro mid' hsplit'
        rcases hrest with rfl | ⟨after, hmoves, hafter, rfl⟩
        · simp at hsplit'
        · rcases h.held_of_moves hmoves hheld with hheld' | hended
          · exact ih hafter hheld' hsplit'
          · refine absurd ?_ (hafter.notMem_of_ended msgHandler hended events)
            rw [hsplit']
            exact List.mem_append_right _ List.mem_cons_self
      cases hcompleted : server.completed event with
      | none =>
          rw [hcompleted] at hsplit
          exact hlater hsplit
      | some message =>
          obtain ⟨k, bytes⟩ := message
          rw [hcompleted] at hsplit
          obtain rfl := session_of_completed hcompleted hheld
          cases mid with
          | nil => exact fun _ hj => absurd hj List.not_mem_nil
          | cons first mid =>
              obtain ⟨rfl, htail⟩ := List.cons.inj hsplit
              exact List.forall_mem_cons.mpr ⟨rfl, hlater htail⟩

theorem Owned.inBlocks (h : server.Owned) (events : List Event) :
    InBlocks ((completions msgHandler server events).map Prod.fst) := by
  induction events generalizing server with
  | nil =>
      intro pre i mid post hsplit
      simp [completions] at hsplit
  | cons event events ih =>
      obtain ⟨rest, heq, hrest⟩ := completions_cons h event events
      have hlater : InBlocks (rest.map Prod.fst) := by
        rcases hrest with rfl | ⟨after, -, hafter, rfl⟩
        · intro pre i mid post hsplit
          simp at hsplit
        · exact ih hafter
      rw [heq, List.map_append]
      cases hcompleted : server.completed event with
      | none => exact hlater
      | some message =>
          obtain ⟨k, bytes⟩ := message
          intro pre i mid post hsplit
          cases pre with
          | cons first pre => exact hlater pre i mid post (List.cons.inj hsplit).2
          | nil =>
              obtain ⟨rfl, htail⟩ := List.cons.inj hsplit
              rcases hrest with rfl | ⟨after, hmoves, hafter, rfl⟩
              · simp at htail
              · rcases h.completed_of_moves hmoves hcompleted with hheld | hended
                · exact hafter.eq_of_held hheld events htail
                · refine absurd ?_ (hafter.notMem_of_ended msgHandler hended events)
                  have hrest : (completions msgHandler after events).map Prod.fst =
                    mid ++ k :: post := htail
                  rw [hrest]
                  exact List.mem_append_right _ List.mem_cons_self

/-- In every run of the loop, with any handler, the messages of a session are handed
on in one go: between two of them there is none of another session. -/
theorem served_in_blocks
    (msgHandler : UInt64 → σ → Option Msg → Except Fault (Option FactoryMsg × σ)) (state : σ)
    (events : List Event) :
    InBlocks ((completions msgHandler (create state) events).map Prod.fst) :=
  (owned_create state).inBlocks events

end Runs

end TcpServer

end RoutePlanner.Comms
