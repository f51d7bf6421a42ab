/-
# How far a message has come

While a message of the factory is on its way, some of its bytes have been read and the
others have not.  A reader goes on waiting for as long as there are others, and takes
the message with the last of them.  On the server the reads of a session are kept by
the session until its first message is complete, and by the thread from then on; what
happens to one session leaves those of the others alone.
-/

import RoutePlanner.Comms.SerialService
import RoutePlanner.Comms.Reception

namespace RoutePlanner.Comms

open RoutePlanner.Std
open RoutePlanner.Messages

/-- The bytes that reads have brought. -/
def bytesOf : List Read → List Byte
  | [] => []
  | .data chunk :: reads => chunk.val ++ bytesOf reads
  | .error :: reads => bytesOf reads

theorem bytesOf_concat (reads : List Read) (chunk : Chunk Byte) :
    bytesOf (reads ++ [.data chunk]) = bytesOf reads ++ chunk.val := by
  induction reads with
  | nil => exact List.append_nil _
  | cons read reads ih =>
      cases read with
      | error => exact ih
      | data first =>
          rw [List.cons_append, bytesOf, bytesOf, ih, List.append_assoc]

/-- One more read completes what the reader waits for, or it does not. -/
theorem taken_concat {ready : List Byte → Bool} {received : List Byte} {reads : List Read}
    (h : Pending ready received reads) (chunk : Chunk Byte) :
    taken ready received (reads ++ [.data chunk]) =
      if ready (received ++ (bytesOf reads ++ chunk.val)) then
        some (received ++ (bytesOf reads ++ chunk.val), [])
      else none := by
  induction reads generalizing received with
  | nil => rfl
  | cons read reads ih =>
      cases read with
      | error => exact absurd h id
      | data first =>
          rw [List.cons_append, taken, h.1, bytesOf, List.append_assoc first.val,
            ← List.append_assoc received]
          exact ih h.2

/-- A reader that waits for a whole message of the factory, and for no more. -/
structure WaitsForAll (ready : List Byte → Bool) : Prop where
  whole : ∀ msg : FactoryMsg, ready msg.bytes = true
  part : ∀ {msg : FactoryMsg} {received rest : List Byte}, received ++ rest = msg.bytes →
    rest ≠ [] → ready received = false

theorem waitsForAll_matchReady : WaitsForAll matchReady where
  whole msg := by simpa only [List.append_nil] using matchReady_bytes msg []
  part := not_matchReady_of_append

theorem waitsForAll_waitReady : WaitsForAll waitReady where
  whole msg := by simpa only [List.append_nil] using waitReady_bytes msg []
  part := not_waitReady_of_append

/-- A read of a message's bytes completes the message when none are left. -/
theorem taken_of_bytes {ready : List Byte → Bool} (hready : WaitsForAll ready)
    {reads : List Read} (hpending : Pending ready [] reads) {chunk : Chunk Byte}
    {rest : List Byte} {msg : FactoryMsg}
    (h : bytesOf reads ++ (chunk.val ++ rest) = msg.bytes) :
    taken ready [] (reads ++ [.data chunk]) =
      if rest = [] then some (msg.bytes, []) else none := by
  rw [taken_concat hpending, List.nil_append]
  rw [← List.append_assoc] at h
  by_cases hrest : rest = []
  · rw [hrest, List.append_nil] at h
    rw [if_pos hrest, h, hready.whole msg, if_pos rfl]
  · rw [if_neg hrest, hready.part h hrest]
    rfl

/-- A reader that goes on waiting is not ready for what it has. -/
theorem not_ready_of_pending {ready : List Byte → Bool} {received : List Byte}
    {reads : List Read} (h : Pending ready received reads) (hne : reads ≠ []) :
    ready (received ++ bytesOf reads) = false := by
  induction reads generalizing received with
  | nil => exact absurd rfl hne
  | cons read reads ih =>
      cases read with
      | error => exact absurd h id
      | data chunk =>
          rw [bytesOf, ← List.append_assoc]
          cases reads with
          | nil => rw [bytesOf, List.append_nil, h.1]
          | cons next reads => exact ih h.2 (List.cons_ne_nil _ _)

/-- So the message that it waits for has bytes that it has not. -/
theorem rest_ne_nil_of_pending {ready : List Byte → Bool} (hready : WaitsForAll ready)
    {reads : List Read} (hpending : Pending ready [] reads) {msg : FactoryMsg} {rest : List Byte}
    (h : bytesOf reads ++ rest = msg.bytes) : rest ≠ [] := by
  rintro rfl
  rw [List.append_nil] at h
  have hne : reads ≠ [] := by
    rintro rfl
    have hlen := congrArg List.length h
    rw [FactoryMsg.length_bytes] at hlen
    exact msg.type.length_ne_zero hlen.symm
  have hnot := not_ready_of_pending hpending hne
  rw [List.nil_append, h, hready.whole msg] at hnot
  cases hnot

/-- So does the wait for it. -/
theorem waitForMsg_of_bytes (now : UInt64) {reads : List Read}
    (hpending : Pending waitReady [] reads) {chunk : Chunk Byte} {rest : List Byte}
    {msg : FactoryMsg} (h : bytesOf reads ++ (chunk.val ++ rest) = msg.bytes) :
    (rest = [] ∧ TcpSession.waitForMsg now (reads ++ [.data chunk]) =
        .ok (.returned (some msg.toMsg) [])) ∨
      (rest ≠ [] ∧ TcpSession.waitForMsg now (reads ++ [.data chunk]) = .ok .blocked ∧
        Pending waitReady [] (reads ++ [.data chunk])) := by
  have htaken := taken_of_bytes waitsForAll_waitReady hpending h
  rw [TcpSession.waitForMsg_eq]
  rcases waitFor_data now hpending chunk with ⟨hnone, hblocked, hpending'⟩ | ⟨bytes, hsome, hwait⟩
  · refine Or.inr ⟨fun hrest => ?_, hblocked, hpending'⟩
    rw [if_pos hrest, hnone] at htaken
    cases htaken
  · rw [hsome] at htaken
    split at htaken
    · rename_i hrest
      obtain ⟨rfl, -⟩ := Prod.mk.inj (Option.some.inj htaken)
      have hread := readMsg_bytes now msg []
      rw [List.append_nil] at hread
      rw [hwait, hread]
      exact Or.inl ⟨hrest, rfl⟩
    · cases htaken

/-- What the thread has read of the message that it waits for. -/
def Thread.reads : Thread → List Read
  | .waiting _ reads => reads
  | _ => []

namespace TcpServer

variable {σ : Type} {msgHandler : UInt64 → σ → Option Msg → Except Fault (Option FactoryMsg × σ)}

/-- What has been read of the next message of a session. -/
def readsOf (server : TcpServer σ) (i : Nat) : List Read :=
  match server.sessions[i]? with
  | some (.matching reads) => reads
  | some .processing => server.thread.reads
  | _ => []

/-- The session's first message was complete. -/
def Served (server : TcpServer σ) (i : Nat) : Prop := server.sessions[i]? = some .processing

/-- The loop is not left, no session has ended, and what is sent is not empty. -/
structure Unbroken (server : TcpServer σ) : Prop where
  owned : server.Owned
  serving : server.Serving
  noneEnded : ∀ i : Nat, server.sessions[i]? ≠ some Session.ended
  sends : ∀ i bytesSent, server.thread = .sending i bytesSent → bytesSent ≠ 0

theorem unbroken_create (state : σ) : (create state).Unbroken where
  owned := owned_create state
  serving := ⟨nofun, rfl⟩
  noneEnded := nofun
  sends := nofun

section Frame

variable {server after : TcpServer σ} {event : Event} {i : Nat}

theorem readsOf_of_reader (h : server.Owned) {ready : List Byte → Bool} {reads : List Read}
    (hreader : server.reader i = some (ready, reads)) : server.readsOf i = reads := by
  rw [reader] at hreader
  split at hreader
  · split at hreader
    · rename_i hsession
      cases hreader
      rw [readsOf, hsession]
    · cases hreader
  · rename_i j reads' hthread
    split at hreader
    · rename_i hij
      cases hreader
      have hprocessing := (h.owner i).mpr (by rw [hthread, hij]; rfl)
      rw [readsOf, hprocessing, hthread]
      rfl
    · cases hreader
  · cases hreader

theorem waitsForAll_of_reader {ready : List Byte → Bool} {reads : List Read}
    (hreader : server.reader i = some (ready, reads)) : WaitsForAll ready := by
  rw [reader] at hreader
  split at hreader
  · split at hreader
    · cases hreader
      exact waitsForAll_matchReady
    · cases hreader
  · split at hreader
    · cases hreader
      exact waitsForAll_waitReady
    · cases hreader
  · cases hreader

/-- Of a session that the thread does not keep, the reads are the session's. -/
theorem readsOf_congr {other : TcpServer σ} (hsession : other.sessions[i]? = server.sessions[i]?)
    (hserved : ¬ server.Served i) : other.readsOf i = server.readsOf i := by
  rw [readsOf, readsOf, hsession]
  split
  · rfl
  · rename_i hprocessing
    exact absurd hprocessing hserved
  · rfl

theorem event_session_of_read {result : Read} (h : event.completion = .read i result) :
    event.session = some i := by
  rw [Event.session, h]

theorem event_session_of_written {success : Bool} (h : event.completion = .written i success) :
    event.session = some i := by
  rw [Event.session, h]

/-- The session whose message completes is the event's. -/
theorem event_session_of_completed {bytes : List Byte}
    (h : server.completed event = some (i, bytes)) : event.session = some i := by
  rw [completed] at h
  split at h
  · rename_i k result hevent
    rw [event_session_of_read hevent]
    split at h
    · obtain ⟨_, -, heq⟩ := Option.map_eq_some_iff.mp h
      rw [(Prod.mk.inj heq).1]
    · cases h
  · cases h

/-- An event that the loop gets over leaves the other sessions' reads alone. -/
theorem Owned.frame_of_moves (h : server.Owned) (hmoves : Moves msgHandler server event after)
    (hserving : after.thread ≠ .left) {j : Nat} (hother : event.session ≠ some j) :
    after.readsOf j = server.readsOf j ∧ (after.Served j ↔ server.Served j) := by
  -- a session that is not the event's, and that the thread does not keep
  have hsame : after.sessions[j]? = server.sessions[j]? → ¬ server.Served j →
      after.readsOf j = server.readsOf j ∧ (after.Served j ↔ server.Served j) := by
    intro hsession hserved
    exact ⟨readsOf_congr hsession hserved, by rw [Served, Served, hsession]⟩
  have hset : ∀ {i : Nat} (session : Session), event.session = some i →
      (server.sessions.set i session)[j]? = server.sessions[j]? := fun session hevent =>
    List.getElem?_set_ne fun heq => hother (hevent.trans (congrArg some heq))
  -- the thread keeps the event's session, or none
  have hnot : ∀ {k : Nat}, event.session = some k →
      (∀ k', server.thread.session = some k' → k' = k) → ¬ server.Served j := by
    intro k hevent hkeeps hserved
    exact hother (hkeeps j ((h.owner j).mp hserved) ▸ hevent)
  cases hmoves with
  | unseen _ => exact ⟨rfl, Iff.rfl⟩
  | left _ => exact absurd rfl hserving
  | accepted _ hthread =>
      by_cases hlt : j < server.sessions.length
      · refine hsame (List.getElem?_append_left hlt) fun hserved => ?_
        have hheld := (h.owner j).mp hserved
        rw [hthread] at hheld
        cases hheld
      · have hnone := List.getElem?_eq_none (Nat.le_of_not_lt hlt)
        simp only [readsOf, Served, hnone]
        rw [List.getElem?_append_right (Nat.le_of_not_lt hlt)]
        cases j - server.sessions.length <;> simp
  | matching hevent hthread _ _ =>
      have hown := event_session_of_read hevent
      refine hsame (hset _ hown) (hnot hown fun k' hk' => ?_)
      rw [hthread] at hk'
      cases hk'
  | @waiting k reads chunk hevent hthread _ =>
      refine hsame rfl (hnot (event_session_of_read hevent) fun k' hk' => ?_)
      rw [hthread] at hk'
      exact (Option.some.inj hk').symm
  | refused hcomplete _ _ =>
      have hown := event_session_of_completed hcomplete
      exact hsame (hset _ hown) (hnot hown fun k' hk' => (session_of_completed hcomplete hk').symm)
  | answered hcomplete _ _ =>
      have hown := event_session_of_completed hcomplete
      exact hsame (hset _ hown) (hnot hown fun k' hk' => (session_of_completed hcomplete hk').symm)
  | @written k bytesSent hevent hthread _ =>
      refine hsame rfl (hnot (event_session_of_written hevent) fun k' hk' => ?_)
      rw [hthread] at hk'
      exact (Option.some.inj hk').symm
  | @closed k hevent hthread =>
      have hown := event_session_of_written hevent
      refine hsame (hset _ hown) (hnot hown fun k' hk' => ?_)
      rw [hthread] at hk'
      exact (Option.some.inj hk').symm

/-- A write that completes leaves the reads of its own session alone, too. -/
theorem Unbroken.frame_of_written (h : server.Unbroken)
    (hmoves : Moves msgHandler server event after) (hserving : after.thread ≠ .left)
    (hevent : event.completion = .written i true) :
    after.readsOf i = server.readsOf i ∧ (after.Served i ↔ server.Served i) := by
  cases hmoves with
  | unseen _ => exact ⟨rfl, Iff.rfl⟩
  | left _ => exact absurd rfl hserving
  | accepted hother _ =>
      rw [hevent] at hother
      cases hother
  | matching hother _ _ _ =>
      rw [hevent] at hother
      cases hother
  | waiting hother _ _ =>
      rw [hevent] at hother
      cases hother
  | refused hcompleted _ _ =>
      rw [completed_of_written hevent] at hcompleted
      cases hcompleted
  | answered hcompleted _ _ =>
      rw [completed_of_written hevent] at hcompleted
      cases hcompleted
  | @written j bytesSent hother hthread _ =>
      have hprocessing := (h.owned.owner j).mpr (by rw [hthread]; rfl)
      rw [hevent] at hother
      cases hother
      refine ⟨?_, Iff.rfl⟩
      rw [readsOf, readsOf, hprocessing, hthread]
      rfl
  | closed _ hthread => exact absurd rfl (h.sends _ _ hthread)

/-- The handler has a state that only messages change. -/
theorem state_of_moves (hmoves : Moves msgHandler server event after)
    (hnone : server.completed event = none) : after.state = server.state := by
  cases hmoves with
  | refused hcompleted _ _ =>
      rw [hnone] at hcompleted
      cases hcompleted
  | answered hcompleted _ _ =>
      rw [hnone] at hcompleted
      cases hcompleted
  | _ => rfl

/-- Only an accept adds a session. -/
theorem length_sessions_of_moves (hmoves : Moves msgHandler server event after) :
    after.sessions.length = server.sessions.length ∨
      (∃ connected, event.completion = .accepted connected) ∧
        after.sessions.length = server.sessions.length + 1 := by
  cases hmoves with
  | unseen _ => exact Or.inl rfl
  | left _ => exact Or.inl (List.length_map _)
  | accepted hevent _ => exact Or.inr ⟨⟨true, hevent⟩, List.length_append⟩
  | matching _ _ _ _ => exact Or.inl List.length_set
  | waiting _ _ _ => exact Or.inl rfl
  | refused _ _ _ => exact Or.inl List.length_set
  | answered _ _ _ => exact Or.inl List.length_set
  | written _ _ _ => exact Or.inl rfl
  | closed _ _ => exact Or.inl List.length_set

/-- A read that completes nothing is kept. -/
theorem Owned.reads_of_moves (h : server.Owned) (hmoves : Moves msgHandler server event after)
    (hserving : after.thread ≠ .left) {chunk : Chunk Byte}
    (hevent : event.completion = .read i (.data chunk))
    {reader : (List Byte → Bool) × List Read} (hreader : server.reader i = some reader)
    (hnone : server.completed event = none) :
    after.readsOf i = server.readsOf i ++ [.data chunk] ∧
      (after.Served i ↔ server.Served i) ∧ ∀ j bytesSent, after.thread ≠ .sending j bytesSent := by
  cases hmoves with
  | unseen hunseen =>
      rw [hunseen i _ hevent] at hreader
      cases hreader
  | left _ => exact absurd rfl hserving
  | accepted hother _ =>
      rw [hevent] at hother
      cases hother
  | @matching j reads chunk' hother hthread hsession _ =>
      rw [hevent] at hother
      cases hother
      have hi := (List.getElem?_eq_some_iff.mp hsession).1
      refine ⟨?_, ?_, by simp [hthread]⟩
      · rw [readsOf, getElem?_set_session hi, if_pos rfl, readsOf, hsession]
      · rw [Served, getElem?_set_session hi, if_pos rfl, Served, hsession]
        exact iff_of_false nofun nofun
  | @waiting j reads chunk' hother hthread _ =>
      have hprocessing := (h.owner j).mpr (by rw [hthread]; rfl)
      rw [hevent] at hother
      cases hother
      refine ⟨?_, Iff.rfl, nofun⟩
      rw [readsOf, readsOf, hprocessing, hthread]
      rfl
  | refused hcompleted _ _ =>
      rw [hnone] at hcompleted
      cases hcompleted
  | answered hcompleted _ _ =>
      rw [hnone] at hcompleted
      cases hcompleted
  | written hother _ _ =>
      rw [hevent] at hother
      cases hother
  | closed hother _ =>
      rw [hevent] at hother
      cases hother

/-- A read that completes a message that is answered has the answer sent. -/
theorem eq_of_answered (hmoves : Moves msgHandler server event after) {bytes : List Byte}
    {msg : Option Msg} {response : FactoryMsg} {state : σ}
    (hcompleted : server.completed event = some (i, bytes))
    (hread : readMsg event.now bytes = .ok msg)
    (hhandler : msgHandler event.now server.state msg = .ok (some response, state)) :
    after = { server with
      state
      thread := .sending i response.type.length
      sessions := server.sessions.set i .processing } := by
  obtain ⟨msg', response', state', hread', hhandler', rfl⟩ := eq_of_completed hmoves hcompleted
  obtain rfl := Except.ok.inj (hread'.symm.trans hread)
  obtain ⟨rfl, rfl⟩ := Prod.mk.inj (Except.ok.inj (hhandler'.symm.trans hhandler))
  rfl

/-- A session that is set to something else than ended ends none. -/
theorem getElem?_set_ne_ended {sessions : List Session}
    (h : ∀ j : Nat, sessions[j]? ≠ some Session.ended)
    (i : Nat) {session : Session} (hsession : session ≠ .ended) (j : Nat) :
    (sessions.set i session)[j]? ≠ some Session.ended := by
  rw [List.getElem?_set]
  split_ifs with hij
  · exact fun heq => hsession (Option.some.inj heq)
  · exact Option.some_ne_none _ ∘ Eq.symm
  · exact h j

/-- So it stays while the loop goes on and no handler refuses a message. -/
theorem Unbroken.of_moves (h : server.Unbroken) (hmoves : Moves msgHandler server event after)
    (hserving : after.Serving)
    (hanswers : ∀ i bytes msg state, server.completed event = some (i, bytes) →
      readMsg event.now bytes = .ok msg →
      msgHandler event.now server.state msg ≠ .ok (none, state)) : after.Unbroken := by
  refine ⟨h.owned.moves hmoves, hserving, ?_, ?_⟩
  · cases hmoves with
    | unseen _ => exact h.noneEnded
    | accepted _ _ =>
        intro j
        rw [List.getElem?_append]
        split
        · exact h.noneEnded j
        · cases j - server.sessions.length <;> simp
    | left _ => exact absurd rfl hserving.running
    | matching _ _ _ _ => exact getElem?_set_ne_ended h.noneEnded _ nofun
    | waiting _ _ _ => exact h.noneEnded
    | refused hcompleted hread hhandler =>
        exact absurd hhandler (hanswers _ _ _ _ hcompleted hread)
    | answered _ _ _ => exact getElem?_set_ne_ended h.noneEnded _ nofun
    | written _ _ _ => exact h.noneEnded
    | closed _ hthread => exact absurd rfl (h.sends _ _ hthread)
  · cases hmoves with
    | unseen _ => exact h.sends
    | accepted _ _ => exact h.sends
    | left _ => exact absurd rfl hserving.running
    | matching _ _ _ _ => exact h.sends
    | waiting _ _ _ => exact nofun
    | refused _ _ _ => exact nofun
    | @answered _ _ _ response _ _ _ _ =>
        intro j bytesSent hthread
        cases hthread
        exact response.type.length_ne_zero
    | written _ _ _ => exact nofun
    | closed _ _ => exact nofun

end Frame

end TcpServer

end RoutePlanner.Comms
