/-
# What a session is handed is its own

The loop runs all sessions in one thread and with one message handler.  Still, the
messages that the handler is given for a session are those in the session's own
reads, cut where the matcher and then `WaitForMsg` cut them; the reads of the other
sessions, and the order in which the loop comes to see them, decide at most when.
-/

import RoutePlanner.Comms.SerialService

namespace RoutePlanner.Comms

open RoutePlanner.Std
open RoutePlanner.Messages

/-- The messages that `WaitForMsg` finds in the reads, called again and again. -/
def laterMessages (reads : List Read) : List (List Byte) :=
  match _h : taken waitReady [] reads with
  | none => []
  | some message => message.1 :: laterMessages message.2
termination_by reads.length
decreasing_by exact (taken_spec _h).2

/-- The messages in the reads of a session: the first as the matcher finds it. -/
def messagesIn (reads : List Read) : List (List Byte) :=
  match taken matchReady [] reads with
  | none => []
  | some message => message.1 :: laterMessages message.2

theorem laterMessages_of_none {reads : List Read} (h : taken waitReady [] reads = none) :
    laterMessages reads = [] := by
  rw [laterMessages]
  split
  · rfl
  · rename_i hsome
    rw [h] at hsome
    cases hsome

theorem laterMessages_of_some {reads rest : List Read} {bytes : List Byte}
    (h : taken waitReady [] reads = some (bytes, rest)) :
    laterMessages reads = bytes :: laterMessages rest := by
  rw [laterMessages]
  split
  · rename_i hnone
    rw [h] at hnone
    cases hnone
  · rename_i message hsome
    rw [h] at hsome
    obtain rfl := Option.some.inj hsome
    rfl

theorem messagesIn_of_none {reads : List Read} (h : taken matchReady [] reads = none) :
    messagesIn reads = [] := by
  rw [messagesIn, h]

/-- What was taken stays taken when more is read. -/
theorem taken_append {ready : List Byte → Bool} {received bytes : List Byte}
    {reads rest : List Read} (h : taken ready received reads = some (bytes, rest))
    (more : List Read) : taken ready received (reads ++ more) = some (bytes, rest ++ more) := by
  induction reads generalizing received with
  | nil => cases h
  | cons read reads ih =>
      cases read with
      | error => cases h
      | data chunk =>
          rw [taken] at h
          rw [List.cons_append, taken]
          cases hready : ready (received ++ chunk.val) with
          | true =>
              rw [hready] at h
              obtain ⟨rfl, rfl⟩ := Prod.mk.inj (Option.some.inj h)
              rfl
          | false =>
              rw [hready] at h
              exact ih h

namespace TcpServer

variable {σ : Type} {msgHandler : UInt64 → σ → Option Msg → Except Fault (Option FactoryMsg × σ)}

/-- The read of a session that an event brings, if the thread waits for it. -/
def seen (server : TcpServer σ) (i : Nat) (event : Event) : Option Read :=
  match event.completion with
  | .read j result => if j = i ∧ (server.reader i).isSome then some result else none
  | _ => none

/-- The reads of a session that the thread takes in a run. -/
def seenBy (msgHandler : UInt64 → σ → Option Msg → Except Fault (Option FactoryMsg × σ)) (i : Nat)
    (server : TcpServer σ) : List Event → List Read
  | [] => []
  | event :: events =>
      (server.seen i event).toList ++
        match server.step msgHandler event with
        | .ok after => seenBy msgHandler i after events
        | .error _ => []

/-- The messages that a session is handed if it is to see these further reads. -/
def expects (server : TcpServer σ) (i : Nat) (more : List Read) : List (List Byte) :=
  match server.thread with
  | .sending j _ => if j = i then laterMessages more else waits (server.sessions[i]?) more
  | .waiting j reads =>
      if j = i then laterMessages (reads ++ more) else waits (server.sessions[i]?) more
  | _ => waits (server.sessions[i]?) more
where
  waits : Option Session → List Read → List (List Byte)
    | none, more => messagesIn more
    | some (.matching reads), more => messagesIn (reads ++ more)
    | some _, _ => []

/-- Nothing more happens to the session. -/
def Over (server : TcpServer σ) (i : Nat) : Prop :=
  server.thread = .left ∨ server.sessions[i]? = some .ended

/-- The messages of a session among those that complete. -/
def ofSession (i : Nat) (messages : List (Nat × List Byte)) : List (List Byte) :=
  (messages.filter fun message => message.1 = i).map Prod.snd

/-! ## One step -/

section Step

variable {server after : TcpServer σ} {event : Event} {i : Nat}

theorem expects_of_not_held (h : server.thread.session ≠ some i) (more : List Read) :
    server.expects i more = expects.waits (server.sessions[i]?) more := by
  rw [expects]
  split
  · rename_i j _ hthread
    rw [if_neg fun heq => h (by rw [hthread, heq]; rfl)]
  · rename_i j _ hthread
    rw [if_neg fun heq => h (by rw [hthread, heq]; rfl)]
  · rfl

/-- What a session expects is its own while the thread is kept by others. -/
theorem expects_congr {other : TcpServer σ} (hheld : server.thread.session ≠ some i)
    (hother : other.thread.session ≠ some i)
    (hsession : other.sessions[i]? = server.sessions[i]?) (more : List Read) :
    other.expects i more = server.expects i more := by
  rw [expects_of_not_held hheld, expects_of_not_held hother, hsession]

theorem seen_of_reader {result : Read} (hevent : event.completion = .read i result)
    {reader : (List Byte → Bool) × List Read} (hreader : server.reader i = some reader) :
    server.seen i event = some result := by
  simp only [seen, hevent, hreader, Option.isSome_some, and_self, if_true]

theorem seen_eq_some {result : Read} (h : server.seen i event = some result) :
    event.completion = .read i result ∧ ∃ reader, server.reader i = some reader := by
  rw [seen] at h
  split at h
  · rename_i j result' hevent
    split at h
    · rename_i hseen
      obtain ⟨rfl, hreader⟩ := hseen
      exact ⟨Option.some.inj h ▸ hevent, Option.isSome_iff_exists.mp hreader⟩
    · cases h
  · cases h

theorem seen_of_other {j : Nat} {result : Read} (hevent : event.completion = .read j result)
    (hne : j ≠ i) : server.seen i event = none := by
  simp only [seen, hevent, hne, false_and, if_false]

theorem seen_of_unseen (h : server.Unseen event) : server.seen i event = none := by
  rw [seen]
  split
  · rename_i j result hevent
    refine if_neg fun hseen => ?_
    obtain ⟨rfl, hreader⟩ := hseen
    rw [h j result hevent] at hreader
    cases hreader
  · rfl

theorem seen_of_written {j : Nat} {success : Bool} (h : event.completion = .written j success) :
    server.seen i event = none := by
  rw [seen, h]

/-- What a reader has before it, the session expects to be completed by what comes. -/
theorem expects_of_reader {ready : List Byte → Bool} {reads : List Read}
    (hreader : server.reader i = some (ready, reads)) (more : List Read) :
    server.expects i more =
      match taken ready [] (reads ++ more) with
      | none => []
      | some message => message.1 :: laterMessages message.2 := by
  rw [reader] at hreader
  split at hreader
  · rename_i hthread
    split at hreader
    · rename_i hsession
      cases hreader
      rw [expects_of_not_held (Thread.session_ne_of_polling hthread i), hsession]
      rfl
    · cases hreader
  · rename_i j reads' hthread
    split at hreader
    · rename_i heq
      cases hreader
      simp only [expects, hthread, if_pos heq.symm]
      cases htaken : taken waitReady [] (reads ++ more) with
      | none => exact laterMessages_of_none htaken
      | some message => exact laterMessages_of_some htaken
    · cases hreader
  · cases hreader

/-- A message that completes is the first one expected with the read that completes
it, and nothing of that read is left. -/
theorem Owned.expects_of_completed (h : server.Owned) {bytes : List Byte}
    (hcompleted : server.completed event = some (i, bytes)) :
    ∃ result, event.completion = .read i result ∧ server.seen i event = some result ∧
      ∀ more, server.expects i (result :: more) = bytes :: laterMessages more := by
  rw [completed] at hcompleted
  split at hcompleted
  · rename_i j result hevent
    split at hcompleted
    · rename_i ready reads hreader
      obtain ⟨⟨_, rest⟩, htaken, heq⟩ := Option.map_eq_some_iff.mp hcompleted
      obtain ⟨rfl, rfl⟩ := Prod.mk.inj heq
      obtain rfl : rest = [] := by
        cases result with
        | error =>
            rw [taken_concat_error (h.pending_of_reader hreader)] at htaken
            cases htaken
        | data chunk =>
            rcases waitFor_data event.now (h.pending_of_reader hreader) chunk with
              ⟨hnone, -⟩ | ⟨bytes', hsome, -⟩
            · rw [hnone] at htaken
              cases htaken
            · rw [hsome] at htaken
              exact (Prod.mk.inj (Option.some.inj htaken)).2.symm
      refine ⟨result, hevent, seen_of_reader hevent hreader, fun more => ?_⟩
      rw [expects_of_reader hreader, ← List.singleton_append, ← List.append_assoc,
        taken_append htaken more]
      rfl
    · cases hcompleted
  · cases hcompleted

theorem ofSession_append (messages more : List (Nat × List Byte)) :
    ofSession i (messages ++ more) = ofSession i messages ++ ofSession i more := by
  rw [ofSession, ofSession, ofSession, List.filter_append, List.map_append]

theorem ofSession_toList_of_ne {j : Nat} {bytes : List Byte} (hne : j ≠ i) :
    ofSession i (some (j, bytes)).toList = [] := by
  simp [ofSession, hne]

theorem ofSession_toList_self (bytes : List Byte) :
    ofSession i (some (i, bytes)).toList = [bytes] := by
  simp [ofSession]

/-- A session to which nothing more happens has no message to come. -/
theorem Owned.expects_nil (h : server.Owned) (i : Nat) : server.expects i [] = [] := by
  by_cases hheld : server.thread.session = some i
  · cases hthread : server.thread with
    | polling =>
        rw [hthread] at hheld
        cases hheld
    | left =>
        rw [hthread] at hheld
        cases hheld
    | sending j bytesSent =>
        simp only [expects, hthread]
        rw [hthread] at hheld
        rw [if_pos (Option.some.inj hheld)]
        exact laterMessages_of_none rfl
    | waiting j reads =>
        simp only [expects, hthread]
        rw [hthread] at hheld
        rw [if_pos (Option.some.inj hheld), List.append_nil]
        exact laterMessages_of_none (taken_of_pending (h.sound.waiting j reads hthread))
  · rw [expects_of_not_held hheld]
    cases hsession : server.sessions[i]? with
    | none => exact @messagesIn_of_none [] rfl
    | some session =>
        cases session with
        | matching reads =>
            rw [expects.waits, List.append_nil]
            exact messagesIn_of_none (taken_of_pending (h.sound.matching i reads hsession))
        | processing => rfl
        | ended => rfl

/-- What an event completes is what is expected with the read that it brings. -/
theorem Owned.expects_of_seen (h : server.Owned) (event : Event) :
    ofSession i (server.completed event).toList =
      server.expects i (server.seen i event).toList := by
  cases hcompleted : server.completed event with
  | some message =>
      obtain ⟨j, bytes⟩ := message
      obtain ⟨result, hevent, hseen, hfirst⟩ := h.expects_of_completed hcompleted
      by_cases hij : j = i
      · subst hij
        rw [ofSession_toList_self, hseen]
        exact ((hfirst []).trans (by rw [laterMessages_of_none rfl])).symm
      · rw [ofSession_toList_of_ne hij, seen_of_other hevent hij]
        exact (h.expects_nil i).symm
  | none =>
      cases hseen : server.seen i event with
      | none => exact (h.expects_nil i).symm
      | some result =>
          obtain ⟨hevent, ⟨ready, reads⟩, hreader⟩ := seen_eq_some hseen
          rw [completed_of_reader hevent hreader, Option.map_eq_none_iff] at hcompleted
          rw [Option.toList_some, expects_of_reader hreader, hcompleted]
          rfl

/-- A step that completes a message does so for one session only. -/
theorem Owned.expects_of_step (h : server.Owned) {j : Nat} {bytes : List Byte} {more : List Read}
    (hcompleted : server.completed event = some (j, bytes))
    (hself : i = j → after.expects i more = laterMessages more)
    (hother : i ≠ j → after.thread.session ≠ some i ∧ after.sessions[i]? = server.sessions[i]?) :
    ofSession i (server.completed event).toList ++ after.expects i more =
      server.expects i ((server.seen i event).toList ++ more) := by
  obtain ⟨result, hevent, hseen, hfirst⟩ := h.expects_of_completed hcompleted
  rw [hcompleted]
  by_cases hij : i = j
  · subst hij
    rw [ofSession_toList_self, hseen, hself rfl]
    exact (hfirst more).symm
  · obtain ⟨hheld, hsessions⟩ := hother hij
    have hheld' : server.thread.session ≠ some i :=
      fun heq => hij (session_of_completed hcompleted heq).symm
    rw [ofSession_toList_of_ne (Ne.symm hij), seen_of_other hevent (Ne.symm hij)]
    exact (List.nil_append _).trans (expects_congr hheld' hheld hsessions more)

/-- One step: what completes and what is expected then is what was expected with the
read that the step takes. -/
theorem Owned.expects_of_moves (h : server.Owned) (hmoves : Moves msgHandler server event after)
    {more : List Read}
    (hmore : after.Over i → more = []) :
    ofSession i (server.completed event).toList ++ after.expects i more =
      server.expects i ((server.seen i event).toList ++ more) := by
  have hafter := h.moves hmoves
  cases hmoves with
  | unseen hunseen =>
      rw [completed_of_unseen hunseen, seen_of_unseen hunseen]
      rfl
  | accepted hevent hthread =>
      have hpolling := Thread.session_ne_of_polling hthread i
      rw [completed_of_accepted hevent, seen, hevent, expects_of_not_held (by exact hpolling),
        expects_of_not_held (by exact hpolling)]
      show expects.waits ((server.sessions ++ [Session.matching []])[i]?) more =
        expects.waits (server.sessions[i]?) more
      rw [List.getElem?_append]
      split
      · rfl
      · rename_i hge
        rw [List.getElem?_eq_none (Nat.le_of_not_lt hge)]
        cases i - server.sessions.length <;> rfl
  | left hnone =>
      obtain rfl := hmore (Or.inl rfl)
      rw [hafter.expects_nil, List.append_nil, List.append_nil]
      exact h.expects_of_seen event
  | @matching j reads chunk hevent hthread hsession hpending =>
      have hi := (List.getElem?_eq_some_iff.mp hsession).1
      have hpolling := Thread.session_ne_of_polling hthread i
      rw [completed_of_reader hevent (reader_of_matching hthread hsession),
        taken_of_pending hpending]
      by_cases hij : i = j
      · subst hij
        rw [seen_of_reader hevent (reader_of_matching hthread hsession),
          expects_of_not_held (by exact hpolling), expects_of_not_held (by exact hpolling),
          getElem?_set_session hi, if_pos rfl, hsession]
        simp [expects.waits, ofSession]
      · rw [seen_of_other hevent (Ne.symm hij)]
        exact (List.nil_append _).trans (expects_congr hpolling (by exact hpolling)
          (List.getElem?_set_ne (Ne.symm hij)) more)
  | @waiting j reads chunk hevent hthread hpending =>
      rw [completed_of_reader hevent (reader_of_waiting hthread), taken_of_pending hpending]
      by_cases hij : i = j
      · subst hij
        rw [seen_of_reader hevent (reader_of_waiting hthread)]
        simp [expects, hthread, ofSession]
      · rw [seen_of_other hevent (Ne.symm hij)]
        exact (List.nil_append _).trans (expects_congr
          (Thread.session_ne (by rw [hthread]; rfl) hij) (Thread.session_ne rfl hij) (by rfl) more)
  | refused hcompleted _ _ =>
      refine h.expects_of_step hcompleted (fun heq => ?_) fun hne =>
        ⟨Thread.session_ne_of_polling rfl i, ?_⟩
      · obtain rfl := hmore (Or.inr (by
          rw [heq, getElem?_set_session (h.lt_length hcompleted), if_pos rfl]))
        rw [hafter.expects_nil, laterMessages_of_none rfl]
      · rw [getElem?_set_session (h.lt_length hcompleted), if_neg hne]
  | answered hcompleted _ _ =>
      refine h.expects_of_step hcompleted (fun heq => ?_) fun hne => ⟨?_, ?_⟩
      · simp only [expects, heq, if_true]
      · exact Thread.session_ne rfl hne
      · rw [getElem?_set_session (h.lt_length hcompleted), if_neg hne]
  | @written j bytesSent hevent hthread _ =>
      rw [completed_of_written hevent, seen_of_written hevent]
      by_cases hij : i = j
      · subst hij
        simp [expects, hthread, ofSession]
      · exact (List.nil_append _).trans (expects_congr
          (Thread.session_ne (by rw [hthread]; rfl) hij) (Thread.session_ne rfl hij) (by rfl) more)
  | @closed j hevent hthread =>
      have hprocessing := (h.owner j).mpr (by rw [hthread]; rfl)
      have hi := (List.getElem?_eq_some_iff.mp hprocessing).1
      rw [completed_of_written hevent, seen_of_written hevent]
      by_cases hij : i = j
      · obtain rfl := hmore (Or.inr (by rw [hij, getElem?_set_session hi, if_pos rfl]))
        rw [hafter.expects_nil]
        exact (h.expects_nil i).symm
      · exact (List.nil_append _).trans (expects_congr
          (Thread.session_ne (by rw [hthread]; rfl) hij) (Thread.session_ne_of_polling rfl i)
          (List.getElem?_set_ne (Ne.symm hij)) more)

end Step

/-! ## Whole runs -/

section Runs

variable {server : TcpServer σ} {i : Nat}

theorem Owned.reader_of_over (h : server.Owned) (hover : server.Over i) :
    server.reader i = none := by
  rw [reader]
  split
  · rename_i hthread
    split
    · rename_i hsession
      rcases hover with hleft | hended
      · rw [hthread] at hleft
        cases hleft
      · rw [hsession] at hended
        cases hended
    · rfl
  · rename_i j reads hthread
    refine if_neg fun hij => ?_
    rcases hover with hleft | hended
    · rw [hthread] at hleft
      cases hleft
    · rw [(h.owner i).mpr (by rw [hthread, hij]; rfl)] at hended
      cases hended
  · rfl

theorem step_of_left (hthread : server.thread = .left) (event : Event) :
    server.step msgHandler event = .ok server := by
  obtain ⟨now, completion⟩ := event
  cases completion with
  | accepted connected => simp only [step, hthread]
  | read j result => simp only [step, onRead, hthread]
  | written j success => simp only [step, onWritten, hthread]

/-- What is over takes no reads. -/
theorem Owned.seenBy_of_over
    (msgHandler : UInt64 → σ → Option Msg → Except Fault (Option FactoryMsg × σ))
    (h : server.Owned) (hover : server.Over i) (events : List Event) :
    seenBy msgHandler i server events = [] := by
  induction events generalizing server with
  | nil => rfl
  | cons event events ih =>
      have hseen : server.seen i event = none := by
        refine Option.eq_none_iff_forall_ne_some.mpr fun result hsome => ?_
        obtain ⟨-, reader, hreader⟩ := seen_eq_some hsome
        rw [h.reader_of_over hover] at hreader
        cases hreader
      rw [seenBy, hseen]
      split
      · rename_i after hstep
        refine ih (h.moves (moves_of_step h.sound hstep)) ?_
        rcases hover with hleft | hended
        · rw [step_of_left hleft] at hstep
          exact Or.inl (Except.ok.inj hstep ▸ hleft)
        · exact Or.inr (h.ended_of_moves (moves_of_step h.sound hstep) hended)
      · rfl

/-- The messages of a session that complete in a run are those that it was to be handed
with the reads that the run takes. -/
theorem Owned.ofSession_completions
    (msgHandler : UInt64 → σ → Option Msg → Except Fault (Option FactoryMsg × σ))
    (h : server.Owned) (i : Nat) (events : List Event) :
    ofSession i (completions msgHandler server events) =
      server.expects i (seenBy msgHandler i server events) := by
  induction events generalizing server with
  | nil => exact (h.expects_nil i).symm
  | cons event events ih =>
      rw [completions, seenBy, ofSession_append]
      cases hstep : server.step msgHandler event with
      | ok after =>
          have hmoves := moves_of_step h.sound hstep
          rw [ih (h.moves hmoves)]
          exact h.expects_of_moves hmoves fun hover =>
            (h.moves hmoves).seenBy_of_over msgHandler hover events
      | error fault =>
          -- the handler fails on a message that is complete, and nothing comes after it
          show _ ++ ofSession i [] = server.expects i (_ ++ [])
          rw [show ofSession i [] = [] from rfl, List.append_nil, List.append_nil]
          exact h.expects_of_seen event

/-- In every run of the loop, with any handler and any other sessions, the messages
that are handed on for a session are exactly those in the reads of its own that the
loop takes. -/
theorem completions_own
    (msgHandler : UInt64 → σ → Option Msg → Except Fault (Option FactoryMsg × σ)) (state : σ)
    (events : List Event) (i : Nat) :
    ofSession i (completions msgHandler (create state) events) =
      messagesIn (seenBy msgHandler i (create state) events) :=
  (owned_create state).ofSession_completions msgHandler i events

end Runs

end TcpServer

end RoutePlanner.Comms
