/-
# What the handlers are given

A handler dereferences the message it is given.  The first message of a server's
session comes from the matcher, which never finds null; every other message, the
client's first one included, comes from `WaitForMsg`, which returns null for an id
that the factory does not know.  So what keeps the handlers from a null pointer is
the peer alone.
-/

import RoutePlanner.Comms.Reception
import RoutePlanner.Server.FilePlanner
import RoutePlanner.Client.ClientMsgHandler

namespace RoutePlanner.System

open RoutePlanner.Std
open RoutePlanner.Messages
open RoutePlanner.Comms
open RoutePlanner.Comms.TcpSession (sendMsg waitForMsg asyncWaitForMsg processSession)

/-- Who is at this end of the connection: a session of the server, or a client with
the message it sends first. -/
inductive Party
  | server
  | client (first : Msg)

/-- The bytes that complete the next message of `WaitForMsg`, if any do, have an id
that the factory knows. -/
def NextKnown (reads : List Read) : Prop :=
  ∀ bytes rest, taken waitReady [] reads = some (bytes, rest) →
    MsgType.ofId (headerOf bytes).id ≠ none

/-- What a party does that matters here. -/
inductive Action
  /-- It gives a message to the handler. -/
  | hands (msg : Option Msg)
  /-- It calls `WaitForMsg` with these reads still to come. -/
  | waits (reads : List Read)

/-- `SendMsg` sends something. -/
def Sends (msg : Msg) : Prop :=
  ∃ bytesSent bytes, sendMsg msg = .ok (bytesSent, bytes) ∧ bytesSent ≠ 0

section Conversation

variable {σ : Type} (msgHandler : σ → Option Msg → Except Fault (Option Msg × σ)) (now : UInt64)

/-- The handler returns a message, and it is sent. -/
def Answers (s : σ) (receivedMsg : Option Msg) (s' : σ) : Prop :=
  ∃ responseMsg, msgHandler s receivedMsg = .ok (some responseMsg, s') ∧ Sends responseMsg

/-- What `ProcessSession` does from a received message on. -/
inductive ProcessSession : σ → Option Msg → List Read → Action → Prop
  | hands {s : σ} {receivedMsg : Option Msg} {reads : List Read} :
      ProcessSession s receivedMsg reads (.hands receivedMsg)
  | waits {s s' : σ} {receivedMsg : Option Msg} {reads : List Read} :
      Answers msgHandler s receivedMsg s' → ProcessSession s receivedMsg reads (.waits reads)
  | later {s s' : σ} {receivedMsg msgReceived : Option Msg} {reads rest : List Read}
      {action : Action} :
      Answers msgHandler s receivedMsg s' →
      waitForMsg now reads = .ok (.returned msgReceived rest) →
      ProcessSession s' msgReceived rest action → ProcessSession s receivedMsg reads action

/-- What `Send` of a connected client does. -/
inductive Send : σ → Msg → List Read → Action → Prop
  | waits {s : σ} {msg : Msg} {reads : List Read} : Sends msg → Send s msg reads (.waits reads)
  | hands {s : σ} {msg : Msg} {msgReceived : Option Msg} {reads rest : List Read} :
      Sends msg → waitForMsg now reads = .ok (.returned msgReceived rest) →
      Send s msg reads (.hands msgReceived)
  | later {s s' : σ} {msg msgResponse : Msg} {msgReceived : Option Msg} {reads rest : List Read}
      {action : Action} :
      Sends msg → waitForMsg now reads = .ok (.returned msgReceived rest) →
      msgHandler s msgReceived = .ok (some msgResponse, s') →
      Send s' msgResponse rest action → Send s msg reads action

/-- What a party does in a conversation over these reads. -/
def Party.Does (s : σ) (reads : List Read) (action : Action) : Party → Prop
  | server => ∃ receivedMsg rest, asyncWaitForMsg now reads = .ok (.returned receivedMsg rest) ∧
      ProcessSession msgHandler now s receivedMsg rest action
  | client first => Send msgHandler now s first reads action

variable {msgHandler now}

/-! ## The loop as a function -/

/-- Two runs of the same round go on in the same way. -/
theorem answers_unique {s s₁ s₂ : σ} {receivedMsg : Option Msg}
    (h₁ : Answers msgHandler s receivedMsg s₁) (h₂ : Answers msgHandler s receivedMsg s₂) :
    s₁ = s₂ := by
  obtain ⟨_, hhandler₁, -⟩ := h₁
  obtain ⟨_, hhandler₂, -⟩ := h₂
  exact (Prod.mk.inj (Except.ok.inj (hhandler₁.symm.trans hhandler₂))).2

/-- A round that returns is the last one, or another message follows. -/
theorem processSession_cases {fuel : Nat} {s : σ} {receivedMsg : Option Msg} {reads : List Read}
    {handed : List (Option Msg)} {sessionEnd : SessionEnd}
    (h : processSession now msgHandler (fuel + 1) s receivedMsg reads = .ok (handed, sessionEnd)) :
    (handed = [receivedMsg] ∧ ∀ s' msgReceived rest, Answers msgHandler s receivedMsg s' →
        waitForMsg now reads ≠ .ok (.returned msgReceived rest)) ∨
      ∃ s' msgReceived rest later, Answers msgHandler s receivedMsg s' ∧
        waitForMsg now reads = .ok (.returned msgReceived rest) ∧
        processSession now msgHandler fuel s' msgReceived rest = .ok (later, sessionEnd) ∧
        handed = receivedMsg :: later := by
  obtain ⟨⟨response, s'⟩, hhandler, hanswer⟩ := Fault.bind_eq_ok.mp h
  cases response with
  | none =>
      refine Or.inl ⟨(Prod.mk.inj (Except.ok.inj hanswer)).1.symm, ?_⟩
      rintro _ _ _ ⟨_, hhandler', -⟩
      rw [hhandler] at hhandler'
      cases hhandler'
  | some responseMsg =>
      obtain ⟨⟨bytesSent, bytes⟩, hsent, hrest⟩ := Fault.bind_eq_ok.mp hanswer
      dsimp only at hrest
      split at hrest
      · rename_i hzero
        refine Or.inl ⟨(Prod.mk.inj (Except.ok.inj hrest)).1.symm, ?_⟩
        rintro _ _ _ ⟨_, hhandler', _, _, hsent', hne⟩
        rw [hhandler] at hhandler'
        cases hhandler'
        rw [hsent] at hsent'
        cases hsent'
        exact absurd hzero hne
      · rename_i hne
        obtain ⟨wait, hwait, hnext⟩ := Fault.bind_eq_ok.mp hrest
        cases wait with
        | blocked =>
            refine Or.inl ⟨(Prod.mk.inj (Except.ok.inj hnext)).1.symm, fun _ _ _ _ hwait' => ?_⟩
            rw [hwait] at hwait'
            cases hwait'
        | threw =>
            refine Or.inl ⟨(Prod.mk.inj (Except.ok.inj hnext)).1.symm, fun _ _ _ _ hwait' => ?_⟩
            rw [hwait] at hwait'
            cases hwait'
        | returned msgReceived rest =>
            obtain ⟨⟨later, _⟩, hlater, hreturn⟩ := Fault.bind_eq_ok.mp hnext
            obtain ⟨rfl, rfl⟩ := Prod.mk.inj (Except.ok.inj hreturn)
            exact Or.inr ⟨s', msgReceived, rest, later,
              ⟨responseMsg, hhandler, bytesSent, bytes, hsent, hne⟩, hwait, hlater, rfl⟩

theorem length_lt_of_waitForMsg {reads rest : List Read} {msg : Option Msg}
    (h : waitForMsg now reads = .ok (.returned msg rest)) : rest.length < reads.length := by
  rw [TcpSession.waitForMsg_eq] at h
  obtain ⟨_, htaken, -⟩ := waitFor_eq_returned.mp h
  exact (taken_spec htaken).2

/-- When the function returns, the handler was given what the relation says. -/
theorem processSession_hands_iff {fuel : Nat} {s : σ} {receivedMsg : Option Msg}
    {reads : List Read} {handed : List (Option Msg)} {sessionEnd : SessionEnd}
    (hfuel : reads.length < fuel)
    (h : processSession now msgHandler fuel s receivedMsg reads = .ok (handed, sessionEnd))
    (msg : Option Msg) :
    ProcessSession msgHandler now s receivedMsg reads (.hands msg) ↔ msg ∈ handed := by
  induction fuel generalizing s receivedMsg reads handed with
  | zero => exact absurd hfuel (Nat.not_lt_zero _)
  | succ fuel ih =>
      rcases processSession_cases h with
        ⟨rfl, hlast⟩ | ⟨s', msgReceived, rest, later, hanswers, hwait, hlater, rfl⟩
      · rw [List.mem_singleton]
        apply Iff.intro
        · intro hhands
          cases hhands with
          | hands => rfl
          | later hanswers hwait _ => exact absurd hwait (hlast _ _ _ hanswers)
        · rintro rfl
          exact .hands
      · have hlt := length_lt_of_waitForMsg hwait
        rw [List.mem_cons, ← ih (by omega) hlater]
        apply Iff.intro
        · intro hhands
          cases hhands with
          | hands => exact Or.inl rfl
          | later hanswers' hwait' hhands =>
              obtain rfl := answers_unique hanswers hanswers'
              rw [hwait] at hwait'
              cases hwait'
              exact Or.inr hhands
        · rintro (rfl | hhands)
          · exact .hands
          · exact .later hanswers hwait hhands

/-! ## Where null comes from -/

theorem readMsg_eq_none {bytes : List Byte} :
    readMsg now bytes = .ok none ↔ MsgType.ofId (headerOf bytes).id = none := by
  apply Iff.intro
  · intro h
    by_contra hknown
    obtain ⟨type, htype⟩ := Option.ne_none_iff_exists'.mp hknown
    exact readMsg_ne_none htype h
  · intro h
    simp only [readMsg, Messages.create, h, Option.map_none]

/-- `WaitForMsg` returns null for an unknown id only. -/
theorem waitForMsg_null_iff (reads : List Read) :
    (∃ rest, waitForMsg now reads = .ok (.returned none rest)) ↔ ¬ NextKnown reads := by
  simp only [TcpSession.waitForMsg_eq, waitFor_eq_returned, readMsg_eq_none, NextKnown]
  push Not
  exact exists_comm

/-- The matcher never finds null. -/
theorem asyncWaitForMsg_ne_null {reads rest : List Read} {msg : Option Msg}
    (h : asyncWaitForMsg now reads = .ok (.returned msg rest)) : msg ≠ none := by
  rw [TcpSession.asyncWaitForMsg_eq] at h
  obtain ⟨bytes, htaken, hread⟩ := waitFor_eq_returned.mp h
  obtain ⟨msg', hmsg⟩ := readMsg_of_matchReady now (taken_spec htaken).1
  rw [hmsg] at hread
  exact Except.ok.inj hread ▸ Option.some_ne_none msg'

/-- `ProcessSession` hands on null if it starts with null or comes to such a call of
`WaitForMsg`. -/
theorem processSession_null_iff {s : σ} {receivedMsg : Option Msg} {reads : List Read} :
    ProcessSession msgHandler now s receivedMsg reads (.hands none) ↔
      receivedMsg = none ∨ ∃ left,
        ProcessSession msgHandler now s receivedMsg reads (.waits left) ∧ ¬ NextKnown left := by
  apply Iff.intro
  · generalize haction : Action.hands none = action
    intro h
    induction h with
    | hands => exact Or.inl (Action.hands.inj haction).symm
    | waits _ => cases haction
    | @later s s' receivedMsg msgReceived reads rest action hanswers hwait _ ih =>
        rcases ih haction with rfl | ⟨left, hwaits, hunknown⟩
        · exact Or.inr ⟨reads, .waits hanswers, (waitForMsg_null_iff reads).mp ⟨_, hwait⟩⟩
        · exact Or.inr ⟨left, .later hanswers hwait hwaits, hunknown⟩
  · rintro (rfl | ⟨left, hwaits, hunknown⟩)
    · exact .hands
    · generalize haction : Action.waits left = action at hwaits
      induction hwaits with
      | hands => cases haction
      | waits hanswers =>
          obtain rfl := Action.waits.inj haction
          obtain ⟨rest, hwait⟩ := (@waitForMsg_null_iff now left).mpr hunknown
          exact .later hanswers hwait .hands
      | later hanswers hwait _ ih => exact .later hanswers hwait (ih haction)

theorem send_null_iff {s : σ} {msg : Msg} {reads : List Read} :
    Send msgHandler now s msg reads (.hands none) ↔
      ∃ left, Send msgHandler now s msg reads (.waits left) ∧ ¬ NextKnown left := by
  apply Iff.intro
  · generalize haction : Action.hands none = action
    intro h
    induction h with
    | waits _ => cases haction
    | @hands s msg msgReceived reads rest hsends hwait =>
        obtain rfl := Action.hands.inj haction
        exact ⟨reads, .waits hsends, (waitForMsg_null_iff reads).mp ⟨rest, hwait⟩⟩
    | later hsends hwait hhandler _ ih =>
        obtain ⟨left, hwaits, hunknown⟩ := ih haction
        exact ⟨left, .later hsends hwait hhandler hwaits, hunknown⟩
  · rintro ⟨left, hwaits, hunknown⟩
    generalize haction : Action.waits left = action at hwaits
    induction hwaits with
    | waits hsends =>
        obtain rfl := Action.waits.inj haction
        obtain ⟨rest, hwait⟩ := (@waitForMsg_null_iff now left).mpr hunknown
        exact .hands hsends hwait
    | hands _ _ => cases haction
    | later hsends hwait hhandler _ ih => exact .later hsends hwait hhandler (ih haction)

theorem does_null_iff {s : σ} {reads : List Read} (party : Party) :
    party.Does msgHandler now s reads (.hands none) ↔
      ∃ left, party.Does msgHandler now s reads (.waits left) ∧ ¬ NextKnown left := by
  cases party with
  | client first => exact send_null_iff
  | server =>
      apply Iff.intro
      · rintro ⟨receivedMsg, rest, hfirst, hhands⟩
        rcases processSession_null_iff.mp hhands with rfl | ⟨left, hwaits, hunknown⟩
        · exact absurd rfl (asyncWaitForMsg_ne_null hfirst)
        · exact ⟨left, ⟨receivedMsg, rest, hfirst, hwaits⟩, hunknown⟩
      · rintro ⟨left, ⟨receivedMsg, rest, hfirst, hwaits⟩, hunknown⟩
        exact ⟨receivedMsg, rest, hfirst, processSession_null_iff.mpr (Or.inr ⟨left, hwaits,
          hunknown⟩)⟩

end Conversation

/-- The handler of a party is given no null pointer. -/
def NeverNull {σ : Type} (msgHandler : σ → Option Msg → Except Fault (Option Msg × σ))
    (now : UInt64) (party : Party) (s : σ) (reads : List Read) : Prop :=
  ∀ msg, party.Does msgHandler now s reads (.hands msg) → msg ≠ none

/-- Whatever a handler answers, and on every stream and every cutting of it into
reads: it is given no null pointer exactly when, wherever `WaitForMsg` is called, the
id of the message that it completes, if it completes one, is known. -/
theorem neverNull_iff {σ : Type} (msgHandler : σ → Option Msg → Except Fault (Option Msg × σ))
    (now : UInt64) (party : Party) (s : σ) (reads : List Read) :
    NeverNull msgHandler now party s reads ↔
      ∀ left, party.Does msgHandler now s reads (.waits left) → NextKnown left := by
  have hnull := @does_null_iff _ msgHandler now s reads party
  apply Iff.intro
  · intro h left hwaits
    by_contra hunknown
    exact h none (hnull.mpr ⟨left, hwaits, hunknown⟩) rfl
  · rintro h msg hhands rfl
    obtain ⟨left, hwaits, hunknown⟩ := hnull.mp hhands
    exact hunknown (h left hwaits)

/-! ## A message that nobody knows -/

/-- A header that claims to be the whole of a message with an id that is not used. -/
def unknownMsg : Chunk Byte := ⟨MsgHeaderData.toBytes ⟨999, 0, 24, 0⟩, by decide⟩

def statusRequest : Chunk Byte := ⟨(FactoryMsg.new 0 .statusRequest).bytes, by decide⟩

/-- The client's handler; while the user is still asked there is nothing to send. -/
def clientHandler (now : UInt64) (typed : List Str → List UInt64)
    (client : Client.ClientMsgHandler) (msg : Option Msg) :
    Except Fault (Option Msg × Client.ClientMsgHandler) := do
  let (reply, client) ← client.msgHandler now typed msg
  match reply with
  | .returned msg => return (msg.map FactoryMsg.toMsg, client)
  | .asking => return (none, client)

/-- Behind a status request the server's handler is given null, and the client's is
given it at once. -/
theorem not_neverNull_unknownMsg :
    ¬ NeverNull (Server.ServerMsgHandler.msgHandler (Server.fileOps none none) 0) 0 .server
        Route.RoutePlanner.create (socket [statusRequest, unknownMsg]) ∧
      ¬ NeverNull (clientHandler 0 fun _ => []) 0
        (.client (FactoryMsg.new 0 .statusRequest).toMsg) .create (socket [unknownMsg]) := by
  refine ⟨fun h => h none ?_ rfl, fun h => h none ?_ rfl⟩
  · exact ⟨_, socket [unknownMsg], rfl, .later
      ⟨(FactoryMsg.new 0 .statusResponse).toMsg, rfl, _, _, TcpSession.sendMsg_toMsg _,
        MsgType.length_ne_zero _⟩ (by rfl) .hands⟩
  · exact .hands ⟨_, _, TcpSession.sendMsg_toMsg _, MsgType.length_ne_zero _⟩ (by rfl)

end RoutePlanner.System
