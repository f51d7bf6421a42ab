/-
# Sessions

A session takes its first message from an asynchronous read with a match
condition and every later one from `WaitForMsg`, a loop of blocking reads into a
buffer of its own.  The two share the socket and nothing else.

The socket is a list of reads.  When the list is used up the session is still
waiting; that is an outcome of its own.
-/

import RoutePlanner.Comms.TcpMsgMatch

namespace RoutePlanner.Comms

open RoutePlanner.Std
open RoutePlanner.Messages

/-- What one read of the socket gives. -/
inductive Read
  | data (chunk : Chunk Byte)
  | error

/-- How waiting for a message ends. -/
inductive Wait
  /-- There are no more reads. -/
  | blocked
  /-- `std::runtime_error`. -/
  | threw
  /-- The message, or null, and the reads that were not needed. -/
  | returned (msg : Option Msg) (rest : List Read)

/-- How a session ends. -/
inductive SessionEnd
  | waiting
  | threw
  | finished
  deriving DecidableEq

namespace TcpSession

variable (now : UInt64)

/-- `boost::asio::async_read_until`: the match condition is called on the data
behind the position it returned last, first of all before anything is read. -/
def asyncReadUntil (matcher : TcpMsgMatch) (pending : List Byte) (reads : List Read) :
    Except Fault Wait :=
  match matcher.processBuffer now pending with
  | .error e => .error e
  | .ok (result, matcher) =>
      if result.found then .ok (.returned matcher.getMsg reads)
      else
        match reads with
        | [] => .ok .blocked
        | .error :: _ => .ok .threw
        | .data chunk :: rest =>
            asyncReadUntil matcher (pending.drop result.position ++ chunk.val) rest

/-- `AsyncWaitForMsg`, up to the call of the handler. -/
def asyncWaitForMsg (reads : List Read) : Except Fault Wait :=
  asyncReadUntil now (TcpMsgMatch.create now) [] reads

/-- The loop of `WaitForMsg`, and what follows it.  The bound is the length field
of the header, which the loop itself fills. -/
def waitLoop (msgHeader : Msg) (buffer : List Byte) (totalBytesRead : Nat) (reads : List Read) :
    Except Fault Wait :=
  if totalBytesRead < msgHeader.header.length.toNat then
    match reads with
    | [] => .ok .blocked
    | .error :: _ => .ok .threw
    | .data chunk :: rest =>
        match msgHeader.deserialize (buffer ++ chunk.val) with
        | .error e => .error e
        | .ok (_, msgHeader) =>
            waitLoop msgHeader (buffer ++ chunk.val) (totalBytesRead + chunk.val.length) rest
  else
    match Messages.create now msgHeader.header.id with
    | some msg => do
        let (_, msg) ← msg.deserialize buffer
        return .returned (some msg) reads
    | none => .ok (.returned none reads)

/-- `WaitForMsg`. -/
def waitForMsg (reads : List Read) : Except Fault Wait :=
  waitLoop now (FactoryMsg.new now .header).toMsg [] 0 reads

/-- `SendMsg` on a socket without errors: the number returned and the bytes
written. -/
def sendMsg (msg : Msg) : Except Fault (Nat × List Byte) := do
  let buffer ← msg.serialize
  return (msg.header.length.toNat, buffer)

/-- `ProcessSession` from a received message on, with everything the handler is
given.  Each round but the first takes a read at least, so one more than there
are reads is enough. -/
def processSession {σ : Type} (msgHandler : σ → Option Msg → Except Fault (Option Msg × σ)) :
    Nat → σ → Option Msg → List Read → Except Fault (List (Option Msg) × SessionEnd)
  | 0, _, _, _ => .ok ([], .waiting)
  | fuel + 1, s, receivedMsg, reads => do
      let (responseMsg, s) ← msgHandler s receivedMsg
      match responseMsg with
      | none => return ([receivedMsg], .finished)
      | some responseMsg =>
          let (bytesSent, _) ← sendMsg responseMsg
          if bytesSent = 0 then return ([receivedMsg], .finished)
          else
            match ← waitForMsg now reads with
            | .blocked => return ([receivedMsg], .waiting)
            | .threw => return ([receivedMsg], .threw)
            | .returned msgReceived rest =>
                let (handed, sessionEnd) ← processSession msgHandler fuel s msgReceived rest
                return (receivedMsg :: handed, sessionEnd)

/-- A session of the server. -/
def serve {σ : Type} (msgHandler : σ → Option Msg → Except Fault (Option Msg × σ)) (s : σ)
    (reads : List Read) : Except Fault (List (Option Msg) × SessionEnd) := do
  match ← asyncWaitForMsg now reads with
  | .blocked => return ([], .waiting)
  | .threw => return ([], .threw)
  | .returned receivedMsg rest => processSession now msgHandler (rest.length + 1) s receivedMsg rest

end TcpSession

/-! ## What the two loops wait for -/

/-- The bytes are all that the length in their header asks for. -/
def waitReady (received : List Byte) : Bool :=
  MSG_HEADER_SIZE ≤ received.length && (headerOf received).length.toNat ≤ received.length

theorem waitReady_iff {received : List Byte} :
    waitReady received = true ↔ MSG_HEADER_SIZE ≤ received.length ∧
      (headerOf received).length.toNat ≤ received.length := by
  rw [waitReady, Bool.and_eq_true, decide_eq_true_eq, decide_eq_true_eq]

theorem waitReady_stays : Chunk.Stays waitReady := by
  intro received more h
  obtain ⟨hheader, hlen⟩ := waitReady_iff.mp h
  have hle : received.length ≤ (received ++ more).length := by
    rw [List.length_append]
    exact Nat.le_add_right _ _
  rw [waitReady_iff, headerOf_append hheader]
  exact ⟨hheader.trans hle, hlen.trans hle⟩

/-- A socket that delivers these chunks. -/
def socket (chunks : List (Chunk Byte)) : List Read := chunks.map Read.data

@[simp]
theorem length_socket (chunks : List (Chunk Byte)) : (socket chunks).length = chunks.length :=
  List.length_map _

/-- How waiting ends for a reader that stops when it is ready. -/
def waitUntil (now : UInt64) (ready : List Byte → Bool) (received : List Byte)
    (chunks : List (Chunk Byte)) : Except Fault Wait :=
  match Chunk.readUntil ready received chunks with
  | none => .ok .blocked
  | some (received, rest) => do
      let msg ← readMsg now received
      return .returned msg (socket rest)

theorem socket_injective : Function.Injective socket :=
  List.map_injective_iff.mpr fun _ _ heq => Read.data.inj heq

/-- What is returned is made of the bytes that the reader stops at, and leaves the
chunks behind them. -/
theorem waitUntil_eq_returned {now : UInt64} {ready : List Byte → Bool} {received : List Byte}
    {chunks : List (Chunk Byte)} {rest : List Read} {msg : Option Msg} :
    waitUntil now ready received chunks = .ok (.returned msg rest) ↔
      ∃ bytes later, Chunk.readUntil ready received chunks = some (bytes, later) ∧
        readMsg now bytes = .ok msg ∧ socket later = rest := by
  rw [waitUntil]
  cases Chunk.readUntil ready received chunks with
  | none => simp
  | some result =>
      simp only [Fault.bind_eq_ok, Fault.pure_eq_ok, Except.ok.injEq, Wait.returned.injEq,
        Option.some.injEq]
      apply Iff.intro
      · rintro ⟨_, hread, rfl, rfl⟩
        exact ⟨_, _, rfl, hread, rfl⟩
      · rintro ⟨_, _, rfl, hread, rfl⟩
        exact ⟨_, hread, rfl, rfl⟩

/-- The same on any socket. -/
def waitFor (now : UInt64) (ready : List Byte → Bool) (received : List Byte) :
    List Read → Except Fault Wait
  | [] => .ok .blocked
  | .error :: _ => .ok .threw
  | .data chunk :: rest =>
      if ready (received ++ chunk.val) then do
        let msg ← readMsg now (received ++ chunk.val)
        return .returned msg rest
      else waitFor now ready (received ++ chunk.val) rest

/-- The bytes that such a reader takes for a message, if it is ever ready, and the
reads behind them. -/
def taken (ready : List Byte → Bool) (received : List Byte) :
    List Read → Option (List Byte × List Read)
  | .data chunk :: rest =>
      if ready (received ++ chunk.val) then some (received ++ chunk.val, rest)
      else taken ready (received ++ chunk.val) rest
  | _ => none

/-- Waiting returns what is made of the bytes taken, and leaves the reads behind
them. -/
theorem waitFor_eq_returned {now : UInt64} {ready : List Byte → Bool} {received : List Byte}
    {reads rest : List Read} {msg : Option Msg} :
    waitFor now ready received reads = .ok (.returned msg rest) ↔
      ∃ bytes, taken ready received reads = some (bytes, rest) ∧ readMsg now bytes = .ok msg := by
  induction reads generalizing received with
  | nil => simp [waitFor, taken]
  | cons read reads ih =>
      cases read with
      | error => simp [waitFor, taken]
      | data chunk =>
          rw [waitFor, taken]
          cases ready (received ++ chunk.val) with
          | false => exact ih
          | true =>
              simp only [if_true, Fault.bind_eq_ok, Fault.pure_eq_ok, Except.ok.injEq,
                Wait.returned.injEq, Option.some.injEq, Prod.mk.injEq]
              apply Iff.intro
              · rintro ⟨_, hread, rfl, rfl⟩
                exact ⟨_, ⟨rfl, rfl⟩, hread⟩
              · rintro ⟨_, ⟨rfl, rfl⟩, hread⟩
                exact ⟨_, hread, rfl, rfl⟩

/-- Taking a message takes a read at least, and stops where the reader is ready. -/
theorem taken_spec {ready : List Byte → Bool} {received bytes : List Byte}
    {reads rest : List Read} (h : taken ready received reads = some (bytes, rest)) :
    ready bytes = true ∧ rest.length < reads.length := by
  induction reads generalizing received with
  | nil => cases h
  | cons read reads ih =>
      cases read with
      | error => cases h
      | data chunk =>
          rw [taken] at h
          cases hready : ready (received ++ chunk.val) with
          | false =>
              rw [hready] at h
              obtain ⟨hbytes, hlt⟩ := ih h
              exact ⟨hbytes, Nat.lt_succ_of_lt hlt⟩
          | true =>
              rw [hready] at h
              obtain ⟨rfl, rfl⟩ := Prod.mk.inj (Option.some.inj h)
              exact ⟨hready, Nat.lt_succ_self _⟩

/-- A reader that was given these reads is still waiting. -/
def Pending (ready : List Byte → Bool) (received : List Byte) : List Read → Prop
  | [] => True
  | .error :: _ => False
  | .data chunk :: rest =>
      ready (received ++ chunk.val) = false ∧ Pending ready (received ++ chunk.val) rest

/-- A read that fails ends the waiting. -/
theorem waitFor_error (now : UInt64) {ready : List Byte → Bool} {received : List Byte}
    {reads : List Read} (h : Pending ready received reads) :
    waitFor now ready received (reads ++ [.error]) = .ok .threw := by
  induction reads generalizing received with
  | nil => rfl
  | cons read reads ih =>
      cases read with
      | error => exact absurd h id
      | data chunk =>
          rw [List.cons_append, waitFor, h.1]
          exact ih h.2

/-- A read that brings data leaves the reader waiting, or the message is complete. -/
theorem waitFor_data (now : UInt64) {ready : List Byte → Bool} {received : List Byte}
    {reads : List Read} (h : Pending ready received reads) (chunk : Chunk Byte) :
    (taken ready received (reads ++ [.data chunk]) = none ∧
        waitFor now ready received (reads ++ [.data chunk]) = .ok .blocked ∧
        Pending ready received (reads ++ [.data chunk])) ∨
      ∃ bytes, taken ready received (reads ++ [.data chunk]) = some (bytes, []) ∧
        waitFor now ready received (reads ++ [.data chunk]) = do
          let msg ← readMsg now bytes
          return .returned msg [] := by
  induction reads generalizing received with
  | nil =>
      rw [List.nil_append, taken, waitFor]
      cases hready : ready (received ++ chunk.val) with
      | false => exact Or.inl ⟨rfl, rfl, hready, trivial⟩
      | true => exact Or.inr ⟨_, rfl, rfl⟩
  | cons read reads ih =>
      cases read with
      | error => exact absurd h id
      | data first =>
          rw [List.cons_append, taken, waitFor, h.1]
          rcases ih h.2 with ⟨hnone, hblocked, hpending⟩ | hsome
          · exact Or.inl ⟨hnone, hblocked, h.1, hpending⟩
          · exact Or.inr hsome

theorem waitFor_socket (now : UInt64) (ready : List Byte → Bool) (received : List Byte)
    (chunks : List (Chunk Byte)) :
    waitFor now ready received (socket chunks) = waitUntil now ready received chunks := by
  induction chunks generalizing received with
  | nil => rfl
  | cons chunk chunks ih =>
      rw [socket, List.map_cons, waitFor, waitUntil, Chunk.readUntil]
      cases ready (received ++ chunk.val) with
      | true => rfl
      | false => exact ih _

namespace TcpSession

variable {now : UInt64}

theorem sendMsg_toMsg (msg : FactoryMsg) :
    sendMsg msg.toMsg = .ok (msg.type.length, msg.bytes) := by
  rw [sendMsg, FactoryMsg.serialize_toMsg, Fault.ok_bind, FactoryMsg.toNat_length]
  rfl

theorem asyncReadUntil_eq {matcher : TcpMsgMatch} {received : List Byte}
    (h : matcher.Received received) (pending : List Byte) (reads : List Read)
    (hready : matchReady (received ++ pending) = false) :
    asyncReadUntil now matcher pending reads =
      waitFor now matchReady (received ++ pending) reads := by
  induction reads generalizing matcher received pending with
  | nil =>
      obtain ⟨matcher', hprocess, -⟩ := TcpMsgMatch.processBuffer_spec now h pending
      rw [asyncReadUntil, hprocess, hready]
      rfl
  | cons read reads ih =>
      obtain ⟨matcher', hprocess, h', -⟩ := TcpMsgMatch.processBuffer_spec now h pending
      rw [asyncReadUntil, hprocess, hready]
      cases read with
      | error => rfl
      | data chunk =>
          simp only [Bool.false_eq_true, if_false, List.drop_length, List.nil_append]
          rw [waitFor]
          cases hchunk : matchReady (received ++ pending ++ chunk.val) with
          | false => exact ih h' chunk.val hchunk
          | true =>
              obtain ⟨matcher'', hprocess', -, hmsg, -⟩ :=
                TcpMsgMatch.processBuffer_spec now h' chunk.val
              -- the next call finds the message, whatever is read behind it
              have hfound : ∀ rest, asyncReadUntil now matcher' chunk.val rest =
                  .ok (.returned matcher''.getMsg rest) := by
                intro rest
                cases rest <;> rw [asyncReadUntil, hprocess', hchunk] <;> rfl
              rw [hfound, if_pos rfl, hmsg hchunk]
              rfl

/-- The asynchronous path waits for what the class needs. -/
theorem asyncWaitForMsg_eq (reads : List Read) :
    asyncWaitForMsg now reads = waitFor now matchReady [] reads :=
  asyncReadUntil_eq (TcpMsgMatch.received_create now) [] reads rfl

theorem asyncWaitForMsg_spec (chunks : List (Chunk Byte)) :
    asyncWaitForMsg now (socket chunks) = waitUntil now matchReady [] chunks := by
  rw [asyncWaitForMsg_eq, waitFor_socket]

/-- The header object of `WaitForMsg` after some bytes. -/
structure HeaderRead (msgHeader : Msg) (received : List Byte) : Prop where
  type : msgHeader.type = .header
  complete : MSG_HEADER_SIZE ≤ received.length → msgHeader.header = headerOf received
  initial : received.length < MSG_HEADER_SIZE → msgHeader.header.length.toNat = MSG_HEADER_SIZE

theorem HeaderRead.lt_iff {msgHeader : Msg} {received : List Byte}
    (h : HeaderRead msgHeader received) :
    received.length < msgHeader.header.length.toNat ↔ waitReady received = false := by
  rw [← Bool.not_eq_true, waitReady_iff]
  by_cases hheader : MSG_HEADER_SIZE ≤ received.length
  · rw [h.complete hheader]
    simp [hheader]
  · rw [h.initial (Nat.lt_of_not_le hheader)]
    simp [hheader, Nat.lt_of_not_le hheader]

theorem HeaderRead.deserialize {msgHeader : Msg} {received : List Byte}
    (h : HeaderRead msgHeader received) (data : List Byte) :
    ∃ n msgHeader', msgHeader.deserialize (received ++ data) = .ok (n, msgHeader') ∧
      HeaderRead msgHeader' (received ++ data) := by
  by_cases hheader : MSG_HEADER_SIZE ≤ (received ++ data).length
  · have hbody : msgHeader.type.bodyLength = 0 := by rw [h.type]; rfl
    exact ⟨_, _, Msg.deserialize_of_no_body hbody hheader, h.type, fun _ => rfl,
      fun hlt => absurd hheader (Nat.not_le_of_lt hlt)⟩
  · have hlt := Nat.lt_of_not_le hheader
    refine ⟨0, msgHeader, by rw [Msg.deserialize, if_pos hlt], h.type,
      fun hle => absurd hle hheader, fun _ => h.initial ?_⟩
    rw [List.length_append] at hlt
    omega

theorem waitLoop_eq {msgHeader : Msg} {received : List Byte} (h : HeaderRead msgHeader received)
    (hready : waitReady received = false) (reads : List Read) :
    waitLoop now msgHeader received received.length reads =
      waitFor now waitReady received reads := by
  induction reads generalizing msgHeader received with
  | nil =>
      rw [waitLoop, if_pos (h.lt_iff.mpr hready)]
      rfl
  | cons read reads ih =>
      cases read with
      | error =>
          rw [waitLoop, if_pos (h.lt_iff.mpr hready)]
          rfl
      | data chunk =>
          obtain ⟨n, msgHeader', hread, h'⟩ := h.deserialize chunk.val
          rw [waitLoop, if_pos (h.lt_iff.mpr hready)]
          simp only [hread, ← List.length_append]
          rw [waitFor]
          cases hchunk : waitReady (received ++ chunk.val) with
          | false => exact ih h' hchunk
          | true =>
              -- the loop bound is met, so the message is built
              have hdone : ¬ (received ++ chunk.val).length < msgHeader'.header.length.toNat := by
                rw [h'.lt_iff, hchunk]
                exact Bool.noConfusion
              have hheader := h'.complete (waitReady_iff.mp hchunk).1
              unfold waitLoop
              rw [if_neg hdone, if_pos rfl, hheader, readMsg]
              cases Messages.create now (headerOf (received ++ chunk.val)).id with
              | none => rfl
              | some msg =>
                  dsimp only
                  cases msg.deserialize (received ++ chunk.val) <;> rfl

/-- The synchronous path waits for what the header asks for. -/
theorem waitForMsg_eq (reads : List Read) :
    waitForMsg now reads = waitFor now waitReady [] reads := by
  refine waitLoop_eq ⟨rfl, fun hle => absurd hle (by decide), fun _ => ?_⟩ rfl reads
  exact FactoryMsg.toNat_length _

theorem waitForMsg_spec (chunks : List (Chunk Byte)) :
    waitForMsg now (socket chunks) = waitUntil now waitReady [] chunks := by
  rw [waitForMsg_eq, waitFor_socket]

end TcpSession

end RoutePlanner.Comms
