/-
# Matching the first message of a session

`TcpMsgMatch` is the match condition of an asynchronous read: it sees every
chunk once and says whether a message is complete.  It is complete when there
are as many bytes as the class of the id in the header needs; the length in the
header decides only whether the body is copied.

The clock is a parameter.  It stamps messages whose header is overwritten before
anybody sees it.
-/

import RoutePlanner.Messages.MsgHeader
import RoutePlanner.Std.Chunks

namespace RoutePlanner.Comms

open RoutePlanner.Std
open RoutePlanner.Messages

structure TcpMsgMatch where
  totalBytesRead : Nat
  buffer : List Byte
  msgHeader : Msg
  msg : Option Msg
  headerLength : Nat

/-- What a match condition returns: where the search ends, relative to the begin
of the data it was given, and whether it found what it looks for. -/
structure MatchResult where
  position : Nat
  found : Bool

namespace TcpMsgMatch

variable (now : UInt64)

/-- The constructor. -/
def create : TcpMsgMatch where
  totalBytesRead := 0
  buffer := []
  msgHeader := (FactoryMsg.new now .header).toMsg
  msg := none
  headerLength := (FactoryMsg.new now .header).toMsg.header.length.toNat

/-- `ProcessBuffer`.  The position returned is the end of the data, whether or
not the message ends there. -/
def processBuffer (matcher : TcpMsgMatch) (data : List Byte) :
    Except Fault (MatchResult × TcpMsgMatch) :=
  let totalBytesRead := matcher.totalBytesRead + data.length
  let buffer := matcher.buffer ++ data
  if matcher.headerLength ≤ totalBytesRead then do
    let (_, msgHeader) ← matcher.msgHeader.deserialize buffer
    match Messages.create now msgHeader.header.id with
    | some msg =>
        if msg.header.length.toNat ≤ totalBytesRead then
          let (_, msg) ← msg.deserialize buffer
          return (⟨data.length, true⟩,
            { matcher with totalBytesRead, buffer, msgHeader, msg := some msg })
        else
          return (⟨data.length, false⟩,
            { matcher with totalBytesRead, buffer, msgHeader, msg := some msg })
    | none =>
        return (⟨data.length, false⟩,
          { matcher with totalBytesRead, buffer, msgHeader, msg := none })
  else
    return (⟨data.length, false⟩, { matcher with totalBytesRead, buffer })

/-- `GetMsg`. -/
def getMsg (matcher : TcpMsgMatch) : Option Msg := matcher.msg

end TcpMsgMatch

/-! ## What a matcher waits for -/

/-- The bytes are all that the class of their id needs. -/
def matchReady (received : List Byte) : Bool :=
  MSG_HEADER_SIZE ≤ received.length &&
    match MsgType.ofId (headerOf received).id with
    | some type => type.length ≤ received.length
    | none => false

/-- The message made of the bytes received: an object of the class of their id,
deserialized from them. -/
def readMsg (now : UInt64) (received : List Byte) : Except Fault (Option Msg) :=
  match Messages.create now (headerOf received).id with
  | some msg => do
      let (_, msg) ← msg.deserialize received
      return some msg
  | none => .ok none

theorem matchReady_iff {received : List Byte} :
    matchReady received = true ↔ MSG_HEADER_SIZE ≤ received.length ∧
      ∃ type, MsgType.ofId (headerOf received).id = some type ∧ type.length ≤ received.length := by
  rw [matchReady]
  cases MsgType.ofId (headerOf received).id <;> simp

theorem matchReady_stays : Chunk.Stays matchReady := by
  intro received more h
  obtain ⟨hheader, type, htype, hlen⟩ := matchReady_iff.mp h
  have hle : received.length ≤ (received ++ more).length := by
    rw [List.length_append]
    exact Nat.le_add_right _ _
  refine matchReady_iff.mpr ⟨hheader.trans hle, type, ?_, hlen.trans hle⟩
  rw [headerOf_append hheader, htype]

/-- A complete message is read without a fault. -/
theorem readMsg_of_matchReady (now : UInt64) {received : List Byte}
    (h : matchReady received = true) : ∃ msg, readMsg now received = .ok (some msg) := by
  obtain ⟨-, type, htype, hlen⟩ := matchReady_iff.mp h
  obtain ⟨n, msg, hmsg⟩ := @Msg.deserialize_ok (FactoryMsg.new now type).toMsg received
    (by rwa [FactoryMsg.type_toMsg, FactoryMsg.type_new])
  refine ⟨msg, ?_⟩
  simp only [readMsg, Messages.create, htype, Option.map_some, hmsg, Fault.ok_bind,
    Fault.pure_eq_ok]

namespace TcpMsgMatch

/-- The matcher has taken over these bytes. -/
structure Received (matcher : TcpMsgMatch) (received : List Byte) : Prop where
  total : matcher.totalBytesRead = received.length
  buffer : matcher.buffer = received
  header : matcher.msgHeader.type = .header
  headerLength : matcher.headerLength = MSG_HEADER_SIZE

theorem received_create (now : UInt64) : Received (create now) [] where
  total := rfl
  buffer := rfl
  header := rfl
  headerLength := FactoryMsg.toNat_length _

/-- One call takes over the new bytes, and finds a message exactly when all
bytes together are ready.  Once the header is there it shows a message if the id is
known. -/
theorem processBuffer_spec (now : UInt64) {matcher : TcpMsgMatch} {received : List Byte}
    (h : Received matcher received) (data : List Byte) :
    ∃ matcher', processBuffer now matcher data =
        .ok (⟨data.length, matchReady (received ++ data)⟩, matcher') ∧
      Received matcher' (received ++ data) ∧
      (matchReady (received ++ data) = true →
        readMsg now (received ++ data) = .ok matcher'.getMsg) ∧
      matcher'.getMsg.isSome = if MSG_HEADER_SIZE ≤ (received ++ data).length then
        (MsgType.ofId (headerOf (received ++ data)).id).isSome else matcher.getMsg.isSome := by
  have htotal : matcher.totalBytesRead + data.length = (received ++ data).length := by
    rw [h.total, List.length_append]
  simp only [processBuffer, htotal, h.buffer, h.headerLength]
  generalize received ++ data = received' at *
  by_cases hheader : MSG_HEADER_SIZE ≤ received'.length
  · have hbody : matcher.msgHeader.type.bodyLength = 0 := by rw [h.header]; rfl
    rw [if_pos hheader, Msg.deserialize_of_no_body hbody hheader, if_pos hheader]
    simp only [Fault.ok_bind, Messages.create]
    cases htype : MsgType.ofId (headerOf received').id with
    | none =>
        have hready : matchReady received' = false := by simp [matchReady, htype]
        rw [hready]
        exact ⟨_, rfl, ⟨rfl, rfl, h.header, rfl⟩, fun hfound => Bool.noConfusion hfound, rfl⟩
    | some type =>
        simp only [Option.map_some, FactoryMsg.toNat_length, FactoryMsg.type_new]
        by_cases hlen : type.length ≤ received'.length
        · have hready : matchReady received' = true :=
            matchReady_iff.mpr ⟨hheader, type, htype, hlen⟩
          obtain ⟨n, msg, hmsg⟩ := @Msg.deserialize_ok (FactoryMsg.new now type).toMsg received'
            (by rwa [FactoryMsg.type_toMsg, FactoryMsg.type_new])
          rw [if_pos hlen, hmsg, hready]
          refine ⟨_, rfl, ⟨rfl, rfl, h.header, rfl⟩, fun _ => ?_, rfl⟩
          simp only [readMsg, Messages.create, htype, Option.map_some, hmsg, Fault.ok_bind,
            Fault.pure_eq_ok, getMsg]
        · have hready : matchReady received' = false := by
            simp [matchReady, htype, hlen]
          rw [if_neg hlen, hready]
          exact ⟨_, rfl, ⟨rfl, rfl, h.header, rfl⟩, fun hfound => Bool.noConfusion hfound, rfl⟩
  · have hready : matchReady received' = false := by simp [matchReady, hheader]
    rw [if_neg hheader, hready, if_neg hheader]
    exact ⟨_, rfl, ⟨rfl, rfl, h.header, rfl⟩, fun hfound => Bool.noConfusion hfound, rfl⟩

end TcpMsgMatch

end RoutePlanner.Comms
