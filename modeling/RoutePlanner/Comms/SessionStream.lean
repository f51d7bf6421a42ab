/-
# A stream of messages

A peer writes messages back to back, and the transport cuts the stream as it
likes.  A reader takes whole reads and drops what lies behind its message, so the
session hands on the messages that were written exactly when no read spans two
of them.
-/

import RoutePlanner.Comms.Reception
import Mathlib.Data.List.Forall2

namespace RoutePlanner.Comms

open RoutePlanner.Std
open RoutePlanner.Messages

/-- A handler that answers every message with one of the factory. -/
def answering {σ : Type} (answer : σ → Msg → FactoryMsg × σ) (s : σ) :
    Option Msg → Except Fault (Option Msg × σ)
  | some msg => .ok (some (answer s msg).1.toMsg, (answer s msg).2)
  | none => .error .nullPointer

/-- What is handed on when these messages arrive. -/
def handedOn (msgs : List FactoryMsg) : List (Option Msg) := msgs.map fun msg => some msg.toMsg

/-- The reads fall into groups, one for each message: no read spans two. -/
def Aligned (msgs : List FactoryMsg) (chunks : List (Chunk Byte)) : Prop :=
  ∃ groups, chunks = groups.flatten ∧
    List.Forall₂ (fun (msg : FactoryMsg) group => Chunk.join group = msg.bytes) msgs groups

theorem aligned_nil : Aligned [] [] := ⟨[], rfl, .nil⟩

theorem aligned_cons {msg : FactoryMsg} {msgs : List FactoryMsg} {chunks : List (Chunk Byte)} :
    Aligned (msg :: msgs) chunks ↔
      ∃ group rest, chunks = group ++ rest ∧ Chunk.join group = msg.bytes ∧ Aligned msgs rest := by
  apply Iff.intro
  · rintro ⟨groups, rfl, hgroups⟩
    obtain ⟨group, groups, hgroup, hrest, rfl⟩ := List.forall₂_cons_left_iff.mp hgroups
    exact ⟨group, groups.flatten, List.flatten_cons, hgroup, groups, rfl, hrest⟩
  · rintro ⟨group, rest, rfl, hgroup, groups, rfl, hgroups⟩
    exact ⟨group :: groups, List.flatten_cons.symm, .cons hgroup hgroups⟩

/-- The bytes of messages written back to back. -/
def stream (msgs : List FactoryMsg) : List Byte := msgs.flatMap FactoryMsg.bytes

@[simp]
theorem stream_cons (msg : FactoryMsg) (msgs : List FactoryMsg) :
    stream (msg :: msgs) = msg.bytes ++ stream msgs := List.flatMap_cons

theorem length_of_join_eq_nil {chunks : List (Chunk Byte)} (h : Chunk.join chunks = []) :
    chunks = [] := by
  have hle := Chunk.length_le_length_join chunks
  rw [h] at hle
  exact List.length_eq_zero_iff.mp (Nat.le_zero.mp hle)

/-- A message that was delivered has the header in front of the bytes that were
taken for it. -/
theorem headerOf_of_readMsg {now : UInt64} {received : List Byte} {msg : Msg}
    (h : readMsg now received = .ok (some msg)) (hheader : MSG_HEADER_SIZE ≤ received.length) :
    headerOf received = msg.header := by
  rw [readMsg] at h
  cases hcreate : Messages.create now (headerOf received).id with
  | none =>
      rw [hcreate] at h
      cases h
  | some object =>
      rw [hcreate] at h
      obtain ⟨⟨n, msg'⟩, hread, hreturn⟩ := Fault.bind_eq_ok.mp h
      obtain rfl : msg' = msg := Option.some.inj (Except.ok.inj hreturn)
      rw [Msg.deserialize, if_neg (Nat.not_lt_of_le hheader)] at hread
      dsimp only at hread
      split at hread
      · split at hread
        · cases hread
        · rw [← (Prod.mk.inj (Except.ok.inj hread)).2]
      · rw [← (Prod.mk.inj (Except.ok.inj hread)).2]

section Delivered

variable {now : UInt64} {msg : FactoryMsg} {chunks : List (Chunk Byte)} {rest : List Read}

/-- A reader that delivers a message of the factory has taken at least its bytes,
and leaves the chunks behind. -/
theorem length_le_of_delivered {ready : List Byte → Bool}
    (hready : ∀ received, ready received = true → MSG_HEADER_SIZE ≤ received.length ∧
      (headerOf received = msg.toMsg.header → msg.type.length ≤ received.length))
    (h : waitUntil now ready [] chunks = .ok (.returned (some msg.toMsg) rest)) :
    ∃ group chunks', chunks = group ++ chunks' ∧ rest = socket chunks' ∧
      msg.type.length ≤ (Chunk.join group).length := by
  have hcases := Chunk.readUntil_cases ready [] chunks
  simp only [List.nil_append] at hcases
  obtain ⟨bytes, later, hread, hmsg, rfl⟩ := waitUntil_eq_returned.mp h
  rcases hcases with ⟨hnone, -⟩ | ⟨k, -, hsome, hat, -⟩
  · rw [hnone] at hread
    cases hread
  · rw [hsome] at hread
    obtain ⟨rfl, rfl⟩ := Prod.mk.inj (Option.some.inj hread)
    obtain ⟨hheader, hlen⟩ := hready _ hat
    exact ⟨chunks.take (k + 1), chunks.drop (k + 1), (List.take_append_drop _ _).symm, rfl,
      hlen (headerOf_of_readMsg hmsg hheader)⟩

theorem matchReady_length {received : List Byte} (h : matchReady received = true) :
    MSG_HEADER_SIZE ≤ received.length ∧
      (headerOf received = msg.toMsg.header → msg.type.length ≤ received.length) := by
  obtain ⟨hheader, type, htype, hlen⟩ := matchReady_iff.mp h
  refine ⟨hheader, fun heq => ?_⟩
  rw [heq, FactoryMsg.id_toMsg, MsgType.ofId_id, Option.some.injEq] at htype
  exact htype ▸ hlen

theorem waitReady_length {received : List Byte} (h : waitReady received = true) :
    MSG_HEADER_SIZE ≤ received.length ∧
      (headerOf received = msg.toMsg.header → msg.type.length ≤ received.length) := by
  obtain ⟨hheader, hlen⟩ := waitReady_iff.mp h
  refine ⟨hheader, fun heq => ?_⟩
  rwa [heq, FactoryMsg.toNat_length] at hlen

/-- A group that is long enough for its message, in front of chunks that are long
enough for the others, is exactly its message. -/
theorem group_eq_bytes {msgs : List FactoryMsg} {group chunks' : List (Chunk Byte)}
    (hstream : Chunk.join (group ++ chunks') = stream (msg :: msgs))
    (hgroup : msg.type.length ≤ (Chunk.join group).length)
    (hrest : (stream msgs).length ≤ (Chunk.join chunks').length) :
    Chunk.join group = msg.bytes ∧ Chunk.join chunks' = stream msgs := by
  rw [Chunk.join_append, stream_cons] at hstream
  apply List.append_inj hstream
  have hlen := congrArg List.length hstream
  rw [List.length_append, List.length_append, FactoryMsg.length_bytes] at hlen
  rw [FactoryMsg.length_bytes]
  omega

end Delivered

namespace TcpSession

variable {σ : Type} {answer : σ → Msg → FactoryMsg × σ} {now : UInt64}

/-- After a message the session answers and waits for the next. -/
theorem processSession_answering (fuel : Nat) (s : σ) (msg : Msg) (reads : List Read) :
    processSession now (answering answer) (fuel + 1) s (some msg) reads = do
      match ← waitForMsg now reads with
      | .blocked => return ([some msg], .waiting)
      | .threw => return ([some msg], .threw)
      | .returned msgReceived rest =>
          let (handed, sessionEnd) ←
            processSession now (answering answer) fuel (answer s msg).2 msgReceived rest
          return (some msg :: handed, sessionEnd) := by
  have hsent := (answer s msg).1.type.length_ne_zero
  cases hwait : waitForMsg now reads with
  | error e =>
      simp only [processSession, answering, sendMsg_toMsg, hwait, if_neg hsent, Fault.ok_bind,
        Fault.error_bind]
  | ok wait =>
      cases wait <;>
        simp only [processSession, answering, sendMsg_toMsg, hwait, if_neg hsent, Fault.ok_bind,
          Fault.pure_eq_ok]

/-- The first message handed on is the one the session starts with. -/
theorem received_of_processSession {fuel : Nat} {s : σ} {received : Option Msg} {reads : List Read}
    {msg : Msg} {handed : List (Option Msg)} {sessionEnd : SessionEnd}
    (h : processSession now (answering answer) fuel s received reads =
      .ok (some msg :: handed, sessionEnd)) : received = some msg := by
  cases fuel with
  | zero => cases h
  | succ fuel =>
      cases received with
      | none => cases h
      | some first =>
          rw [processSession_answering] at h
          obtain ⟨wait, -, h⟩ := Fault.bind_eq_ok.mp h
          cases wait with
          | blocked => exact (List.cons.inj (Prod.mk.inj (Except.ok.inj h)).1).1
          | threw => exact (List.cons.inj (Prod.mk.inj (Except.ok.inj h)).1).1
          | returned _ _ =>
              obtain ⟨_, -, hreturn⟩ := Fault.bind_eq_ok.mp h
              exact (List.cons.inj (Prod.mk.inj (Except.ok.inj hreturn)).1).1

/-- Aligned messages are handed on one after the other. -/
theorem processSession_of_aligned {msgs : List FactoryMsg} {chunks : List (Chunk Byte)}
    (h : Aligned msgs chunks) {fuel : Nat} (hfuel : chunks.length < fuel) (s : σ) (msg : Msg) :
    processSession now (answering answer) fuel s (some msg) (socket chunks) =
      .ok (some msg :: handedOn msgs, .waiting) := by
  induction msgs generalizing chunks fuel s msg with
  | nil =>
      obtain ⟨groups, rfl, hgroups⟩ := h
      obtain rfl := List.forall₂_nil_left_iff.mp hgroups
      obtain ⟨fuel, rfl⟩ := Nat.exists_eq_succ_of_ne_zero (Nat.ne_of_gt hfuel)
      rw [Nat.succ_eq_add_one, processSession_answering, waitForMsg_spec]
      rfl
  | cons next msgs ih =>
      obtain ⟨group, rest, rfl, hgroup, hrest⟩ := aligned_cons.mp h
      obtain ⟨fuel, rfl⟩ := Nat.exists_eq_succ_of_ne_zero (Nat.ne_of_gt (Nat.zero_lt_of_lt hfuel))
      have hpos : 0 < group.length := List.length_pos_iff.mpr (chunks_ne_nil hgroup)
      rw [List.length_append] at hfuel
      rw [Nat.succ_eq_add_one, processSession_answering, waitForMsg_bytes now hgroup rest]
      simp only [Fault.ok_bind]
      rw [ih hrest (by omega)]
      rfl

/-- A session that hands on these messages has read at least their bytes, and
nothing else only if they are aligned. -/
theorem aligned_of_processSession {msgs : List FactoryMsg} {chunks : List (Chunk Byte)} {fuel : Nat}
    {s : σ} {msg : Msg}
    (h : processSession now (answering answer) fuel s (some msg) (socket chunks) =
      .ok (some msg :: handedOn msgs, .waiting)) :
    (stream msgs).length ≤ (Chunk.join chunks).length ∧
      (Chunk.join chunks = stream msgs → Aligned msgs chunks) := by
  induction msgs generalizing chunks fuel s msg with
  | nil =>
      refine ⟨Nat.zero_le _, fun hstream => ?_⟩
      rw [length_of_join_eq_nil hstream]
      exact aligned_nil
  | cons next msgs ih =>
      cases fuel with
      | zero => cases h
      | succ fuel =>
          rw [processSession_answering, waitForMsg_spec] at h
          obtain ⟨wait, hwait, h⟩ := Fault.bind_eq_ok.mp h
          cases wait with
          | blocked => cases h
          | threw => cases h
          | returned msgReceived rest =>
              obtain ⟨⟨handed, sessionEnd⟩, hnext, hreturn⟩ := Fault.bind_eq_ok.mp h
              obtain ⟨hhanded, rfl⟩ := Prod.mk.inj (Except.ok.inj hreturn)
              obtain rfl : handed = some next.toMsg :: handedOn msgs := (List.cons.inj hhanded).2
              obtain rfl := received_of_processSession hnext
              obtain ⟨group, chunks', rfl, rfl, hgroup⟩ :=
                length_le_of_delivered (fun _ => waitReady_length) hwait
              obtain ⟨hlen, halign⟩ := ih hnext
              refine ⟨?_, fun hstream => ?_⟩
              · rw [stream_cons, Chunk.join_append, List.length_append, List.length_append,
                  FactoryMsg.length_bytes]
                exact Nat.add_le_add hgroup hlen
              · obtain ⟨hbytes, hrest⟩ := group_eq_bytes hstream hgroup hlen
                exact aligned_cons.mpr ⟨group, chunks', rfl, hbytes, halign hrest⟩

/-- However the bytes of messages written back to back are cut into reads, a
session whose handler answers every message hands on exactly these messages, each
once and in order, if and only if no read spans two of them. -/
theorem serve_iff_aligned (answer : σ → Msg → FactoryMsg × σ) (now : UInt64) (s : σ)
    (msgs : List FactoryMsg) (chunks : List (Chunk Byte))
    (hcut : Chunk.join chunks = stream msgs) :
    serve now (answering answer) s (socket chunks) = .ok (handedOn msgs, .waiting) ↔
      Aligned msgs chunks := by
  cases msgs with
  | nil =>
      obtain rfl := length_of_join_eq_nil hcut
      refine iff_of_true ?_ aligned_nil
      rw [serve, asyncWaitForMsg_spec]
      rfl
  | cons first msgs =>
      apply Iff.intro
      · intro h
        rw [serve] at h
        obtain ⟨wait, hwait, h⟩ := Fault.bind_eq_ok.mp h
        rw [asyncWaitForMsg_spec] at hwait
        cases wait with
        | blocked => cases h
        | threw => cases h
        | returned received rest =>
            obtain rfl := received_of_processSession h
            obtain ⟨group, chunks', rfl, rfl, hgroup⟩ :=
              length_le_of_delivered (fun _ => matchReady_length) hwait
            obtain ⟨hlen, halign⟩ := aligned_of_processSession h
            obtain ⟨hbytes, hrest⟩ := group_eq_bytes hcut hgroup hlen
            exact aligned_cons.mpr ⟨group, chunks', rfl, hbytes, halign hrest⟩
      · intro h
        obtain ⟨group, rest, rfl, hgroup, hrest⟩ := aligned_cons.mp h
        rw [serve, asyncWaitForMsg_bytes now hgroup rest]
        simp only [Fault.ok_bind, length_socket]
        exact processSession_of_aligned hrest (Nat.lt_succ_self _) s first.toMsg

/-- Answer everything with a status response. -/
def acknowledge (_ : Unit) (_ : Msg) : FactoryMsg × Unit := (.new 0 .statusResponse, ())

/-- Two status requests. -/
def twoRequests : List FactoryMsg := [.new 0 .statusRequest, .new 0 .statusRequest]

theorem serve_iff_aligned_separate_reads :
    serve 0 (answering acknowledge) ()
        (socket [⟨(FactoryMsg.new 0 .statusRequest).bytes, by decide⟩,
          ⟨(FactoryMsg.new 0 .statusRequest).bytes, by decide⟩]) =
      .ok (handedOn twoRequests, .waiting) ↔
      Aligned twoRequests [⟨(FactoryMsg.new 0 .statusRequest).bytes, by decide⟩,
        ⟨(FactoryMsg.new 0 .statusRequest).bytes, by decide⟩] :=
  serve_iff_aligned acknowledge 0 () twoRequests _ (by decide)

/-- In one read, the second of two messages is lost. -/
theorem serve_coalesced_requests :
    Chunk.join [(⟨stream twoRequests, by decide⟩ : Chunk Byte)] = stream twoRequests ∧
      serve 0 (answering acknowledge) () (socket [⟨stream twoRequests, by decide⟩]) =
        .ok (handedOn (twoRequests.take 1), .waiting) ∧
      serve 0 (answering acknowledge) () (socket [⟨stream twoRequests, by decide⟩]) ≠
        .ok (handedOn twoRequests, .waiting) := by
  have hserve : serve 0 (answering acknowledge) () (socket [⟨stream twoRequests, by decide⟩]) =
      .ok (handedOn (twoRequests.take 1), .waiting) := by rfl
  refine ⟨by decide, hserve, ?_⟩
  rw [hserve]
  intro heq
  exact absurd (congrArg List.length (Prod.mk.inj (Except.ok.inj heq)).1) (by decide)

end TcpSession

end RoutePlanner.Comms
