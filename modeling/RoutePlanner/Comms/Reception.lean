/-
# What arrives

A message of the factory arrives intact on both paths, however its bytes are cut
into reads.  On other streams the two paths part: one completes a message by the
length of the class its id names, the other by the length written in it.
-/

import RoutePlanner.Comms.TcpSession

namespace RoutePlanner.Comms

open RoutePlanner.Std
open RoutePlanner.Messages

namespace TcpMsgMatch

/-- Feed chunks to `ProcessBuffer` one after the other; what it reports for each. -/
def feed (now : UInt64) (matcher : TcpMsgMatch) :
    List (Chunk Byte) → Except Fault (List Bool × TcpMsgMatch)
  | [] => .ok ([], matcher)
  | chunk :: chunks => do
      let (result, matcher) ← matcher.processBuffer now chunk.val
      let (found, matcher) ← feed now matcher chunks
      return (result.found :: found, matcher)

/-- The reports say of every boundary whether it is ready. -/
theorem feed_spec (now : UInt64) {matcher : TcpMsgMatch} {received : List Byte}
    (h : Received matcher received) (chunks : List (Chunk Byte)) :
    ∃ matcher', feed now matcher chunks =
        .ok ((List.range chunks.length).map fun k =>
          matchReady (received ++ Chunk.upTo chunks (k + 1)), matcher') ∧
      (chunks ≠ [] → matchReady (received ++ Chunk.join chunks) = true →
        readMsg now (received ++ Chunk.join chunks) = .ok matcher'.getMsg) := by
  induction chunks generalizing matcher received with
  | nil => exact ⟨matcher, rfl, fun hne => absurd rfl hne⟩
  | cons chunk chunks ih =>
      obtain ⟨matcher₁, hprocess, h₁, hmsg₁, -⟩ := processBuffer_spec now h chunk.val
      obtain ⟨matcher', hfeed, hmsg⟩ := ih h₁
      refine ⟨matcher', ?_, fun _ hready => ?_⟩
      · rw [feed, hprocess, Fault.ok_bind]
        simp only [hfeed, Fault.ok_bind, Fault.pure_eq_ok, List.length_cons,
          List.range_succ_eq_map, List.map_cons, List.map_map, Function.comp_def,
          Chunk.upTo_succ, Chunk.upTo_zero, List.append_nil, List.append_assoc, Nat.succ_eq_add_one]
      · cases chunks with
        | nil =>
            obtain rfl : matcher₁ = matcher' := (Prod.mk.inj (Except.ok.inj hfeed)).2
            simp only [Chunk.join_cons, Chunk.join_nil, List.append_nil] at hready ⊢
            exact hmsg₁ hready
        | cons next chunks =>
            rw [Chunk.join_cons, ← List.append_assoc] at hready ⊢
            exact hmsg (List.cons_ne_nil _ _) hready

end TcpMsgMatch

/-! ## Messages of the factory -/

section FactoryMsg

variable (msg : FactoryMsg)

theorem matchReady_bytes (more : List Byte) : matchReady (msg.bytes ++ more) = true := by
  have hlen : msg.type.length ≤ (msg.bytes ++ more).length := by
    rw [List.length_append, FactoryMsg.length_bytes]
    exact Nat.le_add_right _ _
  refine matchReady_iff.mpr ⟨msg.type.le_length.trans hlen, msg.type, ?_, hlen⟩
  rw [headerOf_bytes, FactoryMsg.id_toMsg, MsgType.ofId_id]

theorem waitReady_bytes (more : List Byte) : waitReady (msg.bytes ++ more) = true := by
  have hlen : msg.type.length ≤ (msg.bytes ++ more).length := by
    rw [List.length_append, FactoryMsg.length_bytes]
    exact Nat.le_add_right _ _
  refine waitReady_iff.mpr ⟨msg.type.le_length.trans hlen, ?_⟩
  rwa [headerOf_bytes, FactoryMsg.toNat_length]

variable {msg}

/-- A beginning of the bytes that has the header has the header of the message. -/
theorem headerOf_of_append {received rest : List Byte} (h : received ++ rest = msg.bytes)
    (hheader : MSG_HEADER_SIZE ≤ received.length) : headerOf received = msg.toMsg.header := by
  rw [← headerOf_append hheader rest, h, ← List.append_nil msg.bytes, headerOf_bytes]

theorem length_lt_of_append {received rest : List Byte} (h : received ++ rest = msg.bytes)
    (hrest : rest ≠ []) : received.length < msg.type.length := by
  have hlen := congrArg List.length h
  have hpos := List.length_pos_iff.mpr hrest
  rw [List.length_append, FactoryMsg.length_bytes] at hlen
  omega

theorem not_matchReady_of_append {received rest : List Byte} (h : received ++ rest = msg.bytes)
    (hrest : rest ≠ []) : matchReady received = false := by
  by_contra hready
  obtain ⟨hheader, type, htype, hlen⟩ := matchReady_iff.mp (by simpa using hready)
  rw [headerOf_of_append h hheader, FactoryMsg.id_toMsg, MsgType.ofId_id,
    Option.some.injEq] at htype
  exact absurd hlen (Nat.not_le_of_lt (htype ▸ length_lt_of_append h hrest))

theorem not_waitReady_of_append {received rest : List Byte} (h : received ++ rest = msg.bytes)
    (hrest : rest ≠ []) : waitReady received = false := by
  by_contra hready
  obtain ⟨hheader, hlen⟩ := waitReady_iff.mp (by simpa using hready)
  rw [headerOf_of_append h hheader, FactoryMsg.toNat_length] at hlen
  exact absurd hlen (Nat.not_le_of_lt (length_lt_of_append h hrest))

theorem readMsg_bytes (now : UInt64) (msg : FactoryMsg) (more : List Byte) :
    readMsg now (msg.bytes ++ more) = .ok (some msg.toMsg) := by
  obtain ⟨n, hread⟩ := @Msg.deserialize_bytes (FactoryMsg.new now msg.type).toMsg msg
    (FactoryMsg.type_new now msg.type) more
  rw [readMsg, headerOf_bytes, FactoryMsg.id_toMsg, Messages.create, MsgType.ofId_id]
  simp only [Option.map_some, hread, Fault.ok_bind, Fault.pure_eq_ok]

variable {chunks : List (Chunk Byte)}

theorem chunks_ne_nil (hcut : Chunk.join chunks = msg.bytes) : chunks ≠ [] := by
  rintro rfl
  have hlen := congrArg List.length hcut
  rw [FactoryMsg.length_bytes] at hlen
  exact msg.type.length_ne_zero hlen.symm

theorem rest_ne_nil {k : Nat} (hk : k < chunks.length) : Chunk.join (chunks.drop k) ≠ [] := by
  intro hnil
  have hsplit := Chunk.upTo_append_join_drop chunks k
  rw [hnil, List.append_nil] at hsplit
  exact absurd (Chunk.length_upTo_lt chunks hk) (by rw [hsplit]; exact Nat.lt_irrefl _)

/-- A reader that is ready for exactly the messages that are complete takes a
message off the front of the chunks. -/
theorem waitUntil_bytes (now : UInt64) {ready : List Byte → Bool}
    (hready : ∀ more, ready (msg.bytes ++ more) = true)
    (hnot : ∀ {received rest}, received ++ rest = msg.bytes → rest ≠ [] → ready received = false)
    (hcut : Chunk.join chunks = msg.bytes) (more : List (Chunk Byte)) :
    waitUntil now ready [] (chunks ++ more) = .ok (.returned (some msg.toMsg) (socket more)) := by
  have hlast : ready (Chunk.join chunks) = true := by
    simpa only [hcut, List.append_nil] using hready []
  have hbefore : ∀ k < chunks.length, ready (Chunk.upTo chunks k) = false := by
    intro k hk
    exact hnot ((Chunk.upTo_append_join_drop chunks k).trans hcut) (rest_ne_nil hk)
  rw [waitUntil, Chunk.readUntil_join (chunks_ne_nil hcut) more hlast hbefore]
  have hread := readMsg_bytes now msg []
  rw [List.append_nil] at hread
  simp only [hcut, hread, Fault.ok_bind, Fault.pure_eq_ok]

theorem asyncWaitForMsg_bytes (now : UInt64) (hcut : Chunk.join chunks = msg.bytes)
    (more : List (Chunk Byte)) :
    TcpSession.asyncWaitForMsg now (socket (chunks ++ more)) =
      .ok (.returned (some msg.toMsg) (socket more)) := by
  rw [TcpSession.asyncWaitForMsg_spec]
  exact waitUntil_bytes now (matchReady_bytes msg) not_matchReady_of_append hcut more

theorem waitForMsg_bytes (now : UInt64) (hcut : Chunk.join chunks = msg.bytes)
    (more : List (Chunk Byte)) :
    TcpSession.waitForMsg now (socket (chunks ++ more)) =
      .ok (.returned (some msg.toMsg) (socket more)) := by
  rw [TcpSession.waitForMsg_spec]
  exact waitUntil_bytes now (waitReady_bytes msg) not_waitReady_of_append hcut more

end FactoryMsg

/-- Whatever message of the factory is serialized, and however its bytes are cut:
the matcher reports a match at the last chunk and at no other, and has the
message then; and the loop returns the message behind the last chunk. -/
theorem received_intact (now : UInt64) (msg : FactoryMsg) (chunks : List (Chunk Byte))
    (hcut : msg.toMsg.serialize = .ok (Chunk.join chunks)) :
    (∃ matcher, (TcpMsgMatch.create now).feed now chunks =
        .ok (List.replicate (chunks.length - 1) false ++ [true], matcher) ∧
      matcher.getMsg = some msg.toMsg) ∧
    ∀ more, TcpSession.waitForMsg now (socket (chunks ++ more)) =
      .ok (.returned (some msg.toMsg) (socket more)) := by
  rw [FactoryMsg.serialize_toMsg, Except.ok.injEq] at hcut
  refine ⟨?_, waitForMsg_bytes now hcut.symm⟩
  have hne := chunks_ne_nil hcut.symm
  have hlast : matchReady (Chunk.join chunks) = true := by
    simpa only [hcut, List.append_nil] using matchReady_bytes msg []
  obtain ⟨matcher, hfeed, hmsg⟩ :=
    TcpMsgMatch.feed_spec now (TcpMsgMatch.received_create now) chunks
  simp only [List.nil_append] at hfeed hmsg
  refine ⟨matcher, ?_, ?_⟩
  · obtain ⟨n, hn⟩ := Nat.exists_eq_succ_of_ne_zero (List.length_pos_iff.mpr hne).ne'
    rw [hfeed, hn, List.range_succ, List.map_append, Nat.succ_sub_one]
    congr 3
    · refine List.eq_replicate_iff.mpr ⟨by simp, fun found hfound => ?_⟩
      obtain ⟨k, hk, rfl⟩ := List.mem_map.mp hfound
      have hk' : k + 1 < chunks.length := by
        rw [hn]
        exact Nat.succ_lt_succ (List.mem_range.mp hk)
      exact not_matchReady_of_append ((Chunk.upTo_append_join_drop chunks _).trans hcut.symm)
        (rest_ne_nil hk')
    · rw [List.map_cons, List.map_nil, ← Nat.succ_eq_add_one, ← hn, Chunk.upTo_length, hlast]
  · have hread := readMsg_bytes now msg []
    rw [List.append_nil, hcut, hmsg hne hlast] at hread
    exact Except.ok.inj hread

/-- A route response, cut inside its header. -/
def cutResponse : FactoryMsg × List (Chunk Byte) :=
  let msg : FactoryMsg := ⟨1700000000, 0, .routeResponse ⟨9⟩⟩
  (msg, [⟨msg.bytes.take 5, by decide⟩, ⟨msg.bytes.drop 5, by decide⟩])

theorem received_intact_cutResponse :
    (∃ matcher, (TcpMsgMatch.create 0).feed 0 cutResponse.2 = .ok ([false, true], matcher) ∧
      matcher.getMsg = some cutResponse.1.toMsg) ∧
    ∀ more, TcpSession.waitForMsg 0 (socket (cutResponse.2 ++ more)) =
      .ok (.returned (some cutResponse.1.toMsg) (socket more)) :=
  received_intact 0 cutResponse.1 cutResponse.2 (by decide)

/-! ## The two paths -/

/-- The wait ended with this message, and with these reads left. -/
def Delivers (result : Except Fault Wait) (msg : Msg) (rest : List Read) : Prop :=
  result = .ok (.returned (some msg) rest)

/-- There is no message, but no fault either. -/
def DeliversNothing (result : Except Fault Wait) : Prop :=
  result = .ok .blocked ∨ ∃ rest, result = .ok (.returned none rest)

/-- Both paths finish at the same chunk with equal messages, or neither delivers
a message. -/
def SameReception (now : UInt64) (chunks : List (Chunk Byte)) : Prop :=
  (∃ msg rest, Delivers (TcpSession.asyncWaitForMsg now (socket chunks)) msg rest ∧
      Delivers (TcpSession.waitForMsg now (socket chunks)) msg rest) ∨
    (DeliversNothing (TcpSession.asyncWaitForMsg now (socket chunks)) ∧
      DeliversNothing (TcpSession.waitForMsg now (socket chunks)))

/-- At every boundary behind a header with a known id, the bytes suffice for the
class exactly if they suffice for the length written in the header. -/
def LengthsAgree (chunks : List (Chunk Byte)) : Prop :=
  ∀ k < chunks.length, MSG_HEADER_SIZE ≤ (Chunk.upTo chunks (k + 1)).length →
    ∀ type, MsgType.ofId (headerOf (Chunk.upTo chunks (k + 1))).id = some type →
      (type.length ≤ (Chunk.upTo chunks (k + 1)).length ↔
        (headerOf (Chunk.upTo chunks (k + 1))).length.toNat ≤ (Chunk.upTo chunks (k + 1)).length)

/-- Two boundaries behind the header see the same header. -/
theorem headerOf_upTo_eq {chunks : List (Chunk Byte)} {j k : Nat}
    (hj : MSG_HEADER_SIZE ≤ (Chunk.upTo chunks j).length)
    (hk : MSG_HEADER_SIZE ≤ (Chunk.upTo chunks k).length) :
    headerOf (Chunk.upTo chunks j) = headerOf (Chunk.upTo chunks k) := by
  rcases Nat.le_total j k with hle | hle
  · obtain ⟨more, hmore⟩ := Chunk.exists_upTo_eq_append chunks hle
    rw [hmore, headerOf_append hj]
  · obtain ⟨more, hmore⟩ := Chunk.exists_upTo_eq_append chunks hle
    rw [hmore, headerOf_append hk]

/-- Behind a header with a known id, the two readers are ready together exactly
when the lengths agree. -/
theorem ready_eq_iff {received : List Byte} (hheader : MSG_HEADER_SIZE ≤ received.length)
    {type : MsgType} (htype : MsgType.ofId (headerOf received).id = some type) :
    matchReady received = waitReady received ↔
      (type.length ≤ received.length ↔ (headerOf received).length.toNat ≤ received.length) := by
  rw [Bool.eq_iff_iff, matchReady_iff, waitReady_iff]
  simp only [hheader, true_and, htype, Option.some.injEq, exists_eq_left']

theorem ready_eq_of_no_header {received : List Byte}
    (hheader : ¬ MSG_HEADER_SIZE ≤ received.length) : matchReady received = waitReady received := by
  simp [matchReady, waitReady, hheader]

section TwoPaths

variable {now : UInt64} {chunks : List (Chunk Byte)}

/-- What a reader that is ready for complete messages only can deliver. -/
theorem waitUntil_matchReady_cases (now : UInt64) (chunks : List (Chunk Byte)) :
    (Chunk.readUntil matchReady [] chunks = none ∧
        waitUntil now matchReady [] chunks = .ok .blocked) ∨
      ∃ received rest msg, Chunk.readUntil matchReady [] chunks = some (received, rest) ∧
        waitUntil now matchReady [] chunks = .ok (.returned (some msg) (socket rest)) := by
  cases hread : Chunk.readUntil matchReady [] chunks with
  | none => exact Or.inl ⟨rfl, by rw [waitUntil, hread]⟩
  | some result =>
      obtain ⟨received, rest⟩ := result
      obtain ⟨msg, hmsg⟩ := readMsg_of_matchReady now (Chunk.readUntil_append_join hread).1
      refine Or.inr ⟨received, rest, msg, rfl, ?_⟩
      rw [waitUntil, hread]
      simp only [hmsg, Fault.ok_bind, Fault.pure_eq_ok]

/-- A header with a known id leads to a message or to a fault. -/
theorem readMsg_ne_none {received : List Byte} {type : MsgType}
    (htype : MsgType.ofId (headerOf received).id = some type) :
    readMsg now received ≠ .ok none := by
  simp only [readMsg, Messages.create, htype, Option.map_some]
  cases (FactoryMsg.new now type).toMsg.deserialize received <;>
    simp only [Fault.ok_bind, Fault.error_bind, Fault.pure_eq_ok] <;> simp

/-- Where a known id has come, a reader that delivers nothing has not stopped:
stopping leads to a message or to a fault. -/
theorem readUntil_of_deliversNothing {ready : List Byte → Bool}
    (hready : ∀ received, ready received = true → MSG_HEADER_SIZE ≤ received.length)
    {k : Nat} (hheader : MSG_HEADER_SIZE ≤ (Chunk.upTo chunks k).length) {type : MsgType}
    (htype : MsgType.ofId (headerOf (Chunk.upTo chunks k)).id = some type)
    (h : DeliversNothing (waitUntil now ready [] chunks)) :
    Chunk.readUntil ready [] chunks = none := by
  rcases Chunk.readUntil_cases ready [] chunks with ⟨hnone, -⟩ | ⟨j, -, hsome, hat, -⟩
  · exact hnone
  · rw [List.nil_append] at hsome hat
    have htype' : MsgType.ofId (headerOf (Chunk.upTo chunks (j + 1))).id = some type := by
      rw [headerOf_upTo_eq (hready _ hat) hheader, htype]
    rcases h with hblocked | ⟨rest, hnull⟩
    · rw [waitUntil, hsome] at hblocked
      obtain ⟨msg, -, hreturn⟩ := Fault.bind_eq_ok.mp hblocked
      cases hreturn
    · obtain ⟨bytes, later, hread, hmsg, -⟩ := waitUntil_eq_returned.mp hnull
      rw [hsome] at hread
      obtain ⟨rfl, rfl⟩ := Prod.mk.inj (Option.some.inj hread)
      exact absurd hmsg (readMsg_ne_none htype')

/-- Where the paths receive the same, they stop at the same chunk, if the id is
known at all. -/
theorem readUntil_eq_of_sameReception (h : SameReception now chunks) {k : Nat}
    (hheader : MSG_HEADER_SIZE ≤ (Chunk.upTo chunks k).length) {type : MsgType}
    (htype : MsgType.ofId (headerOf (Chunk.upTo chunks k)).id = some type) :
    Chunk.readUntil matchReady [] chunks = Chunk.readUntil waitReady [] chunks := by
  rw [SameReception, TcpSession.asyncWaitForMsg_spec, TcpSession.waitForMsg_spec] at h
  rcases h with ⟨msg, rest, hasync, hwait⟩ | ⟨hasync, hwait⟩
  · -- both deliver, with the same reads left
    obtain ⟨bytes, later, hread, -, rfl⟩ := waitUntil_eq_returned.mp hasync
    obtain ⟨bytes', later', hread', -, hsame⟩ := waitUntil_eq_returned.mp hwait
    obtain rfl := socket_injective hsame
    have happend := (Chunk.readUntil_append_join hread).2
    rw [← (Chunk.readUntil_append_join hread').2] at happend
    rw [hread, hread', List.append_cancel_right happend]
  · rw [readUntil_of_deliversNothing (fun _ hat => (matchReady_iff.mp hat).1) hheader htype hasync,
      readUntil_of_deliversNothing (fun _ hat => (waitReady_iff.mp hat).1) hheader htype hwait]

/-- Where the lengths agree, the paths stop at the same chunk, if the id is known. -/
theorem readUntil_eq_of_lengthsAgree (h : LengthsAgree chunks) {k : Nat}
    (hheader : MSG_HEADER_SIZE ≤ (Chunk.upTo chunks k).length) {type : MsgType}
    (htype : MsgType.ofId (headerOf (Chunk.upTo chunks k)).id = some type) :
    Chunk.readUntil matchReady [] chunks = Chunk.readUntil waitReady [] chunks := by
  rw [Chunk.readUntil_eq_iff matchReady_stays waitReady_stays]
  intro j hj
  by_cases hheader' : MSG_HEADER_SIZE ≤ (Chunk.upTo chunks (j + 1)).length
  · have htype' : MsgType.ofId (headerOf (Chunk.upTo chunks (j + 1))).id = some type := by
      rw [headerOf_upTo_eq hheader' hheader, htype]
    exact (ready_eq_iff hheader' htype').mpr (h j hj hheader' type htype')
  · exact ready_eq_of_no_header hheader'

/-- Paths that stop at the same chunk receive the same. -/
theorem sameReception_of_readUntil_eq
    (h : Chunk.readUntil matchReady [] chunks = Chunk.readUntil waitReady [] chunks) :
    SameReception now chunks := by
  have hsame : waitUntil now waitReady [] chunks = waitUntil now matchReady [] chunks := by
    rw [waitUntil, waitUntil, h]
  rw [SameReception, TcpSession.asyncWaitForMsg_spec, TcpSession.waitForMsg_spec, hsame]
  rcases waitUntil_matchReady_cases now chunks with ⟨-, hblocked⟩ | ⟨_, rest, msg, -, hmsg⟩
  · exact Or.inr ⟨Or.inl hblocked, Or.inl hblocked⟩
  · exact Or.inl ⟨msg, socket rest, hmsg, hmsg⟩

/-- Where no id is known no object is ever created, and nothing is delivered. -/
theorem sameReception_of_unknown (now : UInt64)
    (h : ∀ k < chunks.length, MSG_HEADER_SIZE ≤ (Chunk.upTo chunks (k + 1)).length →
      MsgType.ofId (headerOf (Chunk.upTo chunks (k + 1))).id = none) :
    SameReception now chunks := by
  rw [SameReception, TcpSession.asyncWaitForMsg_spec, TcpSession.waitForMsg_spec]
  have hmatch := Chunk.readUntil_cases matchReady [] chunks
  have hwait := Chunk.readUntil_cases waitReady [] chunks
  simp only [List.nil_append] at hmatch hwait
  refine Or.inr ⟨Or.inl ?_, ?_⟩
  · rcases hmatch with ⟨hnone, -⟩ | ⟨k, hk, -, hat, -⟩
    · rw [waitUntil, hnone]
    · obtain ⟨hheader, type, htype, -⟩ := matchReady_iff.mp hat
      rw [h k hk hheader] at htype
      cases htype
  · rcases hwait with ⟨hnone, -⟩ | ⟨k, hk, hsome, hat, -⟩
    · exact Or.inl (by rw [waitUntil, hnone])
    · have hid := h k hk (waitReady_iff.mp hat).1
      refine Or.inr ⟨_, waitUntil_eq_returned.mpr ⟨_, _, hsome, ?_, rfl⟩⟩
      simp only [readMsg, Messages.create, hid, Option.map_none]

/-- On every stream and every cutting of it, the two paths receive the same
exactly when, at every boundary behind a header with a known id, the length
written there and the length of the class are both reached or both not. -/
theorem sameReception_iff_lengthsAgree (now : UInt64) (chunks : List (Chunk Byte)) :
    SameReception now chunks ↔ LengthsAgree chunks := by
  apply Iff.intro
  · intro h k hk hheader type htype
    have heq := readUntil_eq_of_sameReception h hheader htype
    rw [← ready_eq_iff hheader htype]
    exact (Chunk.readUntil_eq_iff matchReady_stays waitReady_stays chunks).mp heq k hk
  · intro h
    by_cases hknown : ∃ k < chunks.length, MSG_HEADER_SIZE ≤ (Chunk.upTo chunks (k + 1)).length ∧
        ∃ type, MsgType.ofId (headerOf (Chunk.upTo chunks (k + 1))).id = some type
    · obtain ⟨k, -, hheader, type, htype⟩ := hknown
      exact sameReception_of_readUntil_eq (readUntil_eq_of_lengthsAgree h hheader htype)
    · refine sameReception_of_unknown now fun k hk hheader => ?_
      by_contra hsome
      exact hknown ⟨k, hk, hheader, Option.ne_none_iff_exists'.mp hsome⟩

/-- A locations request whose header claims to be the whole message, sent in two
pieces: header first, body behind. -/
def shortRequest : List (Chunk Byte) :=
  [⟨MsgHeaderData.toBytes ⟨MSG_LOCATIONS_REQUEST_ID, 0, 24, 0⟩, by decide⟩,
    ⟨MsgLocationsRequestData.toBytes ⟨0⟩, by decide⟩]

/-- The loop stops behind the header and copies a body that is not there; the
matcher waits for the body and delivers the request. -/
theorem not_sameReception_shortRequest : ¬ SameReception 0 shortRequest := by
  have hlater : TcpSession.waitForMsg 0 (socket shortRequest) = .error .readOutOfBounds := by rfl
  rintro (⟨msg, rest, -, hdelivers⟩ | ⟨-, hnothing⟩)
  · rw [Delivers, hlater] at hdelivers
    cases hdelivers
  · rw [DeliversNothing, hlater] at hnothing
    simp at hnothing

end TwoPaths

end RoutePlanner.Comms
