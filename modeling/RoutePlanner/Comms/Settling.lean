/-
# Which streams the receivers settle on

No message is longer than `MaxLength`, so that many bytes should be enough to take
a message or to refuse the stream.  The one receiver waits for the length that the
peer has written, the other for an id that the factory knows, and neither looks at
what the other one does.
-/

import RoutePlanner.Comms.TcpSession

namespace RoutePlanner.Comms

open RoutePlanner.Std
open RoutePlanner.Messages

/-- Whatever is ready once stays ready, so a reader still waits exactly if all that
has arrived is not ready. -/
theorem waitUntil_eq_blocked_iff {now : UInt64} {ready : List Byte → Bool}
    (hstays : Chunk.Stays ready) {chunks : List (Chunk Byte)} (hne : chunks ≠ []) :
    waitUntil now ready [] chunks = .ok .blocked ↔ ready (Chunk.join chunks) = false := by
  have hpos : 0 < chunks.length := List.length_pos_iff.mpr hne
  rcases Chunk.readUntil_cases ready [] chunks with ⟨hnone, hall⟩ | ⟨k, hk, hsome, hat, -⟩
  · have hlast := hall (chunks.length - 1) (Nat.sub_lt hpos Nat.one_pos)
    rw [Nat.sub_add_cancel hpos, Chunk.upTo_length, List.nil_append] at hlast
    exact iff_of_true (by rw [waitUntil, hnone]) hlast
  · obtain ⟨more, hmore⟩ := Chunk.exists_upTo_eq_append chunks (Nat.succ_le_of_lt hk)
    rw [Chunk.upTo_length] at hmore
    rw [List.nil_append] at hat hsome
    have hready : ready (Chunk.join chunks) = true := hmore ▸ hstays _ more hat
    rw [hready, waitUntil, hsome]
    refine iff_of_false (fun hblocked => ?_) Bool.noConfusion
    obtain ⟨msg, -, hreturn⟩ := Fault.bind_eq_ok.mp hblocked
    cases hreturn

/-- Of at least as many bytes as any message has, the matcher asks only the id. -/
theorem matchReady_iff_of_maxLength_le {received : List Byte} (h : maxLength ≤ received.length) :
    matchReady received = true ↔
      ∃ type, MsgType.ofId (headerOf received).id = some type := by
  have hheader : MSG_HEADER_SIZE ≤ received.length := (Nat.le_add_right _ _).trans h
  rw [matchReady_iff, and_iff_right hheader]
  exact exists_congr fun type => and_iff_left (type.length_le_maxLength.trans h)

namespace TcpSession

variable (now : UInt64)

/-- By the time that the bytes of a stream reach `MaxLength`, `WaitForMsg` has left
its loop and the matcher has matched. -/
def Settles (chunks : List (Chunk Byte)) : Prop :=
  ∀ k ≤ chunks.length, maxLength ≤ (Chunk.upTo chunks k).length →
    waitForMsg now (socket (chunks.take k)) ≠ .ok .blocked ∧
      ∃ msg rest, asyncWaitForMsg now (socket (chunks.take k)) = .ok (.returned msg rest)

variable {now}

theorem ne_nil_of_maxLength_le {chunks : List (Chunk Byte)}
    (hmax : maxLength ≤ (Chunk.join chunks).length) : chunks ≠ [] := by
  rintro rfl
  exact absurd hmax (by decide)

/-- From `MaxLength` bytes on, `WaitForMsg` is in its loop exactly if the length that
it was sent is longer than what has arrived. -/
theorem waitForMsg_eq_blocked_iff {chunks : List (Chunk Byte)}
    (hmax : maxLength ≤ (Chunk.join chunks).length) :
    waitForMsg now (socket chunks) = .ok .blocked ↔
      (Chunk.join chunks).length < (headerOf (Chunk.join chunks)).length.toNat := by
  have hheader : MSG_HEADER_SIZE ≤ (Chunk.join chunks).length := (Nat.le_add_right _ _).trans hmax
  have hne := ne_nil_of_maxLength_le hmax
  rw [waitForMsg_spec, waitUntil_eq_blocked_iff waitReady_stays hne, ← Bool.not_eq_true,
    waitReady_iff, and_iff_right hheader, Nat.not_le]

/-- From there on the matcher has matched exactly if it was sent a known id. -/
theorem asyncWaitForMsg_returns_iff {chunks : List (Chunk Byte)}
    (hmax : maxLength ≤ (Chunk.join chunks).length) :
    (∃ msg rest, asyncWaitForMsg now (socket chunks) = .ok (.returned msg rest)) ↔
      ∃ type, MsgType.ofId (headerOf (Chunk.join chunks)).id = some type := by
  have hne := ne_nil_of_maxLength_le hmax
  rw [← matchReady_iff_of_maxLength_le hmax, asyncWaitForMsg_spec]
  apply Iff.intro
  · rintro ⟨msg, rest, hreturned⟩
    by_contra hready
    rw [(waitUntil_eq_blocked_iff matchReady_stays hne).mpr (by simpa using hready)] at hreturned
    cases hreturned
  · intro hready
    rcases Chunk.readUntil_cases matchReady [] chunks with ⟨hnone, -⟩ | ⟨k, -, hsome, hat, -⟩
    · have hblocked : waitUntil now matchReady [] chunks = .ok .blocked := by
        rw [waitUntil, hnone]
      rw [waitUntil_eq_blocked_iff matchReady_stays hne, hready] at hblocked
      exact Bool.noConfusion hblocked
    · obtain ⟨msg, hread⟩ := readMsg_of_matchReady now hat
      exact ⟨some msg, _, by rw [waitUntil, hsome]; simp only [hread, Fault.ok_bind]; rfl⟩

/-- However a stream is cut, the receivers settle on it exactly when, wherever at
least `MaxLength` bytes have arrived, the header has a known id and a length that is
not above the number of these bytes. -/
theorem settles_iff (now : UInt64) (chunks : List (Chunk Byte)) :
    Settles now chunks ↔ ∀ k ≤ chunks.length, maxLength ≤ (Chunk.upTo chunks k).length →
      (headerOf (Chunk.upTo chunks k)).length.toNat ≤ (Chunk.upTo chunks k).length ∧
        ∃ type, MsgType.ofId (headerOf (Chunk.upTo chunks k)).id = some type := by
  refine forall₂_congr fun k _ => forall_congr' fun hmax => ?_
  rw [Chunk.upTo] at hmax ⊢
  rw [asyncWaitForMsg_returns_iff hmax, Ne, waitForMsg_eq_blocked_iff hmax, Nat.not_lt]

/-- A header, and as many zeros behind it as the largest message has. -/
def headerAndZeros (header : MsgHeaderData) : Chunk Byte :=
  ⟨header.toBytes ++ List.replicate MsgType.locationsResponse.bodyLength 0,
    List.append_ne_nil_of_right_ne_nil _ (List.cons_ne_nil _ _)⟩

theorem length_headerAndZeros (header : MsgHeaderData) :
    (headerAndZeros header).val.length = maxLength := by
  rw [headerAndZeros, List.length_append, MsgHeaderData.length_toBytes, List.length_replicate,
    maxLength]

theorem headerOf_headerAndZeros (header : MsgHeaderData) (more : List (Chunk Byte)) :
    headerOf (Chunk.join (headerAndZeros header :: more)) = header := by
  rw [Chunk.join_cons, headerAndZeros, List.append_assoc, headerOf,
    List.take_left' (MsgHeaderData.length_toBytes _), MsgHeaderData.ofBytes_toBytes]

theorem maxLength_le_headerAndZeros (header : MsgHeaderData) (more : List (Chunk Byte)) :
    maxLength ≤ (Chunk.join (headerAndZeros header :: more)).length := by
  rw [Chunk.join_cons, List.length_append, length_headerAndZeros]
  exact Nat.le_add_right _ _

/-- A header with an id that no class has. -/
def unknownHeader : MsgHeaderData := ⟨999, 0, 24, 0⟩

/-- A status request with a length that nobody will ever send. -/
def endlessHeader : MsgHeaderData := ⟨MSG_STATUS_REQUEST_ID, 0, UInt64.ofNat (2 ^ 63), 0⟩

theorem toNat_length_endlessHeader : endlessHeader.length.toNat = 2 ^ 63 :=
  UInt64.toNat_ofNat_of_lt' (by decide)

/-- In one read of `MaxLength` bytes: the matcher waits for the first message whatever
follows it, `WaitForMsg` for the second until as much has followed as its header says. -/
theorem not_settles_foreign_headers :
    (∀ header, (headerAndZeros header).val.length = maxLength) ∧
    (¬ Settles 0 [headerAndZeros unknownHeader] ∧
      ∀ more, asyncWaitForMsg 0 (socket (headerAndZeros unknownHeader :: more)) = .ok .blocked) ∧
    ¬ Settles 0 [headerAndZeros endlessHeader] ∧
      ∀ more, (Chunk.join (headerAndZeros endlessHeader :: more)).length < 2 ^ 63 →
        waitForMsg 0 (socket (headerAndZeros endlessHeader :: more)) = .ok .blocked := by
  refine ⟨length_headerAndZeros, ⟨fun hsettles => ?_, fun more => ?_⟩, fun hsettles => ?_,
    fun more hlt => ?_⟩
  · obtain ⟨-, hmatched⟩ := hsettles 1 (Nat.le_refl 1) (maxLength_le_headerAndZeros _ [])
    obtain ⟨type, htype⟩ := (asyncWaitForMsg_returns_iff (maxLength_le_headerAndZeros _ [])).mp
      hmatched
    rw [headerOf_headerAndZeros] at htype
    exact absurd htype nofun
  · rw [asyncWaitForMsg_spec, waitUntil_eq_blocked_iff matchReady_stays (List.cons_ne_nil _ _),
      ← Bool.not_eq_true, matchReady_iff_of_maxLength_le (maxLength_le_headerAndZeros _ more),
      headerOf_headerAndZeros]
    exact nofun
  · obtain ⟨hleft, -⟩ := hsettles 1 (Nat.le_refl 1) (maxLength_le_headerAndZeros _ [])
    refine hleft ((waitForMsg_eq_blocked_iff (maxLength_le_headerAndZeros _ [])).mpr ?_)
    rw [headerOf_headerAndZeros, toNat_length_endlessHeader, Chunk.join_cons, Chunk.join_nil,
      List.append_nil, length_headerAndZeros]
    decide
  · rw [waitForMsg_eq_blocked_iff (maxLength_le_headerAndZeros _ more), headerOf_headerAndZeros,
      toNat_length_endlessHeader]
    exact hlt

end TcpSession

end RoutePlanner.Comms
