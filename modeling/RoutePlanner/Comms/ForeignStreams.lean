/-
# Streams that no factory made

A peer can send any bytes.  What the receivers make of them depends on four
things in them: the id, the length field, how much of the body has arrived, and
what the body says about itself.  Here are a matcher that shows its message too
early, and a locations response that claims more characters than it has room for.
-/

import RoutePlanner.Comms.Reception
import RoutePlanner.Messages.Deserialize
import RoutePlanner.Messages.MsgLocations

namespace RoutePlanner.Comms

open RoutePlanner.Std
open RoutePlanner.Messages
open RoutePlanner.Math

/-! ## Messages before their body -/

/-- The header is complete and its id is one the factory knows. -/
def headerKnown (received : List Byte) : Bool :=
  MSG_HEADER_SIZE ≤ received.length && (MsgType.ofId (headerOf received).id).isSome

/-- The header is complete and its id known, but bytes that the class needs are
missing. -/
def BodyMissing (received : List Byte) : Prop :=
  MSG_HEADER_SIZE ≤ received.length ∧
    ∃ type, MsgType.ofId (headerOf received).id = some type ∧ received.length < type.length

theorem matchReady_eq_headerKnown_iff (received : List Byte) :
    headerKnown received = matchReady received ↔ ¬ BodyMissing received := by
  rw [headerKnown, matchReady, BodyMissing]
  by_cases hheader : MSG_HEADER_SIZE ≤ received.length
  · cases MsgType.ofId (headerOf received).id with
    | none => simp
    | some type => simp [hheader]
  · simp [hheader]

namespace TcpMsgMatch

/-- `ProcessBuffer` for one piece of data after the other, up to and including the
first call that reports a match: what each call reports, and what `GetMsg` gives
behind it. -/
def calls (now : UInt64) (matcher : TcpMsgMatch) :
    List (List Byte) → Except Fault (List (Bool × Option Msg))
  | [] => .ok []
  | data :: pieces => do
      let (result, matcher) ← matcher.processBuffer now data
      if result.found then return [(true, matcher.getMsg)]
      else
        let later ← calls now matcher pieces
        return (false, matcher.getMsg) :: later

/-- The matcher shows a message behind the call that found it, and none before. -/
def ShowsMatches (now : UInt64) (matcher : TcpMsgMatch) (pieces : List (List Byte)) : Prop :=
  ∃ log, calls now matcher pieces = .ok log ∧ ∀ call ∈ log, call.2.isSome = call.1

/-- The header is looked at again in every call behind its end. -/
theorem headerKnown_append (received data : List Byte) :
    headerKnown (received ++ data) = if MSG_HEADER_SIZE ≤ (received ++ data).length then
      (MsgType.ofId (headerOf (received ++ data)).id).isSome else headerKnown received := by
  split
  · rename_i hheader
    rw [headerKnown, decide_eq_true hheader, Bool.true_and]
  · rename_i hheader
    have hbefore : ¬ MSG_HEADER_SIZE ≤ received.length := by
      intro hle
      rw [List.length_append] at hheader
      exact hheader (hle.trans (Nat.le_add_right _ _))
    rw [headerKnown, headerKnown, decide_eq_false hheader, decide_eq_false hbefore,
      Bool.false_and, Bool.false_and]

/-- What was ready once misses nothing any more. -/
theorem not_bodyMissing_of_matchReady {received : List Byte} (h : matchReady received = true)
    (more : List Byte) : ¬ BodyMissing (received ++ more) := by
  obtain ⟨-, type, htype, hlen⟩ := matchReady_iff.mp (matchReady_stays received more h)
  rintro ⟨-, type', htype', hlt⟩
  rw [htype, Option.some.injEq] at htype'
  exact absurd (htype' ▸ hlen) (Nat.not_le_of_lt hlt)

/-- The first call shows what it should, and the later ones do if it found nothing. -/
theorem showsMatches_cons {now : UInt64} {matcher matcher' : TcpMsgMatch} {result : MatchResult}
    {data : List Byte} (hprocess : processBuffer now matcher data = .ok (result, matcher'))
    (pieces : List (List Byte)) :
    ShowsMatches now matcher (data :: pieces) ↔ matcher'.getMsg.isSome = result.found ∧
      (result.found = false → ShowsMatches now matcher' pieces) := by
  rw [ShowsMatches, calls, hprocess, Fault.ok_bind]
  cases hfound : result.found with
  | true => simp [hfound]
  | false =>
      simp only [hfound, Bool.false_eq_true, if_false, Fault.bind_eq_ok, Fault.pure_eq_ok,
        Except.ok.injEq, forall_const]
      apply Iff.intro
      · rintro ⟨_, ⟨later, hlater, rfl⟩, hshows⟩
        obtain ⟨hfirst, hrest⟩ := List.forall_mem_cons.mp hshows
        exact ⟨hfirst, later, hlater, hrest⟩
      · rintro ⟨hfirst, later, hlater, hrest⟩
        exact ⟨_, ⟨later, hlater, rfl⟩, List.forall_mem_cons.mpr ⟨hfirst, hrest⟩⟩

theorem showsMatches_iff (now : UInt64) {matcher : TcpMsgMatch} {received : List Byte}
    (h : Received matcher received) (hshown : matcher.getMsg.isSome = headerKnown received)
    (pieces : List (List Byte)) :
    ShowsMatches now matcher pieces ↔
      ∀ k < pieces.length, ¬ BodyMissing (received ++ (pieces.take (k + 1)).flatten) := by
  induction pieces generalizing matcher received with
  | nil =>
      refine iff_of_true ⟨[], rfl, fun call hcall => absurd hcall (List.not_mem_nil)⟩ ?_
      exact fun k hk => absurd hk (Nat.not_lt_zero k)
  | cons data pieces ih =>
      obtain ⟨matcher', hprocess, h', -, hshown'⟩ := processBuffer_spec now h data
      rw [hshown, ← headerKnown_append] at hshown'
      have hflatten : ∀ k, received ++ ((data :: pieces).take (k + 1)).flatten =
          received ++ data ++ (pieces.take k).flatten := by
        intro k
        rw [List.take_succ_cons, List.flatten_cons, List.append_assoc]
      simp only [hflatten]
      rw [showsMatches_cons hprocess, List.length_cons, Nat.forall_lt_succ_left]
      apply and_congr
      · rw [hshown', matchReady_eq_headerKnown_iff, List.take_zero, List.flatten_nil,
          List.append_nil]
      · cases hready : matchReady (received ++ data) with
        | true =>
            -- the call finds the message, and from here on nothing is missing
            exact iff_of_true nofun fun k _ => not_bodyMissing_of_matchReady hready _
        | false =>
            rw [forall_prop_of_true rfl]
            exact ih h' hshown'

/-- However a stream is cut, `GetMsg` follows the reports exactly when no call ends
behind a known header and before the end of its body. -/
theorem getMsg_follows_reports_iff (now : UInt64) (pieces : List (List Byte)) :
    ShowsMatches now (create now) pieces ↔
      ∀ k < pieces.length, ¬ BodyMissing (pieces.take (k + 1)).flatten := by
  have h := showsMatches_iff now (received_create now) rfl pieces
  simpa only [List.nil_append] using h

/-- A locations request, its header first and its body behind. -/
def headerFirst : List (List Byte) :=
  let msg := FactoryMsg.new 0 .locationsRequest
  [msg.toMsg.header.toBytes, msg.body.toBytes]

/-- Behind the first call there is a message, although that call reports none. -/
theorem not_showsMatches_headerFirst : ¬ ShowsMatches 0 (create 0) headerFirst := by
  have hcalls : (calls 0 (create 0) headerFirst).map (·.map fun call => (call.1, call.2.isSome)) =
      .ok [(false, true), (true, true)] := by
    decide +kernel
  rintro ⟨log, hlog, hshows⟩
  rw [hlog] at hcalls
  cases log with
  | nil => simp [Except.map] at hcalls
  | cons call later =>
      have hcall := hshows call List.mem_cons_self
      simp only [Except.map, List.map_cons, Except.ok.injEq, List.cons.injEq,
        Prod.mk.injEq] at hcalls
      rw [hcalls.1.1, hcalls.1.2] at hcall
      cases hcall

end TcpMsgMatch

/-! ## Locations responses -/

/-- The length field lets the body be copied. -/
def CopiesBody (received : List Byte) : Prop :=
  (headerOf received).length ≠ 0 ∧ (headerOf received).length.toNat ≤ received.length

/-- What a received message is: an object of the class of its id, with the header
received, and with the body received unless the length field is against it. -/
theorem readMsg_eq_some {now : UInt64} {received : List Byte} {msg : Msg}
    (hheader : MSG_HEADER_SIZE ≤ received.length) (hread : readMsg now received = .ok (some msg)) :
    ∃ type, MsgType.ofId (headerOf received).id = some type ∧ msg.header = headerOf received ∧
      ((CopiesBody received ∧ msg.body = bodyOf type received) ∨
        (¬ CopiesBody received ∧ msg.body = .initial type)) := by
  rw [readMsg, Messages.create] at hread
  cases htype : MsgType.ofId (headerOf received).id with
  | none => simp [htype] at hread
  | some type =>
      refine ⟨type, rfl, ?_⟩
      simp only [htype, Option.map_some] at hread
      obtain ⟨⟨n, msg'⟩, hdeserialize, hreturn⟩ := Fault.bind_eq_ok.mp hread
      simp only [Fault.pure_eq_ok, Except.ok.injEq, Option.some.injEq] at hreturn
      obtain rfl := hreturn
      have hnew : (FactoryMsg.new now type).toMsg.type = type := FactoryMsg.type_new now type
      by_cases hcopies : CopiesBody received
      · by_cases hbody : type.bodyLength = 0
        · rw [Msg.deserialize_of_no_body (by rwa [hnew]) hheader, Except.ok.injEq,
            Prod.mk.injEq] at hdeserialize
          obtain ⟨-, rfl⟩ := hdeserialize
          refine ⟨rfl, Or.inl ⟨hcopies, MsgBody.eq_of_no_body ?_ ?_⟩⟩
          · exact hnew.trans (MsgBody.type_ofBytes _ _).symm
          · show (FactoryMsg.new now type).toMsg.type.bodyLength = 0
            rwa [hnew]
        · rw [Msg.deserialize_of_copy (by rwa [hnew]) hheader hcopies.1 hcopies.2, hnew]
            at hdeserialize
          split at hdeserialize
          · cases hdeserialize
          · simp only [Except.ok.injEq, Prod.mk.injEq] at hdeserialize
            obtain ⟨-, rfl⟩ := hdeserialize
            exact ⟨rfl, Or.inl ⟨hcopies, rfl⟩⟩
      · rw [Msg.deserialize_of_no_copy hheader fun h => hcopies ⟨h.1, h.2.1⟩, Except.ok.injEq,
          Prod.mk.injEq] at hdeserialize
        obtain ⟨-, rfl⟩ := hdeserialize
        exact ⟨rfl, Or.inr ⟨hcopies, rfl⟩⟩

/-- A received message is an object of the class of its id. -/
theorem id_of_readMsg {now : UInt64} {received : List Byte} {msg : Msg}
    (hheader : MSG_HEADER_SIZE ≤ received.length) (hread : readMsg now received = .ok (some msg)) :
    msg.header.id = msg.type.id := by
  obtain ⟨type, htype, hsame, hbody⟩ := readMsg_eq_some hheader hread
  have hclass : msg.type = type := by
    rcases hbody with ⟨-, hbody⟩ | ⟨-, hbody⟩ <;> rw [Msg.type, hbody]
    · exact MsgBody.type_ofBytes _ _
    · exact MsgBody.type_initial type
  rw [hsame, hclass, MsgType.id_of_ofId htype]

/-- The id is known, and a body that is copied is there. -/
def Receivable (received : List Byte) : Prop :=
  ∃ type, MsgType.ofId (headerOf received).id = some type ∧
    (CopiesBody received → type.length ≤ received.length)

/-- A message is made of exactly these bytes. -/
theorem exists_readMsg_iff (now : UInt64) {received : List Byte}
    (hheader : MSG_HEADER_SIZE ≤ received.length) :
    (∃ msg, readMsg now received = .ok (some msg)) ↔ Receivable received := by
  rw [Receivable]
  cases htype : MsgType.ofId (headerOf received).id with
  | none => simp [readMsg, Messages.create, htype]
  | some type =>
      have hnew : (FactoryMsg.new now type).toMsg.type = type := FactoryMsg.type_new now type
      have hread : (∃ msg, readMsg now received = .ok (some msg)) ↔
          ∃ n msg, (FactoryMsg.new now type).toMsg.deserialize received = .ok (n, msg) := by
        simp only [readMsg, Messages.create, htype, Option.map_some, Fault.bind_eq_ok,
          Fault.pure_eq_ok, Except.ok.injEq, Option.some.injEq, Prod.exists, exists_eq_right]
        exact exists_comm
      rw [hread]
      simp only [Option.some.injEq, exists_eq_left']
      by_cases hbody : type.bodyLength = 0
      · rw [Msg.deserialize_of_no_body (by rwa [hnew]) hheader]
        refine iff_of_true ⟨_, _, rfl⟩ fun _ => ?_
        rwa [MsgType.length, hbody]
      · by_cases hcopies : CopiesBody received
        · rw [Msg.deserialize_of_copy (by rwa [hnew]) hheader hcopies.1 hcopies.2, hnew]
          by_cases hshort : received.length < type.length
          · rw [if_pos hshort]
            apply iff_of_false
            · rintro ⟨_, _, hcopied⟩
              cases hcopied
            · exact fun hle => absurd (hle hcopies) (Nat.not_le_of_lt hshort)
          · rw [if_neg hshort]
            exact iff_of_true ⟨_, _, rfl⟩ fun _ => Nat.le_of_not_lt hshort
        · rw [Msg.deserialize_of_no_copy hheader fun h => hcopies ⟨h.1, h.2.1⟩]
          exact iff_of_true ⟨_, _, rfl⟩ fun hcopies' => absurd hcopies' hcopies

/-- One of the two paths takes these bytes, in some chunks and whatever follows them,
for this message. -/
def Accepts (now : UInt64) (received : List Byte) (msg : Msg) : Prop :=
  ∃ chunks rest, Chunk.join chunks = received ∧
    (Delivers (TcpSession.asyncWaitForMsg now (socket (chunks ++ rest))) msg (socket rest) ∨
      Delivers (TcpSession.waitForMsg now (socket (chunks ++ rest))) msg (socket rest))

/-- A reader that is ready only behind a header delivers what `readMsg` makes of the
bytes it took. -/
theorem waitUntil_delivers {now : UInt64} {ready : List Byte → Bool}
    (hready : ∀ received, ready received = true → MSG_HEADER_SIZE ≤ received.length)
    {chunks rest : List (Chunk Byte)} {msg : Msg}
    (h : Delivers (waitUntil now ready [] (chunks ++ rest)) msg (socket rest)) :
    MSG_HEADER_SIZE ≤ (Chunk.join chunks).length ∧
      readMsg now (Chunk.join chunks) = .ok (some msg) := by
  obtain ⟨bytes, later, hread, hmsg, hrest⟩ := waitUntil_eq_returned.mp h
  obtain rfl := socket_injective hrest
  obtain ⟨hat, happend⟩ := Chunk.readUntil_append_join hread
  rw [List.nil_append, Chunk.join_append] at happend
  obtain rfl := List.append_cancel_right happend
  exact ⟨hready _ hat, hmsg⟩

theorem readMsg_of_accepts {now : UInt64} {received : List Byte} {msg : Msg}
    (h : Accepts now received msg) :
    MSG_HEADER_SIZE ≤ received.length ∧ readMsg now received = .ok (some msg) := by
  obtain ⟨chunks, rest, rfl, hasync | hwait⟩ := h
  · rw [TcpSession.asyncWaitForMsg_spec] at hasync
    exact waitUntil_delivers (fun received h => (matchReady_iff.mp h).1) hasync
  · rw [TcpSession.waitForMsg_spec] at hwait
    exact waitUntil_delivers (fun received h => (waitReady_iff.mp h).1) hwait

/-- The names a message lists are read inside its array, and they fit there together
with their separators. -/
def ListsInside (msg : Msg) : Prop :=
  ∃ data names, msg.getDerivedType .locationsResponse = some data ∧
    data.getLocations = .ok names ∧
    GreedyPages.total nameSize names ≤ MSG_LOCATIONS_MAX_CHARS

/-- The body received counts no more characters than there are, or it is not copied. -/
def CountFits (received : List Byte) : Prop :=
  CopiesBody received →
    (MsgLocationsResponseData.ofBytes ((received.drop MSG_HEADER_SIZE).take
      MsgType.locationsResponse.bodyLength)).charCount.toNat ≤ MSG_LOCATIONS_MAX_CHARS

/-- The names between separators take no more characters than the text they stand in. -/
theorem total_terminated_le (chars : Str) :
    GreedyPages.total nameSize (Text.terminated MSG_LOCATIONS_SEP_CHAR chars) ≤ chars.length := by
  induction chars using Text.delimInduction MSG_LOCATIONS_SEP_CHAR with
  | last chars h =>
      rw [Text.terminated, Text.tokens_of_not_mem _ h]
      exact Nat.zero_le _
  | step token rest h ih =>
      rw [Text.terminated] at ih
      rw [Text.terminated, Text.tokens_append _ h, GreedyPages.total_cons, nameSize,
        List.length_append, List.length_cons]
      omega

theorem listsInside_iff {msg : Msg} {data : MsgLocationsResponseData}
    (hbody : msg.body = .locationsResponse data) :
    ListsInside msg ↔ data.charCount.toNat ≤ MSG_LOCATIONS_MAX_CHARS := by
  have hdata : msg.getDerivedType .locationsResponse = some data := by
    rw [Msg.getDerivedType, hbody]
  apply Iff.intro
  · rintro ⟨data', names, hdata', hnames, -⟩
    rw [hdata, Option.some.injEq] at hdata'
    rw [← hdata', MsgLocationsResponseData.getLocations] at hnames
    by_contra hgt
    rw [if_neg hgt] at hnames
    cases hnames
  · intro hle
    refine ⟨data, _, hdata, by rw [MsgLocationsResponseData.getLocations, if_pos hle], ?_⟩
    calc GreedyPages.total nameSize (Text.terminated MSG_LOCATIONS_SEP_CHAR
          (data.locations.chars.take data.charCount.toNat))
        ≤ (data.locations.chars.take data.charCount.toNat).length := total_terminated_le _
      _ ≤ data.charCount.toNat := List.length_take_le _ _
      _ ≤ MSG_LOCATIONS_MAX_CHARS := hle

/-- The locations of a received locations response are read inside its array exactly
when the count in the body received fits, or the length field keeps the body from
being copied. -/
theorem received_listsInside_iff {now : UInt64} {received : List Byte} {msg : Msg}
    (h : Accepts now received msg) (hid : msg.header.id = MSG_LOCATIONS_RESPONSE_ID) :
    ListsInside msg ↔ CountFits received := by
  obtain ⟨hheader, hread⟩ := readMsg_of_accepts h
  obtain ⟨type, htype, hsame, hbody⟩ := readMsg_eq_some hheader hread
  have hclass : type = .locationsResponse := by
    rw [← hsame, hid] at htype
    exact Option.some.inj (htype.symm.trans (MsgType.ofId_id .locationsResponse))
  subst hclass
  rcases hbody with ⟨hcopies, hbody⟩ | ⟨hcopies, hbody⟩
  · rw [listsInside_iff hbody, CountFits]
    exact ⟨fun hle _ => hle, fun hfits => hfits hcopies⟩
  · rw [listsInside_iff hbody]
    exact iff_of_true (Nat.zero_le _) fun hcopies' => absurd hcopies' hcopies

/-- A locations response that counts one character more than it has. -/
def overlongResponse : FactoryMsg :=
  ⟨0, 0, .locationsResponse { MsgLocationsResponseData.create with charCount := 101 }⟩

theorem accepts_overlongResponse : Accepts 0 overlongResponse.bytes overlongResponse.toMsg := by
  refine ⟨[⟨overlongResponse.bytes, ?_⟩], [], ?_, Or.inr ?_⟩
  · exact List.ne_nil_of_length_pos (by rw [FactoryMsg.length_bytes]; decide)
  · rw [Chunk.join_cons, Chunk.join_nil, List.append_nil]
  · exact waitForMsg_bytes 0 (by rw [Chunk.join_cons, Chunk.join_nil, List.append_nil]) []

/-- It is accepted, and its locations are read behind the array. -/
theorem not_listsInside_overlongResponse :
    Accepts 0 overlongResponse.bytes overlongResponse.toMsg ∧
      overlongResponse.toMsg.header.id = MSG_LOCATIONS_RESPONSE_ID ∧
      ¬ ListsInside overlongResponse.toMsg := by
  refine ⟨accepts_overlongResponse, rfl, ?_⟩
  rw [@listsInside_iff overlongResponse.toMsg _ rfl]
  decide

theorem received_listsInside_iff_overlongResponse :
    ListsInside overlongResponse.toMsg ↔ CountFits overlongResponse.bytes :=
  received_listsInside_iff accepts_overlongResponse rfl

end RoutePlanner.Comms
