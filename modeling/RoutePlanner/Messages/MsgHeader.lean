/-
# Messages

Every message class derives from `MsgHeader` and adds at most a struct of data,
its body.  The header carries an id and a length as words of its own; nothing
ties them to the class.  Messages that the factory creates have the id and the
length of their class, whatever their setters do to the body afterwards.
-/

import RoutePlanner.Messages.MsgData
import RoutePlanner.Std.Fault

namespace RoutePlanner.Messages

open RoutePlanner.Std

/-- The message classes. -/
inductive MsgType
  | header
  | statusRequest
  | statusResponse
  | locationsRequest
  | locationsResponse
  | routeRequest
  | routeResponse
  deriving DecidableEq

def MSG_HEADER_ID : UInt32 := 100
def MSG_STATUS_REQUEST_ID : UInt32 := 101
def MSG_STATUS_RESPONSE_ID : UInt32 := 102
def MSG_LOCATIONS_REQUEST_ID : UInt32 := 103
def MSG_LOCATIONS_RESPONSE_ID : UInt32 := 104
def MSG_ROUTE_REQUEST_ID : UInt32 := 105
def MSG_ROUTE_RESPONSE_ID : UInt32 := 106

namespace MsgType

/-- The id the constructor of the class passes on. -/
def id : MsgType → UInt32
  | header => MSG_HEADER_ID
  | statusRequest => MSG_STATUS_REQUEST_ID
  | statusResponse => MSG_STATUS_RESPONSE_ID
  | locationsRequest => MSG_LOCATIONS_REQUEST_ID
  | locationsResponse => MSG_LOCATIONS_RESPONSE_ID
  | routeRequest => MSG_ROUTE_REQUEST_ID
  | routeResponse => MSG_ROUTE_RESPONSE_ID

/-- The switch of `MsgFactory::Create`. -/
def ofId (id : UInt32) : Option MsgType :=
  if id = MSG_HEADER_ID then some header
  else if id = MSG_STATUS_REQUEST_ID then some statusRequest
  else if id = MSG_STATUS_RESPONSE_ID then some statusResponse
  else if id = MSG_LOCATIONS_REQUEST_ID then some locationsRequest
  else if id = MSG_LOCATIONS_RESPONSE_ID then some locationsResponse
  else if id = MSG_ROUTE_REQUEST_ID then some routeRequest
  else if id = MSG_ROUTE_RESPONSE_ID then some routeResponse
  else none

/-- `m_body_length`; the classes without data have a null `m_body`. -/
def bodyLength : MsgType → Nat
  | header | statusRequest | statusResponse => 0
  | locationsRequest => 8
  | locationsResponse => 112
  | routeRequest => 16
  | routeResponse => 8

/-- The length the constructor of the class passes on. -/
def length (type : MsgType) : Nat := MSG_HEADER_SIZE + type.bodyLength

@[simp]
theorem ofId_id (type : MsgType) : ofId type.id = some type := by
  cases type <;> rfl

/-- No two classes have the same id. -/
theorem id_of_ofId {id : UInt32} {type : MsgType} (h : ofId id = some type) : id = type.id := by
  rw [ofId] at h
  split_ifs at h <;> obtain rfl := Option.some.inj h <;> assumption

theorem length_lt (type : MsgType) : type.length < 2 ^ 64 := by
  cases type <;> decide

theorem le_length (type : MsgType) : MSG_HEADER_SIZE ≤ type.length := Nat.le_add_right ..

theorem length_ne_zero (type : MsgType) : type.length ≠ 0 :=
  Nat.ne_of_gt (Nat.lt_of_lt_of_le (by decide) type.le_length)

end MsgType

/-- `MaxLength`: the header and the largest body. -/
def maxLength : Nat := MSG_HEADER_SIZE + MsgType.locationsResponse.bodyLength

theorem MsgType.length_le_maxLength (type : MsgType) : type.length ≤ maxLength := by
  cases type <;> decide

/-- The data of a message object. -/
inductive MsgBody
  | header
  | statusRequest
  | statusResponse
  | locationsRequest (data : MsgLocationsRequestData)
  | locationsResponse (data : MsgLocationsResponseData)
  | routeRequest (data : MsgRouteRequestData)
  | routeResponse (data : MsgRouteResponseData)
  deriving DecidableEq

/-- The data that objects of a class have. -/
abbrev MsgType.Data : MsgType → Type
  | .header | .statusRequest | .statusResponse => Unit
  | .locationsRequest => MsgLocationsRequestData
  | .locationsResponse => MsgLocationsResponseData
  | .routeRequest => MsgRouteRequestData
  | .routeResponse => MsgRouteResponseData

namespace MsgBody

def type : MsgBody → MsgType
  | header => .header
  | statusRequest => .statusRequest
  | statusResponse => .statusResponse
  | locationsRequest _ => .locationsRequest
  | locationsResponse _ => .locationsResponse
  | routeRequest _ => .routeRequest
  | routeResponse _ => .routeResponse

/-- The bytes behind `m_body`. -/
def toBytes : MsgBody → List Byte
  | header | statusRequest | statusResponse => []
  | locationsRequest data => data.toBytes
  | locationsResponse data => data.toBytes
  | routeRequest data => data.toBytes
  | routeResponse data => data.toBytes

/-- What `memcpy` to `m_body` makes of an object of the class. -/
def ofBytes : MsgType → List Byte → MsgBody
  | .header, _ => header
  | .statusRequest, _ => statusRequest
  | .statusResponse, _ => statusResponse
  | .locationsRequest, bytes => locationsRequest (.ofBytes bytes)
  | .locationsResponse, bytes => locationsResponse (.ofBytes bytes)
  | .routeRequest, bytes => routeRequest (.ofBytes bytes)
  | .routeResponse, bytes => routeResponse (.ofBytes bytes)

/-- The data the constructor of the class sets. -/
def initial : MsgType → MsgBody
  | .header => header
  | .statusRequest => statusRequest
  | .statusResponse => statusResponse
  | .locationsRequest => locationsRequest ⟨0⟩
  | .locationsResponse => locationsResponse .create
  | .routeRequest => routeRequest ⟨0, 1⟩
  | .routeResponse => routeResponse ⟨0⟩

@[simp]
theorem length_toBytes (body : MsgBody) : body.toBytes.length = body.type.bodyLength := by
  cases body <;> simp [toBytes, type, MsgType.bodyLength]

@[simp]
theorem type_initial (type : MsgType) : (initial type).type = type := by
  cases type <;> rfl

@[simp]
theorem type_ofBytes (type : MsgType) (bytes : List Byte) : (ofBytes type bytes).type = type := by
  cases type <;> rfl

@[simp]
theorem ofBytes_toBytes (body : MsgBody) : ofBytes body.type body.toBytes = body := by
  cases body <;> simp [toBytes, type, ofBytes]

/-- The objects of a class without data do not differ. -/
theorem eq_of_no_body {body body' : MsgBody} (htype : body.type = body'.type)
    (hbody : body.type.bodyLength = 0) : body = body' := by
  have hnil : ∀ b : MsgBody, b.type.bodyLength = 0 → ofBytes b.type [] = b := by
    intro b hb
    have hbytes : b.toBytes = [] := List.length_eq_zero_iff.mp (by rw [length_toBytes, hb])
    rw [← hbytes, ofBytes_toBytes]
  rw [← hnil body hbody, htype, hnil body' (htype ▸ hbody)]

end MsgBody

/-- What `memcpy` makes of the header. -/
def headerOf (received : List Byte) : MsgHeaderData :=
  .ofBytes (received.take MSG_HEADER_SIZE)

/-- A message object. -/
structure Msg where
  header : MsgHeaderData
  body : MsgBody
  deriving DecidableEq

namespace Msg

def type (msg : Msg) : MsgType := msg.body.type

/-- `DateString`.  The C library's `ctime` is a parameter; where it returns null, there
is nothing to make a string of. -/
def dateString (ctime : UInt64 → Option Str) (msg : Msg) : Except Fault Str := do
  let date ← Fault.nonNull (ctime msg.header.timestamp)
  return trimCopy date

/-- `GetDerivedType`: the data of an object of the class, or null. -/
def getDerivedType (msg : Msg) (type : MsgType) : Option type.Data :=
  match type, msg.body with
  | .header, _ => some ()
  | .statusRequest, .statusRequest => some ()
  | .statusResponse, .statusResponse => some ()
  | .locationsRequest, .locationsRequest data => some data
  | .locationsResponse, .locationsResponse data => some data
  | .routeRequest, .routeRequest data => some data
  | .routeResponse, .routeResponse data => some data
  | _, _ => none

/-- `Serialize`.  The buffer has the length the header says; what the two copies
do not reach stays zero. -/
def serialize (msg : Msg) : Except Fault (List Byte) :=
  if msg.header.length.toNat < msg.type.length then .error .writeOutOfBounds
  else .ok (msg.header.toBytes ++ (msg.body.toBytes ++
    List.replicate (msg.header.length.toNat - msg.type.length) 0))

/-- `Deserialize`: the number returned, and the message afterwards.  Whether the
body is copied depends on the length that was just read; how much is copied on
the class. -/
def deserialize (msg : Msg) (buffer : List Byte) : Except Fault (Nat × Msg) :=
  if buffer.length < MSG_HEADER_SIZE then .ok (0, msg)
  else
    let header := headerOf buffer
    if header.length ≠ 0 ∧ header.length.toNat ≤ buffer.length ∧ msg.type.bodyLength ≠ 0 then
      if buffer.length < msg.type.length then .error .readOutOfBounds
      else .ok (header.length.toNat, ⟨header,
        .ofBytes msg.type ((buffer.drop MSG_HEADER_SIZE).take msg.type.bodyLength)⟩)
    else .ok (MSG_HEADER_SIZE, { msg with header })

end Msg

/-! ## Messages of the factory -/

/-- A message as the factory creates it, with any timestamp and with any content
of its body.  The padding of the header is never written. -/
structure FactoryMsg where
  timestamp : UInt64
  padding : UInt32
  body : MsgBody
  deriving DecidableEq

namespace FactoryMsg

def type (msg : FactoryMsg) : MsgType := msg.body.type

def toMsg (msg : FactoryMsg) : Msg :=
  ⟨⟨msg.type.id, msg.padding, UInt64.ofNat msg.type.length, msg.timestamp⟩, msg.body⟩

/-- A message object that was just constructed. -/
def new (now : UInt64) (type : MsgType) : FactoryMsg := ⟨now, 0, .initial type⟩

@[simp]
theorem type_new (now : UInt64) (type : MsgType) : (new now type).type = type :=
  MsgBody.type_initial type

@[simp]
theorem type_toMsg (msg : FactoryMsg) : msg.toMsg.type = msg.type := rfl

@[simp]
theorem toNat_length (msg : FactoryMsg) : msg.toMsg.header.length.toNat = msg.type.length :=
  UInt64.toNat_ofNat_of_lt' msg.type.length_lt

@[simp]
theorem id_toMsg (msg : FactoryMsg) : msg.toMsg.header.id = msg.type.id := rfl

/-- The bytes that travel for a message of the factory. -/
def bytes (msg : FactoryMsg) : List Byte := msg.toMsg.header.toBytes ++ msg.body.toBytes

@[simp]
theorem length_bytes (msg : FactoryMsg) : msg.bytes.length = msg.type.length := by
  rw [bytes, List.length_append, MsgHeaderData.length_toBytes, MsgBody.length_toBytes]
  rfl

theorem serialize_toMsg (msg : FactoryMsg) : msg.toMsg.serialize = .ok msg.bytes := by
  rw [Msg.serialize, toNat_length, type_toMsg, if_neg (Nat.lt_irrefl _), Nat.sub_self,
    List.replicate_zero, List.append_nil, bytes]
  rfl

end FactoryMsg

/-- `MsgFactory::Create`. -/
def create (now : UInt64) (id : UInt32) : Option Msg :=
  (MsgType.ofId id).map fun type => (FactoryMsg.new now type).toMsg

/-- Every class has its id in the switch. -/
theorem create_id (now : UInt64) (type : MsgType) :
    create now type.id = some (FactoryMsg.new now type).toMsg := by
  rw [create, MsgType.ofId_id, Option.map_some]

/-! ## Reading back -/

/-- Once it is there, the header does not change. -/
theorem headerOf_append {received : List Byte} (h : MSG_HEADER_SIZE ≤ received.length)
    (more : List Byte) : headerOf (received ++ more) = headerOf received := by
  rw [headerOf, headerOf, List.take_append_of_le_length h]

theorem headerOf_bytes (msg : FactoryMsg) (more : List Byte) :
    headerOf (msg.bytes ++ more) = msg.toMsg.header := by
  rw [headerOf, FactoryMsg.bytes, List.append_assoc,
    List.take_left' (MsgHeaderData.length_toBytes _), MsgHeaderData.ofBytes_toBytes]

namespace Msg

/-- A message without a body takes over the header. -/
theorem deserialize_of_no_body {msg : Msg} (hbody : msg.type.bodyLength = 0)
    {buffer : List Byte} (h : MSG_HEADER_SIZE ≤ buffer.length) :
    msg.deserialize buffer = .ok (MSG_HEADER_SIZE, { msg with header := headerOf buffer }) := by
  rw [deserialize, if_neg (Nat.not_lt_of_le h)]
  simp only [hbody, ne_eq, not_true_eq_false, and_false, if_false]

/-- With all its bytes at hand, a message of any class is read without a fault. -/
theorem deserialize_ok {msg : Msg} {buffer : List Byte} (h : msg.type.length ≤ buffer.length) :
    ∃ n msg', msg.deserialize buffer = .ok (n, msg') := by
  have hheader := Nat.le_trans msg.type.le_length h
  rw [deserialize, if_neg (Nat.not_lt_of_le hheader)]
  dsimp only
  split
  · rw [if_neg (Nat.not_lt_of_le h)]
    exact ⟨_, _, rfl⟩
  · exact ⟨_, _, rfl⟩

/-- A message of the factory is read back from its bytes, by an object of its
class and whatever follows them. -/
theorem deserialize_bytes {msg : Msg} (sent : FactoryMsg) (htype : msg.type = sent.type)
    (more : List Byte) :
    ∃ n, msg.deserialize (sent.bytes ++ more) = .ok (n, sent.toMsg) := by
  have hlen : sent.type.length ≤ (sent.bytes ++ more).length := by
    rw [List.length_append, FactoryMsg.length_bytes]
    exact Nat.le_add_right _ _
  have hheader := Nat.le_trans sent.type.le_length hlen
  have hne : sent.toMsg.header.length ≠ 0 := by
    intro heq
    have hzero := sent.toNat_length
    rw [heq] at hzero
    exact sent.type.length_ne_zero hzero.symm
  rw [deserialize, if_neg (Nat.not_lt_of_le hheader)]
  simp only [headerOf_bytes, htype]
  by_cases hnone : sent.type.bodyLength = 0
  · rw [if_neg fun h => h.2.2 hnone]
    refine ⟨MSG_HEADER_SIZE, ?_⟩
    have hnone' : msg.type.bodyLength = 0 := by rw [htype, hnone]
    rw [MsgBody.eq_of_no_body htype hnone']
    rfl
  · rw [if_pos ⟨hne, by rwa [FactoryMsg.toNat_length], hnone⟩, if_neg (Nat.not_lt_of_le hlen)]
    refine ⟨sent.toMsg.header.length.toNat, ?_⟩
    have hdrop : ((sent.bytes ++ more).drop MSG_HEADER_SIZE).take sent.type.bodyLength =
        sent.body.toBytes := by
      rw [FactoryMsg.bytes, List.append_assoc, List.drop_left' (MsgHeaderData.length_toBytes _),
        List.take_left' (by rw [MsgBody.length_toBytes, FactoryMsg.type])]
    rw [hdrop, FactoryMsg.type, MsgBody.ofBytes_toBytes]
    rfl

end Msg

end RoutePlanner.Messages
